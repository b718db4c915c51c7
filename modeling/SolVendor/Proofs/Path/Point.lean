import SolVendor.Proofs.Path.NormalForm
/-!
# Path — points

A point is what a path leads to if no name on the way is a link, told
without the path: so many levels above the start, or the root, and the
names that lead down from there. Components are walked from a point one by
one (`Point.step`), and a point is written down as a path
(`Point.toPath`).

Normal forms are points: folding the components of a path is walking them
from the start (`fold_eq_components_walk`), so the normal form is the point
that the path leads to, written down (`normalize_eq_toPath`).
-/

namespace SolVendor.Path

/-- What a path leads to if no name on the way is a link. -/
inductive Point where
  /-- Down from the root. -/
  | absolute (names : List OsString)
  /-- Up so many levels from the start, and down from there. -/
  | relative (ups : Nat) (names : List OsString)
deriving DecidableEq, Repr

namespace Point

variable {pt : Point} {c : Component} {cs ds : List Component}

/-- Where a path starts. -/
def start : Point := .relative 0 []

/-- Down from a point through some names. -/
def down : Point → List OsString → Point
  | .absolute above, names => .absolute (above ++ names)
  | .relative ups above, names => .relative ups (above ++ names)

/-- One component further. A dot stays. Two dots go up one level: they take back a name, stay at the
root, and are counted above the start. -/
def step : Point → Component → Point
  | pt, .here => pt
  | _, .root => .absolute []
  | .absolute names, .up => .absolute names.dropLast
  | .relative ups [], .up => .relative (ups + 1) []
  | .relative ups names, .up => .relative ups names.dropLast
  | pt, .name n => pt.down [n]

/-- Where some components lead from a point, one by one. -/
def walk (pt : Point) (cs : List Component) : Point := cs.foldl step pt

/-- The point as the way to it from the start. -/
def components : Point → List Component
  | .absolute names => .root :: names.map .name
  | .relative ups names => List.replicate ups .up ++ names.map .name

/-- The point as a path; the start is a dot. -/
def toPath (pt : Point) : Path :=
  if pt.components = [] then ⟨"."⟩ else ofComponents pt.components

/-- The point is found without knowing where the start is. -/
def isAbsolute : Point → Bool
  | .absolute _ => true
  | .relative _ _ => false

theorem walk_append (pt : Point) (cs ds : List Component) :
    pt.walk (cs ++ ds) = (pt.walk cs).walk ds :=
  List.foldl_append

/-- Only the root makes a point absolute. -/
theorem isAbsolute_step (hc : c ≠ .root) : (pt.step c).isAbsolute = pt.isAbsolute := by
  cases c with
  | root => exact absurd rfl hc
  | here => cases pt <;> rfl
  | name n => cases pt <;> rfl
  | up =>
    cases pt with
    | absolute names => rfl
    | relative ups names => cases names <;> rfl

theorem isAbsolute_walk (hcs : .root ∉ cs) : (pt.walk cs).isAbsolute = pt.isAbsolute := by
  induction cs generalizing pt with
  | nil => rfl
  | cons c cs ih =>
    rw [List.mem_cons, not_or] at hcs
    exact (ih hcs.2).trans (isAbsolute_step (Ne.symm hcs.1))

/-! ## Folding is walking -/

/-- **A move of a fold is a step**, if it is not to the root. -/
theorem move_components_reverse (hc : c ≠ .root) :
    move pt.components.reverse c = (pt.step c).components.reverse := by
  cases c with
  | root => exact absurd rfl hc
  | here => rfl
  | name n => cases pt <;> simp [move, step, down, components]
  | up =>
    cases pt with
    | absolute names =>
      -- At the root there is nothing to take back.
      rcases List.eq_nil_or_concat names with rfl | ⟨above, n, rfl⟩
      · rfl
      · simp [move, step, components]
    | relative ups names =>
      rcases List.eq_nil_or_concat names with rfl | ⟨above, n, rfl⟩
      · have hups : ∀ k, (relative k []).components.reverse = List.replicate k .up := by
          simp [components]
        rw [step, hups, hups]
        cases ups <;> rfl
      · have hstep : (relative ups (above.concat n)).step .up = relative ups above := by
          rw [step, List.concat_eq_append, List.dropLast_concat]
          simp
        rw [hstep]
        simp [move, components]

theorem foldl_move_components_reverse (pt : Point) (hcs : .root ∉ cs) :
    cs.foldl move pt.components.reverse = (pt.walk cs).components.reverse := by
  induction cs generalizing pt with
  | nil => rfl
  | cons c cs ih =>
    rw [List.mem_cons, not_or] at hcs
    rw [List.foldl_cons, move_components_reverse (Ne.symm hcs.1), ih _ hcs.2]
    rfl

/-! ## The way to a point -/

theorem components_down (pt : Point) (names : List OsString) :
    (pt.down names).components = pt.components ++ names.map .name := by
  cases pt <;> simp [down, components]

theorem walk_names (pt : Point) (names : List OsString) :
    pt.walk (names.map .name) = pt.down names := by
  induction names generalizing pt with
  | nil => cases pt <;> simp [walk, down]
  | cons n names ih =>
    have hcons : pt.walk ((n :: names).map .name) = (pt.down [n]).walk (names.map .name) := rfl
    rw [hcons, ih]
    cases pt <;> simp [down]

theorem walk_ups (ups k : Nat) :
    (relative k []).walk (List.replicate ups .up) = relative (k + ups) [] := by
  induction ups generalizing k with
  | zero => rfl
  | succ ups ih =>
    have hcons : (relative k []).walk (List.replicate (ups + 1) .up) =
        (relative (k + 1) []).walk (List.replicate ups .up) := rfl
    rw [hcons, ih, Nat.add_right_comm, Nat.add_assoc]

/-- **The way to a point leads to it.** -/
@[simp] theorem walk_components (pt : Point) : start.walk pt.components = pt := by
  cases pt with
  | absolute names => exact walk_names (.absolute []) names
  | relative ups names =>
    have hups : start.walk (List.replicate ups .up) = .relative (0 + ups) [] := walk_ups ups 0
    rw [components, walk_append, hups, walk_names, Nat.zero_add]
    rfl

theorem eq_start_of_components (h : pt.components = []) : pt = start := by
  rw [← walk_components pt, h]
  rfl

end Point

variable {cs : List Component}

/-- The root is not among written components. -/
theorem root_notMem_of_isWritten (h : ∀ c ∈ cs, c.IsWritten) : .root ∉ cs :=
  fun hroot => Component.not_isWritten_root (h _ hroot)

/-- **Folding what is read off a path is walking it from the start.** -/
theorem fold_eq_components_walk (h : IsRead cs) : fold cs = (Point.start.walk cs).components := by
  have hfold : cs.foldl move [] = (Point.start.walk cs).components.reverse := by
    rcases h with h | ⟨ws, rfl, h⟩
    · exact Point.start.foldl_move_components_reverse (root_notMem_of_isWritten h)
    · -- The first step goes to the root, wherever the start is.
      exact (Point.absolute []).foldl_move_components_reverse (root_notMem_of_isWritten h)
  unfold fold
  rw [hfold, List.reverse_reverse]

/-! ## The point of a path -/

variable {p q : Path}

/-- The point that a path leads to. -/
def point (p : Path) : Point := Point.start.walk p.components

/-- The pieces of a path lead there, too. -/
theorem point_eq_walk_pieces (p : Path) : p.point = Point.start.walk p.pieces :=
  foldl_components (fun _ => rfl) p _

/-- **The normal form is the point that the path leads to**, written down. -/
theorem normalize_eq_toPath (p : Path) : p.normalize = p.point.toPath := by
  rw [normalize_eq, fold_eq_components_walk (isRead_components p)]
  rfl

/-- **A path and its normal form lead to one point.** -/
@[simp] theorem point_normalize (p : Path) : p.normalize.point = p.point := by
  have hcomponents := components_normalize p
  rw [fold_eq_components_walk (isRead_components p)] at hcomponents
  unfold point
  rw [hcomponents]
  split
  · rename_i hnil
    exact (Point.eq_start_of_components hnil).symm
  · exact Point.walk_components _

/-- A path is absolute if it leads to an absolute point. -/
theorem isAbsolute_point (p : Path) : p.point.isAbsolute = p.isAbsolute := by
  have hroot : .root ∉ piecesOf p.os.bytes :=
    root_notMem_of_isWritten fun c hc => isWritten_of_mem_piecesOf hc
  rw [point_eq_walk_pieces, pieces_eq, Point.walk_append, Point.isAbsolute_walk hroot]
  cases p.isAbsolute <;> rfl

/-- An absolute path is one whose first component is the root. -/
theorem isAbsolute_iff_head? : p.components.head? = some .root ↔ p.isAbsolute = true := by
  constructor
  · intro h
    obtain ⟨cs, hcs⟩ := List.head?_eq_some_iff.1 h
    rw [← isAbsolute_point]
    rcases isRead_components p with hw | ⟨ws, hws, hw⟩
    · exact absurd (hcs ▸ List.mem_cons_self) (root_notMem_of_isWritten hw)
    · have hpoint : p.point = (Point.absolute []).walk ws := by
        unfold point
        rw [hws]
        rfl
      rw [hpoint, Point.isAbsolute_walk (root_notMem_of_isWritten hw)]
      rfl
  · intro h
    rw [components_eq_root_cons h]
    rfl

theorem isAbsolute_normalize (p : Path) : p.normalize.isAbsolute = p.isAbsolute := by
  rw [← isAbsolute_point, point_normalize, isAbsolute_point]

/-- A relative path is walked from where the other one leads. -/
theorem point_join (hq : q.isAbsolute = false) : (p.join q).point = p.point.walk q.components := by
  have hwalk : p.point.walk q.components = p.point.walk q.pieces :=
    foldl_components (fun _ => rfl) q _
  rw [hwalk, point_eq_walk_pieces, point_eq_walk_pieces, pieces_join hq, Point.walk_append]

end SolVendor.Path
