import Mathlib.Data.List.Induction
import SolVendor.Path.Relative
import SolVendor.Proofs.Path.Point
/-!
# Path — the shortest way

One path seen from another (`relativeTo`) is a way from the one to the
other: taken from the base, it leads where the target leads. No way is
shorter (`relativeTo_shortest`). A component moves a point by one level at
most (`components_step`), so a way has at least as many components as the
points at its two ends do not share (`apart_components_walk_le`), and
`relativeTo` writes down no more than these.
-/

namespace SolVendor.Path

variable {cs ds : List Component} {c : Component} {p q target base : Path}

/-! ## What two lists share -/

theorem take_sharedLength (cs ds : List Component) :
    cs.take (sharedLength cs ds) = ds.take (sharedLength cs ds) := by
  induction cs generalizing ds with
  | nil => cases ds <;> rfl
  | cons c cs ih =>
    cases ds with
    | nil => rfl
    | cons d ds =>
      unfold sharedLength
      split
      · rename_i heq
        rw [List.take_succ_cons, List.take_succ_cons, ih, heq]
      · rfl

@[simp] theorem sharedLength_cons (c : Component) (cs ds : List Component) :
    sharedLength (c :: cs) (c :: ds) = sharedLength cs ds + 1 :=
  if_pos rfl

@[simp] theorem sharedLength_self (cs : List Component) : sharedLength cs cs = cs.length := by
  induction cs with
  | nil => rfl
  | cons c cs ih => rw [sharedLength_cons, ih, List.length_cons]

/-- With one component more, two lists share as much as before, or that component, too. -/
theorem sharedLength_concat (cs ds : List Component) (d : Component) :
    sharedLength cs ds ≤ sharedLength cs (ds ++ [d]) ∧
      sharedLength cs (ds ++ [d]) ≤ sharedLength cs ds + 1 := by
  induction cs generalizing ds with
  | nil => cases ds <;> exact ⟨Nat.le_refl 0, Nat.zero_le _⟩
  | cons c cs ih =>
    cases ds with
    | nil =>
      have hnil : sharedLength cs [] = 0 := by cases cs <;> rfl
      simp only [sharedLength, List.nil_append, hnil]
      split <;> omega
    | cons e ds =>
      have hds := ih ds
      simp only [sharedLength, List.cons_append]
      split <;> omega

/-- How many components two lists do not share. -/
def apart (cs ds : List Component) : Nat :=
  (cs.length - sharedLength cs ds) + (ds.length - sharedLength cs ds)

@[simp] theorem apart_self (cs : List Component) : apart cs cs = 0 := by
  simp [apart]

/-- One component more brings two lists nearer by one at most, or parts them by one at most. -/
theorem apart_concat (cs ds : List Component) (d : Component) :
    apart cs ds ≤ apart cs (ds ++ [d]) + 1 ∧ apart cs (ds ++ [d]) ≤ apart cs ds + 1 := by
  have hshared := sharedLength_concat cs ds d
  have hlength : (ds ++ [d]).length = ds.length + 1 := List.length_append
  unfold apart
  omega

/-! ## A way is as long as its ends are apart -/

/-- A move leaves the place reached so far, goes one level down from it, or one level up. -/
theorem move_cases (trail : List Component) (c : Component) :
    move trail c = trail ∨ (∃ d, move trail c = d :: trail) ∨ ∃ d, trail = d :: move trail c := by
  cases c with
  | here => exact .inl rfl
  | root => exact .inr (.inl ⟨.root, rfl⟩)
  | name n => exact .inr (.inl ⟨.name n, rfl⟩)
  | up =>
    rcases trail with _ | ⟨d, rest⟩
    · exact .inr (.inl ⟨.up, rfl⟩)
    · cases d with
      | root => exact .inl rfl
      | name n => exact .inr (.inr ⟨.name n, rfl⟩)
      | here | up => exact .inr (.inl ⟨.up, rfl⟩)

namespace Point

/-- **A component moves a point by one level at most**, unless it is the root. -/
theorem components_step (pt : Point) (hc : c ≠ .root) :
    (pt.step c).components = pt.components ∨
      (∃ d, (pt.step c).components = pt.components ++ [d]) ∨
        ∃ d, pt.components = (pt.step c).components ++ [d] := by
  have hmove := move_cases pt.components.reverse c
  rw [move_components_reverse hc] at hmove
  rcases hmove with h | ⟨d, h⟩ | ⟨d, h⟩
  · exact .inl (List.reverse_inj.1 h)
  · exact .inr (.inl ⟨d, List.reverse_inj.1 (by simpa using h)⟩)
  · exact .inr (.inr ⟨d, List.reverse_inj.1 (by simpa using h)⟩)

/-- One step brings a point nearer to where one wants to be by one at most. -/
theorem apart_components_step_le (pt : Point) (hc : c ≠ .root) (cs : List Component) :
    apart cs pt.components ≤ apart cs (pt.step c).components + 1 := by
  rcases components_step pt hc with h | ⟨d, h⟩ | ⟨d, h⟩
  · rw [h]
    exact Nat.le_succ _
  · rw [h]
    exact (apart_concat cs pt.components d).1
  · rw [h]
    exact (apart_concat cs (pt.step c).components d).2

/-- **A way has at least as many components as its ends do not share.** -/
theorem apart_components_walk_le (pt : Point) (hcs : .root ∉ cs) :
    apart (pt.walk cs).components pt.components ≤ cs.length := by
  induction cs generalizing pt with
  | nil => simp [walk]
  | cons c cs ih =>
    rw [List.mem_cons, not_or] at hcs
    have hcons : pt.walk (c :: cs) = (pt.step c).walk cs := rfl
    have hstep := apart_components_step_le pt (Ne.symm hcs.1) (pt.walk (c :: cs)).components
    rw [hcons] at hstep ⊢
    exact Nat.le_trans hstep (Nat.succ_le_succ (ih (pt.step c) hcs.2))

/-- Two dots take back the names one by one. -/
theorem walk_ups_absolute (above names : List OsString) :
    (absolute (above ++ names)).walk (List.replicate names.length .up) = absolute above := by
  induction names using List.reverseRecOn with
  | nil => simp [walk]
  | append_singleton names n ih =>
    have hstep : (absolute (above ++ (names ++ [n]))).step .up = absolute (above ++ names) := by
      rw [step, ← List.append_assoc, List.dropLast_concat]
    have hcons : ∀ k, (absolute (above ++ (names ++ [n]))).walk (List.replicate (k + 1) .up) =
        (absolute (above ++ names)).walk (List.replicate k .up) := by
      intro k
      rw [← hstep]
      rfl
    rw [List.length_append, List.length_singleton, hcons, ih]

end Point

/-! ## The way that is written down -/

theorem root_notMem_components (h : p.isAbsolute = false) : .root ∉ p.components := by
  rcases isRead_components p with hw | ⟨ws, hws, hw⟩
  · exact root_notMem_of_isWritten hw
  · have habs : p.isAbsolute = true := isAbsolute_iff_head?.1 (by rw [hws]; rfl)
    rw [habs] at h
    cases h

theorem exists_names_of_notMem (hroot : .root ∉ cs) (hhere : .here ∉ cs) (hup : .up ∉ cs) :
    ∃ names : List OsString, cs = names.map .name := by
  induction cs with
  | nil => exact ⟨[], rfl⟩
  | cons c cs ih =>
    rw [List.mem_cons, not_or] at hroot hhere hup
    obtain ⟨names, rfl⟩ := ih hroot.2 hhere.2 hup.2
    cases c with
    | root => exact absurd rfl hroot.1
    | here => exact absurd rfl hhere.1
    | up => exact absurd rfl hup.1
    | name n => exact ⟨n :: names, rfl⟩

/-- **Without two dots an absolute path is the way to its point.** -/
theorem exists_components_eq (h : p.isAbsolute = true) (hup : .up ∉ p.components) :
    ∃ names, p.components = (Point.absolute names).components ∧ p.point = .absolute names := by
  obtain ⟨cs, hcs, hwritten, hhere⟩ := exists_components_eq_root_cons h
  rw [hcs, List.mem_cons, not_or] at hup
  obtain ⟨names, rfl⟩ := exists_names_of_notMem (root_notMem_of_isWritten hwritten) hhere hup.2
  have hnames : p.components = (Point.absolute names).components := hcs
  refine ⟨names, hnames, ?_⟩
  unfold point
  rw [hnames, Point.walk_components]

/-- The components of the way: two dots for each component of the base that is not shared, and what
is not shared of the target. -/
def way (ts bs : List Component) : List Component :=
  List.replicate (bs.length - sharedLength ts bs) .up ++ ts.drop (sharedLength ts bs)

/-- What both begin with is no part of the way. -/
@[simp] theorem way_cons (c : Component) (ts bs : List Component) :
    way (c :: ts) (c :: bs) = way ts bs := by
  unfold way
  rw [sharedLength_cons, List.length_cons, Nat.add_sub_add_right, List.drop_succ_cons]

theorem length_way (ts bs : List Component) : (way ts bs).length = apart ts bs := by
  simp [way, apart, Nat.add_comm]

theorem way_eq_nil_iff {ts bs : List Component} : way ts bs = [] ↔ ts = bs := by
  constructor
  · intro h
    obtain ⟨hups, hrest⟩ := List.append_eq_nil_iff.1 h
    have hbs : bs.length ≤ sharedLength ts bs := by simpa [Nat.sub_eq_zero_iff_le] using hups
    have hts : ts.length ≤ sharedLength ts bs := List.drop_eq_nil_iff.1 hrest
    have htake := take_sharedLength ts bs
    rwa [List.take_of_length_le hts, List.take_of_length_le hbs] at htake
  · rintro rfl
    exact List.eq_nil_of_length_eq_zero (by rw [length_way, apart_self])

/-- **From the root, the way is what is written down**, and a dot if there is none. -/
theorem relativeTo_eq (ht : target.isAbsolute = true) (hb : base.isAbsolute = true) :
    target.relativeTo base =
      some (if way target.components base.components = [] then ⟨"."⟩
        else ofComponents (way target.components base.components)) := by
  obtain ⟨ts, hts, hwritten, hhere⟩ := exists_components_eq_root_cons ht
  obtain ⟨bs, hbs, -, -⟩ := exists_components_eq_root_cons hb
  have honward : (ts.drop (sharedLength ts bs)).filter isOnward = ts.drop (sharedLength ts bs) := by
    refine List.filter_eq_self.2 fun c hc => ?_
    have hc := List.mem_of_mem_drop hc
    cases c with
    | root => exact absurd hc (root_notMem_of_isWritten hwritten)
    | here => exact absurd hc hhere
    | up | name n => rfl
  have hway : ((Component.root :: bs).drop (sharedLength ts bs + 1)).map (fun _ => Component.up) ++
      ((Component.root :: ts).drop (sharedLength ts bs + 1)).filter isOnward = way ts bs := by
    unfold way
    rw [List.drop_succ_cons, List.drop_succ_cons, List.map_const', List.length_drop, honward]
  unfold relativeTo
  rw [hts, hbs, if_neg (by simp), way_cons]
  dsimp only
  rw [sharedLength_cons, hway]
  split
  · rename_i h
    rw [if_pos h]
  · rename_i h
    rw [if_neg h]

/-- **The way leads to the target.** -/
theorem walk_way (ts : List Component) (names : List OsString) :
    (Point.absolute names).walk (way ts (names.map .name)) = (Point.absolute []).walk ts := by
  let k := sharedLength ts (names.map .name)
  have hway : way ts (names.map .name) = List.replicate (names.drop k).length .up ++ ts.drop k := by
    unfold way
    rw [List.length_drop, List.length_map]
  have hback : (Point.absolute names).walk (List.replicate (names.drop k).length .up) =
      .absolute (names.take k) := by
    have hwalk := Point.walk_ups_absolute (names.take k) (names.drop k)
    rwa [List.take_append_drop] at hwalk
  have htake : Point.absolute (names.take k) = (Point.absolute []).walk (ts.take k) := by
    rw [take_sharedLength ts (names.map .name), ← List.map_take, Point.walk_names]
    rfl
  calc (Point.absolute names).walk (way ts (names.map .name))
      = (Point.absolute (names.take k)).walk (ts.drop k) := by rw [hway, Point.walk_append, hback]
    _ = (Point.absolute []).walk (ts.take k ++ ts.drop k) := by rw [htake, Point.walk_append]
    _ = (Point.absolute []).walk ts := by rw [List.take_append_drop]

/-- On the way are two dots, and components of the target. -/
theorem eq_up_or_mem_of_mem_way {ts bs : List Component} (hc : c ∈ way ts bs) : c = .up ∨ c ∈ ts := by
  unfold way at hc
  rw [List.mem_append] at hc
  exact hc.imp List.eq_of_mem_replicate List.mem_of_mem_drop

/-! ## No way is shorter -/

/-- The relative path, taken from the base, leads where the target leads. -/
def IsWay (base target r : Path) : Prop :=
  r.isAbsolute = false ∧ (base.join r).normalize = target.normalize

/-- Ways are told by points. -/
theorem isWay_iff {r : Path} :
    IsWay base target r ↔ r.isAbsolute = false ∧ base.point.walk r.components = target.point := by
  constructor
  · rintro ⟨hr, hnormal⟩
    refine ⟨hr, ?_⟩
    rw [← point_join hr, ← point_normalize, hnormal, point_normalize]
  · rintro ⟨hr, hpoint⟩
    refine ⟨hr, ?_⟩
    rw [normalize_eq_toPath, normalize_eq_toPath target, point_join hr, hpoint]

theorem relativeTo_eq_none (h : target.isAbsolute ≠ base.isAbsolute) :
    target.relativeTo base = none := by
  unfold relativeTo
  refine if_pos fun hhead => h ?_
  rw [Bool.eq_iff_iff, ← isAbsolute_iff_head?, ← isAbsolute_iff_head?, hhead]

/-- **The path written down is a way to the target.** -/
theorem exists_relativeTo_eq_some (ht : target.isAbsolute = true) (hb : base.isAbsolute = true)
    (hup : .up ∉ base.components) :
    ∃ r, target.relativeTo base = some r ∧ IsWay base target r ∧
      (r = ⟨"."⟩ ↔ target.components = base.components) ∧
      (target.components ≠ base.components →
        r.components.length = apart target.components base.components) := by
  obtain ⟨ts, hts, hwritten, hhere⟩ := exists_components_eq_root_cons ht
  obtain ⟨names, hbs, hbase⟩ := exists_components_eq hb hup
  have hway : way target.components base.components = way ts (names.map .name) := by
    rw [hts, hbs]
    exact way_cons .root ts _
  have hleads : base.point.walk (way target.components base.components) = target.point := by
    rw [hbase, hway, walk_way, point, hts]
    rfl
  have hwritten : ∀ c ∈ way target.components base.components, c.IsWritten := by
    intro c hc
    rcases eq_up_or_mem_of_mem_way (hway ▸ hc) with rfl | hc
    · exact Component.isWritten_up
    · exact hwritten c hc
  have hhere : .here ∉ way target.components base.components := by
    intro hc
    rcases eq_up_or_mem_of_mem_way (hway ▸ hc) with hup | hc
    · cases hup
    · exact hhere hc
  refine ⟨_, relativeTo_eq ht hb, ?_⟩
  by_cases hnil : way target.components base.components = []
  · -- Nothing is left of either path: one goes nowhere.
    rw [if_pos hnil, isWay_iff]
    rw [hnil] at hleads
    have heq := way_eq_nil_iff.1 hnil
    exact ⟨⟨by decide, hleads⟩, iff_of_true rfl heq, fun hne => absurd heq hne⟩
  · have hne : target.components ≠ base.components := fun heq => hnil (way_eq_nil_iff.2 heq)
    have hcomponents := components_ofComponents (.inl hwritten) hnil hhere
    rw [if_neg hnil, isWay_iff, hcomponents]
    refine ⟨⟨isAbsolute_ofComponents hwritten, hleads⟩, iff_of_false (fun hdot => ?_) hne,
      fun _ => length_way _ _⟩
    rw [hdot, components_here] at hcomponents
    exact hhere (hcomponents ▸ List.mem_singleton_self _)

/-- **One path seen from another is the shortest way there.** Of an absolute path and a relative one,
neither is seen from the other. Seen from an absolute path without two dots, an absolute path is
relative and leads to the same place; it is a dot just if the two paths consist of the same
components. If the path that is seen has no two dots, and has not these same components, every way to
it has at least as many components. -/
theorem relativeTo_shortest (target base : Path) :
    (target.isAbsolute ≠ base.isAbsolute → target.relativeTo base = none) ∧
    (target.isAbsolute = true → base.isAbsolute = true → .up ∉ base.components →
      ∃ r, target.relativeTo base = some r ∧ IsWay base target r ∧
        (r = ⟨"."⟩ ↔ target.components = base.components) ∧
        (.up ∉ target.components → target.components ≠ base.components →
          ∀ q, IsWay base target q → r.components.length ≤ q.components.length)) := by
  refine ⟨relativeTo_eq_none, fun ht hb hup => ?_⟩
  obtain ⟨r, hr, hway, hdot, hlength⟩ := exists_relativeTo_eq_some ht hb hup
  refine ⟨r, hr, hway, hdot, fun hup' hne q hq => ?_⟩
  obtain ⟨_, hts, htarget⟩ := exists_components_eq ht hup'
  obtain ⟨_, hbs, hbase⟩ := exists_components_eq hb hup
  obtain ⟨hrel, hleads⟩ := isWay_iff.1 hq
  have hapart := base.point.apart_components_walk_le (root_notMem_components hrel)
  rwa [hleads, htarget, hbase, ← hts, ← hbs, ← hlength hne] at hapart

/-- Between two directories of a project, up twice and down twice; no way there is shorter. -/
theorem relativeTo_shortest_between_directories :
    (⟨"/project/src/lib"⟩ : Path).relativeTo ⟨"/project/test/unit"⟩ = some ⟨"../../src/lib"⟩ ∧
    (∀ q, IsWay ⟨"/project/test/unit"⟩ ⟨"/project/src/lib"⟩ q → 4 ≤ q.components.length) ∧
    (⟨"src/lib"⟩ : Path).relativeTo ⟨"/project"⟩ = none := by
  have hway : (⟨"/project/src/lib"⟩ : Path).relativeTo ⟨"/project/test/unit"⟩ =
      some ⟨"../../src/lib"⟩ := by decide
  obtain ⟨r, hr, -, -, hleast⟩ := (relativeTo_shortest ⟨"/project/src/lib"⟩
    ⟨"/project/test/unit"⟩).2 (by decide) (by decide) (by decide)
  obtain rfl := Option.some.inj (hway.symm.trans hr)
  exact ⟨hway, hleast (by decide) (by decide),
    (relativeTo_shortest ⟨"src/lib"⟩ ⟨"/project"⟩).1 (by decide)⟩

end SolVendor.Path
