import Mathlib.Data.Set.Finite.Basic
import SolVendor.Proofs.Path.Point
/-!
# Path — normal forms are canonical

A normal form is a dot, the root with names below it, or some times two
dots with names below them (`IsNormalForm`), and these paths are the only
ones that are their own normal forms (`isNormalForm_iff`).

Two paths with one normal form lead to one directory from wherever they
are walked (`Point.absolute_locate_walk`). If they lead to one directory
from every directory that is deep enough, they have one normal form
(`Point.eq_of_locate`): in a deep directory all of whose names are new to
both paths the two can be told apart. So to compare normal forms is to
compare places (`normalize_canonical`).
-/

namespace SolVendor.Path

/-- The paths in normal form: a dot, the root and the names below it, and two dots some times and the
names below them, with one slash between two of them. -/
inductive IsNormalForm : Path → Prop where
  | here : IsNormalForm ⟨"."⟩
  | absolute (names : List OsString) (h : ∀ n ∈ names, IsFileName n) :
      IsNormalForm ⟨⟨slash :: [slash].intercalate (names.map OsString.bytes)⟩⟩
  | relative (ups : Nat) (names : List OsString) (h : ∀ n ∈ names, IsFileName n)
      (hne : 0 < ups ∨ names ≠ []) :
      IsNormalForm
        ⟨⟨[slash].intercalate ((List.replicate ups (".." : OsString) ++ names).map OsString.bytes)⟩⟩

namespace Point

variable {pt pt' : Point} {dir : List OsString}

/-! ## The paths of points -/

/-- The names that lead down to the point can be names of files. -/
def HasFileNames (pt : Point) : Prop :=
  ∀ n, .name n ∈ pt.components → IsFileName n

theorem hasFileNames_absolute {names : List OsString} :
    (absolute names).HasFileNames ↔ ∀ n ∈ names, IsFileName n := by
  simp [HasFileNames, components]

theorem hasFileNames_relative {ups : Nat} {names : List OsString} :
    (relative ups names).HasFileNames ↔ ∀ n ∈ names, IsFileName n := by
  simp [HasFileNames, components, List.mem_replicate]

theorem map_bytes_eq (names : List OsString) :
    names.map OsString.bytes = (names.map Component.name).map Component.bytes := by
  rw [List.map_map]
  rfl

theorem toPath_absolute (names : List OsString) :
    (absolute names).toPath = ⟨⟨slash :: [slash].intercalate (names.map OsString.bytes)⟩⟩ := by
  have hbytes : (ofComponents (.root :: names.map .name)).os.bytes =
      slash :: [slash].intercalate (names.map OsString.bytes) := by
    cases names with
    | nil => rfl
    | cons n names =>
      rw [bytes_ofComponents (by simp), map_bytes_eq]
      rfl
  unfold toPath
  rw [if_neg (by simp [components]), ← hbytes]
  rfl

theorem toPath_relative {ups : Nat} {names : List OsString} (hne : 0 < ups ∨ names ≠ []) :
    (relative ups names).toPath =
      ⟨⟨[slash].intercalate ((List.replicate ups (".." : OsString) ++ names).map OsString.bytes)⟩⟩ := by
  have hcomponents : (relative ups names).components ≠ [] := by
    rcases hne with hne | hne
    · simp [components, Nat.ne_of_gt hne]
    · simp [components, hne]
  have hroot : (relative ups names).components ≠ [.root] := by
    intro h
    have hmem : Component.root ∈ (relative ups names).components := h ▸ List.mem_singleton_self _
    simp [components, List.mem_replicate] at hmem
  have hmap : (List.replicate ups (".." : OsString) ++ names).map OsString.bytes =
      (relative ups names).components.map Component.bytes := by
    rw [components, List.map_append, List.map_append, map_bytes_eq names, List.map_replicate,
      List.map_replicate]
    rfl
  unfold toPath
  rw [if_neg hcomponents, hmap, ← bytes_ofComponents hroot]

/-- **The paths in normal form are those of points.** -/
theorem isNormalForm_iff_exists_toPath {p : Path} :
    p.IsNormalForm ↔ ∃ pt : Point, pt.HasFileNames ∧ pt.toPath = p := by
  constructor
  · rintro (_ | ⟨names, h⟩ | ⟨ups, names, h, hne⟩)
    · exact ⟨start, hasFileNames_relative.2 (by simp), rfl⟩
    · exact ⟨absolute names, hasFileNames_absolute.2 h, toPath_absolute names⟩
    · exact ⟨relative ups names, hasFileNames_relative.2 h, toPath_relative hne⟩
  · rintro ⟨pt, h, rfl⟩
    cases pt with
    | absolute names =>
      rw [toPath_absolute]
      exact .absolute names (hasFileNames_absolute.1 h)
    | relative ups names =>
      by_cases hne : 0 < ups ∨ names ≠ []
      · rw [toPath_relative hne]
        exact .relative ups names (hasFileNames_relative.1 h) hne
      · obtain ⟨rfl, rfl⟩ : ups = 0 ∧ names = [] := by simpa using hne
        exact .here

theorem isRead_components (h : pt.HasFileNames) : IsRead pt.components := by
  cases pt with
  | absolute names =>
    exact .inr ⟨_, rfl, isWritten_of_mem_map_name (hasFileNames_absolute.1 h)⟩
  | relative ups names =>
    refine .inl fun c hc => ?_
    rcases List.mem_append.1 hc with hc | hc
    · exact List.eq_of_mem_replicate hc ▸ Component.isWritten_up
    · exact isWritten_of_mem_map_name (hasFileNames_relative.1 h) c hc

theorem here_notMem_components (pt : Point) : .here ∉ pt.components := by
  cases pt <;> simp [components, List.mem_replicate]

/-- **What has been written down leads to the point.** -/
theorem point_toPath (h : pt.HasFileNames) : pt.toPath.point = pt := by
  unfold toPath
  split
  · rename_i hnil
    exact (eq_start_of_components hnil).symm
  · rename_i hne
    unfold point
    rw [components_ofComponents (isRead_components h) hne (here_notMem_components pt),
      walk_components]

theorem exists_eq_absolute (h : pt.isAbsolute = true) : ∃ names, pt = absolute names := by
  cases pt with
  | absolute names => exact ⟨names, rfl⟩
  | relative ups names => cases h

/-! ## Points from a directory -/

/-- The names down to the point, when the start is the directory with the given ones. Above the root
there is only the root. -/
def locate (dir : List OsString) : Point → List OsString
  | .absolute names => names
  | .relative ups names => dir.take (dir.length - ups) ++ names

theorem locate_start (dir : List OsString) : start.locate dir = dir := by
  simp [start, locate]

theorem absolute_locate_step (dir : List OsString) (pt : Point) (c : Component) :
    (absolute (pt.locate dir)).step c = absolute ((pt.step c).locate dir) := by
  cases c with
  | here => cases pt <;> rfl
  | root => cases pt <;> rfl
  | name n => cases pt <;> simp [step, down, locate]
  | up =>
    cases pt with
    | absolute names => rfl
    | relative ups names =>
      rcases List.eq_nil_or_concat names with rfl | ⟨above, n, rfl⟩
      · simp only [step, locate, List.append_nil, absolute.injEq]
        rw [List.dropLast_eq_take, List.take_take, List.length_take]
        congr 1
        omega
      · simp [step, locate]

/-- **From a directory a path leads where its point is from there.** -/
theorem absolute_locate_walk (dir : List OsString) (pt : Point) (cs : List Component) :
    (absolute (pt.locate dir)).walk cs = absolute ((pt.walk cs).locate dir) := by
  induction cs generalizing pt with
  | nil => rfl
  | cons c cs ih =>
    have hstep := absolute_locate_step dir pt c
    calc (absolute (pt.locate dir)).walk (c :: cs)
        = ((absolute (pt.locate dir)).step c).walk cs := rfl
      _ = (absolute ((pt.step c).locate dir)).walk cs := by rw [hstep]
      _ = absolute ((pt.walk (c :: cs)).locate dir) := ih _

/-- There is always one more name for a file. -/
theorem exists_isFileName_notMem (names : List OsString) : ∃ n, IsFileName n ∧ n ∉ names := by
  have hinj : Function.Injective fun k => OsString.mk (List.replicate (k + 1) 0) := by
    intro j k h
    have hlength := congrArg List.length (OsString.mk.inj h)
    simpa using hlength
  have hname : ∀ k, IsFileName (.mk (List.replicate (k + 1) 0)) := by
    intro k
    have hslash : slash ≠ 0 := by decide
    have hdot : 0 ≠ dot := by decide
    simp [isFileName_iff, List.mem_replicate, List.replicate_succ, hslash, hdot]
  have hinf : {n | IsFileName n}.Infinite := Set.infinite_of_injective_forall_mem hinj hname
  obtain ⟨n, hn, hnew⟩ := hinf.exists_notMem_finset names.toFinset
  exact ⟨n, hn, by simpa using hnew⟩

/-- **Points that are the same from all deep directories are the same.** -/
theorem eq_of_locate {depth : Nat} (h : ∀ dir : List OsString, (∀ n ∈ dir, IsFileName n) →
    depth ≤ dir.length → pt.locate dir = pt'.locate dir) : pt = pt' := by
  -- It is enough to look at directories that have one name only, a new one.
  have hdeep : ∀ n, IsFileName n → ∀ k, depth ≤ k →
      pt.locate (List.replicate k n) = pt'.locate (List.replicate k n) := fun n hn k hk =>
    h _ (fun m hm => List.eq_of_mem_replicate hm ▸ hn) (by simpa using hk)
  obtain ⟨x, hx, -⟩ := exists_isFileName_notMem []
  cases pt with
  | absolute names =>
    cases pt' with
    | absolute names' => exact congrArg absolute (hdeep x hx depth le_rfl)
    | relative ups names' =>
      have hlength := congrArg List.length (hdeep x hx (depth + ups + names.length + 1) (by omega))
      simp only [locate, List.length_append, List.length_take, List.length_replicate] at hlength
      omega
  | relative ups names =>
    cases pt' with
    | absolute names' =>
      have hlength := congrArg List.length (hdeep x hx (depth + ups + names'.length + 1) (by omega))
      simp only [locate, List.length_append, List.length_take, List.length_replicate] at hlength
      omega
    | relative ups' names' =>
      obtain ⟨n, hn, hnew⟩ := exists_isFileName_notMem (names ++ names')
      rw [List.mem_append, not_or] at hnew
      have heq := hdeep n hn (depth + ups + ups') (by omega)
      simp only [locate, List.length_replicate, List.take_replicate] at heq
      -- As often as the new name is left, so many levels are left.
      have hcount := congrArg (List.count n) heq
      rw [List.count_append, List.count_append, List.count_eq_zero.2 hnew.1,
        List.count_eq_zero.2 hnew.2, List.count_replicate_self, List.count_replicate_self] at hcount
      obtain rfl : ups = ups' := by omega
      rw [List.append_cancel_left heq]

end Point

/-! ## Normal forms -/

variable {p q : Path}

theorem hasFileNames_point (p : Path) : p.point.HasFileNames := by
  have hbytes := isRead_fold (isRead_components p)
  rw [fold_eq_components_walk (isRead_components p)] at hbytes
  intro n hn
  rcases hbytes with hw | ⟨ws, hws, hw⟩
  · exact Component.isWritten_name.1 (hw _ hn)
  · change .name n ∈ (Point.start.walk p.components).components at hn
    rw [hws, List.mem_cons] at hn
    exact Component.isWritten_name.1 (hw _ (hn.resolve_left (by simp)))

/-- **A normal form is written in one of these ways.** -/
theorem isNormalForm_normalize (p : Path) : p.normalize.IsNormalForm := by
  rw [normalize_eq_toPath]
  exact Point.isNormalForm_iff_exists_toPath.2 ⟨p.point, hasFileNames_point p, rfl⟩

/-- **Paths that are written so are the ones that are their own normal forms.** -/
theorem isNormalForm_iff : p.IsNormalForm ↔ p.normalize = p := by
  constructor
  · intro h
    obtain ⟨pt, hnames, rfl⟩ := Point.isNormalForm_iff_exists_toPath.1 h
    rw [normalize_eq_toPath, Point.point_toPath hnames]
  · intro h
    rw [← h]
    exact isNormalForm_normalize p

/-- Between two components that are written there is one slash. -/
theorem not_infix_intercalate {cs : List Component} (h : ∀ c ∈ cs, c.IsWritten) :
    ¬ [slash, slash] <:+: [slash].intercalate (cs.map Component.bytes) := by
  rintro ⟨before, after, hbytes⟩
  -- An empty piece would stand between the two slashes.
  have hmem : [] ∈ ([slash].intercalate (cs.map Component.bytes)).splitOn slash := by
    rw [← hbytes, List.append_assoc, List.cons_append, List.cons_append, List.nil_append,
      List.splitOn_append_cons_self, ← List.nil_append (slash :: after), List.splitOn_append_cons_self]
    simp
  cases cs with
  | nil =>
    have hlength := congrArg List.length hbytes
    simp at hlength
  | cons c cs =>
    rw [List.splitOn_intercalate slash (by
      intro piece hpiece
      obtain ⟨d, hd, rfl⟩ := List.mem_map.1 hpiece
      exact (h d hd).2.1) (by simp)] at hmem
    obtain ⟨d, hd, hnil⟩ := List.mem_map.1 hmem
    exact (h d hd).1 hnil

/-- **A normal form has no two slashes together, and none at its end** unless it is the root. -/
theorem slashes_normalize (p : Path) : ¬ [slash, slash] <:+: p.normalize.os.bytes ∧
    (p.normalize.endsInSlash = true → p.normalize = ⟨"/"⟩) := by
  rw [normalize_eq]
  split
  · decide
  · rename_i hne
    rcases isRead_fold (isRead_components p) with hw | ⟨ws, hws, hw⟩
    · have hroot : fold p.components ≠ [.root] := by
        intro h
        exact root_notMem_of_isWritten hw (h ▸ List.mem_singleton_self _)
      rw [bytes_ofComponents hroot, endsInSlash_ofComponents hw]
      exact ⟨not_infix_intercalate hw, fun h => absurd h Bool.false_ne_true⟩
    · rw [hws]
      cases ws with
      | nil => decide
      | cons c ws =>
        have hbytes : (ofComponents (.root :: c :: ws)).os.bytes =
            slash :: [slash].intercalate ((c :: ws).map Component.bytes) :=
          bytes_ofComponents (by simp)
        have hbody : [slash].intercalate ((c :: ws).map Component.bytes) ≠ [] := by
          obtain ⟨x, xs, hx⟩ := List.exists_cons_of_ne_nil (hw c List.mem_cons_self).1
          simp [hx]
        unfold endsInSlash
        rw [hbytes, List.infix_cons_iff, List.cons_prefix_cons, List.getLast?_cons_of_ne_nil hbody]
        refine ⟨?_, fun h => absurd (of_decide_eq_true h) (getLast?_intercalate_ne hw)⟩
        rintro (⟨-, rest, hrest⟩ | h)
        · exact head?_intercalate_ne hw (by rw [← hrest]; rfl)
        · exact not_infix_intercalate hw h

/-- Paths with one normal form lead to one point. -/
theorem normalize_eq_normalize_iff : p.normalize = q.normalize ↔ p.point = q.point := by
  constructor
  · intro h
    rw [← point_normalize p, h, point_normalize]
  · intro h
    rw [normalize_eq_toPath, normalize_eq_toPath, h]

/-- **The first part of a path may be taken in normal form.** -/
theorem normalize_join_normalize (hq : q.isAbsolute = false) :
    (p.normalize.join q).normalize = (p.join q).normalize := by
  rw [normalize_eq_normalize_iff, point_join hq, point_join hq, point_normalize]

/-- Where a path leads from a directory. -/
theorem absolute_walk_components (dir : List OsString) (p : Path) :
    (Point.absolute dir).walk p.components = .absolute (p.point.locate dir) := by
  have h := Point.absolute_locate_walk dir .start p.components
  rwa [Point.locate_start] at h

/-- **A normal form is the canonical path of a place.** It is a dot, the root with names below it, or some times two
dots with names below them, without two slashes together and without one at its end unless it is the root; just
these paths are left as they are. A path that is continued may be taken in normal form. Two paths have one normal
form just if they lead to the same directory from all directories that are deep enough; absolute ones, just if they
do so from the root. From one normal form they do so from every directory. -/
theorem normalize_canonical (p q : Path) :
    p.normalize.IsNormalForm ∧ p.normalize.normalize = p.normalize ∧
      (p.IsNormalForm ↔ p.normalize = p) ∧
      (¬ [slash, slash] <:+: p.normalize.os.bytes ∧
        (p.normalize.endsInSlash = true → p.normalize = ⟨"/"⟩)) ∧
      (q.isAbsolute = false → (p.join q).normalize = (p.normalize.join q).normalize) ∧
      (p.normalize = q.normalize ↔ ∃ depth, ∀ dir : List OsString, (∀ n ∈ dir, IsFileName n) →
        depth ≤ dir.length →
          (Point.absolute dir).walk p.components = (Point.absolute dir).walk q.components) ∧
      (p.normalize = q.normalize → ∀ dir : List OsString,
        (Point.absolute dir).walk p.components = (Point.absolute dir).walk q.components) ∧
      (p.isAbsolute = true → q.isAbsolute = true → (p.normalize = q.normalize ↔
        (Point.absolute []).walk p.components = (Point.absolute []).walk q.components)) := by
  simp only [absolute_walk_components, Point.absolute.injEq, normalize_eq_normalize_iff (p := p) (q := q)]
  refine ⟨isNormalForm_normalize p, normalize_normalize p, isNormalForm_iff, slashes_normalize p,
    fun hq => (normalize_join_normalize hq).symm, ⟨fun h => ⟨0, fun dir _ _ => by rw [h]⟩, ?_⟩,
    fun h dir => by rw [h], fun hp hq => ⟨fun h => by rw [h], ?_⟩⟩
  · rintro ⟨depth, h⟩
    exact Point.eq_of_locate h
  · intro h
    obtain ⟨names, hnames⟩ := Point.exists_eq_absolute ((isAbsolute_point p).trans hp)
    obtain ⟨names', hnames'⟩ := Point.exists_eq_absolute ((isAbsolute_point q).trans hq)
    rw [hnames, hnames'] at h ⊢
    exact congrArg Point.absolute h

/-- A path with dots, up above its start and down again, and one that is taken from it. -/
theorem normalize_canonical_sample :
    (⟨"./a/../..//b/."⟩ : Path).normalize = ⟨"../b"⟩ ∧ (⟨"../b"⟩ : Path).IsNormalForm ∧
      ((⟨"./a/../..//b/."⟩ : Path).join ⟨"../../c"⟩).normalize = ⟨"../../c"⟩ ∧
      ∀ dir : List OsString, (Point.absolute dir).walk (⟨"./a/../..//b/."⟩ : Path).components =
        (Point.absolute dir).walk (⟨"../b"⟩ : Path).components := by
  have hnormal : (⟨"./a/../..//b/."⟩ : Path).normalize = ⟨"../b"⟩ := by decide
  have hself : (⟨"../b"⟩ : Path).normalize = ⟨"../b"⟩ := by decide
  obtain ⟨hform, -, -, -, -, -, hwalk, -⟩ := normalize_canonical ⟨"./a/../..//b/."⟩ ⟨"../b"⟩
  obtain ⟨-, -, -, -, hjoin, -⟩ := normalize_canonical ⟨"./a/../..//b/."⟩ ⟨"../../c"⟩
  refine ⟨hnormal, hnormal ▸ hform, (hjoin (by decide)).trans ?_, hwalk (hnormal.trans hself.symm)⟩
  rw [hnormal]
  decide

end SolVendor.Path
