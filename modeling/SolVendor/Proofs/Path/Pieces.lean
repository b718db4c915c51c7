import SolVendor.Path.Normal
import SolVendor.Proofs.Text.OsString
/-!
# Path — the pieces of composed paths

Paths are strings, and what they name is read off their pieces. So each
operation on paths is needed once as an operation on pieces: joining
appends them (`pieces_join`), and components that are written down are
the pieces of what was written (`pieces_ofComponents`). A component can be
written when it is no root and its bytes are a single piece that reads as
the component again; all that stands between two slashes is of this kind
(`isWritten_of_mem_piecesOf`).
-/

namespace SolVendor

/-- A string that can be the name of a file: it is not empty, has no slash, and is neither one dot
nor two. -/
def IsFileName (s : OsString) : Prop :=
  s ≠ "" ∧ Path.slash ∉ s.bytes ∧ s ≠ "." ∧ s ≠ ".."

instance (s : OsString) : Decidable (IsFileName s) :=
  inferInstanceAs (Decidable (_ ∧ _ ∧ _ ∧ _))

theorem isFileName_iff {s : OsString} :
    IsFileName s ↔ s.bytes ≠ [] ∧ Path.slash ∉ s.bytes ∧ s.bytes ≠ [Path.dot] ∧
      s.bytes ≠ [Path.dot, Path.dot] := by
  unfold IsFileName
  simp only [ne_eq, OsString.ext_iff]
  rfl

/-- Whether a text can be the name of a file is told from its characters. -/
theorem isFileName_ofString {text : String} :
    IsFileName text ↔ text ≠ "" ∧ '/' ∉ text.toList ∧ text ≠ "." ∧ text ≠ ".." := by
  simp only [IsFileName, ne_eq, OsString.ofString_inj, OsString.slash_mem_bytes_ofString]

/-- As a path, a name is not empty. -/
theorem IsFileName.path_ne {s : OsString} (h : IsFileName s) : (⟨s⟩ : Path) ≠ .empty :=
  fun heq => h.1 (congrArg Path.os heq)

namespace Component

open SolVendor.Path

/-- The component is what its own bytes read as. -/
def IsWritten (c : Component) : Prop :=
  c.bytes ≠ [] ∧ slash ∉ c.bytes ∧ ofPiece c.bytes = c

theorem isWritten_here : here.IsWritten := by
  refine ⟨by decide, by decide, rfl⟩

theorem isWritten_up : up.IsWritten := by
  refine ⟨by decide, by decide, rfl⟩

theorem not_isWritten_root : ¬ root.IsWritten :=
  fun h => h.1 rfl

/-- A piece reads as a component of the same bytes. -/
@[simp] theorem bytes_ofPiece (piece : List UInt8) : (ofPiece piece).bytes = piece := by
  unfold ofPiece
  split
  · rename_i h
    rw [h]
    rfl
  · split
    · rename_i h
      rw [h]
      rfl
    · rfl

theorem isWritten_ofPiece {piece : List UInt8} (hne : piece ≠ []) (hs : slash ∉ piece) :
    (ofPiece piece).IsWritten := by
  unfold IsWritten
  rw [bytes_ofPiece]
  exact ⟨hne, hs, rfl⟩

/-- A name can be written when a file can have it. -/
theorem isWritten_name {s : OsString} : (name s).IsWritten ↔ IsFileName s := by
  have hread : ofPiece s.bytes = name s ↔ s.bytes ≠ [dot] ∧ s.bytes ≠ [dot, dot] := by
    unfold ofPiece
    rw [← not_or]
    split
    · simp_all
    · split
      · simp_all
      · simp_all
  unfold IsWritten
  rw [isFileName_iff, ← hread]
  rfl

end Component

namespace Path

@[simp] theorem dot_ne_slash : dot ≠ slash := by decide

/-- What stands between the slashes of a string. -/
def piecesOf (bs : List UInt8) : List Component :=
  ((bs.splitOn slash).filter (· ≠ [])).map Component.ofPiece

/-- An absolute path has the root before what stands between its slashes. -/
theorem pieces_eq (p : Path) :
    p.pieces = (if p.isAbsolute then [.root] else []) ++ piecesOf p.os.bytes := rfl

/-- A path is empty if it has no bytes. -/
theorem eq_empty_iff {p : Path} : p = .empty ↔ p.os.bytes = [] := by
  refine ⟨fun h => h ▸ rfl, fun h => ?_⟩
  obtain ⟨⟨bytes⟩⟩ := p
  obtain rfl : bytes = [] := h
  rfl

/-- The empty path has no pieces. -/
theorem pieces_empty {p : Path} (h : p = .empty) : p.pieces = [] := by
  rw [h]
  rfl

theorem pieces_of_isAbsolute {p : Path} (h : p.isAbsolute = true) :
    p.pieces = .root :: piecesOf p.os.bytes := by
  rw [pieces_eq, h]
  rfl

@[simp] theorem piecesOf_nil : piecesOf [] = [] := rfl

/-- A slash parts the pieces before it from those after it. -/
theorem piecesOf_append_slash (xs ys : List UInt8) :
    piecesOf (xs ++ slash :: ys) = piecesOf xs ++ piecesOf ys := by
  unfold piecesOf
  rw [List.splitOn_append_cons_self, List.filter_append, List.map_append]

theorem piecesOf_cons_slash (ys : List UInt8) : piecesOf (slash :: ys) = piecesOf ys := by
  simpa using piecesOf_append_slash [] ys

theorem piecesOf_concat_slash (xs : List UInt8) : piecesOf (xs ++ [slash]) = piecesOf xs := by
  simpa using piecesOf_append_slash xs []

/-- A component that can be written is one piece. -/
theorem piecesOf_bytes {c : Component} (h : c.IsWritten) : piecesOf c.bytes = [c] := by
  obtain ⟨hne, hs, hread⟩ := h
  unfold piecesOf
  rw [List.splitOn_eq_singleton hs]
  simp [hne, hread]

/-- Components that are written one after the other are read back. -/
theorem piecesOf_intercalate {cs : List Component} (h : ∀ c ∈ cs, c.IsWritten) :
    piecesOf ([slash].intercalate (cs.map Component.bytes)) = cs := by
  induction cs with
  | nil => rfl
  | cons c cs ih =>
    have hc := h c List.mem_cons_self
    have hcs := ih fun d hd => h d (List.mem_cons_of_mem c hd)
    cases cs with
    | nil => simpa using piecesOf_bytes hc
    | cons d ds =>
      rw [List.map_cons, List.map_cons, List.intercalate_cons_cons, List.append_assoc]
      rw [List.singleton_append, piecesOf_append_slash, piecesOf_bytes hc]
      rw [← List.map_cons, hcs]
      rfl

/-- No piece of a split holds what was split at. -/
theorem notMem_of_mem_splitOn {α : Type} [DecidableEq α] {a : α} {xs piece : List α}
    (h : piece ∈ xs.splitOn a) :
    a ∉ piece := by
  induction xs generalizing piece with
  | nil =>
    rw [List.splitOn_nil, List.mem_singleton] at h
    simp [h]
  | cons x xs ih =>
    rw [List.splitOn_cons_eq_if_modifyHead] at h
    obtain ⟨r, rs, hr⟩ := List.exists_cons_of_ne_nil (List.splitOn_ne_nil a xs)
    split at h
    · rcases List.mem_cons.1 h with rfl | h
      · simp
      · exact ih h
    · rename_i hx
      rw [hr, List.modifyHead_cons] at h
      rcases List.mem_cons.1 h with rfl | h
      · have hr' := ih (hr ▸ List.mem_cons_self)
        intro ha
        rcases List.mem_cons.1 ha with rfl | ha
        · simp at hx
        · exact hr' ha
      · exact ih (hr ▸ List.mem_cons_of_mem r h)

/-- What stands between slashes can be written. -/
theorem isWritten_of_mem_piecesOf {c : Component} {bs : List UInt8} (h : c ∈ piecesOf bs) :
    c.IsWritten := by
  unfold piecesOf at h
  obtain ⟨piece, hpiece, rfl⟩ := List.mem_map.1 h
  obtain ⟨hmem, hne⟩ := List.mem_filter.1 hpiece
  exact Component.isWritten_ofPiece (by simpa using hne) (notMem_of_mem_splitOn hmem)

/-! ## Joining -/

theorem isAbsolute_iff {p : Path} : p.isAbsolute = true ↔ ∃ bs, p.os.bytes = slash :: bs := by
  unfold isAbsolute
  rw [decide_eq_true_eq, List.head?_eq_some_iff]

variable {p q : Path}

/-- The bytes of a join, if the second path is relative. -/
theorem bytes_join (hq : q.isAbsolute = false) :
    (p.join q).os.bytes =
      if p = .empty || p.endsInSlash then p.os.bytes ++ q.os.bytes
      else p.os.bytes ++ slash :: q.os.bytes := by
  unfold join
  rw [hq]
  split
  · contradiction
  · split <;> rfl

/-- A relative path does not move where a path begins. -/
@[simp] theorem isAbsolute_join (hq : q.isAbsolute = false) :
    (p.join q).isAbsolute = p.isAbsolute := by
  have hbytes := bytes_join (p := p) hq
  unfold isAbsolute at hq ⊢
  rw [hbytes]
  by_cases hp : p = .empty
  · subst hp
    simpa [empty] using hq
  · obtain ⟨b, bs, hb⟩ := List.exists_cons_of_ne_nil fun h => hp (eq_empty_iff.2 h)
    rw [hb]
    split <;> rfl

/-- **Joining appends the pieces.** -/
theorem pieces_join (hq : q.isAbsolute = false) : (p.join q).pieces = p.pieces ++ q.pieces := by
  have hbytes := bytes_join (p := p) hq
  have hbody : piecesOf (p.join q).os.bytes = piecesOf p.os.bytes ++ piecesOf q.os.bytes := by
    rw [hbytes]
    split
    · rename_i h
      rcases Bool.or_eq_true_iff.1 h with h | h
      · have hp : p.os.bytes = [] := eq_empty_iff.1 (of_decide_eq_true h)
        simp [hp]
      · unfold endsInSlash at h
        rw [decide_eq_true_eq, List.getLast?_eq_some_iff] at h
        obtain ⟨xs, hxs⟩ := h
        rw [hxs, List.append_assoc, List.singleton_append, piecesOf_append_slash,
          piecesOf_concat_slash]
    · exact piecesOf_append_slash _ _
  rw [pieces_eq, pieces_eq p, pieces_eq q, isAbsolute_join hq, hbody, hq]
  simp

/-- A join ends as the second path does. -/
theorem endsInSlash_join (hq : q.isAbsolute = false) (hne : q ≠ .empty) :
    (p.join q).endsInSlash = q.endsInSlash := by
  have hq' : q.os.bytes ≠ [] := fun h => hne (eq_empty_iff.2 h)
  have hlast : (p.join q).os.bytes.getLast? = q.os.bytes.getLast? := by
    rw [bytes_join hq]
    obtain ⟨xs, x, hx⟩ : ∃ xs x, q.os.bytes = xs ++ [x] :=
      ⟨_, _, (List.dropLast_concat_getLast hq').symm⟩
    rw [hx]
    split
    · rw [← List.append_assoc, List.getLast?_concat, List.getLast?_concat]
    · rw [← List.cons_append, ← List.append_assoc, List.getLast?_concat, List.getLast?_concat]
  unfold endsInSlash
  rw [hlast]

/-! ## Writing components down -/

/-- The bytes of components other than the root alone. -/
theorem bytes_ofComponents {cs : List Component} (h : cs ≠ [.root]) :
    (ofComponents cs).os.bytes = [slash].intercalate (cs.map Component.bytes) := by
  unfold ofComponents
  simp [h]

/-- A written component does not begin with a slash. -/
theorem head?_intercalate_ne {cs : List Component} (h : ∀ c ∈ cs, c.IsWritten) :
    ([slash].intercalate (cs.map Component.bytes)).head? ≠ some slash := by
  cases cs with
  | nil => simp
  | cons c cs =>
    obtain ⟨hne, hs, -⟩ := h c List.mem_cons_self
    obtain ⟨x, xs, hx⟩ := List.exists_cons_of_ne_nil hne
    rw [List.map_cons, hx, List.intercalate_cons_cons_left, List.head?_cons]
    rintro heq
    obtain rfl := Option.some.inj heq
    rw [hx] at hs
    exact hs List.mem_cons_self

/-- A written component does not end in a slash. -/
theorem getLast?_intercalate_ne {cs : List Component} (h : ∀ c ∈ cs, c.IsWritten) :
    ([slash].intercalate (cs.map Component.bytes)).getLast? ≠ some slash := by
  induction cs with
  | nil => simp
  | cons c cs ih =>
    have hcs := ih fun d hd => h d (List.mem_cons_of_mem c hd)
    obtain ⟨hne, hs, -⟩ := h c List.mem_cons_self
    cases cs with
    | nil =>
      rw [List.map_singleton, List.intercalate_singleton]
      intro hlast
      exact hs (List.mem_of_getLast? hlast)
    | cons d ds =>
      have hd : [slash].intercalate ((d :: ds).map Component.bytes) ≠ [] := by
        obtain ⟨hdne, -, -⟩ := h d (by simp)
        obtain ⟨x, xs, hx⟩ := List.exists_cons_of_ne_nil hdne
        simp [hx]
      rw [List.map_cons, List.map_cons, List.intercalate_cons_cons, ← List.map_cons]
      obtain ⟨x, hx⟩ := Option.isSome_iff_exists.1 (List.getLast?_isSome.2 hd)
      rw [List.getLast?_append, hx, Option.some_or, ← hx]
      exact hcs

/-- Written components begin at no root. -/
theorem isAbsolute_ofComponents {cs : List Component} (h : ∀ c ∈ cs, c.IsWritten) :
    (ofComponents cs).isAbsolute = false := by
  have hcs : cs ≠ [.root] := by
    rintro rfl
    exact Component.not_isWritten_root (h _ List.mem_cons_self)
  unfold isAbsolute
  rw [bytes_ofComponents hcs]
  simpa using head?_intercalate_ne h

theorem endsInSlash_ofComponents {cs : List Component} (h : ∀ c ∈ cs, c.IsWritten) :
    (ofComponents cs).endsInSlash = false := by
  have hcs : cs ≠ [.root] := by
    rintro rfl
    exact Component.not_isWritten_root (h _ List.mem_cons_self)
  unfold endsInSlash
  rw [bytes_ofComponents hcs]
  simpa using getLast?_intercalate_ne h

/-- **Written components are the pieces of what was written.** -/
theorem pieces_ofComponents {cs : List Component} (h : ∀ c ∈ cs, c.IsWritten) :
    (ofComponents cs).pieces = cs := by
  have hcs : cs ≠ [.root] := by
    rintro rfl
    exact Component.not_isWritten_root (h _ List.mem_cons_self)
  rw [pieces_eq, isAbsolute_ofComponents h, bytes_ofComponents hcs, piecesOf_intercalate h]
  rfl

/-- The same below the root. -/
theorem pieces_ofComponents_root {cs : List Component} (h : ∀ c ∈ cs, c.IsWritten) :
    (ofComponents (.root :: cs)).pieces = .root :: cs := by
  cases cs with
  | nil => rfl
  | cons c cs =>
    have hbytes : (ofComponents (.root :: c :: cs)).os.bytes =
        slash :: [slash].intercalate ((c :: cs).map Component.bytes) := by
      rw [bytes_ofComponents (by simp)]
      simp [Component.bytes]
    have habs : (ofComponents (.root :: c :: cs)).isAbsolute = true :=
      isAbsolute_iff.2 ⟨_, hbytes⟩
    rw [pieces_eq, habs, hbytes, piecesOf_cons_slash, piecesOf_intercalate h]
    rfl

end Path

end SolVendor
