import SolVendor.Proofs.Path.Pieces
/-!
# Path — normal forms

The components of a path have one of two shapes: written components, or
the root before written components (`IsRead`). Folding keeps the shape and
leaves no dot (`isRead_fold`, `here_notMem_fold`), and what has been folded
is left alone by folding (`fold_fold`). So the components of a normal form
are the folded components of the path (`components_normalize`), and a
normal form is its own (`normalize_normalize`).
-/

namespace SolVendor.Path

/-- The shape of what is read off a path. -/
def IsRead (cs : List Component) : Prop :=
  (∀ c ∈ cs, c.IsWritten) ∨ ∃ ws, cs = .root :: ws ∧ ∀ c ∈ ws, c.IsWritten

theorem isRead_pieces (p : Path) : IsRead p.pieces := by
  rw [pieces_eq]
  split
  · exact .inr ⟨_, rfl, fun c hc => isWritten_of_mem_piecesOf hc⟩
  · exact .inl fun c hc => isWritten_of_mem_piecesOf (by simpa using hc)

/-- It is kept when dots are left out. -/
theorem IsRead.filter {cs : List Component} (h : IsRead cs) :
    IsRead (cs.filter (· ≠ .here)) := by
  rcases h with h | ⟨ws, rfl, h⟩
  · exact .inl fun c hc => h c (List.mem_filter.1 hc).1
  · rw [List.filter_cons_of_pos (by decide)]
    exact .inr ⟨_, rfl, fun c hc => h c (List.mem_filter.1 hc).1⟩

/-- The components are the pieces without the dots, unless the path begins with one. -/
theorem components_eq_filter {p : Path} (hne : p.pieces ≠ [])
    (hhead : p.pieces.head? ≠ some .here) : p.components = p.pieces.filter (· ≠ .here) := by
  obtain ⟨c, cs, hc⟩ := List.exists_cons_of_ne_nil hne
  rw [hc, List.head?_cons, ne_eq, Option.some_inj] at hhead
  have hsteps : p.steps.filter (· ≠ .here) = p.pieces.filter (· ≠ .here) := by
    unfold steps
    split <;> simp
  have hfirst : ∃ ds, p.steps = c :: ds := by
    unfold steps
    rw [hc]
    split
    · exact ⟨cs ++ [.here], rfl⟩
    · exact ⟨cs, rfl⟩
  obtain ⟨ds, hds⟩ := hfirst
  rw [← hsteps]
  unfold components
  rw [hds]
  cases c with
  | here => contradiction
  | root | up | name s => rfl

/-- An absolute path consists of the root and of what stands between its slashes, without the dots. -/
theorem components_eq_root_cons {p : Path} (h : p.isAbsolute = true) :
    p.components = .root :: (piecesOf p.os.bytes).filter (· ≠ .here) := by
  have hpieces := pieces_of_isAbsolute h
  rw [components_eq_filter (by simp [hpieces]) (by simp [hpieces]), hpieces]
  exact List.filter_cons_of_pos (by decide)

/-- What follows the root in an absolute path is written, and no dot. -/
theorem exists_components_eq_root_cons {p : Path} (h : p.isAbsolute = true) :
    ∃ cs, p.components = .root :: cs ∧ (∀ c ∈ cs, c.IsWritten) ∧ .here ∉ cs := by
  refine ⟨_, components_eq_root_cons h, fun c hc => ?_, fun hhere => ?_⟩
  · exact isWritten_of_mem_piecesOf (List.mem_filter.1 hc).1
  · simpa using (List.mem_filter.1 hhere).2

theorem isRead_components (p : Path) : IsRead p.components := by
  have hsteps : IsRead p.steps := by
    unfold steps
    split
    · rcases isRead_pieces p with h | ⟨ws, hp, h⟩
      · refine .inl fun c hc => ?_
        rcases List.mem_append.1 hc with hc | hc
        · exact h c hc
        · exact (List.mem_singleton.1 hc) ▸ Component.isWritten_here
      · refine .inr ⟨ws ++ [.here], by rw [hp]; rfl, fun c hc => ?_⟩
        rcases List.mem_append.1 hc with hc | hc
        · exact h c hc
        · exact (List.mem_singleton.1 hc) ▸ Component.isWritten_here
    · exact isRead_pieces p
  unfold components
  split
  · rename_i cs heq
    rw [heq] at hsteps
    rcases hsteps with h | ⟨ws, hroot, -⟩
    · refine .inl fun c hc => ?_
      rcases List.mem_cons.1 hc with rfl | hc
      · exact Component.isWritten_here
      · exact h c (List.mem_cons_of_mem _ (List.mem_filter.1 hc).1)
    · cases hroot
  · exact hsteps.filter

/-! ## Folding -/

theorem fold_append (cs ds : List Component) :
    fold (cs ++ ds) = (ds.foldl move (cs.foldl move [])).reverse := by
  unfold fold
  rw [List.foldl_append]

section

variable {α : Type} {f : α → Component → α} (hf : ∀ a, f a .here = a)

include hf

/-- Dots make no difference to what they leave alone. -/
theorem foldl_filter_here (cs : List Component) (a : α) :
    (cs.filter (· ≠ .here)).foldl f a = cs.foldl f a := by
  induction cs generalizing a with
  | nil => rfl
  | cons c cs ih =>
    by_cases hc : c = .here
    · subst hc
      rw [List.filter_cons_of_neg (by simp), ih, List.foldl_cons, hf]
    · rw [List.filter_cons_of_pos (by simpa using hc), List.foldl_cons, List.foldl_cons, ih]

/-- Then the components of a path are as good as its pieces. -/
theorem foldl_components (p : Path) (a : α) : p.components.foldl f a = p.pieces.foldl f a := by
  have hsteps : p.components.foldl f a = p.steps.foldl f a := by
    unfold components
    split
    · rename_i cs hsteps
      rw [hsteps, List.foldl_cons, List.foldl_cons, foldl_filter_here hf]
    · exact foldl_filter_here hf _ a
  rw [hsteps]
  unfold steps
  split
  · rw [List.foldl_append, List.foldl_cons, hf, List.foldl_nil]
  · rfl

end

/-- A path leads where its pieces do. -/
theorem fold_components (p : Path) : fold p.components = fold p.pieces := by
  unfold fold
  rw [foldl_components fun _ => rfl]

/-- What a fold has reached, written down and folded, is reached again. -/
theorem foldl_move_reverse_move {trail : List Component} (c : Component)
    (h : trail.reverse.foldl move [] = trail) :
    (move trail c).reverse.foldl move [] = move trail c := by
  have hpush : ∀ d, move trail d = d :: trail →
      (d :: trail).reverse.foldl move [] = d :: trail := by
    intro d hd
    rw [List.reverse_cons, List.foldl_append, h]
    exact hd
  cases c with
  | here => exact h
  | root => exact hpush .root rfl
  | name s => exact hpush (.name s) rfl
  | up =>
    cases trail with
    | nil => rfl
    | cons d rest =>
      cases d with
      | root => exact h
      | here | up => exact hpush .up rfl
      | name s =>
        rw [List.reverse_cons, List.foldl_append] at h
        exact (List.cons.inj h).2

/-- **What has been folded is left alone by folding.** -/
theorem fold_fold (cs : List Component) : fold (fold cs) = fold cs := by
  have hreach : ∀ (ds trail : List Component), trail.reverse.foldl move [] = trail →
      (ds.foldl move trail).reverse.foldl move [] = ds.foldl move trail := by
    intro ds
    induction ds with
    | nil => exact fun trail h => h
    | cons d ds ih => exact fun trail h => ih (move trail d) (foldl_move_reverse_move d h)
  unfold fold
  rw [hreach cs [] rfl]

/-- A fold ends at no dot. -/
theorem here_notMem_fold (cs : List Component) : .here ∉ fold cs := by
  have hreach : ∀ (ds trail : List Component), .here ∉ trail → .here ∉ ds.foldl move trail := by
    intro ds
    induction ds with
    | nil => exact fun trail h => h
    | cons d ds ih =>
      intro trail h
      refine ih (move trail d) ?_
      cases d with
      | here => exact h
      | root | name s => simpa [move] using h
      | up =>
        cases trail with
        | nil => simp [move]
        | cons e rest =>
          cases e with
          | name s => exact fun hm => h (List.mem_cons_of_mem _ hm)
          | root => exact h
          | here => exact absurd List.mem_cons_self h
          | up => simpa [move] using h
  unfold fold
  rw [List.mem_reverse]
  exact hreach cs [] List.not_mem_nil

/-- A step over a written component adds nothing but written ones. -/
theorem isWritten_of_mem_move {trail : List Component} {c d : Component} (hc : c.IsWritten)
    (ht : ∀ e ∈ trail, e.IsWritten) (hd : d ∈ move trail c) : d.IsWritten := by
  cases c with
  | root => exact absurd hc Component.not_isWritten_root
  | here => exact ht d hd
  | name s =>
    rcases List.mem_cons.1 hd with rfl | hd
    · exact hc
    · exact ht d hd
  | up =>
    cases trail with
    | nil =>
      obtain rfl := List.mem_singleton.1 hd
      exact hc
    | cons e rest =>
      cases e with
      | root => exact ht d hd
      | name s => exact ht d (List.mem_cons_of_mem _ hd)
      | here | up =>
        rcases List.mem_cons.1 hd with rfl | hd
        · exact hc
        · exact ht d hd

/-- Above the root a step over a written component changes written components only. -/
theorem exists_move_append_root {trail : List Component} {c : Component} (hc : c.IsWritten)
    (ht : ∀ e ∈ trail, e.IsWritten) :
    ∃ next, move (trail ++ [.root]) c = next ++ [.root] ∧ ∀ e ∈ next, e.IsWritten := by
  cases c with
  | root => exact absurd hc Component.not_isWritten_root
  | here => exact ⟨trail, rfl, ht⟩
  | name s => exact ⟨.name s :: trail, rfl, List.forall_mem_cons.2 ⟨hc, ht⟩⟩
  | up =>
    cases trail with
    | nil => exact ⟨[], rfl, ht⟩
    | cons e rest =>
      have hrest := (List.forall_mem_cons.1 ht).2
      cases e with
      | root => exact absurd (ht _ List.mem_cons_self) Component.not_isWritten_root
      | name s => exact ⟨rest, rfl, hrest⟩
      | here | up => exact ⟨.up :: _ :: rest, rfl, List.forall_mem_cons.2 ⟨hc, ht⟩⟩

/-- From the root a fold of written components stays below the root. -/
theorem exists_foldl_move_root {ws trail : List Component} (hw : ∀ c ∈ ws, c.IsWritten)
    (ht : ∀ e ∈ trail, e.IsWritten) :
    ∃ next, ws.foldl move (trail ++ [.root]) = next ++ [.root] ∧ ∀ e ∈ next, e.IsWritten := by
  induction ws generalizing trail with
  | nil => exact ⟨trail, rfl, ht⟩
  | cons w ws ih =>
    obtain ⟨hc, hws⟩ := List.forall_mem_cons.1 hw
    obtain ⟨mid, hmid, hm⟩ := exists_move_append_root hc ht
    rw [List.foldl_cons, hmid]
    exact ih hws hm

/-- **Folding keeps the shape of what is read off a path.** -/
theorem isRead_fold {cs : List Component} (h : IsRead cs) : IsRead (fold cs) := by
  rcases h with h | ⟨ws, rfl, h⟩
  · left
    have hreach : ∀ (ds trail : List Component), (∀ c ∈ ds, c.IsWritten) →
        (∀ e ∈ trail, e.IsWritten) → ∀ e ∈ ds.foldl move trail, e.IsWritten := by
      intro ds
      induction ds with
      | nil => exact fun trail _ ht => ht
      | cons d ds ih =>
        intro trail hds ht
        obtain ⟨hd, hds⟩ := List.forall_mem_cons.1 hds
        exact ih (move trail d) hds fun e he => isWritten_of_mem_move hd ht he
    intro c hc
    exact hreach cs [] h (fun e he => absurd he List.not_mem_nil) c (List.mem_reverse.1 hc)
  · right
    obtain ⟨next, hnext, hn⟩ := exists_foldl_move_root h
      (show ∀ e ∈ ([] : List Component), e.IsWritten from fun e he => absurd he List.not_mem_nil)
    refine ⟨next.reverse, ?_, fun c hc => hn c (List.mem_reverse.1 hc)⟩
    have hstart : (Component.root :: ws).foldl move [] = ws.foldl move ([] ++ [.root]) := rfl
    unfold fold
    rw [hstart, hnext, List.reverse_append]
    rfl

/-! ## Normal forms -/

/-- Text without dots is what its written form is made of. -/
theorem components_ofComponents {cs : List Component} (h : IsRead cs) (hne : cs ≠ [])
    (hhere : .here ∉ cs) : (ofComponents cs).components = cs := by
  have hpieces : (ofComponents cs).pieces = cs := by
    rcases h with h | ⟨ws, rfl, h⟩
    · exact pieces_ofComponents h
    · exact pieces_ofComponents_root h
  have hhead : (ofComponents cs).pieces.head? ≠ some .here := by
    rw [hpieces]
    exact fun hh => hhere (List.mem_of_head? hh)
  rw [components_eq_filter (by rw [hpieces]; exact hne) hhead, hpieces, List.filter_eq_self]
  intro c hc
  simpa using fun heq : c = .here => hhere (heq ▸ hc)

theorem components_here : (⟨"."⟩ : Path).components = [.here] := by decide

/-- The normal form written down. -/
theorem normalize_eq (p : Path) :
    p.normalize = if fold p.components = [] then ⟨"."⟩ else ofComponents (fold p.components) := by
  unfold normalize
  split
  · rename_i h
    rw [if_pos h]
  · rename_i h
    rw [if_neg h]

/-- **The components of a normal form are the folded ones**, or a dot if nothing is left. -/
theorem components_normalize (p : Path) :
    p.normalize.components = if fold p.components = [] then [.here] else fold p.components := by
  rw [normalize_eq]
  split
  · exact components_here
  · rename_i h
    exact components_ofComponents (isRead_fold (isRead_components p)) h
      (here_notMem_fold p.components)

/-- **A normal form is its own normal form.** -/
@[simp] theorem normalize_normalize (p : Path) : p.normalize.normalize = p.normalize := by
  rw [normalize_eq p.normalize, components_normalize, normalize_eq p]
  by_cases h : fold p.components = []
  · rw [if_pos h, if_pos h]
    rfl
  · rw [if_neg h, if_neg h, fold_fold, if_neg h]

/-- Folding goes down through names. -/
theorem foldl_move_names (names : List OsString) (trail : List Component) :
    (names.map Component.name).foldl move trail = (names.map .name).reverse ++ trail := by
  induction names generalizing trail with
  | nil => rfl
  | cons n names ih =>
    rw [List.map_cons, List.foldl_cons, ih, List.reverse_cons, List.append_assoc]
    rfl

/-- Names are written when files can have them. -/
theorem isWritten_of_mem_map_name {names : List OsString} (h : ∀ n ∈ names, IsFileName n) :
    ∀ c ∈ names.map Component.name, c.IsWritten := by
  intro c hc
  obtain ⟨n, hn, rfl⟩ := List.mem_map.1 hc
  exact Component.isWritten_name.2 (h n hn)

theorem here_notMem_map_name (names : List OsString) : .here ∉ names.map Component.name := by
  simp

/-- A path through names consists of these names. -/
theorem components_ofNames {names : List OsString} (h : ∀ n ∈ names, IsFileName n)
    (hne : names ≠ []) : (ofNames names).components = names.map .name :=
  components_ofComponents (.inl (isWritten_of_mem_map_name h)) (by simpa using hne)
    (here_notMem_map_name names)

/-- A path through names is in normal form. -/
theorem normalize_ofNames {names : List OsString} (h : ∀ n ∈ names, IsFileName n)
    (hne : names ≠ []) : (ofNames names).normalize = ofNames names := by
  have hfold : fold (names.map .name) = names.map .name := by
    unfold fold
    rw [foldl_move_names, List.append_nil, List.reverse_reverse]
  rw [normalize_eq, components_ofNames h hne, hfold, if_neg (by simpa using hne)]
  rfl

end SolVendor.Path
