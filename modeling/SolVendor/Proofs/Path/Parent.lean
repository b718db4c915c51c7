import SolVendor.Proofs.Path.Pieces
/-!
# Path — the pieces of a parent

The parent of a path keeps its pieces up to the last one that is no dot,
and drops the dots before that one with it (`pieces_of_parent?`). A path
whose last piece is a name has a parent, and all its pieces but that name
are those of the parent and dots (`exists_parent?_of_concat`). So the
paths above another one begin as it does (`prefix_of_mem_ancestors`).
-/

namespace SolVendor.Path

/-! ## Silent pieces -/

/-- Silent pieces are read as dots or not at all. -/
theorem exists_replicate_of_silent {segs : List (List UInt8)} (h : ∀ s ∈ segs, isSilent s = true) :
    ∃ k, (segs.filter (· ≠ [])).map Component.ofPiece = List.replicate k .here := by
  induction segs with
  | nil => exact ⟨0, rfl⟩
  | cons s segs ih =>
    obtain ⟨hs, hsegs⟩ := List.forall_mem_cons.1 h
    obtain ⟨k, hk⟩ := ih hsegs
    unfold isSilent at hs
    rw [Bool.or_eq_true, decide_eq_true_eq, decide_eq_true_eq] at hs
    rcases hs with rfl | rfl
    · exact ⟨k, by rw [List.filter_cons_of_neg (by simp), hk]⟩
    · refine ⟨k + 1, ?_⟩
      rw [List.filter_cons_of_pos (by simp), List.map_cons, hk, List.replicate_succ]
      rfl

/-- A list of pieces ends in silent ones, before which nothing or a piece that is not silent
stands. -/
theorem exists_dropWhile_silent (segs : List (List UInt8)) :
    ∃ quiet, segs = (segs.reverse.dropWhile isSilent).reverse ++ quiet ∧
      ∀ s ∈ quiet, isSilent s = true := by
  refine ⟨(segs.reverse.takeWhile isSilent).reverse, ?_, fun s hs => ?_⟩
  · rw [← List.reverse_append, List.takeWhile_append_dropWhile, List.reverse_reverse]
  · exact List.all_eq_true.1 List.all_takeWhile s (List.mem_reverse.1 hs)

/-- Reading back what pieces of a split have been joined to. -/
theorem piecesOf_intercalate_splits {segs : List (List UInt8)} (h : ∀ s ∈ segs, slash ∉ s) :
    piecesOf ([slash].intercalate segs) = (segs.filter (· ≠ [])).map Component.ofPiece := by
  cases segs with
  | nil => rfl
  | cons s segs =>
    unfold piecesOf
    rw [List.splitOn_intercalate slash h (by simp)]

/-! ## Where a path begins -/

/-- The bytes are the lead and the body. -/
theorem splitLead_append (bs : List UInt8) : (splitLead bs).1 ++ (splitLead bs).2 = bs := by
  unfold splitLead
  split <;> rfl

/-- What the lead contributes to the pieces. -/
def leadPieces (lead : List UInt8) : List Component :=
  if lead = [slash] then [.root] else if lead = [dot] then [.here] else []

/-- A body begins with a slash only after a dot. -/
theorem splitLead_cases (bs : List UInt8) :
    (∃ body, splitLead bs = ([slash], body)) ∨
      (splitLead bs = ([dot], []) ∨ ∃ body, splitLead bs = ([dot], slash :: body)) ∨
      ∃ body, splitLead bs = ([], body) ∧ body.head? ≠ some slash := by
  unfold splitLead
  split
  · exact .inl ⟨_, rfl⟩
  · exact .inr (.inl (.inl rfl))
  · exact .inr (.inl (.inr ⟨_, rfl⟩))
  · rename_i h _ _
    refine .inr (.inr ⟨_, rfl, fun hhead => ?_⟩)
    obtain ⟨rest, hrest⟩ := List.head?_eq_some_iff.1 hhead
    exact h rest hrest

/-- The pieces of a path with a given lead whose body begins as a body can. -/
theorem pieces_of_lead {lead body : List UInt8}
    (h : lead = [slash] ∨ (lead = [dot] ∧ (body = [] ∨ body.head? = some slash)) ∨
      (lead = [] ∧ body.head? ≠ some slash)) :
    (⟨⟨lead ++ body⟩⟩ : Path).pieces = leadPieces lead ++ piecesOf body := by
  rw [pieces_eq]
  unfold isAbsolute leadPieces
  rcases h with rfl | ⟨rfl, hb⟩ | ⟨rfl, hb⟩
  · simp [piecesOf_cons_slash]
  · have hdot : piecesOf [dot] = [.here] := piecesOf_bytes Component.isWritten_here
    rcases hb with rfl | hb
    · simpa using hdot
    · obtain ⟨rest, rfl⟩ := List.head?_eq_some_iff.1 hb
      rw [piecesOf_append_slash, piecesOf_cons_slash, hdot]
      simp
  · simp [hb]

/-- The pieces of a path, by its lead and its body. -/
theorem pieces_eq_lead (p : Path) :
    p.pieces = leadPieces (splitLead p.os.bytes).1 ++ piecesOf (splitLead p.os.bytes).2 := by
  have hbytes : p = ⟨⟨(splitLead p.os.bytes).1 ++ (splitLead p.os.bytes).2⟩⟩ := by
    rw [splitLead_append]
  conv => lhs; rw [hbytes]
  refine pieces_of_lead ?_
  rcases splitLead_cases p.os.bytes with ⟨body, h⟩ | (h | ⟨body, h⟩) | ⟨body, h, hb⟩
  · exact .inl (by rw [h])
  · exact .inr (.inl ⟨by rw [h], .inl (by rw [h])⟩)
  · exact .inr (.inl ⟨by rw [h], .inr (by rw [h]; rfl)⟩)
  · exact .inr (.inr ⟨by rw [h], by rw [h]; exact hb⟩)

/-! ## The parent -/

/-- The pieces of a body up to some of its pieces. -/
theorem head?_intercalate_of_prefix {segs kept : List (List UInt8)} (hk : kept <+: segs)
    (hlast : kept ≠ [[]]) :
    ([slash].intercalate kept).head? = some slash → ([slash].intercalate segs).head? = some slash := by
  obtain ⟨rest, rfl⟩ := hk
  cases kept with
  | nil => simp
  | cons s kept =>
    cases s with
    | cons c s =>
      cases kept <;> cases rest <;> simp
    | nil =>
      cases kept with
      | nil => contradiction
      | cons t kept => simp

/-- The other way round, if a piece is kept. -/
theorem head?_intercalate_of_prefix_ne {segs kept : List (List UInt8)} (hk : kept <+: segs)
    (hne : kept ≠ []) (hlast : kept ≠ [[]]) (h : ([slash].intercalate segs).head? = some slash) :
    ([slash].intercalate kept).head? = some slash := by
  obtain ⟨rest, rfl⟩ := hk
  cases kept with
  | nil => contradiction
  | cons s kept =>
    cases s with
    | cons c s =>
      cases kept <;> cases rest <;> simpa using h
    | nil =>
      cases kept with
      | nil => contradiction
      | cons t kept => simp

/-- The parts that a parent is made of: what is kept of the body, silent pieces, the last piece
that is not silent, and silent pieces again. -/
theorem splitOn_body_of_last {body last : List UInt8} {above : List (List UInt8)}
    (h : (body.splitOn slash).reverse.dropWhile isSilent = last :: above) :
    ∃ quiet quiet', body.splitOn slash =
        (above.dropWhile isSilent).reverse ++ quiet ++ last :: quiet' ∧
      (∀ s ∈ quiet, isSilent s = true) ∧ (∀ s ∈ quiet', isSilent s = true) ∧
      isSilent last = false := by
  obtain ⟨quiet', hsplit, hq'⟩ := exists_dropWhile_silent (body.splitOn slash)
  obtain ⟨quiet, hmid, hq⟩ := exists_dropWhile_silent above.reverse
  rw [List.reverse_reverse] at hmid
  refine ⟨quiet, quiet', ?_, hq, hq', ?_⟩
  · rw [hsplit, h, List.reverse_cons, hmid]
    simp
  · have hhead := List.head?_dropWhile_not isSilent (body.splitOn slash).reverse
    rw [h] at hhead
    simpa using hhead

/-- What stands before some more pieces stands before them when they are written, too. -/
theorem prefix_intercalate {segs kept : List (List UInt8)} (hk : kept <+: segs) :
    [slash].intercalate kept <+: [slash].intercalate segs := by
  induction kept generalizing segs with
  | nil => exact List.nil_prefix
  | cons s kept ih =>
    obtain ⟨rest, rfl⟩ := hk
    cases kept with
    | nil =>
      cases rest with
      | nil => exact List.prefix_refl _
      | cons r rest =>
        rw [List.singleton_append, List.intercalate_singleton, List.intercalate_cons_cons,
          List.append_assoc]
        exact List.prefix_append _ _
    | cons t kept =>
      have htail := ih (List.prefix_append (t :: kept) rest)
      rw [List.cons_append] at htail ⊢
      rw [List.cons_append, List.intercalate_cons_cons, List.intercalate_cons_cons]
      exact (List.prefix_append_right_inj _).2 htail

/-- How a path with a parent is written: a lead and what stands between the slashes. The last of this that
is not silent is gone in the parent, with all that is silent around it. -/
structure Shortens (p q : Path) (lead : List UInt8) (kept quiet : List (List UInt8)) (last : List UInt8)
    (quiet' : List (List UInt8)) : Prop where
  bytes : p.os.bytes = lead ++ [slash].intercalate (kept ++ quiet ++ last :: quiet')
  pieces : p.pieces = leadPieces lead ++
    ((kept ++ quiet ++ last :: quiet').filter (· ≠ [])).map Component.ofPiece
  parent_bytes : q.os.bytes = lead ++ [slash].intercalate kept
  parent_pieces : q.pieces = leadPieces lead ++ (kept.filter (· ≠ [])).map Component.ofPiece
  kept_last : ∀ s ∈ kept.getLast?, isSilent s = false
  silent : ∀ s ∈ quiet, isSilent s = true
  silent_last : ∀ s ∈ quiet', isSilent s = true
  not_silent : isSilent last = false
  no_slash : slash ∉ last

/-- **What the parent keeps of a path**; or the path consists of dots and its parent of nothing. -/
theorem shortens_of_parent? {p q : Path} (h : p.parent? = some q) :
    (∃ lead kept quiet last quiet', p.Shortens q lead kept quiet last quiet') ∨
    (q = empty ∧ ∃ k, p.pieces = List.replicate k .here) := by
  unfold parent? at h
  have hpieces := pieces_eq_lead p
  have hbytes := splitLead_append p.os.bytes
  have hcases := splitLead_cases p.os.bytes
  rcases hlb : splitLead p.os.bytes with ⟨lead, body⟩
  rw [hlb] at h hpieces hcases hbytes
  simp only at h hpieces hbytes
  have hbody : piecesOf body = ((body.splitOn slash).filter (· ≠ [])).map Component.ofPiece := rfl
  split at h
  · -- nothing but dots: only a lead can have stood before them
    rename_i hnil
    split at h
    · rename_i hlead
      obtain rfl := Option.some.inj h
      obtain ⟨quiet, hsplit, hq⟩ := exists_dropWhile_silent (body.splitOn slash)
      rw [hnil, List.reverse_nil, List.nil_append] at hsplit
      obtain ⟨k, hk⟩ := exists_replicate_of_silent hq
      refine .inr ⟨rfl, k + 1, ?_⟩
      rw [hpieces, hbody, hsplit, hk, hlead]
      rfl
    · cases h
  · rename_i last above hlast
    obtain rfl := Option.some.inj h
    obtain ⟨quiet, quiet', hsplit, hq, hq', hl⟩ := splitOn_body_of_last hlast
    have hseg : ∀ s ∈ body.splitOn slash, slash ∉ s := fun s hs => notMem_of_mem_splitOn hs
    have hkept : ∀ s ∈ (above.dropWhile isSilent).reverse, slash ∉ s :=
      fun s hs => hseg s (by rw [hsplit, List.append_assoc]; exact List.mem_append_left _ hs)
    have hkl : ∀ s ∈ (above.dropWhile isSilent).reverse.getLast?, isSilent s = false := by
      intro s hs
      rw [List.getLast?_reverse] at hs
      have hhead := List.head?_dropWhile_not isSilent above
      rw [Option.mem_def.1 hs] at hhead
      simpa using hhead
    -- what is kept does not end in a silent piece, so it is not one empty piece alone
    have hkne : (above.dropWhile isSilent).reverse ≠ [[]] := by
      intro heq
      have hsilent := hkl [] (by rw [heq]; rfl)
      simp [isSilent] at hsilent
    have hprefix : (above.dropWhile isSilent).reverse <+: body.splitOn slash :=
      ⟨quiet ++ last :: quiet', by rw [hsplit, List.append_assoc]⟩
    have hparent : (⟨⟨lead ++ [slash].intercalate (above.dropWhile isSilent).reverse⟩⟩ :
        Path).pieces = leadPieces lead ++ piecesOf ([slash].intercalate (above.dropWhile isSilent).reverse) := by
      refine pieces_of_lead ?_
      rcases hcases with ⟨b, hb⟩ | (hb | ⟨b, hb⟩) | ⟨b, hb, hhead⟩
      · exact .inl (congrArg Prod.fst hb)
      · obtain ⟨rfl, rfl⟩ := Prod.mk.inj hb
        simp [isSilent] at hlast
      · obtain ⟨rfl, rfl⟩ := Prod.mk.inj hb
        refine .inr (.inl ⟨rfl, ?_⟩)
        by_cases hnil : (above.dropWhile isSilent).reverse = []
        · exact .inl (by rw [hnil]; rfl)
        · refine .inr (head?_intercalate_of_prefix_ne hprefix hnil hkne ?_)
          rw [List.intercalate_splitOn]
          rfl
      · obtain ⟨rfl, rfl⟩ := Prod.mk.inj hb
        refine .inr (.inr ⟨rfl, fun hslash => hhead ?_⟩)
        have := head?_intercalate_of_prefix hprefix hkne hslash
        rwa [List.intercalate_splitOn] at this
    refine .inl ⟨lead, (above.dropWhile isSilent).reverse, quiet, last, quiet', ?_, ?_, ?_, ?_, hkl, hq,
      hq', hl, hseg last (by rw [hsplit]; simp)⟩
    · rw [← hsplit, List.intercalate_splitOn, hbytes]
    · rw [hpieces, hbody, hsplit]
    · rfl
    · rw [hparent, piecesOf_intercalate_splits hkept]

/-- **The pieces of the parent.** They are followed by dots, the last piece that is no dot, and dots
again; or the path consists of dots and its parent of nothing. -/
theorem pieces_of_parent? {p q : Path} (h : p.parent? = some q) :
    (∃ k c j, c ≠ .here ∧ c.IsWritten ∧
      p.pieces = q.pieces ++ List.replicate k .here ++ c :: List.replicate j .here) ∨
    (q = empty ∧ ∃ k, p.pieces = List.replicate k .here) := by
  refine (shortens_of_parent? h).imp ?_ id
  rintro ⟨lead, kept, quiet, last, quiet', hs⟩
  have hlne : last ≠ [] := by
    rintro rfl
    simpa [isSilent] using hs.not_silent
  have hlhere : Component.ofPiece last ≠ .here := by
    intro heq
    have hdot : last = [dot] := by
      have hbytes := congrArg Component.bytes heq
      rwa [Component.bytes_ofPiece] at hbytes
    have hsilent := hs.not_silent
    rw [hdot] at hsilent
    simp [isSilent] at hsilent
  obtain ⟨k, hk⟩ := exists_replicate_of_silent hs.silent
  obtain ⟨j, hj⟩ := exists_replicate_of_silent hs.silent_last
  refine ⟨k, Component.ofPiece last, j, hlhere, Component.isWritten_ofPiece hlne hs.no_slash, ?_⟩
  rw [hs.pieces, hs.parent_pieces, List.filter_append, List.filter_append, List.map_append,
    List.map_append, hk, List.filter_cons_of_pos (by simpa using hlne), List.map_cons, hj]
  simp

/-- **The bytes of the parent** are the beginning of the path's own. -/
theorem prefix_bytes_of_parent? {p q : Path} (h : p.parent? = some q) :
    q.os.bytes <+: p.os.bytes := by
  rcases shortens_of_parent? h with ⟨lead, kept, quiet, last, quiet', hs⟩ | ⟨rfl, -⟩
  · rw [hs.bytes, hs.parent_bytes, List.append_assoc]
    exact (List.prefix_append_right_inj lead).2 (prefix_intercalate (List.prefix_append kept _))
  · exact List.nil_prefix

/-- **A parent does not end in a dot**, unless it is one. -/
theorem eq_nil_of_parent? {p q : Path} {cs : List Component} (h : p.parent? = some q)
    (hdot : q.pieces = cs ++ [.here]) : cs = [] := by
  rcases shortens_of_parent? h with ⟨lead, kept, quiet, last, quiet', hs⟩ | ⟨rfl, -⟩
  · rw [hs.parent_pieces] at hdot
    rcases List.eq_nil_or_concat kept with rfl | ⟨above, s, hkept⟩
    · -- Only the lead is left.
      have hlen := congrArg List.length hdot
      have hone : (leadPieces lead).length ≤ 1 := by
        unfold leadPieces
        split
        · simp
        · split <;> simp
      simp only [List.filter_nil, List.map_nil, List.append_nil, List.length_append,
        List.length_singleton] at hlen
      exact List.length_eq_zero_iff.1 (by omega)
    · rw [List.concat_eq_append] at hkept
      have hsilent : isSilent s = false := hs.kept_last s (by rw [hkept, List.getLast?_concat]; rfl)
      have hne : s ≠ [] := by
        rintro rfl
        simp [isSilent] at hsilent
      rw [hkept, List.filter_append, List.filter_cons_of_pos (by simpa using hne), List.filter_nil,
        List.map_append, ← List.append_assoc] at hdot
      have hpiece : Component.ofPiece s = .here := by
        have hlast := (List.append_inj' hdot rfl).2
        exact (List.cons.inj hlast).1
      have hbytes := congrArg Component.bytes hpiece
      rw [Component.bytes_ofPiece] at hbytes
      rw [hbytes] at hsilent
      simp [isSilent, Component.bytes] at hsilent
  · rw [show empty.pieces = [] from rfl] at hdot
    exact absurd hdot (by simp)

/-- **A path that ends in more than dots has a parent.** -/
theorem exists_parent?_of_mem {p : Path} {c : Component} (hc : c.IsWritten) (hne : c ≠ .here)
    (hmem : c ∈ p.pieces) : ∃ q, p.parent? = some q := by
  have hpieces := pieces_eq_lead p
  unfold parent?
  rcases hlb : splitLead p.os.bytes with ⟨lead, body⟩
  rw [hlb] at hpieces
  simp only at hpieces ⊢
  split
  · rename_i hnil
    exfalso
    obtain ⟨quiet, hsplit, hq⟩ := exists_dropWhile_silent (body.splitOn slash)
    rw [hnil, List.reverse_nil, List.nil_append] at hsplit
    obtain ⟨k, hk⟩ := exists_replicate_of_silent hq
    have hbody : piecesOf body = List.replicate k .here := by
      unfold piecesOf
      rw [hsplit, hk]
    rw [hpieces, hbody, List.mem_append] at hmem
    rcases hmem with hmem | hmem
    · unfold leadPieces at hmem
      split at hmem
      · exact Component.not_isWritten_root (List.mem_singleton.1 hmem ▸ hc)
      · split at hmem
        · exact hne (List.mem_singleton.1 hmem)
        · exact List.not_mem_nil hmem
    · exact hne (List.eq_of_mem_replicate hmem)
  · exact ⟨_, rfl⟩

/-- The names among the pieces are such as files can have. -/
theorem isFileName_of_mem_pieces {p : Path} {s : OsString} (h : .name s ∈ p.pieces) :
    IsFileName s := by
  rw [pieces_eq] at h
  rcases List.mem_append.1 h with hroot | hbody
  · split at hroot
    · cases List.mem_singleton.1 hroot
    · exact absurd hroot List.not_mem_nil
  · exact Component.isWritten_name.1 (isWritten_of_mem_piecesOf hbody)

/-- **All pieces but a last name are those of the parent, and dots.** -/
theorem exists_parent?_of_concat {p : Path} {cs : List Component} {s : OsString}
    (h : p.pieces = cs ++ [.name s]) :
    ∃ q k, p.parent? = some q ∧ cs = q.pieces ++ List.replicate k .here := by
  have hmem : .name s ∈ p.pieces := by simp [h]
  have hw : (Component.name s).IsWritten := Component.isWritten_name.2 (isFileName_of_mem_pieces hmem)
  obtain ⟨q, hq⟩ := exists_parent?_of_mem hw (by simp) hmem
  rcases pieces_of_parent? hq with ⟨k, c, j, hc, -, hp⟩ | ⟨-, k, hp⟩
  · refine ⟨q, k, hq, ?_⟩
    cases j with
    | zero =>
      rw [h, List.replicate_zero] at hp
      exact (List.append_inj' hp rfl).1
    | succ j =>
      rw [h, List.replicate_succ', ← List.cons_append, ← List.append_assoc] at hp
      cases (List.append_inj' hp rfl).2
  · rw [hp] at hmem
    cases List.eq_of_mem_replicate hmem

/-- The parent begins as the path does. -/
theorem prefix_of_parent? {p q : Path} (h : p.parent? = some q) : q.pieces <+: p.pieces := by
  rcases pieces_of_parent? h with ⟨k, c, j, -, -, hp⟩ | ⟨rfl, k, hp⟩
  · exact ⟨_, by rw [hp, List.append_assoc]⟩
  · exact ⟨p.pieces, rfl⟩

theorem prefix_of_mem_go {p q : Path} {fuel : Nat} (h : q ∈ ancestors.go fuel p) :
    q.pieces <+: p.pieces := by
  induction fuel generalizing p with
  | zero =>
    obtain rfl := List.mem_singleton.1 h
    exact List.prefix_refl _
  | succ fuel ih =>
    unfold ancestors.go at h
    split at h
    · obtain rfl := List.mem_singleton.1 h
      exact List.prefix_refl _
    · rename_i r hr
      rcases List.mem_cons.1 h with rfl | h
      · exact List.prefix_refl _
      · exact (ih h).trans (prefix_of_parent? hr)

/-- **The paths above another begin as it does.** -/
theorem prefix_of_mem_ancestors {p q : Path} (h : q ∈ p.ancestors) : q.pieces <+: p.pieces :=
  prefix_of_mem_go h

/-- The paths above another are that path itself, and those above its parent. -/
theorem eq_or_prefix_of_mem_ancestors {p q : Path} (h : q ∈ p.ancestors) :
    q = p ∨ ∃ r, p.parent? = some r ∧ q.pieces <+: r.pieces := by
  unfold ancestors ancestors.go at h
  split at h
  · exact .inl (List.mem_singleton.1 h)
  · rename_i r hr
    rcases List.mem_cons.1 h with rfl | h
    · exact .inl rfl
    · exact .inr ⟨r, hr, prefix_of_mem_go h⟩

/-! ## Replacing the last name -/

/-- A path that ends in a name has that as its file name. -/
theorem fileName?_of_concat {p : Path} {cs : List Component} {s : OsString}
    (h : p.pieces = cs ++ [.name s]) (hslash : p.endsInSlash = false) : p.fileName? = some s := by
  have hsteps : p.steps = cs ++ [.name s] := by
    unfold steps
    rw [hslash, h]
    rfl
  have hlast : p.components.getLast? = some (.name s) := by
    unfold components
    rw [hsteps]
    cases cs with
    | nil => rfl
    | cons c cs =>
      have hkeep : (cs ++ [Component.name s]).filter (· ≠ .here) =
          cs.filter (· ≠ .here) ++ [.name s] := by
        rw [List.filter_append]
        rfl
      rw [List.cons_append]
      split
      · rename_i heq
        obtain ⟨rfl, rfl⟩ := List.cons.inj heq
        rw [hkeep, ← List.cons_append, List.getLast?_concat]
      · rw [← List.cons_append, List.filter_append]
        exact List.getLast?_concat
  unfold fileName?
  rw [hlast]

/-- The name of a file is a relative path of one piece. -/
theorem pieces_of_isFileName {n : OsString} (hn : IsFileName n) :
    (⟨n⟩ : Path).isAbsolute = false ∧ (⟨n⟩ : Path).endsInSlash = false ∧
      (⟨n⟩ : Path).pieces = [.name n] := by
  have hw : ∀ c ∈ [Component.name n], c.IsWritten := by
    intro c hc
    rw [List.mem_singleton.1 hc]
    exact Component.isWritten_name.2 hn
  have hbytes : (⟨n⟩ : Path) = ofComponents [.name n] := by
    unfold ofComponents Component.bytes
    simp
  rw [hbytes]
  exact ⟨isAbsolute_ofComponents hw, endsInSlash_ofComponents hw, pieces_ofComponents hw⟩

/-- **With another name at the end a path has the pieces of its parent and that name.** -/
theorem pieces_withFileName {p : Path} {cs : List Component} {s n : OsString}
    (h : p.pieces = cs ++ [.name s]) (hslash : p.endsInSlash = false) (hn : IsFileName n) :
    ∃ q k, p.parent? = some q ∧ cs = q.pieces ++ List.replicate k .here ∧
      (p.withFileName n).pieces = q.pieces ++ [.name n] ∧
      (p.withFileName n).endsInSlash = false := by
  obtain ⟨q, k, hq, hcs⟩ := exists_parent?_of_concat h
  obtain ⟨hrel, hends, hpieces⟩ := pieces_of_isFileName hn
  have hwith : p.withFileName n = q.join ⟨n⟩ := by
    unfold withFileName
    rw [fileName?_of_concat h hslash, hq]
    rfl
  refine ⟨q, k, hq, hcs, ?_, ?_⟩
  · rw [hwith, pieces_join hrel, hpieces]
  · rw [hwith, endsInSlash_join hrel hn.path_ne, hends]

end SolVendor.Path
