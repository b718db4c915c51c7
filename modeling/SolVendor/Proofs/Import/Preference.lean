import SolVendor.Import.Pattern
import SolVendor.Proofs.Import.Grammar
import SolVendor.Proofs.Text.Pattern
/-!
# Import — what a pattern prefers

Reading a line finds what the grammar says, and so does searching it for
the pattern of a statement, whatever the pattern prefers
(`scanLine_characterisation`). The clause can be taken in several ways, but
they all end at the same quote (`kept_pattern_eq_some_iff`); from there the
request goes to the next such quote, with as few characters as there can be
or with any that are no such quote; and what may follow can always be
taken.
-/

namespace SolVendor.Import

open Text

namespace Preference

variable {prefer : Preference} {cs t rest : List Char} {q : Char} {number : Nat}
  {g : List (Nat × List Char)} {request : List Char} {w : Way}

/-! ## The clause -/

theorem takes_bindingsPattern : prefer.bindingsPattern.Takes cs t rest ↔ ∃ marks blanks after,
    t = marks ++ (blanks ++ (['f', 'r', 'o', 'm'] ++ after)) ∧ cs = t ++ rest ∧
      (∀ c ∈ marks, isBinding c = true) ∧ (blanks ≠ [] ∧ ∀ c ∈ blanks, isSpace c = true) ∧
      after ≠ [] ∧ ∀ c ∈ after, isSpace c = true := by
  unfold bindingsPattern
  simp only [Pattern.takes_seq, Pattern.takes_many, Pattern.takes_repeated, Pattern.takes_word]
  constructor
  · rintro ⟨marks, _, _, ⟨rfl, hmarks⟩, ⟨blanks, _, _, ⟨rfl, hblanks⟩,
      ⟨_, after, _, ⟨rfl, rfl⟩, ⟨rfl, hafter⟩, rfl⟩, rfl⟩, rfl⟩
    exact ⟨marks, blanks, after, rfl, by simp only [List.append_assoc], hmarks, hblanks, hafter⟩
  · rintro ⟨marks, blanks, after, rfl, rfl, hmarks, hblanks, hafter⟩
    exact ⟨marks, _, _, ⟨by simp only [List.append_assoc], hmarks⟩, ⟨blanks, _, _, ⟨rfl, hblanks⟩,
      ⟨_, after, _, ⟨rfl, rfl⟩, ⟨rfl, hafter⟩, rfl⟩, rfl⟩, rfl⟩

/-- Blanks, with or without bindings, are a clause. -/
theorem isClauseText_iff (prefer : Preference) (rest : List Char) :
    IsClauseText t ↔ ∃ blanks more, t = blanks ++ more ∧
      (blanks ≠ [] ∧ ∀ c ∈ blanks, isSpace c = true) ∧
        (prefer.bindingsPattern.Takes (more ++ rest) more rest ∨ more = []) := by
  simp only [takes_bindingsPattern]
  constructor
  · intro h
    cases h with
    | blanks hne hspace => exact ⟨t, [], (List.append_nil t).symm, ⟨hne, hspace⟩, .inr rfl⟩
    | @bindings a b marks after ha hmarks hb hne hafter =>
      refine ⟨[a], _, rfl, ⟨List.cons_ne_nil a [], by simpa using ha⟩,
        .inl ⟨marks, [b], after, rfl, trivial, hmarks, ⟨List.cons_ne_nil b [], by simpa using hb⟩, hne, hafter⟩⟩
  · rintro ⟨blanks, more, rfl, ⟨hne, hspace⟩, h | rfl⟩
    · obtain ⟨marks, blanks', after, rfl, -, hmarks, ⟨hne', hspace'⟩, hneAfter, hafter⟩ := h
      -- The first blank opens the clause, and the last one before the word stands for all of these.
      obtain ⟨a, blanks, rfl⟩ := List.exists_cons_of_ne_nil hne
      obtain ⟨init, b, rfl⟩ := (List.eq_nil_or_concat blanks').resolve_left hne'
      obtain ⟨ha, hblanks⟩ := List.forall_mem_cons.1 hspace
      rw [List.concat_eq_append] at hspace'
      have hall : ∀ c ∈ blanks ++ (marks ++ init), isBinding c = true := by
        intro c hc
        rcases List.mem_append.1 hc with hc | hc
        · exact isBinding_of_isSpace (hblanks c hc)
        rcases List.mem_append.1 hc with hc | hc
        · exact hmarks c hc
        · exact isBinding_of_isSpace (hspace' c (List.mem_append_left _ hc))
      have hclause := IsClauseText.bindings ha hall
        (hspace' b (List.mem_append_right _ (List.mem_singleton_self b))) hneAfter hafter
      simpa using hclause
    · rw [List.append_nil]
      exact .blanks hne hspace

/-- **What stands before the quote is the keyword and a clause**, however it is taken. -/
theorem takes_openingPattern : prefer.openingPattern.Takes cs t rest ↔
    ∃ clause, t = keyword ++ clause ∧ cs = keyword ++ (clause ++ rest) ∧ IsClauseText clause := by
  unfold openingPattern
  simp only [Pattern.takes_seq, Pattern.takes_word, Pattern.takes_repeated, Pattern.takes_optional]
  constructor
  · rintro ⟨_, _, _, ⟨rfl, rfl⟩, ⟨blanks, more, mid, ⟨rfl, hblanks⟩, hmore, rfl⟩, rfl⟩
    have hmid : mid = more ++ rest := by
      rcases hmore with hmore | ⟨rfl, rfl⟩
      · obtain ⟨_, _, _, -, heq, -⟩ := takes_bindingsPattern.1 hmore
        exact heq
      · rfl
    subst hmid
    refine ⟨blanks ++ more, rfl, by rw [List.append_assoc], ?_⟩
    exact (isClauseText_iff prefer rest).2 ⟨blanks, more, rfl, hblanks, hmore.imp_right And.left⟩
  · rintro ⟨clause, rfl, rfl, hclause⟩
    obtain ⟨blanks, more, rfl, hblanks, hmore⟩ := (isClauseText_iff prefer rest).1 hclause
    refine ⟨_, _, _, ⟨rfl, rfl⟩, ⟨blanks, more, more ++ rest, ⟨List.append_assoc .., hblanks⟩, ?_, rfl⟩, rfl⟩
    refine hmore.imp_right fun hnil => ⟨hnil, ?_⟩
    rw [hnil, List.nil_append]

theorem isGroupless_openingPattern : prefer.openingPattern.isGroupless = true := by
  unfold openingPattern bindingsPattern Pattern.optional Pattern.alternatives
  cases prefer.clause <;> rfl

theorem isGroupless_closingPattern : prefer.closingPattern.isGroupless = true := by
  unfold closingPattern Pattern.optional Pattern.alternatives
  cases prefer.terminator <;> cases prefer.semicolon <;> rfl

/-- What may follow the request can always be taken. -/
theorem ways_closingPattern_ne_nil : prefer.closingPattern.ways cs ≠ [] :=
  Pattern.ways_seq_ne_nil Pattern.ways_many_ne_nil fun _ => Pattern.ways_optional_ne_nil

/-! ## The request -/

/-- The text goes on with the request and the closing quote. -/
def Closes (q : Char) (cs request : List Char) : Prop :=
  ∃ rest, cs = request ++ q :: rest ∧ q ∉ request ∧ '\n' ∉ request

theorem Closes.unique {request' : List Char} (h : Closes q cs request) (h' : Closes q cs request')
    (hq : isQuote q = true) : request = request' := by
  obtain ⟨rest, rfl, hr⟩ := h
  obtain ⟨rest', heq, hr'⟩ := h'
  exact Quotes.unique ⟨q, rest, rfl, hq, hr⟩ ⟨q, rest', congrArg (q :: ·) heq, hq, hr'⟩

/-- The request of a way that ends before the closing quote. -/
def closing? (q : Char) (w : Way) : Option (List Char) :=
  if w.rest.head? = some q then some w.taken else none

theorem closing?_eq_some_iff : closing? q w = some request ↔ w.rest.head? = some q ∧ w.taken = request := by
  unfold closing?
  rw [Option.ite_none_right_eq_some, Option.some.injEq]

/-- One character further on, it is the same question. -/
theorem closing?_cons (c : Char) : closing? q { w with taken := c :: w.taken } = (closing? q w).map (c :: ·) := by
  unfold closing?
  split <;> rfl

/-- With as few characters as there can be, a request ends at the first closing quote. -/
theorem findSome?_spans (hq : q ≠ '\n') :
    (Pattern.spans (fun c => c ≠ '\n') cs).findSome? (closing? q) = some request ↔ Closes q cs request := by
  induction cs generalizing request with
  | nil =>
    constructor
    · intro h
      cases h
    · rintro ⟨rest, heq, -⟩
      exact absurd heq.symm (List.append_ne_nil_of_right_ne_nil _ (List.cons_ne_nil q rest))
  | cons c cs ih =>
    rw [Pattern.spans, List.findSome?_cons]
    by_cases hc : c = q
    · subst hc
      have hfirst : closing? c ⟨[], [], c :: cs⟩ = some [] := closing?_eq_some_iff.2 ⟨rfl, rfl⟩
      rw [hfirst, Option.some.injEq]
      constructor
      · rintro rfl
        exact ⟨cs, rfl, List.not_mem_nil, List.not_mem_nil⟩
      · rintro ⟨rest, heq, hnot, -⟩
        cases request with
        | nil => rfl
        | cons d request =>
          obtain ⟨rfl, -⟩ := List.cons.inj heq
          exact absurd List.mem_cons_self hnot
    · have hfirst : closing? q ⟨[], [], c :: cs⟩ = none := if_neg fun h => hc (Option.some.inj h)
      rw [hfirst]
      by_cases hfeed : c = '\n'
      · subst hfeed
        simp only [ne_eq, not_true_eq_false, decide_false, Bool.false_eq_true, if_false,
          List.findSome?_nil, reduceCtorEq, false_iff]
        rintro ⟨rest, heq, -, hnot⟩
        cases request with
        | nil => exact hc (List.cons.inj heq).1
        | cons d request =>
          obtain ⟨rfl, -⟩ := List.cons.inj heq
          exact hnot List.mem_cons_self
      · have hshift : (closing? q ∘ fun w : Way => { w with taken := c :: w.taken }) =
            Option.map (c :: ·) ∘ closing? q := funext fun w => closing?_cons c
        simp only [if_pos (decide_eq_true hfeed), List.findSome?_map, hshift]
        rw [← List.map_findSome?, Option.map_eq_some_iff]
        constructor
        · rintro ⟨request, h, rfl⟩
          obtain ⟨rest, rfl, hnot, hnot'⟩ := ih.1 h
          exact ⟨rest, rfl, by simp [Ne.symm hc, hnot], by simp [Ne.symm hfeed, hnot']⟩
        · rintro ⟨rest, heq, hnot, hnot'⟩
          cases request with
          | nil => exact absurd (List.cons.inj heq).1 hc
          | cons d request =>
            obtain ⟨rfl, rfl⟩ := List.cons.inj heq
            exact ⟨request, ih.2 ⟨rest, rfl, fun h => hnot (List.mem_cons_of_mem _ h),
              fun h => hnot' (List.mem_cons_of_mem _ h)⟩, rfl⟩

/-- So does a request of characters that are no such quote. -/
theorem exists_takes_many_iff (greedy : Bool) :
    (∃ rest, (Pattern.many greedy fun c => c ≠ q && c ≠ '\n').Takes cs request rest ∧
      rest.head? = some q) ↔ Closes q cs request := by
  simp only [Pattern.takes_many, Bool.and_eq_true, decide_eq_true_eq]
  constructor
  · rintro ⟨rest, ⟨rfl, hall⟩, hhead⟩
    obtain ⟨rest, rfl⟩ := List.head?_eq_some_iff.1 hhead
    exact ⟨rest, rfl, fun h => (hall q h).1 rfl, fun h => (hall '\n' h).2 rfl⟩
  · rintro ⟨rest, rfl, hnot, hnot'⟩
    exact ⟨q :: rest, ⟨rfl, fun c hc => ⟨fun h => hnot (h ▸ hc), fun h => hnot' (h ▸ hc)⟩⟩, rfl⟩

/-- What a group and the quote after it keep. -/
theorem kept_group_quote {p : Pattern} (hp : p.isGroupless = true) :
    (Pattern.seq (.group number p) (.char fun c => c = q)).kept cs =
      ((p.ways cs).findSome? (closing? q)).map fun request => [(number, request)] := by
  have hgroups : ∀ w ∈ p.ways cs, w.groups = [] := fun w hw => Pattern.groups_of_isGroupless hp hw
  unfold Pattern.kept
  rw [Pattern.head?_ways_seq, Pattern.ways, List.findSome?_map]
  generalize p.ways cs = ws at hgroups ⊢
  induction ws with
  | nil => rfl
  | cons w ws ih =>
    obtain ⟨hw, hws⟩ := List.forall_mem_cons.1 hgroups
    rw [List.findSome?_cons, List.findSome?_cons, Function.comp_apply]
    rcases w with ⟨taken, groups, _ | ⟨c, rest⟩⟩
    · exact ih hws
    · by_cases hc : c = q
      · subst hc
        obtain rfl : groups = [] := hw
        simp [closing?, Way.keep, Pattern.ways, Way.append]
      · simp only [closing?, Way.keep, Pattern.ways, hc, decide_false, Bool.false_eq_true, if_false,
          List.head?_nil, Option.map_none, List.head?_cons, Option.some.injEq]
        exact ih hws

/-- **A request is what stands before the next such quote**, however it is taken. -/
theorem kept_inside (hq : isQuote q = true) :
    (Pattern.seq (.group number (prefer.insidePattern q)) (.char fun c => c = q)).kept cs = some g ↔
      ∃ request, Closes q cs request ∧ g = [(number, request)] := by
  have hfeed : q ≠ '\n' := by
    rintro rfl
    cases hq
  have hgroupless : (prefer.insidePattern q).isGroupless = true := by
    unfold insidePattern
    cases prefer.inside <;> rfl
  have hfirst : ∀ request, ((prefer.insidePattern q).ways cs).findSome? (closing? q) = some request ↔
      Closes q cs request := by
    intro request
    unfold insidePattern
    cases prefer.inside with
    | fewest => exact findSome?_spans hfeed
    | unquoted greedy =>
      -- All ways that end at a quote end at the same one.
      have hclose : ∀ w ∈ (Pattern.many greedy fun c => c ≠ q && c ≠ '\n').ways cs,
          ∀ r, closing? q w = some r → Closes q cs r := by
        intro w hw r hr
        obtain ⟨hhead, rfl⟩ := closing?_eq_some_iff.1 hr
        exact (exists_takes_many_iff greedy).1 ⟨w.rest, Pattern.takes_of_mem hw, hhead⟩
      constructor
      · intro h
        obtain ⟨w, hw, hr⟩ := List.exists_of_findSome?_eq_some h
        exact hclose w hw request hr
      · intro h
        obtain ⟨_, ⟨w, hw, rfl, rfl⟩, hhead⟩ := (exists_takes_many_iff greedy).2 h
        have hends : (closing? q w).isSome := by
          rw [closing?_eq_some_iff.2 ⟨hhead, rfl⟩]
          rfl
        obtain ⟨r, hr⟩ := Option.isSome_iff_exists.1 (List.findSome?_isSome_iff.2 ⟨w, hw, hends⟩)
        obtain ⟨w', hw', hr'⟩ := List.exists_of_findSome?_eq_some hr
        exact hr.trans (congrArg some ((hclose w' hw' r hr').unique h hq))
  rw [kept_group_quote hgroupless, Option.map_eq_some_iff]
  simp only [hfirst, eq_comm (b := g)]

theorem kept_quotedPattern (hq : isQuote q = true) :
    (prefer.quotedPattern q number).kept cs = some g ↔
      ∃ cs' request, cs = q :: cs' ∧ Closes q cs' request ∧ g = [(number, request)] := by
  unfold quotedPattern
  have hfirst : ∀ {t rest : List Char}, (Pattern.char fun c => c = q).Takes cs t rest ↔
      t = [q] ∧ cs = q :: rest := by
    intro t rest
    rw [Pattern.takes_char]
    constructor
    · rintro ⟨c, hc, rfl, rfl⟩
      obtain rfl := of_decide_eq_true hc
      exact ⟨rfl, rfl⟩
    · rintro ⟨rfl, rfl⟩
      exact ⟨q, decide_eq_true rfl, rfl, rfl⟩
  rw [Pattern.kept_seq_eq_some_iff rfl]
  · simp only [hfirst, kept_inside hq]
    constructor
    · rintro ⟨_, cs', ⟨-, rfl⟩, request, h⟩
      exact ⟨cs', request, rfl, h⟩
    · rintro ⟨cs', request, rfl, h⟩
      exact ⟨[q], cs', ⟨rfl, rfl⟩, request, h⟩
  · intro t t' rest rest' g g' ht hg ht' hg'
    obtain ⟨-, rfl⟩ := hfirst.1 ht
    obtain ⟨-, heq⟩ := hfirst.1 ht'
    obtain ⟨-, rfl⟩ := List.cons.inj heq
    exact Option.some.inj (hg.symm.trans hg')

/-! ## The statement -/

/-- The group in which the pattern keeps what stands between such quotes. -/
def groupOf (q : Char) : Nat :=
  if q = '\x22' then 1 else 2

theorem ways_quotedPattern_of_ne {c : Char} (hc : c ≠ q) :
    (prefer.quotedPattern q number).ways (c :: cs) = [] := by
  unfold quotedPattern Pattern.ways
  simp [Pattern.ways, hc]

/-- Of the two kinds of quotes a text starts with at most one. -/
theorem kept_quotes : (Pattern.alternatives prefer.double (prefer.quotedPattern '\x22' 1)
    (prefer.quotedPattern '\x27' 2)).kept cs = some g ↔
      ∃ q cs' request, cs = q :: cs' ∧ isQuote q = true ∧ Closes q cs' request ∧
        g = [(groupOf q, request)] := by
  rw [Pattern.kept_alternatives]
  · rw [kept_quotedPattern (by decide), kept_quotedPattern (by decide)]
    constructor
    · rintro (⟨cs', request, rfl, h, rfl⟩ | ⟨cs', request, rfl, h, rfl⟩)
      · exact ⟨_, cs', request, rfl, by decide, h, rfl⟩
      · exact ⟨_, cs', request, rfl, by decide, h, rfl⟩
    · rintro ⟨q, cs', request, rfl, hq, h, rfl⟩
      unfold isQuote at hq
      rw [Bool.or_eq_true, decide_eq_true_eq, decide_eq_true_eq] at hq
      rcases hq with rfl | rfl
      · exact .inl ⟨cs', request, rfl, h, rfl⟩
      · exact .inr ⟨cs', request, rfl, h, rfl⟩
  · cases cs with
    | nil => exact .inl rfl
    | cons c cs =>
      by_cases hc : c = '\x22'
      · subst hc
        exact .inr (ways_quotedPattern_of_ne (by decide))
      · exact .inl (ways_quotedPattern_of_ne hc)

/-- **All ways through a clause end at the same quote**, so what the pattern keeps is what the text states. -/
theorem kept_pattern_eq_some_iff (prefer : Preference) : prefer.pattern.kept cs = some g ↔
    ∃ clause q cs' request, cs = keyword ++ (clause ++ q :: cs') ∧ IsClauseText clause ∧
      isQuote q = true ∧ Closes q cs' request ∧ g = [(groupOf q, request)] := by
  unfold pattern
  rw [Pattern.kept_seq_eq_some_iff isGroupless_openingPattern]
  · simp only [Pattern.kept_seq_of_total isGroupless_closingPattern fun _ => ways_closingPattern_ne_nil,
      takes_openingPattern, kept_quotes]
    constructor
    · rintro ⟨_, _, ⟨clause, rfl, rfl, hclause⟩, q, cs', request, rfl, hq, h, hg⟩
      exact ⟨clause, q, cs', request, rfl, hclause, hq, h, hg⟩
    · rintro ⟨clause, q, cs', request, rfl, hclause, hq, h, hg⟩
      exact ⟨_, _, ⟨clause, rfl, rfl, hclause⟩, q, cs', request, rfl, hq, h, hg⟩
  · intro t t' rest rest' g g' ht hg ht' hg'
    rw [Pattern.kept_seq_of_total isGroupless_closingPattern fun _ => ways_closingPattern_ne_nil] at hg hg'
    obtain ⟨clause, rfl, rfl, hclause⟩ := takes_openingPattern.1 ht
    obtain ⟨clause', rfl, heq, hclause'⟩ := takes_openingPattern.1 ht'
    obtain ⟨q, cs, request, rfl, hq, ⟨_, hcs, hr⟩, rfl⟩ := kept_quotes.1 hg
    obtain ⟨q', cs', request', rfl, hq', ⟨_, hcs', hr'⟩, rfl⟩ := kept_quotes.1 hg'
    have hquotes : Quotes (q :: cs) request := ⟨q, _, congrArg (q :: ·) hcs, hq, hr⟩
    have hquotes' : Quotes (q' :: cs') request' := ⟨q', _, congrArg (q' :: ·) hcs', hq', hr'⟩
    have hrest := hquotes.rest_unique hquotes' hclause hclause' (List.append_cancel_left heq)
    obtain ⟨rfl, rfl⟩ := List.cons.inj hrest
    rw [hquotes.unique hquotes']

/-- Whichever group is asked first, the request is what was kept. -/
theorem requestOf_eq (hw : w.groups = [(groupOf q, request)]) : prefer.requestOf w = request := by
  have hboth : orOther (w.group 1) (w.group 2) = request ∧ orOther (w.group 2) (w.group 1) = request := by
    unfold Way.group
    rw [hw]
    unfold groupOf
    split <;> cases request <;> exact ⟨rfl, rfl⟩
  unfold requestOf
  split
  · exact hboth.1
  · exact hboth.2

/-- **The preferred way through the pattern is a reading of the statement.** -/
theorem map_requestOf_ways (prefer : Preference) (cs : List Char) :
    (prefer.pattern.ways cs).head?.map prefer.requestOf = request? cs := by
  have hkept : prefer.pattern.kept cs = (prefer.pattern.ways cs).head?.map Way.groups := rfl
  cases hway : (prefer.pattern.ways cs).head? with
  | some w =>
    rw [hway] at hkept
    obtain ⟨clause, q, cs', request, rfl, hclause, hq, ⟨rest, rfl, hr⟩, hg⟩ :=
      (kept_pattern_eq_some_iff prefer).1 hkept
    rw [Option.map_some, requestOf_eq hg, eq_comm, request?_eq_some_iff]
    exact ⟨clause, _, rfl, hclause, q, rest, rfl, hq, hr⟩
  | none =>
    rw [hway] at hkept
    rw [Option.map_none, eq_comm, request?_eq_none_iff]
    rintro request ⟨clause, _, rfl, hclause, q, rest, rfl, hq, hr⟩
    have hsome := (kept_pattern_eq_some_iff prefer).2
      ⟨clause, q, _, request, rfl, hclause, hq, ⟨rest, rfl, hr⟩, rfl⟩
    rw [hkept] at hsome
    cases hsome

/-- **Searching finds what scanning finds.** -/
theorem map_requestOf_search (prefer : Preference) (cs : List Char) :
    (prefer.pattern.search cs).map prefer.requestOf = scan cs := by
  induction cs with
  | nil => exact map_requestOf_ways prefer []
  | cons c cs ih =>
    have hfirst := map_requestOf_ways prefer (c :: cs)
    unfold Pattern.search scan
    cases hway : (prefer.pattern.ways (c :: cs)).head? with
    | some w =>
      rw [hway] at hfirst
      rw [← hfirst]
      rfl
    | none =>
      rw [hway] at hfirst
      rw [← hfirst]
      exact ih

theorem searchLine_eq (prefer : Preference) (line : String) : prefer.searchLine line = scanLine line := by
  unfold searchLine scanLine
  rw [← map_requestOf_search prefer, Option.map_map]
  rfl

end Preference

/-! ## Lines -/

/-- From a start on the line the request is stated. -/
def StatesAt (line : String) (start : Nat) (request : String) : Prop :=
  States (line.toList.drop start) request.toList

/-- **A line has the request that is stated from the least start**, and none if nothing is stated from any. From
one start at most one request is stated. Searching the line for the pattern of a statement finds the same, and
would whatever the pattern preferred. -/
theorem scanLine_characterisation (line : String) :
    (scanLine line = none ↔ ∀ i request, ¬StatesAt line i request) ∧
      (∀ request, scanLine line = some request ↔
        ∃ i, StatesAt line i request ∧ ∀ j < i, ∀ request', ¬StatesAt line j request') ∧
      (∀ i request request', StatesAt line i request → StatesAt line i request' → request = request') ∧
      Preference.standard.searchLine line = scanLine line ∧
      ∀ prefer : Preference, prefer.searchLine line = Preference.standard.searchLine line := by
  have hstates : ∀ i, (∀ request : String, ¬StatesAt line i request) ↔
      ∀ request, ¬States (line.toList.drop i) request := by
    intro i
    refine ⟨fun h request hr => h (String.ofList request) ?_, fun h request => h request.toList⟩
    unfold StatesAt
    rwa [String.toList_ofList]
  unfold scanLine
  refine ⟨?_, fun request => ?_, fun i request request' h h' => ?_, Preference.standard.searchLine_eq line,
    fun prefer => ?_⟩
  · rw [Option.map_eq_none_iff, scan_eq_none_iff]
    exact forall_congr' fun i => (hstates i).symm
  · simp only [hstates]
    unfold StatesAt
    rw [← scan_eq_some_iff, Option.map_eq_some_iff]
    constructor
    · rintro ⟨cs, hcs, rfl⟩
      rwa [String.toList_ofList]
    · exact fun h => ⟨_, h, String.ofList_toList⟩
  · exact String.toList_inj.1 (h.unique h')
  · rw [prefer.searchLine_eq, Preference.standard.searchLine_eq]

/-- The first keyword opens a request that is not closed, so the statement starts at the second one. -/
example : scanLine "import \x22a import {from} from 'b' 'c'" = some "b" := by decide +kernel

end SolVendor.Import
