import Mathlib.Data.List.Basic
import Mathlib.Data.List.TakeDrop
import Mathlib.Data.List.TakeWhile
import SolVendor.Import.Statement
/-!
# Import — the grammar of statements

A text states a request (`States`) if it starts with the keyword, a clause
and the request between two equal quotes. Since the characters of a clause
are no quotes, it does so in one way only (`States.unique`). Reading finds
the request that is stated at the start of a text (`request?_eq_some_iff`),
and scanning the one that is stated from the least start
(`scan_eq_some_iff`).
-/

namespace SolVendor.Import

variable {text t t' body rest rest' cs : List Char} {q q' : Char} {request request' : List Char}

/-- What stands between the keyword and the quote: blanks alone; or a blank, any characters of bindings, a blank,
`from` and blanks. -/
inductive IsClauseText : List Char → Prop
  | blanks {t : List Char} (hne : t ≠ []) (h : ∀ c ∈ t, isSpace c = true) : IsClauseText t
  | bindings {a b : Char} {marks after : List Char} (ha : isSpace a = true)
      (hmarks : ∀ c ∈ marks, isBinding c = true) (hb : isSpace b = true) (hne : after ≠ [])
      (hafter : ∀ c ∈ after, isSpace c = true) :
      IsClauseText (a :: (marks ++ b :: 'f' :: 'r' :: 'o' :: 'm' :: after))

/-- The text starts with a request between two equal quotes, on one line. -/
def Quotes (text request : List Char) : Prop :=
  ∃ q rest, text = q :: (request ++ q :: rest) ∧ isQuote q = true ∧ q ∉ request ∧ '\n' ∉ request

/-- The text starts with a statement for the request. -/
def States (text request : List Char) : Prop :=
  ∃ t rest, text = keyword ++ (t ++ rest) ∧ IsClauseText t ∧ Quotes rest request

/-! ## Clauses -/

theorem isBinding_of_isSpace {c : Char} (h : isSpace c = true) : isBinding c = true := by
  unfold isBinding
  rw [h, Bool.or_true]

/-- A clause is made of the characters of bindings. -/
theorem IsClauseText.isBinding (h : IsClauseText t) : ∀ c ∈ t, isBinding c = true := by
  cases h with
  | blanks _ hspace => exact fun c hc => isBinding_of_isSpace (hspace c hc)
  | bindings ha hmarks hb _ hafter =>
    have hword : ∀ c ∈ ['f', 'r', 'o', 'm'], Import.isBinding c = true := List.all_eq_true.1 (by decide)
    intro c hc
    rcases List.mem_cons.1 hc with rfl | hc
    · exact isBinding_of_isSpace ha
    rcases List.mem_append.1 hc with hc | hc
    · exact hmarks c hc
    rcases List.mem_cons.1 hc with rfl | hc
    · exact isBinding_of_isSpace hb
    have hc : c ∈ ['f', 'r', 'o', 'm'] ++ _ := hc
    rcases List.mem_append.1 hc with hc | hc
    · exact hword c hc
    · exact isBinding_of_isSpace (hafter c hc)

/-- A quote is none of them. -/
theorem isBinding_of_isQuote (h : isQuote q = true) : isBinding q = false := by
  unfold isQuote at h
  rw [Bool.or_eq_true, decide_eq_true_eq, decide_eq_true_eq] at h
  rcases h with rfl | rfl <;> decide

/-- A text ends in a blank, `from` and blanks. -/
theorem endsInFrom_iff : endsInFrom cs = true ↔ ∃ marks b after,
    cs = marks ++ b :: 'f' :: 'r' :: 'o' :: 'm' :: after ∧ isSpace b = true ∧ after ≠ [] ∧
      ∀ c ∈ after, isSpace c = true := by
  unfold endsInFrom
  constructor
  · intro h
    split at h
    · rename_i a pre b marks hspan
      rw [List.span_eq_takeWhile_dropWhile] at hspan
      obtain ⟨htake, hdrop⟩ := Prod.mk.inj hspan
      have hsplit := List.takeWhile_append_dropWhile (p := isSpace) (l := cs.reverse)
      rw [htake, hdrop] at hsplit
      refine ⟨marks.reverse, b, (a :: pre).reverse, ?_, h, by simp, fun c hc => ?_⟩
      · rw [← List.reverse_reverse cs, ← hsplit]
        simp
      · rw [List.mem_reverse, ← htake] at hc
        exact List.mem_takeWhile_imp hc
    · cases h
  · rintro ⟨marks, b, after, rfl, hb, hne, hafter⟩
    have hall : ∀ c ∈ after.reverse, isSpace c = true := fun c hc => hafter c (List.mem_reverse.1 hc)
    -- Backwards, the blanks after the word come first, and the word is none.
    have hspan : (marks ++ b :: 'f' :: 'r' :: 'o' :: 'm' :: after).reverse.span isSpace =
        (after.reverse, 'm' :: 'o' :: 'r' :: 'f' :: b :: marks.reverse) := by
      have hreverse : (marks ++ b :: 'f' :: 'r' :: 'o' :: 'm' :: after).reverse =
          after.reverse ++ 'm' :: 'o' :: 'r' :: 'f' :: b :: marks.reverse := by simp
      rw [hreverse, List.span_eq_takeWhile_dropWhile, List.takeWhile_append_of_pos hall,
        List.dropWhile_append_of_pos hall, List.takeWhile_cons_of_neg (by decide),
        List.dropWhile_cons_of_neg (by decide), List.append_nil]
    obtain ⟨a, pre, hcons⟩ := List.exists_cons_of_ne_nil (mt List.reverse_eq_nil_iff.1 hne)
    rw [hspan, hcons]
    exact hb

/-- What the scanner takes for a clause is one. -/
theorem isClause_iff (h : ∀ c ∈ t, isBinding c = true) : isClause t = true ↔ IsClauseText t := by
  constructor
  · intro hclause
    cases t with
    | nil => cases hclause
    | cons a cs =>
      unfold isClause at hclause
      rw [Bool.and_eq_true, Bool.or_eq_true, List.all_eq_true, endsInFrom_iff] at hclause
      obtain ⟨ha, hcs | ⟨marks, b, after, rfl, hb, hne, hafter⟩⟩ := hclause
      · exact .blanks (List.cons_ne_nil a cs) (List.forall_mem_cons.2 ⟨ha, hcs⟩)
      · refine .bindings ha (fun c hc => h c ?_) hb hne hafter
        exact List.mem_cons_of_mem a (List.mem_append_left _ hc)
  · intro hclause
    cases hclause with
    | blanks hne hspace =>
      obtain ⟨a, cs, rfl⟩ := List.exists_cons_of_ne_nil hne
      obtain ⟨ha, hcs⟩ := List.forall_mem_cons.1 hspace
      rw [isClause, ha, List.all_eq_true.2 hcs]
      rfl
    | bindings ha _ hb hne hafter =>
      rw [isClause, ha, endsInFrom_iff.2 ⟨_, _, _, rfl, hb, hne, hafter⟩, Bool.or_true]
      rfl

/-! ## Requests between quotes -/

theorem Quotes.exists_cons (h : Quotes text request) : ∃ q cs, text = q :: cs ∧ isQuote q = true := by
  obtain ⟨q, rest, rfl, hq, -⟩ := h
  exact ⟨q, _, rfl, hq⟩

/-- A text quotes one request only. -/
theorem Quotes.unique (h : Quotes text request) (h' : Quotes text request') : request = request' := by
  obtain ⟨q, rest, rfl, -, hnot, -⟩ := h
  obtain ⟨q', rest', heq, -, hnot', -⟩ := h'
  obtain ⟨rfl, heq⟩ := List.cons.inj heq
  have htake : ∀ {r rest : List Char}, q ∉ r → (r ++ q :: rest).takeWhile (· ≠ q) = r := by
    intro r rest hr
    have hall : ∀ c ∈ r, decide (c ≠ q) = true := fun c hc =>
      decide_eq_true fun heq => hr (heq ▸ hc)
    rw [List.takeWhile_append_of_pos hall, List.takeWhile_cons_of_neg (by simp), List.append_nil]
  rw [← htake hnot, heq, htake hnot']

/-- Reading takes what is quoted. -/
theorem quoted?_eq_some_iff : quoted? text = some request ↔ Quotes text request := by
  cases text with
  | nil => simp [quoted?, Quotes]
  | cons q cs =>
    rw [quoted?]
    constructor
    · intro h
      split at h
      · rename_i hq
        split at h
        · rename_i body c rest hspan
          rw [List.span_eq_takeWhile_dropWhile] at hspan
          obtain ⟨htake, hdrop⟩ := Prod.mk.inj hspan
          have hsplit := List.takeWhile_append_dropWhile (p := fun c => c ≠ q && c ≠ '\n') (l := cs)
          rw [htake, hdrop] at hsplit
          split at h
          · rename_i hc
            obtain rfl := Option.some.inj h
            have hbody : ∀ c ∈ body, c ≠ q ∧ c ≠ '\n' := by
              intro c hc
              have hp := List.mem_takeWhile_imp (htake ▸ hc)
              simpa using hp
            refine ⟨q, rest, by rw [← hsplit, hc], hq, fun hmem => ?_, fun hmem => ?_⟩
            · exact (hbody q hmem).1 rfl
            · exact (hbody '\n' hmem).2 rfl
          · cases h
        · cases h
      · cases h
    · rintro ⟨q', rest, heq, hq, hquote, hfeed⟩
      obtain ⟨rfl, rfl⟩ := List.cons.inj heq
      have hall : ∀ c ∈ request, (c ≠ q && c ≠ '\n') = true := by
        intro c hc
        have hne : c ≠ q := fun heq => hquote (heq ▸ hc)
        have hne' : c ≠ '\n' := fun heq => hfeed (heq ▸ hc)
        simp [hne, hne']
      have hspan : (request ++ q :: rest).span (fun c => c ≠ q && c ≠ '\n') =
          (request, q :: rest) := by
        rw [List.span_eq_takeWhile_dropWhile, List.takeWhile_append_of_pos hall,
          List.dropWhile_append_of_pos hall, List.takeWhile_cons_of_neg (by simp),
          List.dropWhile_cons_of_neg (by simp), List.append_nil]
      rw [if_pos hq, hspan]
      exact if_pos rfl

/-! ## Statements -/

/-- **The quote tells where a clause ends.** -/
theorem Quotes.span_isBinding (h : Quotes rest request) (hall : ∀ c ∈ t, isBinding c = true) :
    (t ++ rest).takeWhile isBinding = t ∧ (t ++ rest).dropWhile isBinding = rest := by
  obtain ⟨q, cs, rfl, hq⟩ := h.exists_cons
  have hnot : ¬isBinding q = true := by
    rw [isBinding_of_isQuote hq]
    exact Bool.false_ne_true
  rw [List.takeWhile_append_of_pos hall, List.dropWhile_append_of_pos hall,
    List.takeWhile_cons_of_neg hnot, List.dropWhile_cons_of_neg hnot, List.append_nil]
  exact ⟨rfl, rfl⟩

/-- What follows the clause does not depend on the clause. -/
theorem Quotes.rest_unique (h : Quotes rest request) (h' : Quotes rest' request')
    (ht : IsClauseText t) (ht' : IsClauseText t') (heq : t ++ rest = t' ++ rest') : rest = rest' := by
  rw [← (h.span_isBinding ht.isBinding).2, heq, (h'.span_isBinding ht'.isBinding).2]

/-- **A text states one request only.** -/
theorem States.unique (h : States text request) (h' : States text request') : request = request' := by
  obtain ⟨t, rest, rfl, ht, hq⟩ := h
  obtain ⟨t', rest', heq, ht', hq'⟩ := h'
  obtain rfl := hq.rest_unique hq' ht ht' (List.append_cancel_left heq)
  exact hq.unique hq'

/-- **Reading finds what the text states.** -/
theorem request?_eq_some_iff : request? text = some request ↔ States text request := by
  unfold request?
  simp only [Option.bind_eq_bind, Option.bind_eq_some_iff, Option.ite_none_right_eq_some,
    quoted?_eq_some_iff, List.isPrefixOf?_eq_some_iff_append_eq]
  constructor
  · rintro ⟨cs, rfl, body, hq, hclause, heq⟩
    obtain rfl := Option.some.inj heq
    have hall : ∀ c ∈ cs.takeWhile isBinding, isBinding c = true := fun c => List.mem_takeWhile_imp
    refine ⟨_, _, ?_, (isClause_iff hall).1 hclause, hq⟩
    rw [List.takeWhile_append_dropWhile]
  · rintro ⟨t, rest, rfl, ht, hq⟩
    obtain ⟨htake, hdrop⟩ := hq.span_isBinding ht.isBinding
    refine ⟨_, rfl, request, ?_, ?_, rfl⟩
    · rw [hdrop]
      exact hq
    · rw [htake]
      exact (isClause_iff ht.isBinding).2 ht

theorem request?_eq_none_iff : request? text = none ↔ ∀ request, ¬States text request := by
  simp only [Option.eq_none_iff_forall_ne_some, ne_eq, request?_eq_some_iff]

theorem not_states_nil : ¬States [] request := by
  rintro ⟨t, rest, heq, -⟩
  cases heq

/-! ## The first statement -/

/-- Scanning finds nothing if nothing is stated from any start. -/
theorem scan_eq_none_iff : scan text = none ↔ ∀ i request, ¬States (text.drop i) request := by
  induction text with
  | nil => simp [scan, not_states_nil]
  | cons c cs ih =>
    unfold scan
    cases hfirst : request? (c :: cs) with
    | some body =>
      simp only [reduceCtorEq, false_iff, not_forall, not_not]
      exact ⟨0, body, request?_eq_some_iff.1 hfirst⟩
    | none =>
      simp only
      rw [ih]
      constructor
      · rintro h (_ | i)
        · exact request?_eq_none_iff.1 hfirst
        · exact h i
      · exact fun h i => h (i + 1)

/-- **Scanning finds what is stated from the least start.** -/
theorem scan_eq_some_iff : scan text = some request ↔
    ∃ i, States (text.drop i) request ∧ ∀ j < i, ∀ request', ¬States (text.drop j) request' := by
  induction text with
  | nil => simp [scan, not_states_nil]
  | cons c cs ih =>
    unfold scan
    cases hfirst : request? (c :: cs) with
    | some body =>
      have hbody := request?_eq_some_iff.1 hfirst
      constructor
      · intro h
        obtain rfl := Option.some.inj h
        exact ⟨0, hbody, fun j hj => absurd hj (Nat.not_lt_zero j)⟩
      · rintro ⟨_ | i, hi, hleast⟩
        · rw [hbody.unique hi]
        · exact absurd hbody (hleast 0 (Nat.succ_pos i) body)
    | none =>
      have hnone := request?_eq_none_iff.1 hfirst
      simp only
      rw [ih]
      constructor
      · rintro ⟨i, hi, hleast⟩
        refine ⟨i + 1, hi, ?_⟩
        rintro (_ | j) hj
        · exact hnone
        · exact hleast j (Nat.lt_of_succ_lt_succ hj)
      · rintro ⟨_ | i, hi, hleast⟩
        · exact absurd hi (hnone request)
        · exact ⟨i, hi, fun j hj => hleast (j + 1) (Nat.succ_lt_succ hj)⟩

end SolVendor.Import
