import Mathlib.Data.List.Basic
import SolVendor.Text.Pattern
/-!
# Text — what patterns take and keep

Which pieces a pattern can take from a text has nothing to do with what it
prefers (`Pattern.Takes`, with one lemma for each kind of pattern). What
its preferred way keeps in groups (`Pattern.kept`) does in general. It does
not if the groups stand in the second part of a sequence and all ways
through the first part lead to the same groups
(`kept_seq_eq_some_iff`), nor through a last part without groups that can
always be taken (`kept_seq_of_total`).
-/

namespace SolVendor.Text.Pattern

variable {p q : Pattern} {accepts : Char → Bool} {greedy inOrder : Bool} {number : Nat}
  {cs t rest : List Char} {g : List (Nat × List Char)} {w : Way}

/-! ## What a pattern can take -/

/-- The pattern can take the piece from the start of the text, and leave the rest. -/
def Takes (p : Pattern) (cs t rest : List Char) : Prop :=
  ∃ w ∈ p.ways cs, w.taken = t ∧ w.rest = rest

theorem takes_of_mem (h : w ∈ p.ways cs) : p.Takes cs w.taken w.rest := ⟨w, h, rfl, rfl⟩

theorem takes_empty : empty.Takes cs t rest ↔ t = [] ∧ rest = cs := by
  simp [Takes, ways, eq_comm]

theorem takes_char : (char accepts).Takes cs t rest ↔ ∃ c, accepts c = true ∧ t = [c] ∧ cs = c :: rest := by
  cases cs with
  | nil => simp [Takes, ways]
  | cons d ds =>
    unfold Takes ways
    split
    · rename_i hd
      constructor
      · rintro ⟨w, hw, rfl, rfl⟩
        obtain rfl := List.mem_singleton.1 hw
        exact ⟨d, hd, rfl, rfl⟩
      · rintro ⟨c, -, rfl, heq⟩
        obtain ⟨rfl, rfl⟩ := List.cons.inj heq
        exact ⟨_, List.mem_singleton_self _, rfl, rfl⟩
    · rename_i hd
      constructor
      · rintro ⟨w, hw, -⟩
        exact absurd hw List.not_mem_nil
      · rintro ⟨c, hc, -, heq⟩
        obtain ⟨rfl, -⟩ := List.cons.inj heq
        exact absurd hc hd

theorem takes_seq : (seq p q).Takes cs t rest ↔
    ∃ t₁ t₂ mid, p.Takes cs t₁ mid ∧ q.Takes mid t₂ rest ∧ t = t₁ ++ t₂ := by
  constructor
  · rintro ⟨w, hw, rfl, rfl⟩
    obtain ⟨u, hu, hw⟩ := List.mem_flatMap.1 hw
    obtain ⟨v, hv, rfl⟩ := List.mem_map.1 hw
    exact ⟨u.taken, v.taken, u.rest, takes_of_mem hu, takes_of_mem (p := q) hv, rfl⟩
  · rintro ⟨_, _, _, ⟨u, hu, rfl, rfl⟩, ⟨v, hv, rfl, rfl⟩, rfl⟩
    exact ⟨u.append v, List.mem_flatMap.2 ⟨u, hu, List.mem_map.2 ⟨v, hv, rfl⟩⟩, rfl, rfl⟩

theorem takes_either : (either p q).Takes cs t rest ↔ p.Takes cs t rest ∨ q.Takes cs t rest := by
  unfold Takes
  rw [ways]
  simp only [List.mem_append, or_and_right, exists_or]

/-- The order of alternatives makes no difference to what can be taken. -/
theorem takes_alternatives :
    (alternatives inOrder p q).Takes cs t rest ↔ p.Takes cs t rest ∨ q.Takes cs t rest := by
  cases inOrder with
  | true => exact takes_either
  | false => exact takes_either.trans or_comm

theorem takes_optional :
    (optional greedy p).Takes cs t rest ↔ p.Takes cs t rest ∨ t = [] ∧ rest = cs := by
  unfold optional
  rw [takes_alternatives, takes_empty]

/-- The spans of a class, however they are listed. -/
theorem exists_mem_spans : (∃ w ∈ spans accepts cs, w.taken = t ∧ w.rest = rest) ↔
    cs = t ++ rest ∧ ∀ c ∈ t, accepts c = true := by
  induction cs generalizing t with
  | nil =>
    constructor
    · rintro ⟨w, hw, rfl, rfl⟩
      obtain rfl := List.mem_singleton.1 hw
      simp
    · rintro ⟨heq, -⟩
      obtain ⟨rfl, rfl⟩ := List.append_eq_nil_iff.1 heq.symm
      exact ⟨_, List.mem_singleton_self _, rfl, rfl⟩
  | cons d ds ih =>
    unfold spans
    constructor
    · rintro ⟨w, hw, rfl, rfl⟩
      rcases List.mem_cons.1 hw with rfl | hw
      · simp
      · split at hw
        · rename_i hd
          obtain ⟨v, hv, rfl⟩ := List.mem_map.1 hw
          obtain ⟨heq, hall⟩ := ih.1 ⟨v, hv, rfl, rfl⟩
          exact ⟨by rw [heq]; rfl, List.forall_mem_cons.2 ⟨hd, hall⟩⟩
        · exact absurd hw List.not_mem_nil
    · rintro ⟨heq, hall⟩
      cases t with
      | nil => exact ⟨_, List.mem_cons_self, rfl, heq⟩
      | cons c t =>
        obtain ⟨rfl, hrest⟩ := List.cons.inj heq
        obtain ⟨hd, hall⟩ := List.forall_mem_cons.1 hall
        obtain ⟨v, hv, rfl, rfl⟩ := ih.2 ⟨hrest, hall⟩
        rw [if_pos hd]
        exact ⟨_, List.mem_cons_of_mem _ (List.mem_map_of_mem hv), rfl, rfl⟩

/-- Nor does greed. -/
theorem mem_ways_many : w ∈ (many greedy accepts).ways cs ↔ w ∈ spans accepts cs := by
  unfold ways
  cases greedy with
  | true => exact List.mem_reverse
  | false => exact Iff.rfl

theorem takes_many :
    (many greedy accepts).Takes cs t rest ↔ cs = t ++ rest ∧ ∀ c ∈ t, accepts c = true := by
  rw [← exists_mem_spans]
  unfold Takes
  simp only [mem_ways_many]

theorem takes_repeated : (repeated greedy accepts).Takes cs t rest ↔
    cs = t ++ rest ∧ t ≠ [] ∧ ∀ c ∈ t, accepts c = true := by
  unfold repeated
  rw [takes_seq]
  constructor
  · rintro ⟨_, t₂, mid, hfirst, hmany, rfl⟩
    obtain ⟨c, hc, rfl, rfl⟩ := takes_char.1 hfirst
    obtain ⟨rfl, hall⟩ := takes_many.1 hmany
    exact ⟨rfl, List.cons_ne_nil _ _, List.forall_mem_cons.2 ⟨hc, hall⟩⟩
  · rintro ⟨rfl, hne, hall⟩
    obtain ⟨c, t, rfl⟩ := List.exists_cons_of_ne_nil hne
    obtain ⟨hc, hall⟩ := List.forall_mem_cons.1 hall
    exact ⟨[c], t, t ++ rest, takes_char.2 ⟨c, hc, rfl, rfl⟩, takes_many.2 ⟨rfl, hall⟩, rfl⟩

theorem takes_word {ds : List Char} : (word ds).Takes cs t rest ↔ t = ds ∧ cs = ds ++ rest := by
  induction ds generalizing cs t with
  | nil =>
    unfold word
    rw [takes_empty, List.nil_append, eq_comm (a := rest)]
  | cons d ds ih =>
    unfold word
    rw [takes_seq]
    constructor
    · rintro ⟨_, t₂, mid, hfirst, hword, rfl⟩
      obtain ⟨c, hc, rfl, rfl⟩ := takes_char.1 hfirst
      obtain rfl := of_decide_eq_true hc
      obtain ⟨rfl, rfl⟩ := ih.1 hword
      exact ⟨rfl, rfl⟩
    · rintro ⟨rfl, rfl⟩
      exact ⟨[d], ds, ds ++ rest, takes_char.2 ⟨d, decide_eq_true rfl, rfl, rfl⟩, ih.2 ⟨rfl, rfl⟩, rfl⟩

/-! ## What the preferred way keeps -/

/-- What the preferred way from the start of the text keeps in groups. -/
def kept (p : Pattern) (cs : List Char) : Option (List (Nat × List Char)) :=
  (p.ways cs).head?.map Way.groups

/-- The pattern has no groups. -/
def isGroupless : Pattern → Bool
  | empty | char _ | ends | many _ _ => true
  | seq first second | either first second => first.isGroupless && second.isGroupless
  | group _ _ => false

/-- A pattern without groups keeps nothing. -/
theorem groups_of_isGroupless (hp : p.isGroupless = true) (hw : w ∈ p.ways cs) : w.groups = [] := by
  induction p generalizing cs w with
  | empty =>
    obtain rfl := List.mem_singleton.1 hw
    rfl
  | char accepts =>
    cases cs with
    | nil => exact absurd hw List.not_mem_nil
    | cons c cs =>
      unfold ways at hw
      split at hw
      · obtain rfl := List.mem_singleton.1 hw
        rfl
      · exact absurd hw List.not_mem_nil
  | ends =>
    unfold ways at hw
    split at hw
    · obtain rfl := List.mem_singleton.1 hw
      rfl
    · exact absurd hw List.not_mem_nil
  | seq first second ih ih' =>
    obtain ⟨h, h'⟩ := Bool.and_eq_true_iff.1 hp
    obtain ⟨u, hu, hw⟩ := List.mem_flatMap.1 hw
    obtain ⟨v, hv, rfl⟩ := List.mem_map.1 hw
    unfold Way.append
    rw [ih h hu, ih' h' hv, List.nil_append]
  | either first second ih ih' =>
    obtain ⟨h, h'⟩ := Bool.and_eq_true_iff.1 hp
    rcases List.mem_append.1 hw with hw | hw
    · exact ih h hw
    · exact ih' h' hw
  | many greedy accepts =>
    have hspans := mem_ways_many.1 hw
    clear hw
    induction cs generalizing w with
    | nil =>
      obtain rfl := List.mem_singleton.1 hspans
      rfl
    | cons c cs ih =>
      unfold spans at hspans
      rcases List.mem_cons.1 hspans with rfl | hspans
      · rfl
      · split at hspans
        · obtain ⟨v, hv, rfl⟩ := List.mem_map.1 hspans
          exact ih (w := v) hv
        · exact absurd hspans List.not_mem_nil
  | group number inner _ => cases hp

/-- The preferred way through a sequence: the first way through the first part from which the second part can go
on. -/
theorem head?_ways_seq : ((seq p q).ways cs).head? =
    (p.ways cs).findSome? fun w => (q.ways w.rest).head?.map w.append := by
  rw [ways, List.head?_flatMap]
  simp only [List.head?_map]

theorem kept_seq_of_isGroupless (hp : p.isGroupless = true) :
    (seq p q).kept cs = (p.ways cs).findSome? fun w => q.kept w.rest := by
  have hgroups : ∀ w ∈ p.ways cs, w.groups = [] := fun w hw => groups_of_isGroupless hp hw
  unfold kept
  rw [head?_ways_seq]
  generalize p.ways cs = ws at hgroups ⊢
  induction ws with
  | nil => rfl
  | cons w ws ih =>
    obtain ⟨hw, hws⟩ := List.forall_mem_cons.1 hgroups
    rw [List.findSome?_cons, List.findSome?_cons]
    cases (q.ways w.rest).head? with
    | none => exact ih hws
    | some v =>
      rw [Option.map_some, Option.map_some, Option.map_some, Way.append, hw, List.nil_append]

/-- **Preferences in the first part make no difference** if wherever that part ends, the second one keeps the
same. -/
theorem kept_seq_eq_some_iff (hp : p.isGroupless = true)
    (hsame : ∀ {t t' rest rest' g g'}, p.Takes cs t rest → q.kept rest = some g →
      p.Takes cs t' rest' → q.kept rest' = some g' → g = g') :
    (seq p q).kept cs = some g ↔ ∃ t rest, p.Takes cs t rest ∧ q.kept rest = some g := by
  rw [kept_seq_of_isGroupless hp]
  constructor
  · intro h
    obtain ⟨w, hw, hg⟩ := List.exists_of_findSome?_eq_some h
    exact ⟨_, _, takes_of_mem hw, hg⟩
  · rintro ⟨t, rest, ⟨w, hw, rfl, rfl⟩, hg⟩
    have hsome : ((p.ways cs).findSome? fun w => q.kept w.rest).isSome :=
      List.findSome?_isSome_iff.2 ⟨w, hw, by rw [hg]; rfl⟩
    obtain ⟨g', hg'⟩ := Option.isSome_iff_exists.1 hsome
    obtain ⟨w', hw', heq⟩ := List.exists_of_findSome?_eq_some hg'
    rw [hg', hsame (takes_of_mem hw') heq (takes_of_mem hw) hg]

/-- **Nor do those in a last part** without groups that can always be taken. -/
theorem kept_seq_of_total (hq : q.isGroupless = true) (htotal : ∀ cs, q.ways cs ≠ []) :
    (seq p q).kept cs = p.kept cs := by
  have hfirst : ∀ w : Way, ((q.ways w.rest).head?.map w.append).map Way.groups = some w.groups := by
    intro w
    obtain ⟨v, vs, hv⟩ := List.exists_cons_of_ne_nil (htotal w.rest)
    have hnone := groups_of_isGroupless hq (hv ▸ List.mem_cons_self : v ∈ q.ways w.rest)
    rw [hv, List.head?_cons, Option.map_some, Option.map_some, Way.append, hnone, List.append_nil]
  unfold kept
  rw [head?_ways_seq, List.map_findSome?]
  cases p.ways cs with
  | nil => rfl
  | cons w ws =>
    rw [List.findSome?_cons, Function.comp_apply, hfirst]
    rfl

/-- If at most one of two alternatives can be taken, their order makes no difference. -/
theorem kept_alternatives (h : p.ways cs = [] ∨ q.ways cs = []) :
    (alternatives inOrder p q).kept cs = some g ↔ p.kept cs = some g ∨ q.kept cs = some g := by
  unfold alternatives kept
  rcases h with h | h
  · cases inOrder <;> simp [ways, h]
  · cases inOrder <;> simp [ways, h]

/-- A repetition can always be taken. -/
theorem ways_many_ne_nil : (many greedy accepts).ways cs ≠ [] := by
  have hnone : (many greedy accepts).Takes cs [] cs :=
    takes_many.2 ⟨(List.nil_append cs).symm, fun c hc => absurd hc List.not_mem_nil⟩
  obtain ⟨w, hw, -⟩ := hnone
  exact List.ne_nil_of_mem hw

theorem ways_optional_ne_nil : (optional greedy p).ways cs ≠ [] := by
  have hnone : (optional greedy p).Takes cs [] cs := takes_optional.2 (.inr ⟨rfl, rfl⟩)
  obtain ⟨w, hw, -⟩ := hnone
  exact List.ne_nil_of_mem hw

theorem ways_seq_ne_nil (hp : p.ways cs ≠ []) (hq : ∀ cs, q.ways cs ≠ []) : (seq p q).ways cs ≠ [] := by
  obtain ⟨w, hw⟩ := List.exists_mem_of_ne_nil _ hp
  obtain ⟨v, hv⟩ := List.exists_mem_of_ne_nil _ (hq w.rest)
  exact List.ne_nil_of_mem (List.mem_flatMap.2 ⟨w, hw, List.mem_map_of_mem hv⟩)

end SolVendor.Text.Pattern
