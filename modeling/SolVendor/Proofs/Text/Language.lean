import Mathlib.Data.List.Basic
import SolVendor.Proofs.Text.Pattern
/-!
# Text — the pieces that a pattern stands for

Most patterns take a piece or not whatever the text after it is. Such a
pattern stands for a set of pieces (`Pattern.Describes`), and the sets of a
sequence, of alternatives and of repetitions come from those of their parts
(`Describes.seq`, `Describes.either`, `Describes.upTo`). A pattern that has
to take the whole text, with two groups and a word between them, keeps two
pieces of these sets (`exists_of_mem_ways_grouped`), and takes every text
made of such pieces (`ways_grouped_ne_nil`).
-/

namespace SolVendor.Text.Pattern

variable {p q : Pattern} {accepts : Char → Bool} {greedy inOrder : Bool} {number : Nat}
  {P Q : List Char → Prop} {cs t rest sep : List Char} {w : Way}

/-- From the start of any text the pattern takes the pieces of a set, and no others. -/
def Describes (p : Pattern) (P : List Char → Prop) : Prop :=
  ∀ cs t rest, p.Takes cs t rest ↔ cs = t ++ rest ∧ P t

theorem Describes.congr (hp : p.Describes P) (h : ∀ t, P t ↔ Q t) : p.Describes Q := by
  intro cs t rest
  rw [hp, h]

theorem describes_empty : empty.Describes (· = []) := by
  intro cs t rest
  rw [takes_empty]
  constructor
  · rintro ⟨rfl, rfl⟩
    exact ⟨rfl, rfl⟩
  · rintro ⟨rfl, rfl⟩
    exact ⟨rfl, rfl⟩

theorem describes_char : (char accepts).Describes fun t => ∃ c, accepts c = true ∧ t = [c] := by
  intro cs t rest
  rw [takes_char]
  constructor
  · rintro ⟨c, hc, rfl, rfl⟩
    exact ⟨rfl, c, hc, rfl⟩
  · rintro ⟨rfl, c, hc, rfl⟩
    exact ⟨c, hc, rfl, rfl⟩

theorem describes_word : (word sep).Describes (· = sep) := by
  intro cs t rest
  rw [takes_word]
  constructor
  · rintro ⟨rfl, rfl⟩
    exact ⟨rfl, rfl⟩
  · rintro ⟨rfl, rfl⟩
    exact ⟨rfl, rfl⟩

theorem describes_many : (many greedy accepts).Describes fun t => ∀ c ∈ t, accepts c = true :=
  fun _ _ _ => takes_many

theorem describes_repeated :
    (repeated greedy accepts).Describes fun t => t ≠ [] ∧ ∀ c ∈ t, accepts c = true :=
  fun _ _ _ => takes_repeated

/-- **A sequence stands for two pieces put together.** -/
theorem Describes.seq (hp : p.Describes P) (hq : q.Describes Q) :
    (seq p q).Describes fun t => ∃ t₁ t₂, P t₁ ∧ Q t₂ ∧ t = t₁ ++ t₂ := by
  intro cs t rest
  rw [takes_seq]
  constructor
  · rintro ⟨t₁, t₂, mid, hfirst, hsecond, rfl⟩
    obtain ⟨rfl, h₁⟩ := (hp _ _ _).1 hfirst
    obtain ⟨rfl, h₂⟩ := (hq _ _ _).1 hsecond
    exact ⟨(List.append_assoc _ _ _).symm, t₁, t₂, h₁, h₂, rfl⟩
  · rintro ⟨rfl, t₁, t₂, h₁, h₂, rfl⟩
    exact ⟨t₁, t₂, t₂ ++ rest, (hp _ _ _).2 ⟨List.append_assoc _ _ _, h₁⟩, (hq _ _ _).2 ⟨rfl, h₂⟩, rfl⟩

theorem Describes.either (hp : p.Describes P) (hq : q.Describes Q) :
    (either p q).Describes fun t => P t ∨ Q t := by
  intro cs t rest
  rw [takes_either, hp, hq, ← and_or_left]

theorem Describes.optional (hp : p.Describes P) :
    (optional greedy p).Describes fun t => P t ∨ t = [] := by
  intro cs t rest
  rw [takes_optional, hp, and_or_left]
  refine or_congr_right ⟨?_, ?_⟩
  · rintro ⟨rfl, rfl⟩
    exact ⟨rfl, rfl⟩
  · rintro ⟨rfl, rfl⟩
    exact ⟨rfl, rfl⟩

/-- **A bounded repetition stands for lists of pieces**, none of them longer than the bound. -/
theorem Describes.upTo (hp : p.Describes P) (n : Nat) :
    (p.upTo n).Describes fun t => ∃ ts : List (List Char),
      ts.length ≤ n ∧ (∀ s ∈ ts, P s) ∧ t = ts.flatten := by
  induction n with
  | zero =>
    refine describes_empty.congr fun t => ⟨?_, ?_⟩
    · rintro rfl
      exact ⟨[], Nat.le_refl 0, fun s hs => absurd hs List.not_mem_nil, rfl⟩
    · rintro ⟨ts, hlength, -, rfl⟩
      rw [List.eq_nil_of_length_eq_zero (Nat.le_zero.1 hlength), List.flatten_nil]
  | succ n ih =>
    refine (hp.seq ih).optional.congr fun t => ⟨?_, ?_⟩
    · rintro (⟨s, _, hs, ⟨ts, hlength, hts, rfl⟩, rfl⟩ | rfl)
      · exact ⟨s :: ts, Nat.succ_le_succ hlength, List.forall_mem_cons.2 ⟨hs, hts⟩, rfl⟩
      · exact ⟨[], Nat.zero_le _, fun s hs => absurd hs List.not_mem_nil, rfl⟩
    · rintro ⟨ts, hlength, hts, rfl⟩
      cases ts with
      | nil => exact .inr rfl
      | cons s ts =>
        obtain ⟨hs, hts⟩ := List.forall_mem_cons.1 hts
        exact .inl ⟨s, _, hs, ⟨ts, Nat.le_of_succ_le_succ hlength, hts, rfl⟩, rfl⟩

/-! ## Two groups -/

theorem takes_ends : ends.Takes cs t rest ↔ cs = [] ∧ t = [] ∧ rest = [] := by
  unfold Takes ways
  cases cs with
  | nil => simp [eq_comm]
  | cons c cs => simp

theorem takes_group : (group number p).Takes cs t rest ↔ p.Takes cs t rest := by
  constructor
  · rintro ⟨w, hw, rfl, rfl⟩
    obtain ⟨v, hv, rfl⟩ := List.mem_map.1 hw
    exact ⟨v, hv, rfl, rfl⟩
  · rintro ⟨w, hw, rfl, rfl⟩
    exact ⟨_, List.mem_map_of_mem hw, rfl, rfl⟩

theorem Describes.group (hp : p.Describes P) : (group number p).Describes P := by
  intro cs t rest
  rw [takes_group, hp]

/-- A group around a pattern without groups keeps the piece. -/
theorem groups_of_mem_ways_group (hp : p.isGroupless = true) (hw : w ∈ (group number p).ways cs) :
    w.groups = [(number, w.taken)] := by
  obtain ⟨v, hv, rfl⟩ := List.mem_map.1 hw
  unfold Way.keep
  rw [groups_of_isGroupless hp hv]

theorem mem_ways_seq : w ∈ (seq p q).ways cs ↔
    ∃ u ∈ p.ways cs, ∃ v ∈ q.ways u.rest, w = u.append v := by
  rw [ways, List.mem_flatMap]
  simp only [List.mem_map, eq_comm]

/-- The whole text as two groups with a word between them. -/
def grouped (p : Pattern) (sep : List Char) (q : Pattern) : Pattern :=
  seq (group 1 p) (seq (word sep) (seq (group 2 q) ends))

theorem isGroupless_word : (word sep).isGroupless = true := by
  induction sep with
  | nil => rfl
  | cons c sep ih =>
    unfold word isGroupless
    rw [ih]
    rfl

theorem isGroupless_upTo (hp : p.isGroupless = true) (n : Nat) : (p.upTo n).isGroupless = true := by
  induction n with
  | zero => rfl
  | succ n ih =>
    show ((p.isGroupless && (p.upTo n).isGroupless) && true) = true
    rw [hp, ih]
    rfl

/-- **What the groups keep are pieces that make up the text**, in whatever way the text is taken. -/
theorem exists_of_mem_ways_grouped (hp : p.Describes P) (hq : q.Describes Q)
    (hpg : p.isGroupless = true) (hqg : q.isGroupless = true) (hw : w ∈ (grouped p sep q).ways cs) :
    P (w.group 1) ∧ Q (w.group 2) ∧ cs = w.group 1 ++ (sep ++ w.group 2) := by
  obtain ⟨w₁, h₁, _, hmid, rfl⟩ := mem_ways_seq.1 hw
  obtain ⟨w₂, h₂, _, hlast, rfl⟩ := mem_ways_seq.1 hmid
  obtain ⟨w₃, h₃, w₄, h₄, rfl⟩ := mem_ways_seq.1 hlast
  obtain ⟨hcs, hP⟩ := (hp.group _ _ _).1 (takes_of_mem h₁)
  obtain ⟨hsep, hcs₁⟩ := takes_word.1 (takes_of_mem h₂)
  obtain ⟨hcs₂, hQ⟩ := (hq.group _ _ _).1 (takes_of_mem h₃)
  obtain ⟨hcs₃, -, -⟩ := takes_ends.1 (takes_of_mem h₄)
  have hgroups : (w₁.append (w₂.append (w₃.append w₄))).groups = [(1, w₁.taken), (2, w₃.taken)] := by
    unfold Way.append
    rw [groups_of_mem_ways_group hpg h₁, groups_of_mem_ways_group hqg h₃,
      groups_of_isGroupless isGroupless_word h₂, groups_of_isGroupless rfl h₄]
    rfl
  have hfirst : (w₁.append (w₂.append (w₃.append w₄))).group 1 = w₁.taken := by
    unfold Way.group
    rw [hgroups]
    rfl
  have hsecond : (w₁.append (w₂.append (w₃.append w₄))).group 2 = w₃.taken := by
    unfold Way.group
    rw [hgroups]
    rfl
  rw [hfirst, hsecond]
  refine ⟨hP, hQ, ?_⟩
  rw [hcs, hcs₁, hcs₂, hcs₃, List.append_nil]

/-- **Every text made of such pieces can be taken.** -/
theorem ways_grouped_ne_nil {s t : List Char} (hp : p.Describes P) (hq : q.Describes Q) (hs : P s)
    (ht : Q t) : (grouped p sep q).ways (s ++ (sep ++ t)) ≠ [] := by
  have hends : ends.Takes [] [] [] := takes_ends.2 ⟨rfl, rfl, rfl⟩
  have hlast : (seq (Pattern.group 2 q) ends).Takes t t [] := by
    refine takes_seq.2 ⟨t, [], [], (hq.group _ _ _).2 ⟨(List.append_nil t).symm, ht⟩, hends, ?_⟩
    exact (List.append_nil t).symm
  have hmid : (seq (word sep) (seq (Pattern.group 2 q) ends)).Takes (sep ++ t) (sep ++ t) [] :=
    takes_seq.2 ⟨sep, t, t, takes_word.2 ⟨rfl, rfl⟩, hlast, rfl⟩
  obtain ⟨w, hw, -⟩ := takes_seq.2 ⟨s, _, _, (hp.group _ _ _).2 ⟨rfl, hs⟩, hmid, rfl⟩
  exact List.ne_nil_of_mem hw

end SolVendor.Text.Pattern
