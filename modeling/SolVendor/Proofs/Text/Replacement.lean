import Mathlib.Tactic.SplitIfs
import SolVendor.Proofs.Text.Encoding
/-!
# Text — what replacement stands for

What decoding with replacement gives is told here without the decoder. A
text is read off bytes piece by piece (`Decodes`): the bytes of a character
are that character; as many bytes as some character begins with, if they
are none, become one replacement character; and so does a byte that no
character begins with. Bytes decode to one text only, the one that the
decoder computes (`decodes_iff`).

A byte below 128 is a piece of its own, so decoding can be cut there
(`decode_append_cons`), and the lines of the decoded text are the decoded
lines (`splitOn_decode`).
-/

namespace SolVendor.Text.Utf8

variable {bs rest piece : List UInt8} {cs ds : List Char} {b : UInt8} {c : Char} {n : Nat}
  {u : Unfinished} {s : State}

/-- Some character is written with these bytes first. -/
def Begins (piece : List UInt8) : Prop :=
  ∃ c, piece <+: String.utf8EncodeChar c

/-- Bytes as text, piece by piece: a character, a character that breaks off as late as it can, or a byte that
no character begins with. -/
inductive Decodes : List UInt8 → List Char → Prop
  | nil : Decodes [] []
  | char {rest : List UInt8} {cs : List Char} (c : Char) :
      Decodes rest cs → Decodes (String.utf8EncodeChar c ++ rest) (c :: cs)
  | broken {piece rest : List UInt8} {cs : List Char} :
      piece ≠ [] → Begins piece → (∀ c, piece ≠ String.utf8EncodeChar c) →
      (∀ b ∈ rest.head?, ¬ Begins (piece ++ [b])) →
      Decodes rest cs → Decodes (piece ++ rest) (replacement :: cs)
  | stray {b : UInt8} {rest : List UInt8} {cs : List Char} :
      ¬ Begins [b] → Decodes rest cs → Decodes (b :: rest) (replacement :: cs)

/-! ## Pieces -/

/-- A character has the number that it is made from. -/
theorem toNat_val_ofNat (h : n.isValidChar) : (Char.ofNat n).val.toNat = n := by
  rw [Char.ofNat, dif_pos h]
  rfl

/-- A byte below 128 is written for the character with its number. -/
theorem encodeChar_ofNat (h : b.toNat < 0x80) : String.utf8EncodeChar (Char.ofNat b.toNat) = [b] := by
  unfold String.utf8EncodeChar
  simp only [toNat_val_ofNat (.inl (Nat.lt_trans h (by decide)))]
  rw [if_pos (by omega), UInt8.ofNat_toNat]

/-- It stands in no other character. -/
theorem encodeChar_eq_of_mem (hb : b ∈ String.utf8EncodeChar c) (h : b.toNat < 0x80) :
    String.utf8EncodeChar c = [b] := by
  rw [← encodeChar_ofNat h, ← toNat_eq_of_mem_encodeChar hb h, Char.ofNat_toNat]

/-- So no character goes on with it. -/
theorem not_begins_concat (hne : piece ≠ []) (h : b.toNat < 0x80) : ¬ Begins (piece ++ [b]) := by
  rintro ⟨c, hc⟩
  have hlen := hc.length_le
  rw [encodeChar_eq_of_mem (hc.subset (by simp)) h, List.length_append] at hlen
  have hpos := List.length_pos_iff.2 hne
  simp only [List.length_singleton] at hlen
  omega

/-- The bytes that a character begins with are followed as far as some character goes on with them. -/
theorem exists_longest (hbegins : Begins piece) (rest : List UInt8) :
    ∃ more rest', rest = more ++ rest' ∧ Begins (piece ++ more) ∧
      ∀ b ∈ rest'.head?, ¬ Begins (piece ++ more ++ [b]) := by
  induction rest generalizing piece with
  | nil => exact ⟨[], [], rfl, by rwa [List.append_nil], by simp⟩
  | cons b rest ih =>
    by_cases hnext : Begins (piece ++ [b])
    · obtain ⟨more, rest', rfl, hmore, hlast⟩ := ih hnext
      have hcons : piece ++ b :: more = piece ++ [b] ++ more := by simp
      exact ⟨b :: more, rest', rfl, hcons ▸ hmore, hcons ▸ hlast⟩
    · exact ⟨[], b :: rest, rfl, by rwa [List.append_nil], by simpa using hnext⟩

/-- **All bytes can be read as text.** -/
theorem exists_decodes (bs : List UInt8) : ∃ cs, Decodes bs cs := by
  induction hlen : bs.length using Nat.strongRecOn generalizing bs with
  | _ len ih =>
    cases bs with
    | nil => exact ⟨[], .nil⟩
    | cons b rest =>
      by_cases hb : Begins [b]
      · obtain ⟨more, rest', rfl, hbegins, hlast⟩ := exists_longest hb rest
        have hshort : rest'.length < len := by
          rw [← hlen, List.length_cons, List.length_append]
          omega
        obtain ⟨cs, hcs⟩ := ih _ hshort rest' rfl
        by_cases hchar : ∃ c, [b] ++ more = String.utf8EncodeChar c
        · obtain ⟨c, hc⟩ := hchar
          have hdecodes := hcs.char c
          rw [← hc] at hdecodes
          exact ⟨_, hdecodes⟩
        · exact ⟨_, .broken (by simp) hbegins (fun c hc => hchar ⟨c, hc⟩) hlast hcs⟩
      · obtain ⟨cs, hcs⟩ := ih rest.length (by rw [← hlen]; exact Nat.lt_succ_self _) rest rfl
        exact ⟨_, .stray hb hcs⟩

/-! ## What the decoder has read -/

/-- What is read off some bytes from a state, and the state behind them. -/
def read : State → List UInt8 → List Char × State
  | s, [] => ([], s)
  | s, b :: bs => ((step s b.toNat).1 ++ (read (step s b.toNat).2 bs).1, (read (step s b.toNat).2 bs).2)

theorem run_cons (s : State) (b : UInt8) (bs : List UInt8) :
    run s (b :: bs) = (step s b.toNat).1 ++ run (step s b.toNat).2 bs := rfl

theorem run_append (s : State) (bs rest : List UInt8) :
    run s (bs ++ rest) = (read s bs).1 ++ run (read s bs).2 rest := by
  induction bs generalizing s with
  | nil => rfl
  | cons b bs ih => rw [List.cons_append, run_cons, ih, read, List.append_assoc]

/-- One more byte of an unfinished character. -/
def Unfinished.add (u : Unfinished) (b : UInt8) : Unfinished :=
  ⟨u.bits * 64 + (b.toNat - 0x80), u.missing - 1, 0x80, 0xBF⟩

/-- The byte goes on with an unfinished character. -/
def Unfinished.Admits (u : Unfinished) (b : UInt8) : Prop :=
  u.low ≤ b.toNat ∧ b.toNat ≤ u.high

theorem step_of_not_admits (h : ¬ u.Admits b) :
    step (some u) b.toNat = (replacement :: (start b.toNat).1, (start b.toNat).2) := by
  unfold Unfinished.Admits at h
  simp only [step, if_neg h]

theorem step_of_last (h : u.Admits b) (hmissing : u.missing ≤ 1) :
    step (some u) b.toNat = ([Char.ofNat (u.bits * 64 + (b.toNat - 0x80))], none) := by
  unfold Unfinished.Admits at h
  simp only [step, if_pos h, if_pos hmissing]

theorem step_of_missing (h : u.Admits b) (hmissing : ¬ u.missing ≤ 1) :
    step (some u) b.toNat = ([], some (u.add b)) := by
  unfold Unfinished.Admits at h
  simp only [step, if_pos h, if_neg hmissing]
  rfl

/-- A byte that begins no character. -/
theorem start_of_none (h : 0x80 ≤ n ∧ n < 0xC2 ∨ 0xF4 < n) : start n = ([replacement], none) := by
  unfold start
  rcases h with ⟨hlow, hhigh⟩ | h
  · rw [if_neg (by omega), if_pos hhigh]
  · rw [if_neg (by omega), if_neg (by omega), if_neg (by omega), if_neg (by omega), if_neg (by omega),
      if_neg (by omega), if_neg (by omega), if_neg (by omega), if_neg (by omega)]

/-- The byte is the first one of a character of two, three or four bytes, and so much of it is known then. -/
def IsFirst (n : Nat) (u : Unfinished) : Prop :=
  (0xC2 ≤ n ∧ n < 0xE0 ∧ u.bits = n - 0xC0 ∧ u.missing = 1 ∧ u.low = 0x80 ∧ u.high = 0xBF) ∨
    (0xE0 ≤ n ∧ n < 0xF0 ∧ u.bits = n - 0xE0 ∧ u.missing = 2 ∧
      u.low = (if n = 0xE0 then 0xA0 else 0x80) ∧ u.high = if n = 0xED then 0x9F else 0xBF) ∨
    (0xF0 ≤ n ∧ n ≤ 0xF4 ∧ u.bits = n - 0xF0 ∧ u.missing = 3 ∧
      u.low = (if n = 0xF0 then 0x90 else 0x80) ∧ u.high = if n = 0xF4 then 0x8F else 0xBF)

/-- Some byte goes on with it. -/
theorem IsFirst.low_le_high (h : IsFirst n u) : u.low ≤ u.high ∧ u.high < 0x100 := by
  rcases h with ⟨-, -, -, -, hlow, hhigh⟩ | ⟨-, -, -, -, hlow, hhigh⟩ | ⟨-, -, -, -, hlow, hhigh⟩ <;>
    rw [hlow, hhigh]
  · omega
  · split <;> split <;> omega
  · split <;> split <;> omega

/-- A byte is a character of its own, begins none, or is the first one of a longer character. -/
theorem start_cases (n : Nat) :
    (n < 0x80 ∧ start n = ([Char.ofNat n], none)) ∨ start n = ([replacement], none) ∨
      ∃ u, start n = ([], some u) ∧ IsFirst n u := by
  by_cases hown : n < 0x80
  · exact .inl ⟨hown, if_pos hown⟩
  by_cases hnone : n < 0xC2 ∨ 0xF4 < n
  · exact .inr (.inl (start_of_none (by omega)))
  refine .inr (.inr ?_)
  by_cases htwo : n < 0xE0
  · exact ⟨_, start_of_two (by omega) htwo, .inl ⟨by omega, htwo, rfl, rfl, rfl, rfl⟩⟩
  by_cases hthree : n < 0xF0
  · exact ⟨_, start_of_three (by omega) hthree,
      .inr (.inl ⟨by omega, hthree, rfl, rfl, rfl, rfl⟩)⟩
  · exact ⟨_, start_of_four (by omega) (by omega),
      .inr (.inr ⟨by omega, by omega, rfl, rfl, rfl, rfl⟩)⟩

theorem isFirst_of_start (h : start n = ([], some u)) : IsFirst n u := by
  rcases start_cases n with ⟨-, hstart⟩ | hstart | ⟨v, hstart, hfirst⟩
  · rw [hstart] at h
    cases h
  · rw [hstart] at h
    cases h
  · rw [hstart] at h
    obtain rfl := Option.some.inj (Prod.mk.inj h).2
    exact hfirst

/-- An unfinished character becomes something in the end. -/
theorem run_some_ne_nil (u : Unfinished) (bs : List UInt8) : run (some u) bs ≠ [] := by
  induction bs generalizing u with
  | nil => exact List.cons_ne_nil _ _
  | cons b bs ih =>
    rw [run_cons]
    by_cases hadmits : u.Admits b
    · by_cases hmissing : u.missing ≤ 1
      · rw [step_of_last hadmits hmissing]
        exact List.cons_ne_nil _ _
      · rw [step_of_missing hadmits hmissing]
        exact ih _
    · rw [step_of_not_admits hadmits]
      exact List.cons_ne_nil _ _

/-- **No bytes are passed over.** -/
theorem run_ne_nil (s : State) (hne : bs ≠ []) : run s bs ≠ [] := by
  cases s with
  | some u => exact run_some_ne_nil u bs
  | none =>
    obtain ⟨b, bs, rfl⟩ := List.exists_cons_of_ne_nil hne
    rw [run_cons]
    rcases start_cases b.toNat with ⟨-, hstart⟩ | hstart | ⟨u, hstart, -⟩
    · rw [step, hstart]
      exact List.cons_ne_nil _ _
    · rw [step, hstart]
      exact List.cons_ne_nil _ _
    · rw [step, hstart]
      exact run_some_ne_nil u bs

/-- The bytes finish a character. -/
def Finishes : Unfinished → List UInt8 → Prop
  | _, [] => False
  | u, b :: bs => u.Admits b ∧ if u.missing ≤ 1 then bs = [] else Finishes (u.add b) bs

/-- **A byte that goes on with a character can be followed until it is finished.** -/
theorem exists_finishes (h : u.Admits b) : ∃ bs, Finishes u (b :: bs) := by
  induction hm : u.missing using Nat.strongRecOn generalizing u b with
  | _ m ih =>
    by_cases hmissing : u.missing ≤ 1
    · exact ⟨[], h, by rw [if_pos hmissing]⟩
    · have hfewer : (u.add b).missing < m := by
        show u.missing - 1 < m
        omega
      obtain ⟨bs, hbs⟩ := ih _ hfewer (u := u.add b) (b := 0x80)
        ⟨Nat.le_refl 0x80, Nat.le_of_ble_eq_true rfl⟩ rfl
      exact ⟨_, h, by rwa [if_neg hmissing]⟩

/-- A character that lacks one byte is finished by any that goes on with it. -/
theorem exists_of_finishes_one (h : Finishes u bs) (hm : u.missing = 1) :
    ∃ b, bs = [b] ∧ u.Admits b := by
  cases bs with
  | nil => exact h.elim
  | cons b bs =>
    obtain ⟨hb, h⟩ := h
    rw [if_pos (Nat.le_of_eq hm)] at h
    exact ⟨b, by rw [h], hb⟩

/-- One that lacks more is finished by what finishes it after the next byte. -/
theorem exists_of_finishes_more (h : Finishes u bs) (hm : 1 < u.missing) :
    ∃ b rest, bs = b :: rest ∧ u.Admits b ∧ Finishes (u.add b) rest := by
  cases bs with
  | nil => exact h.elim
  | cons b bs =>
    obtain ⟨hb, h⟩ := h
    rw [if_neg (Nat.not_le.2 hm)] at h
    exact ⟨b, bs, rfl, hb, h⟩

/-- A byte is told by its number. -/
theorem eq_ofNat (b : UInt8) (h : b.toNat = n) : b = UInt8.ofNat n := by
  rw [← h, UInt8.ofNat_toNat]

/-- **Bytes that finish a character, after its first one, are the bytes of a character.** -/
theorem exists_encodeChar_of_start (hstart : start b.toNat = ([], some u)) (h : Finishes u bs) :
    ∃ c, b :: bs = String.utf8EncodeChar c := by
  -- The bounds of the second byte keep the number in the range that is written with so many bytes.
  rcases isFirst_of_start hstart with ⟨hlow, hhigh, hbits, hmissing, hbounds⟩ |
    ⟨hlow, hhigh, hbits, hmissing, hbounds⟩ | ⟨hlow, hhigh, hbits, hmissing, hbounds⟩
  · obtain ⟨b₂, rfl, h₂⟩ := exists_of_finishes_one h hmissing
    unfold Unfinished.Admits at h₂
    generalize hn : (b.toNat - 0xC0) * 64 + (b₂.toNat - 0x80) = n
    refine ⟨Char.ofNat n, ?_⟩
    unfold String.utf8EncodeChar
    rw [toNat_val_ofNat (.inl (by omega))]
    dsimp only
    rw [if_neg (by omega), if_pos (by omega), ← eq_ofNat b (by omega), ← eq_ofNat b₂ (by omega)]
  · obtain ⟨b₂, rest, rfl, h₂, h⟩ := exists_of_finishes_more h (by omega)
    obtain ⟨b₃, rfl, h₃⟩ := exists_of_finishes_one h (show u.missing - 1 = 1 by omega)
    have h₃ : 0x80 ≤ b₃.toNat ∧ b₃.toNat ≤ 0xBF := h₃
    unfold Unfinished.Admits at h₂
    generalize hn : ((b.toNat - 0xE0) * 64 + (b₂.toNat - 0x80)) * 64 + (b₃.toNat - 0x80) = n
    have hnumber : n.isValidChar ∧ 0x7FF < n ∧ 0x80 ≤ b₂.toNat ∧ b₂.toNat ≤ 0xBF := by
      unfold Nat.isValidChar
      split_ifs at hbounds <;> omega
    refine ⟨Char.ofNat n, ?_⟩
    unfold String.utf8EncodeChar
    rw [toNat_val_ofNat hnumber.1]
    dsimp only
    rw [if_neg (by omega), if_neg (by omega), if_pos (by omega), ← eq_ofNat b (by omega),
      ← eq_ofNat b₂ (by omega), ← eq_ofNat b₃ (by omega)]
  · obtain ⟨b₂, rest, rfl, h₂, h⟩ := exists_of_finishes_more h (by omega)
    obtain ⟨b₃, rest, rfl, h₃, h⟩ := exists_of_finishes_more h (show 1 < u.missing - 1 by omega)
    obtain ⟨b₄, rfl, h₄⟩ := exists_of_finishes_one h (show u.missing - 1 - 1 = 1 by omega)
    have h₃ : 0x80 ≤ b₃.toNat ∧ b₃.toNat ≤ 0xBF := h₃
    have h₄ : 0x80 ≤ b₄.toNat ∧ b₄.toNat ≤ 0xBF := h₄
    unfold Unfinished.Admits at h₂
    generalize hn : (((b.toNat - 0xF0) * 64 + (b₂.toNat - 0x80)) * 64 + (b₃.toNat - 0x80)) * 64 +
      (b₄.toNat - 0x80) = n
    have hnumber : n.isValidChar ∧ 0xFFFF < n ∧ 0x80 ≤ b₂.toNat ∧ b₂.toNat ≤ 0xBF := by
      unfold Nat.isValidChar
      split_ifs at hbounds <;> omega
    refine ⟨Char.ofNat n, ?_⟩
    unfold String.utf8EncodeChar
    rw [toNat_val_ofNat hnumber.1]
    dsimp only
    rw [if_neg (by omega), if_neg (by omega), if_neg (by omega), ← eq_ofNat b (by omega),
      ← eq_ofNat b₂ (by omega), ← eq_ofNat b₃ (by omega), ← eq_ofNat b₄ (by omega)]

/-- **What has been read of a character begins one**: what finishes it makes the bytes of a character. -/
theorem exists_encodeChar_of_read (pre : List UInt8) {v : Unfinished}
    (h : read (some v) bs = ([], some u))
    (hv : ∀ t, Finishes v t → ∃ c, pre ++ t = String.utf8EncodeChar c) :
    ∀ t, Finishes u t → ∃ c, pre ++ bs ++ t = String.utf8EncodeChar c := by
  induction bs generalizing v pre with
  | nil =>
    obtain rfl := Option.some.inj (Prod.mk.inj h).2
    rwa [List.append_nil]
  | cons b bs ih =>
    obtain ⟨hread, hstate⟩ := Prod.mk.inj h
    obtain ⟨hstep, hrest⟩ := List.append_eq_nil_iff.1 hread
    -- A byte that gives nothing goes on with the character and leaves it unfinished.
    by_cases hadmits : v.Admits b
    · by_cases hmissing : v.missing ≤ 1
      · rw [step_of_last hadmits hmissing] at hstep
        cases hstep
      · rw [step_of_missing hadmits hmissing] at hrest hstate
        have hnext : ∀ t, Finishes (v.add b) t → ∃ c, pre ++ [b] ++ t = String.utf8EncodeChar c := by
          intro t ht
          rw [List.append_assoc]
          exact hv (b :: t) ⟨hadmits, by rwa [if_neg hmissing]⟩
        have hall := ih (pre ++ [b]) (Prod.ext hrest hstate) hnext
        rwa [List.append_assoc pre] at hall
    · rw [step_of_not_admits hadmits] at hstep
      cases hstep

/-- **The beginning of a character is kept in the state.** -/
theorem exists_read_of_begins (hne : piece ≠ []) (hbegins : Begins piece)
    (hchar : ∀ c, piece ≠ String.utf8EncodeChar c) : ∃ u, read none piece = ([], some u) := by
  obtain ⟨c, t, ht⟩ := hbegins
  have htail : t ≠ [] := by
    rintro rfl
    exact hchar c (by rwa [List.append_nil] at ht)
  have hrun : (read none piece).1 ++ run (read none piece).2 t = [c] := by
    rw [← run_append, ht, ← List.append_nil (String.utf8EncodeChar c), run_encodeChar]
    rfl
  have hpiece := run_append none piece []
  rw [List.append_nil] at hpiece
  rcases hread : read none piece with ⟨cs, _ | u⟩
  all_goals
    rw [hread] at hrun hpiece
    obtain ⟨rfl, -⟩ | ⟨-, hnil⟩ := List.append_eq_singleton_iff.1 hrun
  · exact absurd hpiece (run_ne_nil none hne)
  · exact absurd hnil (run_ne_nil none htail)
  · exact ⟨u, rfl⟩
  · exact absurd hnil (run_ne_nil (some u) htail)

/-- **A character breaks off at the first byte that no character goes on with.** -/
theorem run_of_broken (hne : piece ≠ []) (hbegins : Begins piece)
    (hchar : ∀ c, piece ≠ String.utf8EncodeChar c) (hlast : ∀ b ∈ rest.head?, ¬ Begins (piece ++ [b])) :
    run none (piece ++ rest) = replacement :: run none rest := by
  obtain ⟨u, hread⟩ := exists_read_of_begins hne hbegins hchar
  rw [run_append, hread, List.nil_append]
  cases rest with
  | nil => rfl
  | cons b rest =>
    have hadmits : ¬ u.Admits b := by
      intro hadmits
      obtain ⟨t, ht⟩ := exists_finishes hadmits
      obtain ⟨first, piece, rfl⟩ := List.exists_cons_of_ne_nil hne
      obtain ⟨hfirst, hstate⟩ := Prod.mk.inj hread
      obtain ⟨hstep, hrest⟩ := List.append_eq_nil_iff.1 hfirst
      rcases start_cases first.toNat with ⟨-, hstart⟩ | hstart | ⟨v, hstart, -⟩
      · rw [step, hstart] at hstep
        cases hstep
      · rw [step, hstart] at hstep
        cases hstep
      · rw [step, hstart] at hrest hstate
        obtain ⟨c, hc⟩ := exists_encodeChar_of_read [first] (Prod.ext hrest hstate)
          (fun t => exists_encodeChar_of_start hstart) (b :: t) ht
        exact hlast b rfl ⟨c, t, by rw [← hc]; simp⟩
    rw [run_cons, step_of_not_admits hadmits]
    rfl

/-- A byte that no character begins with is replaced. -/
theorem run_of_stray (h : ¬ Begins [b]) : run none (b :: rest) = replacement :: run none rest := by
  rw [run_cons, step]
  rcases start_cases b.toNat with ⟨hlow, -⟩ | hstart | ⟨u, hstart, hfirst⟩
  · have hbegins : [b] <+: String.utf8EncodeChar (Char.ofNat b.toNat) :=
      (encodeChar_ofNat hlow).symm ▸ List.prefix_refl [b]
    exact absurd ⟨_, hbegins⟩ h
  · rw [hstart]
    rfl
  · obtain ⟨hbounds, hhigh⟩ := hfirst.low_le_high
    have hadmits : u.Admits (UInt8.ofNat u.low) := by
      unfold Unfinished.Admits
      rw [UInt8.toNat_ofNat', Nat.mod_eq_of_lt (by omega)]
      exact ⟨Nat.le_refl _, hbounds⟩
    obtain ⟨t, ht⟩ := exists_finishes hadmits
    obtain ⟨c, hc⟩ := exists_encodeChar_of_start hstart ht
    exact absurd ⟨c, _, hc⟩ h

/-! ## The text of the bytes -/

theorem Decodes.eq_decode (h : Decodes bs cs) : cs = decode bs := by
  unfold decode
  induction h with
  | nil => rfl
  | char c _ ih => rw [run_encodeChar, ← ih]
  | broken hne hbegins hchar hlast _ ih => rw [run_of_broken hne hbegins hchar hlast, ← ih]
  | stray hb _ ih => rw [run_of_stray hb, ← ih]

/-- **Bytes are read as one text only, the one that the decoder computes.** -/
theorem decodes_iff : Decodes bs cs ↔ cs = decode bs := by
  refine ⟨Decodes.eq_decode, ?_⟩
  rintro rfl
  obtain ⟨cs, hcs⟩ := exists_decodes bs
  rwa [hcs.eq_decode] at hcs

-- Two of the three bytes of a character, all three, and two bytes that are in none.
example : decode [0xE2, 0x82, 0xE2, 0x82, 0xAC, 0xC0, 0xAF] = [replacement, '€', replacement, replacement] := by
  decide

/-- A byte below 128 parts what is before it from what is after it. -/
theorem Decodes.append_cons (h : Decodes bs cs) (hb : b.toNat < 0x80) (hrest : Decodes rest ds) :
    Decodes (bs ++ b :: rest) (cs ++ Char.ofNat b.toNat :: ds) := by
  induction h with
  | nil =>
    have hchar := hrest.char (Char.ofNat b.toNat)
    rwa [encodeChar_ofNat hb] at hchar
  | char c _ ih =>
    rw [List.append_assoc]
    exact ih.char c
  | @broken piece rest' cs hne hbegins hchar hlast _ ih =>
    rw [List.append_assoc]
    refine .broken hne hbegins hchar ?_ ih
    cases rest' with
    | nil =>
      intro d hd
      obtain rfl := Option.some.inj hd
      exact not_begins_concat hne hb
    | cons d rest' => exact hlast
  | stray hd _ ih => exact .stray hd ih

/-- **Decoding can be cut at a byte below 128.** -/
theorem decode_append_cons (bs rest : List UInt8) (hb : b.toNat < 0x80) :
    decode (bs ++ b :: rest) = decode bs ++ Char.ofNat b.toNat :: decode rest :=
  ((decodes_iff.2 rfl).append_cons hb (decodes_iff.2 rfl)).eq_decode.symm

/-- A line feed is read off a line feed only. -/
theorem Decodes.lineFeed_mem (h : Decodes bs cs) (hmem : '\n' ∈ cs) : lineFeed ∈ bs := by
  have hreplaced : '\n' ≠ replacement := by decide
  induction h with
  | nil => cases hmem
  | char c _ ih =>
    rcases List.mem_cons.1 hmem with rfl | hmem
    · exact List.mem_append_left _ (by decide)
    · exact List.mem_append_right _ (ih hmem)
  | broken _ _ _ _ _ ih =>
    exact List.mem_append_right _ (ih ((List.mem_cons.1 hmem).resolve_left hreplaced))
  | stray _ _ ih =>
    exact List.mem_cons_of_mem _ (ih ((List.mem_cons.1 hmem).resolve_left hreplaced))

/-- **The lines of the text are the lines of the bytes**, each decoded by itself. -/
theorem splitOn_decode (bs : List UInt8) :
    (decode bs).splitOn '\n' = (bs.splitOn lineFeed).map decode := by
  induction hlen : bs.length using Nat.strongRecOn generalizing bs with
  | _ len ih =>
    by_cases hfeed : lineFeed ∈ bs
    · obtain ⟨front, rest, rfl⟩ := List.append_of_mem hfeed
      rw [List.length_append, List.length_cons] at hlen
      have hcut : decode (front ++ lineFeed :: rest) = decode front ++ '\n' :: decode rest :=
        decode_append_cons front rest (by decide)
      rw [hcut, List.splitOn_append_cons_self, List.splitOn_append_cons_self, List.map_append,
        ih front.length (by omega) front rfl, ih rest.length (by omega) rest rfl]
    · have hnone : '\n' ∉ decode bs := fun hmem => hfeed ((decodes_iff.2 rfl).lineFeed_mem hmem)
      rw [List.splitOn_eq_singleton hnone, List.splitOn_eq_singleton hfeed, List.map_singleton]

end SolVendor.Text.Utf8
