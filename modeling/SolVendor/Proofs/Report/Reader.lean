import SolVendor.Proofs.Report.Grammar
/-!
# Report — a reader of JSON

`read` goes over a text once, character by character. It holds the lists
and objects that are open, what may come next in the innermost one, and the
name, number or string that it is in the middle of. The reader reads every
text of the grammar as what the text stands for (`read_of_isDocument`). So
no text stands for two values (`IsDocument.unique`), and whatever reads
documents as the grammar says reads them as `read` does.
-/

namespace SolVendor.Json

/-- A list or an object that is open, with what has been read of it, the last first: in a list an item
comes next, in an object the value of a key. -/
inductive Context where
  | list (done : List Value)
  | object (done : List (String × Value)) (key : String)

/-- What may come next in the innermost context. -/
inductive Mode where
  | value
  /-- A key of an object, of which some members have been read. -/
  | key (done : List (String × Value))
  | colon (done : List (String × Value)) (key : String)
  /-- A value has been read: a comma, a closing bracket, or the end. -/
  | after (v : Value)

/-- What the reader is in the middle of, with its characters so far, the last first. -/
inductive Lexeme where
  | none
  | word (w : List Char)
  /-- A string; an escaped character comes next or not. -/
  | str (body : List Char) (escaped : Bool)

/-- The state of the reader. -/
structure Reading where
  contexts : List Context
  mode : Mode
  lexeme : Lexeme := .none

namespace Reading

/-- Nothing has been read. -/
def start : Reading := ⟨[], .value, .none⟩

/-- Take a string, which is a value or a key. -/
def string (r : Reading) (s : String) : Option Reading :=
  match r.mode with
  | .value => some ⟨r.contexts, .after (.str s), .none⟩
  | .key done => some ⟨r.contexts, .colon done s, .none⟩
  | _ => none

/-- End a name or a number. A string ends with its quote only. -/
def close (r : Reading) : Option Reading :=
  match r.lexeme, r.mode with
  | .none, _ => some r
  | .word w, .value => (word? w.reverse).map fun v => ⟨r.contexts, .after v, .none⟩
  | _, _ => none

/-- Read a character in the middle of nothing. -/
def mark (r : Reading) (c : Char) : Option Reading :=
  if isWordChar c then some { r with lexeme := .word [c] }
  else if isBlank c then some r
  else
    match c, r.mode, r.contexts with
    | '\x22', _, _ => some { r with lexeme := .str [] false }
    | '[', .value, contexts => some ⟨.list [] :: contexts, .value, .none⟩
    | '\x7b', .value, contexts => some ⟨contexts, .key [], .none⟩
    | ':', .colon done key, contexts => some ⟨.object done key :: contexts, .value, .none⟩
    | ',', .after v, .list done :: contexts => some ⟨.list (v :: done) :: contexts, .value, .none⟩
    | ',', .after v, .object done key :: contexts => some ⟨contexts, .key ((key, v) :: done), .none⟩
    | ']', .value, .list [] :: contexts => some ⟨contexts, .after (.arr []), .none⟩
    | ']', .after v, .list done :: contexts =>
      some ⟨contexts, .after (.arr (v :: done).reverse), .none⟩
    | '\x7d', .key [], contexts => some ⟨contexts, .after (.obj []), .none⟩
    | '\x7d', .after v, .object done key :: contexts =>
      some ⟨contexts, .after (.obj ((key, v) :: done).reverse), .none⟩
    | _, _, _ => none

/-- Read a character. -/
def step (r : Reading) (c : Char) : Option Reading :=
  match r.lexeme with
  | .none => r.mark c
  | .word w => if isWordChar c then some { r with lexeme := .word (c :: w) } else r.close.bind (·.mark c)
  | .str body true => some { r with lexeme := .str (c :: body) false }
  | .str body false =>
    if c = '\\' then some { r with lexeme := .str (c :: body) true }
    else if c = '\x22' then (string? body.reverse).bind r.string
    else some { r with lexeme := .str (c :: body) false }

/-- The value that has been read, if nothing is open. -/
def result (r : Reading) : Option Value :=
  match r with
  | ⟨[], .after v, .none⟩ => some v
  | _ => none

end Reading

/-- Read a text. -/
def read (text : List Char) : Option Value := do
  let r ← text.foldlM Reading.step Reading.start
  (← r.close).result

namespace Reading

variable {r r' r'' : Reading} {cs ds : List Char} {c : Char} {v : Value}

/-- The text leads from one state to another. -/
def Steps (r : Reading) (cs : List Char) (r' : Reading) : Prop :=
  cs.foldlM step r = some r'

/-- The text leads from one state to another once a name or number at its end has been ended; then the
reader is in the middle of nothing. -/
def Reaches (r : Reading) (cs : List Char) (r' : Reading) : Prop :=
  ∃ mid, Steps r cs mid ∧ mid.close = some r' ∧ r'.lexeme = .none

theorem steps_nil (r : Reading) : Steps r [] r := rfl

theorem Steps.cons (h : r.step c = some r') (hrest : Steps r' cs r'') : Steps r (c :: cs) r'' := by
  unfold Steps
  rw [List.foldlM_cons, h]
  exact hrest

theorem Steps.append (h : Steps r cs r') (hrest : Steps r' ds r'') : Steps r (cs ++ ds) r'' := by
  unfold Steps
  rw [List.foldlM_append, h]
  exact hrest

theorem step_of_lexeme_eq_none (h : r.lexeme = .none) : r.step c = r.mark c := by
  unfold step
  rw [h]

theorem close_of_lexeme_eq_none (h : r.lexeme = .none) : r.close = some r := by
  unfold close
  rw [h]

theorem Steps.reaches (h : Steps r cs r') (hnone : r'.lexeme = .none) : Reaches r cs r' :=
  ⟨r', h, close_of_lexeme_eq_none hnone, hnone⟩

/-- A text may stand before one that is read from where it leads. -/
theorem Steps.reaches_append (h : Steps r cs r') (hrest : Reaches r' ds r'') :
    Reaches r (cs ++ ds) r'' := by
  obtain ⟨mid, hmid, hclose⟩ := hrest
  exact ⟨mid, h.append hmid, hclose⟩

/-- **What ends a name or number is read as it would be after it.** -/
theorem Reaches.step_eq (h : Reaches r cs r') (hc : isWordChar c = false) :
    ∃ mid, Steps r cs mid ∧ mid.step c = r'.step c := by
  obtain ⟨mid, hmid, hclose, hnone⟩ := h
  refine ⟨mid, hmid, ?_⟩
  rw [step_of_lexeme_eq_none hnone]
  unfold step
  split
  · rename_i hlex
    rw [close_of_lexeme_eq_none hlex, Option.some.injEq] at hclose
    rw [hclose]
  · rw [hc, if_neg Bool.false_ne_true, hclose]
    rfl
  · rename_i hlex
    unfold close at hclose
    rw [hlex] at hclose
    cases hclose
  · rename_i hlex
    unfold close at hclose
    rw [hlex] at hclose
    cases hclose

/-- So a text that begins with no character of names and numbers may follow. -/
theorem Reaches.append (h : Reaches r cs r') (hc : isWordChar c = false)
    (hrest : Steps r' (c :: ds) r'') : Steps r (cs ++ c :: ds) r'' := by
  obtain ⟨mid, hmid, hstep⟩ := h.step_eq hc
  refine hmid.append ?_
  unfold Steps at hrest ⊢
  rw [List.foldlM_cons, hstep, ← List.foldlM_cons]
  exact hrest

/-! ## Blanks -/

theorem isWordChar_eq_false_of_isBlank (h : isBlank c = true) : isWordChar c = false := by
  simp only [isBlank, Bool.or_eq_true, decide_eq_true_eq] at h
  rcases h with ((rfl | rfl) | rfl) | rfl <;> rfl

/-- **Blanks change nothing** in the middle of nothing. -/
theorem steps_of_isSpace (hnone : r.lexeme = .none) (h : IsSpace cs) : Steps r cs r := by
  induction cs with
  | nil => exact steps_nil r
  | cons c cs ih =>
    obtain ⟨hc, hcs⟩ := List.forall_mem_cons.1 h
    refine Steps.cons ?_ (ih hcs)
    rw [step_of_lexeme_eq_none hnone]
    unfold mark
    rw [isWordChar_eq_false_of_isBlank hc, if_neg Bool.false_ne_true, if_pos hc]

theorem Reaches.append_space (h : Reaches r cs r') (hspace : IsSpace ds) :
    Reaches r (cs ++ ds) r' := by
  cases ds with
  | nil => rwa [List.append_nil]
  | cons c ds =>
    obtain ⟨-, -, -, hnone⟩ := id h
    have hword := isWordChar_eq_false_of_isBlank (hspace c List.mem_cons_self)
    exact (h.append hword (steps_of_isSpace hnone hspace)).reaches hnone

/-! ## Names, numbers and strings -/

variable {contexts : List Context} {mode : Mode}

theorem steps_word {w : List Char} (h : ∀ c ∈ cs, isWordChar c = true) :
    Steps ⟨contexts, mode, .word w⟩ cs ⟨contexts, mode, .word (cs.reverse ++ w)⟩ := by
  induction cs generalizing w with
  | nil => exact steps_nil _
  | cons c cs ih =>
    obtain ⟨hc, hcs⟩ := List.forall_mem_cons.1 h
    rw [List.reverse_cons, List.append_assoc]
    exact Steps.cons (if_pos hc) (ih hcs)

/-- A name or number is read where a value is to come. -/
theorem reaches_word (hchars : ∀ c ∈ cs, isWordChar c = true) (h : word? cs = some v) :
    Reaches ⟨contexts, .value, .none⟩ cs ⟨contexts, .after v, .none⟩ := by
  cases cs with
  | nil => cases h
  | cons c cs =>
    obtain ⟨hc, hcs⟩ := List.forall_mem_cons.1 hchars
    refine ⟨_, Steps.cons (if_pos hc) (steps_word hcs), ?_, rfl⟩
    simp [close, h]

theorem ne_of_hexDigit? {n : Nat} (h : hexDigit? c = some n) : c ≠ '\\' ∧ c ≠ '\x22' := by
  constructor
  · rintro rfl
    cases h
  · rintro rfl
    cases h

theorem ne_of_isPlain (h : isPlain c = true) : c ≠ '\\' ∧ c ≠ '\x22' := by
  simp only [isPlain, Bool.and_eq_true, decide_eq_true_eq] at h
  exact ⟨h.1.2, h.1.1⟩

theorem step_str {body : List Char} (hc : c ≠ '\\' ∧ c ≠ '\x22') :
    step ⟨contexts, mode, .str body false⟩ c = some ⟨contexts, mode, .str (c :: body) false⟩ := by
  unfold step
  simp only [if_neg hc.1, if_neg hc.2]

/-- What stands between two quotes is no quote, unless there is a backslash before it. -/
theorem steps_units {body : List Char} {ns : List Nat} (h : units? cs = some ns) :
    Steps ⟨contexts, mode, .str body false⟩ cs ⟨contexts, mode, .str (cs.reverse ++ body) false⟩ := by
  fun_induction units? cs generalizing body ns with
  | case1 => exact steps_nil _
  | case2 a b c d cs ih =>
    obtain ⟨n, hn, hrest⟩ := Option.bind_eq_some_iff.1 h
    obtain ⟨ms, hms, -⟩ := Option.bind_eq_some_iff.1 hrest
    simp only [hexDigits?, Option.bind_eq_bind, Option.bind_eq_some_iff] at hn
    obtain ⟨_, ha, _, hb, _, hc, _, hd, -⟩ := hn
    have hcs : Steps ⟨contexts, mode, .str (d :: c :: b :: a :: 'u' :: '\\' :: body) false⟩ cs
        ⟨contexts, mode, .str (cs.reverse ++ d :: c :: b :: a :: 'u' :: '\\' :: body) false⟩ := ih hms
    simp only [List.reverse_cons, List.append_assoc, List.cons_append, List.nil_append]
    exact .cons rfl (.cons rfl (.cons (step_str (ne_of_hexDigit? ha)) (.cons (step_str (ne_of_hexDigit? hb))
      (.cons (step_str (ne_of_hexDigit? hc)) (.cons (step_str (ne_of_hexDigit? hd)) hcs)))))
  | case3 c cs _ ih =>
    obtain ⟨_, -, hrest⟩ := Option.bind_eq_some_iff.1 h
    obtain ⟨ms, hms, -⟩ := Option.bind_eq_some_iff.1 hrest
    have hcs : Steps ⟨contexts, mode, .str (c :: '\\' :: body) false⟩ cs
        ⟨contexts, mode, .str (cs.reverse ++ c :: '\\' :: body) false⟩ := ih hms
    simp only [List.reverse_cons, List.append_assoc, List.cons_append, List.nil_append]
    exact .cons rfl (.cons rfl hcs)
  | case4 c cs _ _ hplain ih =>
    obtain ⟨ms, hms, -⟩ := Option.map_eq_some_iff.1 h
    have hcs : Steps ⟨contexts, mode, .str (c :: body) false⟩ cs
        ⟨contexts, mode, .str (cs.reverse ++ c :: body) false⟩ := ih hms
    simp only [List.reverse_cons, List.append_assoc, List.cons_append, List.nil_append]
    exact .cons (step_str (ne_of_isPlain hplain)) hcs
  | case5 => cases h

/-- A string is read from quote to quote, as a value or as a key. -/
theorem steps_string {s : String} (h : string? cs = some s)
    (hstring : ∀ lexeme, string ⟨contexts, mode, lexeme⟩ s = some r') :
    Steps ⟨contexts, mode, .none⟩ ('\x22' :: cs ++ ['\x22']) r' := by
  obtain ⟨chars, hchars, -⟩ := Option.map_eq_some_iff.1 h
  obtain ⟨ns, hunits, -⟩ := Option.bind_eq_some_iff.1 hchars
  have hquote : step ⟨contexts, mode, .str (cs.reverse ++ []) false⟩ '\x22' = some r' := by
    simp [step, h, hstring]
  exact Steps.cons rfl ((steps_units hunits).append (.cons hquote (steps_nil r')))

/-! ## The grammar is read -/

/-- What is read of a part of a text. -/
def IsRead : Phrase → List Char → Prop
  | .value v, cs | .spaced v, cs =>
    ∀ contexts, Reaches ⟨contexts, .value, .none⟩ cs ⟨contexts, .after v, .none⟩
  | .items vs, cs => ∀ contexts done,
    Steps ⟨.list done :: contexts, .value, .none⟩ cs ⟨contexts, .after (.arr (done.reverse ++ vs)), .none⟩
  | .member m, cs => ∀ contexts done,
    Reaches ⟨contexts, .key done, .none⟩ cs ⟨.object done m.1 :: contexts, .after m.2, .none⟩
  | .members ms, cs => ∀ contexts done,
    Steps ⟨contexts, .key done, .none⟩ cs ⟨contexts, .after (.obj (done.reverse ++ ms)), .none⟩

/-- **Every part of a text is read as what it stands for.** -/
theorem isRead_of_writes {p : Phrase} (h : Writes p cs) : IsRead p cs := by
  induction h with
  | word hchars h => exact fun contexts => reaches_word hchars h
  | str h => exact fun contexts => (steps_string h fun _ => rfl).reaches rfl
  | noItems hspace =>
    intro contexts
    have hopen : Steps ⟨contexts, .value, .none⟩ ('[' :: _) ⟨.list [] :: contexts, .value, .none⟩ :=
      .cons rfl (steps_of_isSpace rfl hspace)
    exact (hopen.append (.cons rfl (steps_nil _))).reaches rfl
  | arr _ ih =>
    exact fun contexts => Steps.reaches (.cons rfl (ih contexts [])) rfl
  | noMembers hspace =>
    intro contexts
    have hopen : Steps ⟨contexts, .value, .none⟩ ('\x7b' :: _) ⟨contexts, .key [], .none⟩ :=
      .cons rfl (steps_of_isSpace rfl hspace)
    exact (hopen.append (.cons rfl (steps_nil _))).reaches rfl
  | obj _ ih =>
    exact fun contexts => Steps.reaches (.cons rfl (ih contexts [])) rfl
  | spaced hbefore _ hafter ih =>
    intro contexts
    exact ((steps_of_isSpace rfl hbefore).reaches_append (ih contexts)).append_space hafter
  | lastItem _ ih =>
    intro contexts done
    refine (ih _).append rfl (.cons ?_ (steps_nil _))
    simp [step, mark, isWordChar, isBlank]
  | @item v _ _ _ _ _ ih ihrest =>
    intro contexts done
    have hrest := ihrest contexts (v :: done)
    rw [List.reverse_cons, List.append_assoc] at hrest
    exact (ih _).append rfl (.cons rfl hrest)
  | @member key v before body after cs hbefore hkey hafter _ ih =>
    intro contexts done
    have hstart : Steps ⟨contexts, .key done, .none⟩ (before ++ ('\x22' :: body ++ ['\x22']) ++ after)
        ⟨contexts, .colon done key, .none⟩ :=
      ((steps_of_isSpace rfl hbefore).append (steps_string hkey fun _ => rfl)).append
        (steps_of_isSpace rfl hafter)
    have hcolon : Steps ⟨contexts, .colon done key, .none⟩ [':']
        ⟨.object done key :: contexts, .value, .none⟩ := .cons rfl (steps_nil _)
    have h := (hstart.append hcolon).reaches_append (ih _)
    simpa only [List.append_assoc, List.cons_append, List.nil_append] using h
  | lastMember _ ih =>
    intro contexts done
    refine (ih contexts done).append rfl (.cons ?_ (steps_nil _))
    simp [step, mark, isWordChar, isBlank]
  | @members m _ _ _ _ _ ih ihrest =>
    intro contexts done
    have hrest := ihrest contexts (m :: done)
    rw [List.reverse_cons, List.append_assoc] at hrest
    exact (ih _ _).append rfl (.cons rfl hrest)

end Reading

/-- **A document is read as what it stands for.** -/
theorem read_of_isDocument {v : Value} {text : List Char} (h : IsDocument v text) :
    read text = some v := by
  obtain ⟨mid, hmid, hclose, -⟩ := Reading.isRead_of_writes h []
  unfold read
  rw [show text.foldlM Reading.step Reading.start = some mid from hmid]
  simp [hclose, Reading.result]

/-- Blanks anywhere, an exponent, a character in two halves, and a fraction with a sign. -/
example : read
    " \x7b\"a\" : [1.5e1, \"\\ud83d\\ude00\\/\", null], \"b\":\x7b \x7d,\"\": -1.25\x7d\n".toList =
    some (.obj [("a", .arr [.num 15, .str "😀/", .null]), ("b", .obj []), ("", .num (-5 / 4))]) := by
  cbv

/-- **No text stands for two values.** -/
theorem IsDocument.unique {v w : Value} {text : List Char} (hv : IsDocument v text)
    (hw : IsDocument w text) : v = w :=
  Option.some.inj ((read_of_isDocument hv).symm.trans (read_of_isDocument hw))

end SolVendor.Json
