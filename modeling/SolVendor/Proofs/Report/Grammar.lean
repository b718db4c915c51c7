import SolVendor.Report.Json
/-!
# Report — the grammar of JSON

What a JSON text stands for is a `Value`. `Writes` is the grammar of the
texts: blanks may stand before and after every value, comma, colon and
bracket, a string may be escaped in any of the ways that there are, and a
number may have a sign, a fraction and an exponent. It says of each text
which value it stands for, and of other texts nothing. A document is one
value with blanks around it (`IsDocument`).

The literals, which nothing is nested in, are read by functions: `word?`
for names and numbers, and `string?` for what stands between two quotes.
-/

namespace SolVendor.Json

/-- What a JSON text stands for. Members of an object keep their order. -/
inductive Value where
  | null
  | bool (b : Bool)
  | num (q : Rat)
  | str (s : String)
  | arr (items : List Value)
  | obj (members : List (String × Value))

/-! ## Strings -/

/-- The character that may follow a backslash, and the one that it then stands for. -/
def shorthand? : Char → Option Char
  | '\x22' => some '\x22'
  | '\\' => some '\\'
  | '/' => some '/'
  | 'b' => some '\x08'
  | 'f' => some '\x0c'
  | 'n' => some '\n'
  | 'r' => some '\r'
  | 't' => some '\t'
  | _ => none

/-- The value of a hexadecimal digit. -/
def hexDigit? (c : Char) : Option Nat :=
  if '0' ≤ c ∧ c ≤ '9' then some (c.toNat - 0x30)
  else if 'a' ≤ c ∧ c ≤ 'f' then some (c.toNat - 0x57)
  else if 'A' ≤ c ∧ c ≤ 'F' then some (c.toNat - 0x37)
  else none

/-- The value of four hexadecimal digits. -/
def hexDigits? (a b c d : Char) : Option Nat := do
  return (((← hexDigit? a) * 16 + (← hexDigit? b)) * 16 + (← hexDigit? c)) * 16 + (← hexDigit? d)

/-- The character stands for itself between two quotes. -/
def isPlain (c : Char) : Bool :=
  c ≠ '\x22' && c ≠ '\\' && 0x20 ≤ c.toNat

/-- The numbers that are written between two quotes: those of characters, and where there are
escapes with digits, halves of characters too. -/
def units? : List Char → Option (List Nat)
  | [] => some []
  | '\\' :: 'u' :: a :: b :: c :: d :: cs => do
    return (← hexDigits? a b c d) :: (← units? cs)
  | '\\' :: c :: cs => do
    return (← shorthand? c).toNat :: (← units? cs)
  | c :: cs => if isPlain c then (c.toNat :: ·) <$> units? cs else none

/-- The number is the first half of a character. -/
def isFirstHalf (n : Nat) : Bool :=
  0xD800 ≤ n && n < 0xDC00

/-- The number is the second half of a character. -/
def isSecondHalf (n : Nat) : Bool :=
  0xDC00 ≤ n && n < 0xE000

/-- The characters with these numbers. The halves of a character have to stand together. -/
def characters? : List Nat → Option (List Char)
  | [] => some []
  | [n] => if isFirstHalf n || isSecondHalf n then none else some [Char.ofNat n]
  | m :: n :: ns =>
    if isFirstHalf m then
      if isSecondHalf n then
        (Char.ofNat (0x10000 + (m - 0xD800) * 0x400 + (n - 0xDC00)) :: ·) <$> characters? ns
      else none
    else if isSecondHalf m then none
    else (Char.ofNat m :: ·) <$> characters? (n :: ns)

/-- The string that is written between two quotes. -/
def string? (body : List Char) : Option String :=
  String.ofList <$> (units? body).bind characters?

/-! ## Names and numbers -/

/-- The number with these digits. -/
def natural? (w : List Char) : Option Nat :=
  if w ≠ [] ∧ w.all Char.isDigit then some (Nat.ofDigitChars 10 w 0) else none

/-- The digits of a fraction, if there is one, and what follows. -/
def fraction? : List Char → Option (List Char × List Char)
  | '.' :: w =>
    let digits := w.takeWhile Char.isDigit
    if digits = [] then none else some (digits, w.dropWhile Char.isDigit)
  | w => some ([], w)

/-- The exponent, with which a number ends. -/
def exponent? : List Char → Option Int
  | [] => some 0
  | 'e' :: w | 'E' :: w =>
    match w with
    | '-' :: w => (natural? w).map fun n => -(n : Int)
    | '+' :: w => (natural? w).map Int.ofNat
    | w => (natural? w).map Int.ofNat
  | _ => none

/-- A number without a sign. Its first part has no zero in front. -/
def unsigned? (w : List Char) : Option Rat := do
  let whole := w.takeWhile Char.isDigit
  if whole = [] ∨ whole.head? = some '0' ∧ whole ≠ ['0'] then none
  let (fraction, w) ← fraction? (w.dropWhile Char.isDigit)
  let exponent ← exponent? w
  return (Nat.ofDigitChars 10 (whole ++ fraction) 0 : Rat) * 10 ^ (exponent - fraction.length)

/-- A number. -/
def number? : List Char → Option Rat
  | '-' :: w => (- ·) <$> unsigned? w
  | w => unsigned? w

/-- A name or a number. -/
def word? (w : List Char) : Option Value :=
  if w = ['n', 'u', 'l', 'l'] then some .null
  else if w = ['t', 'r', 'u', 'e'] then some (.bool true)
  else if w = ['f', 'a', 'l', 's', 'e'] then some (.bool false)
  else .num <$> number? w

/-- The characters that names and numbers are written with. -/
def isWordChar (c : Char) : Bool :=
  c.isAlphanum || c = '-' || c = '+' || c = '.'

/-! ## Texts -/

/-- The character is a blank, which has no meaning outside strings. -/
def isBlank (c : Char) : Bool :=
  c = ' ' || c = '\t' || c = '\n' || c = '\r'

/-- Blanks, or nothing. -/
def IsSpace (cs : List Char) : Prop :=
  ∀ c ∈ cs, isBlank c = true

/-- What a part of a text stands for. -/
inductive Phrase where
  | value (v : Value)
  /-- A value, and the blanks around it. -/
  | spaced (v : Value)
  /-- The items of a list, and the bracket that ends it. -/
  | items (vs : List Value)
  | member (m : String × Value)
  /-- The members of an object, and the brace that ends it. -/
  | members (ms : List (String × Value))

/-- **The grammar**: what a text stands for. -/
inductive Writes : Phrase → List Char → Prop where
  | word {v w} (hchars : ∀ c ∈ w, isWordChar c = true) (h : word? w = some v) : Writes (.value v) w
  | str {s body} (h : string? body = some s) :
      Writes (.value (.str s)) ('\x22' :: body ++ ['\x22'])
  | noItems {space} (h : IsSpace space) : Writes (.value (.arr [])) ('[' :: space ++ [']'])
  | arr {vs cs} (h : Writes (.items vs) cs) : Writes (.value (.arr vs)) ('[' :: cs)
  | noMembers {space} (h : IsSpace space) :
      Writes (.value (.obj [])) ('\x7b' :: space ++ ['\x7d'])
  | obj {ms cs} (h : Writes (.members ms) cs) : Writes (.value (.obj ms)) ('\x7b' :: cs)
  | spaced {v before cs after} (hbefore : IsSpace before) (h : Writes (.value v) cs)
      (hafter : IsSpace after) : Writes (.spaced v) (before ++ cs ++ after)
  | lastItem {v cs} (h : Writes (.spaced v) cs) : Writes (.items [v]) (cs ++ [']'])
  | item {v vs cs ds} (h : Writes (.spaced v) cs) (hrest : Writes (.items vs) ds) :
      Writes (.items (v :: vs)) (cs ++ ',' :: ds)
  | member {key v before body after cs} (hbefore : IsSpace before) (hkey : string? body = some key)
      (hafter : IsSpace after) (h : Writes (.spaced v) cs) :
      Writes (.member (key, v)) (before ++ '\x22' :: body ++ '\x22' :: after ++ ':' :: cs)
  | lastMember {m cs} (h : Writes (.member m) cs) : Writes (.members [m]) (cs ++ ['\x7d'])
  | members {m ms cs ds} (h : Writes (.member m) cs) (hrest : Writes (.members ms) ds) :
      Writes (.members (m :: ms)) (cs ++ ',' :: ds)

/-- The text is a JSON document, and this is what it stands for. -/
def IsDocument (v : Value) (text : List Char) : Prop :=
  Writes (.spaced v) text

end SolVendor.Json
