/-!
# Report — JSON documents

The documents that reports are made of, and their written form: each item
of a list and each member of an object on a line of its own, indented by
two spaces a level, and an empty list on one line. In a string only the
quote, the backslash and the control characters below the space are
escaped, by a short form where there is one.
-/

namespace SolVendor

/-- A JSON document with natural numbers only. -/
inductive Json where
  | bool (b : Bool)
  | num (n : Nat)
  | str (s : String)
  | arr (items : List Json)
  | obj (members : List (String × Json))

namespace Json

/-- The written form of a character in a string. -/
def escape (c : Char) : List Char :=
  if c = '\x22' then ['\\', '\x22']
  else if c = '\\' then ['\\', '\\']
  else if c = '\x08' then ['\\', 'b']
  else if c = '\t' then ['\\', 't']
  else if c = '\n' then ['\\', 'n']
  else if c = '\x0c' then ['\\', 'f']
  else if c = '\r' then ['\\', 'r']
  else if c.toNat < 0x20 then
    ['\\', 'u', '0', '0', Nat.digitChar (c.toNat / 16), Nat.digitChar (c.toNat % 16)]
  else [c]

/-- The written form of a string. -/
def quote (s : String) : List Char :=
  '\x22' :: s.toList.flatMap escape ++ ['\x22']

/-- The start of a line at some level. -/
def newLine (level : Nat) : List Char :=
  '\n' :: List.replicate (2 * level) ' '

mutual

/-- The document written down, of which the first line is at some level. -/
def chars (level : Nat) : Json → List Char
  | bool true => ['t', 'r', 'u', 'e']
  | bool false => ['f', 'a', 'l', 's', 'e']
  | num n => Nat.toDigits 10 n
  | str s => quote s
  | arr [] => ['[', ']']
  | arr (item :: items) =>
    '[' :: newLine (level + 1) ++ chars (level + 1) item ++ itemChars (level + 1) items
      ++ newLine level ++ [']']
  | obj [] => ['\x7b', '\x7d']
  | obj ((key, value) :: members) =>
    '\x7b' :: newLine (level + 1) ++ quote key ++ [':', ' '] ++ chars (level + 1) value
      ++ memberChars (level + 1) members ++ newLine level ++ ['\x7d']

/-- The further items of a list, each after a comma. -/
def itemChars (level : Nat) : List Json → List Char
  | [] => []
  | item :: items => ',' :: newLine level ++ chars level item ++ itemChars level items

/-- The further members of an object, each after a comma. -/
def memberChars (level : Nat) : List (String × Json) → List Char
  | [] => []
  | (key, value) :: members =>
    ',' :: newLine level ++ quote key ++ [':', ' '] ++ chars level value
      ++ memberChars level members

end

/-- The document as a text that ends its last line. -/
def document (j : Json) : String :=
  String.ofList (j.chars 0 ++ ['\n'])

end Json

end SolVendor
