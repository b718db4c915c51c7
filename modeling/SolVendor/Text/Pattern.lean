/-!
# Text — patterns

A pattern describes pieces of text. It can take such a piece from the start
of a text in several ways, and it prefers some of them: the first
alternative to the second, and as much or as little of a repetition as can
be had. `Pattern.ways` lists the ways, preferred ones first. A search takes
the least start from which there is a way at all, and there the preferred
way.
-/

namespace SolVendor.Text

/-- A pattern with numbered groups. -/
inductive Pattern
  /-- Nothing. -/
  | empty
  /-- One character of a class. -/
  | char (accepts : Char → Bool)
  /-- The end of the text. -/
  | ends
  /-- One pattern and then another one. -/
  | seq (first second : Pattern)
  /-- One of two patterns, the first preferred. -/
  | either (first second : Pattern)
  /-- Any number of characters of a class, as many or as few as there can be. -/
  | many (greedy : Bool) (accepts : Char → Bool)
  /-- A pattern whose piece is kept under a number. -/
  | group (number : Nat) (inner : Pattern)

/-- A way to take a piece from the start of a text: the piece, what is kept of it in groups, and the text that
follows. -/
structure Way where
  taken : List Char
  groups : List (Nat × List Char)
  rest : List Char
deriving DecidableEq, Repr

namespace Way

/-- What a group has kept; a group that has taken no part has kept nothing. -/
def group (w : Way) (number : Nat) : List Char :=
  (w.groups.lookup number).getD []

/-- One way and then another one. -/
def append (w v : Way) : Way :=
  ⟨w.taken ++ v.taken, w.groups ++ v.groups, v.rest⟩

/-- Keep the piece under a number. -/
def keep (w : Way) (number : Nat) : Way :=
  { w with groups := (number, w.taken) :: w.groups }

end Way

namespace Pattern

/-- The ways to take characters of a class from a text, fewest first. -/
def spans (accepts : Char → Bool) : List Char → List Way
  | [] => [⟨[], [], []⟩]
  | c :: cs =>
    ⟨[], [], c :: cs⟩ ::
      if accepts c then (spans accepts cs).map fun w => { w with taken := c :: w.taken } else []

/-- The ways in which a pattern takes a piece from the start of a text, preferred ones first. -/
def ways : Pattern → List Char → List Way
  | empty, cs => [⟨[], [], cs⟩]
  | char _, [] => []
  | char accepts, c :: cs => if accepts c then [⟨[c], [], cs⟩] else []
  | ends, cs => if cs.isEmpty then [⟨[], [], cs⟩] else []
  | seq first second, cs =>
    (first.ways cs).flatMap fun w => (second.ways w.rest).map w.append
  | either first second, cs => first.ways cs ++ second.ways cs
  | many greedy accepts, cs => if greedy then (spans accepts cs).reverse else spans accepts cs
  | group number inner, cs => (inner.ways cs).map fun w => w.keep number

/-- The preferred way from the least start that has one. -/
def search (p : Pattern) : List Char → Option Way
  | [] => (p.ways []).head?
  | c :: cs => (p.ways (c :: cs)).head?.or (p.search cs)

/-! ## Patterns made of others -/

/-- The given characters, one after the other. -/
def word : List Char → Pattern
  | [] => empty
  | c :: cs => seq (char fun d => d = c) (word cs)

/-- One or more characters of a class. -/
def repeated (greedy : Bool) (accepts : Char → Bool) : Pattern :=
  seq (char accepts) (many greedy accepts)

/-- One of two patterns; the flag says whether the first is preferred. -/
def alternatives (inOrder : Bool) (first second : Pattern) : Pattern :=
  if inOrder then either first second else either second first

/-- A pattern or nothing; the flag says whether the pattern is preferred. -/
def optional (greedy : Bool) (p : Pattern) : Pattern :=
  alternatives greedy p empty

/-- So many pieces of a pattern or fewer, one after the other, as many as there can be. -/
def upTo (p : Pattern) : Nat → Pattern
  | 0 => empty
  | n + 1 => optional true (seq p (p.upTo n))

end Pattern

end SolVendor.Text
