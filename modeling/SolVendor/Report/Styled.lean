/-!
# Report — styled text

A report in text is made of spans. A span is shown plain, or in a style on
terminals that have styles: the style is announced in front by its codes
and reset behind. A reset inside the text of a span would end the style
early, so the style is announced again after each of them.
-/

namespace SolVendor

/-- What a style can ask for. -/
inductive Effect where
  | bold
  | dimmed
  | green
  | blue
  | cyan
  | brightBlue
  | brightWhite
deriving DecidableEq, Repr

/-- The code of an effect. -/
def Effect.code : Effect → String
  | bold => "1"
  | dimmed => "2"
  | green => "32"
  | blue => "34"
  | cyan => "36"
  | brightBlue => "94"
  | brightWhite => "97"

/-- A text and its style; without effects it is always shown plain. -/
structure Span where
  effects : List Effect
  text : String
deriving DecidableEq, Repr

namespace Span

/-- What ends every style. -/
def reset : String := "\x1b[0m"

/-- What announces a style. -/
def announce (effects : List Effect) : String :=
  "\x1b[" ++ ";".intercalate (effects.map Effect.code) ++ "m"

/-- The span as it is shown, with styles or without. -/
def render (styles : Bool) (s : Span) : String :=
  if !styles || s.effects.isEmpty then s.text
  else
    let start := announce s.effects
    start ++ (reset ++ start).intercalate (s.text.splitOn reset) ++ reset

/-- Spans shown one after the other. -/
def renderAll (styles : Bool) (spans : List Span) : String :=
  String.join (spans.map (render styles))

end Span

/-- A text in no style. -/
def plain (text : String) : Span := ⟨[], text⟩

end SolVendor
