/-! # Positions

A position names a character of a source text by its line and by its column within that line, both
counted from one. Walking a text moves the position character by character, so the position of any
piece of the text is the start position moved over everything before it. -/

namespace GodelWhile

/-- A place in a source text: line and column, both counted from one. -/
structure Position where
  line : Nat
  column : Nat
  deriving DecidableEq, Repr

namespace Position

/-- The first character of a text. -/
def start : Position := ⟨1, 1⟩

/-- The place reported when a token stream has run dry without an end marker. -/
def nowhere : Position := ⟨0, 0⟩

/-- The place right after the character `c` standing at `p`: a newline opens the next line. -/
def advance (p : Position) (c : Char) : Position :=
  if c = '\n' then ⟨p.line + 1, 1⟩ else ⟨p.line, p.column + 1⟩

/-- The place right after the characters `cs`, the first of which stands at `p`. -/
def advanceAll (p : Position) (cs : List Char) : Position := cs.foldl advance p

/-- The position in words, as error messages give it. -/
def describe (p : Position) : String := s!"line {p.line}, column {p.column}"

@[simp] theorem advanceAll_nil (p : Position) : p.advanceAll [] = p := rfl

@[simp] theorem advanceAll_cons (p : Position) (c : Char) (cs : List Char) :
    p.advanceAll (c :: cs) = (p.advance c).advanceAll cs := rfl

/-- Moving over a text is moving over its first part and then over the rest. -/
theorem advanceAll_append (p : Position) (cs ds : List Char) :
    p.advanceAll (cs ++ ds) = (p.advanceAll cs).advanceAll ds := List.foldl_append

end Position

end GodelWhile
