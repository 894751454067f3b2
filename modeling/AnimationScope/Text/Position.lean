import AnimationScope.Text.Digit

/-!
# Lines and columns

Both count from one, in 32 bits. Only a line feed ends a line, and a column is a code point.
-/

namespace AnimationScope

structure Position where
  lineNumber : UInt32
  columnNumber : UInt32
deriving DecidableEq

namespace Position

def line (p : Position) : Nat := p.lineNumber.toNat

def column (p : Position) : Nat := p.columnNumber.toNat

def start : Position := ⟨1, 1⟩

/-- The position behind one character. Behind the greatest number of 32 bits comes zero. -/
def next (p : Position) (c : Char) : Position :=
  if c = '\n' then ⟨p.lineNumber + 1, 1⟩ else ⟨p.lineNumber, p.columnNumber + 1⟩

/-- The position behind a text that begins at `p`. -/
def advance (p : Position) (t : Text) : Position := t.foldl next p

@[simp] theorem advance_append (p : Position) (t u : Text) :
    p.advance (t ++ u) = (p.advance t).advance u := List.foldl_append ..

/-- The position of whatever follows an initial part of the source. -/
def after (t : Text) : Position := start.advance t

def ofOffset (t : Text) (offset : Nat) : Position := after (t.takeBytes offset)

def render (p : Position) : Text := Text.decimal p.line ++ ':' :: Text.decimal p.column

end Position
end AnimationScope
