import AnimationScope.Text.Basic

/-!
# Character classes of the CSS grammar

Space here is the narrow set of the grammar. The wider set of blanks, used for
trimming, is in `AnimationScope.Text.Blank`.
-/

namespace AnimationScope.Css

def isNewline (c : Char) : Bool := c == '\n' || c == '\r' || c == '\x0c'

def isSpace (c : Char) : Bool := c == ' ' || c == '\t' || isNewline c

def isNonAscii (c : Char) : Bool := 0x80 ≤ c.toNat

/-- Characters that may begin a name without help from a hyphen or an escape. -/
def isNameStart (c : Char) : Bool := c.isAlpha || c == '_' || c == '\x00' || isNonAscii c

/-- Characters that continue a name. Escapes continue it too. -/
def isNameChar (c : Char) : Bool := isNameStart c || c.isDigit || c == '-'

/-- Control characters that spoil an unquoted address. -/
def isNonPrintable (c : Char) : Bool :=
  let n := c.toNat
  (1 ≤ n && n ≤ 8) || n == 0x0B || (0x0E ≤ n && n ≤ 0x1F) || n == 0x7F

/-- Whether the text goes on with a character of a class. -/
def headIs (p : Char → Bool) : Text → Bool
  | [] => false
  | c :: _ => p c

end AnimationScope.Css
