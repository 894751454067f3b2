import AnimationScope.Text.Digit

/-!
# JSON tokens

A text is read character by character. The mode says which token the next
character belongs to. The parts of a token that were read so far are kept in
reverse.
-/

namespace AnimationScope.Json

inductive Token where
  | openBrace
  | closeBrace
  | openBracket
  | closeBracket
  | colon
  | comma
  | null
  | bool (b : Bool)
  | number (literal : Text)
  /-- A string, with no text if it holds an unpaired surrogate. -/
  | string (text : Option Text)
deriving DecidableEq

/-- A character of a string, or a UTF-16 unit that an escape spells. -/
inductive StringUnit where
  | plain (c : Char)
  | escaped (n : Nat)
deriving DecidableEq

namespace StringUnit

def isHigh (n : Nat) : Bool := 0xD800 ≤ n && n < 0xDC00

def isLow (n : Nat) : Bool := 0xDC00 ≤ n && n < 0xE000

/-- The text of a string, in which every high surrogate must be followed by a
low one. -/
def decode : List StringUnit → Option Text
  | [] => some []
  | .plain c :: r => (decode r).map (c :: ·)
  | .escaped n :: r =>
    if isHigh n then
      match r with
      | .escaped m :: r =>
        if isLow m then
          (decode r).map (Char.ofNat (0x10000 + (n - 0xD800) * 0x400 + (m - 0xDC00)) :: ·)
        else none
      | _ => none
    else if isLow n then none
    else (decode r).map (Char.ofNat n :: ·)

end StringUnit

namespace Token

/-- Whether the text is an exponent or nothing. -/
def isExponent : Text → Bool
  | [] => true
  | e :: s :: r =>
    (e == 'e' || e == 'E') && Text.isNumeral (if s == '+' || s == '-' then r else s :: r)
  | [_] => false

/-- Whether the text is a fraction or nothing, and then an exponent or nothing. -/
def isFraction : Text → Bool
  | '.' :: r => Text.isNumeral (r.takeWhile Char.isDigit) && isExponent (r.dropWhile Char.isDigit)
  | t => isExponent t

/-- Whether the text spells a number. Zeros in front are not allowed. -/
def isNumber (t : Text) : Bool :=
  let t := (t.stripStart? ['-']).getD t
  let whole := t.takeWhile Char.isDigit
  Text.isNumeral whole && (whole.head? ≠ some '0' || whole.length = 1) &&
    isFraction (t.dropWhile Char.isDigit)

def keyword? (t : Text) : Option Token :=
  if t = "null".toList then some .null
  else if t = "true".toList then some (.bool true)
  else if t = "false".toList then some (.bool false)
  else none

def punctuation? (c : Char) : Option Token :=
  if c = '{' then some .openBrace
  else if c = '}' then some .closeBrace
  else if c = '[' then some .openBracket
  else if c = ']' then some .closeBracket
  else if c = ':' then some .colon
  else if c = ',' then some .comma
  else none

inductive Mode where
  | between
  | string (units : List StringUnit)
  /-- Behind a backslash in a string. -/
  | escape (units : List StringUnit)
  /-- Before the last digits of an escaped unit, of which one more than `more` are missing. -/
  | hex (units : List StringUnit) (value more : Nat)
  | number (literal : Text)
  | word (letters : Text)

def isSpace (c : Char) : Bool := c == ' ' || c == '\t' || c == '\n' || c == '\r'

def isNumberChar (c : Char) : Bool :=
  c.isDigit || c == '+' || c == '-' || c == '.' || c == 'e' || c == 'E'

/-- The character that a backslash and a letter or mark stand for. -/
def unescape? (c : Char) : Option Char :=
  if c = '\x22' ∨ c = '\\' ∨ c = '/' then some c
  else if c = 'b' then some '\x08'
  else if c = 'f' then some '\x0c'
  else if c = 'n' then some '\n'
  else if c = 'r' then some '\r'
  else if c = 't' then some '\t'
  else none

def start (c : Char) : Option (List Token × Mode) :=
  match punctuation? c with
  | some t => some ([t], .between)
  | none =>
    if isSpace c then some ([], .between)
    else if c = '\x22' then some ([], .string [])
    else if c = '-' || c.isDigit then some ([], .number [c])
    else if c.isLower then some ([], .word [c])
    else none

/-- The token that ends in front of a character of another token, or at the end
of the input. -/
def finish : Mode → Option (List Token)
  | .between => some []
  | .number literal => if isNumber literal.reverse then some [.number literal.reverse] else none
  | .word letters => (keyword? letters.reverse).map fun t => [t]
  | .string _ | .escape _ | .hex _ _ _ => none

def finishThen (mode : Mode) (c : Char) : Option (List Token × Mode) := do
  let ended ← finish mode
  let (begun, mode) ← start c
  pure (ended ++ begun, mode)

def step : Mode → Char → Option (List Token × Mode)
  | .between, c => start c
  | .string units, c =>
    if c = '\x22' then some ([.string (StringUnit.decode units.reverse)], .between)
    else if c = '\\' then some ([], .escape units)
    else if c < ' ' then none
    else some ([], .string (.plain c :: units))
  | .escape units, c =>
    if c = 'u' then some ([], .hex units 0 3)
    else (unescape? c).map fun d => ([], .string (.plain d :: units))
  | .hex units value 0, c =>
    (Text.hexValue? c).map fun d => ([], .string (.escaped (16 * value + d) :: units))
  | .hex units value (more + 1), c =>
    (Text.hexValue? c).map fun d => ([], .hex units (16 * value + d) more)
  | .number literal, c =>
    if isNumberChar c then some ([], .number (c :: literal)) else finishThen (.number literal) c
  | .word letters, c =>
    if c.isLower then some ([], .word (c :: letters)) else finishThen (.word letters) c

/-- The tokens of a text that is entered in a mode. -/
def scan : Mode → Text → Option (List Token)
  | mode, [] => finish mode
  | mode, c :: r => do
    let (ts, mode) ← step mode c
    let rest ← scan mode r
    pure (ts ++ rest)

end Token

end AnimationScope.Json
