import AnimationScope.Css.Character
import AnimationScope.Text.Digit

/-!
# Escapes and names

The functions here measure how far a construct reaches into the text that
follows. A name is read character by character. Its first argument counts the
characters of an escape that are still to be passed over.
-/

namespace AnimationScope.Css

/-- Length of the newline at the head, where a carriage return and a line feed
together are one newline. -/
def newlineLength : Text → Nat
  | '\r' :: '\n' :: _ => 2
  | c :: _ => if isNewline c then 1 else 0
  | [] => 0

/-- The hexadecimal digits of an escape, at most six. -/
def escapeDigits (t : Text) : Text := (t.take 6).takeWhile fun c => (Text.hexValue? c).isSome

/-- Length of the one space that may end a hexadecimal escape. -/
def escapeEndLength : Text → Nat
  | '\r' :: '\n' :: _ => 2
  | c :: _ => if isSpace c then 1 else 0
  | [] => 0

/-- Length of what a backslash escapes: up to six hexadecimal digits with one
optional space, or else any one character. -/
def escapeLength (t : Text) : Nat :=
  match escapeDigits t with
  | [] => (t.take 1).length
  | digits => digits.length + escapeEndLength (t.drop digits.length)

/-- Length of the name characters and escapes at the head. -/
def nameLength : Nat → Text → Nat
  | _, [] => 0
  | k + 1, _ :: r => nameLength k r + 1
  | 0, c :: r =>
    if isNameChar c then nameLength 0 r + 1
    else if c = '\\' && !headIs isNewline r then nameLength (escapeLength r) r + 1
    else 0

/-- Whether an identifier begins here. A hyphen before a backslash begins one
even when a newline follows the backslash. -/
def startsIdent : Text → Bool
  | [] => false
  | '-' :: r => headIs (fun d => isNameStart d || d == '-' || d == '\\') r
  | '\\' :: r => !headIs isNewline r
  | c :: _ => isNameStart c

def replacement : Char := '\uFFFD'

/-- The code point of a number, or the replacement character if there is none. -/
def codePoint (n : Nat) : Char := if n ≠ 0 ∧ n.isValidChar then Char.ofNat n else replacement

def escapedChar (t : Text) : Char :=
  match escapeDigits t with
  | [] => match t with
    | [] => replacement
    | c :: _ => if c = '\x00' then replacement else c
  | digits => codePoint (Text.ofHex digits)

def unescape : Nat → Text → Text
  | _, [] => []
  | k + 1, _ :: r => unescape k r
  | 0, c :: r =>
    if c = '\\' then escapedChar r :: unescape (escapeLength r) r
    else (if c = '\x00' then replacement else c) :: unescape 0 r

end AnimationScope.Css
