import AnimationScope.Css.Name

/-!
# Unquoted addresses

The text behind `url(` is one token up to its closing parenthesis, or to the
end of the input, unless it is a quoted string. An address that breaks a rule
is still one token, but its end is then found by other means.
-/

namespace AnimationScope.Css

/-- Whether an identifier spells `url`, in any case and with any escapes. -/
def spellsUrl (name : Text) : Bool :=
  (unescape 0 name).map Char.toLower == "url".toList

/-- Length of the remains of a broken address. Only an escaped parenthesis or
backslash is passed over as a pair. -/
def brokenUrlLength : Nat → Text → Nat
  | _, [] => 0
  | k + 1, _ :: r => brokenUrlLength k r + 1
  | 0, c :: r =>
    if c = ')' then 1
    else if c = '\\' && headIs (fun d => d == ')' || d == '\\') r then brokenUrlLength 1 r + 1
    else brokenUrlLength 0 r + 1

/-- Length of the spaces behind an address and of what ends it. -/
def urlEndLength : Text → Nat
  | [] => 0
  | c :: r =>
    if c = ')' then 1
    else if isSpace c then urlEndLength r + 1
    else brokenUrlLength 0 r + 1

/-- Characters that no unquoted address may contain. -/
def breaksUrl (c : Char) : Bool := c == '\x22' || c == '\x27' || c == '(' || isNonPrintable c

/-- Length of an address, the closing parenthesis included. -/
def urlBodyLength : Nat → Text → Nat
  | _, [] => 0
  | k + 1, _ :: r => urlBodyLength k r + 1
  | 0, c :: r =>
    if c = ')' then 1
    else if isSpace c then urlEndLength r + 1
    else if breaksUrl c then brokenUrlLength 0 r + 1
    else if c = '\\' then
      if headIs isNewline r then brokenUrlLength 0 r + 1
      else urlBodyLength (escapeLength r) r + 1
    else urlBodyLength 0 r + 1

/-- Length of the unquoted address behind `url(`, or `none` for a quoted one. -/
def unquotedUrlLength? (t : Text) : Option Nat :=
  let spaces := (t.takeWhile isSpace).length
  let body := t.drop spaces
  if headIs (fun c => c == '\x22' || c == '\x27') body then none
  else some (spaces + urlBodyLength 0 body)

end AnimationScope.Css
