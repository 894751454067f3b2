import AnimationScope.Css.Name

/-!
# Strings and comments

Both lengths count the characters behind the opening mark. They are `none` when
the construct is still open at the end of the input.
-/

namespace AnimationScope.Css

/-- Length of what a backslash escapes inside a string, where it may also
continue the line. -/
def stringEscapeLength (t : Text) : Nat :=
  if headIs isNewline t then newlineLength t else escapeLength t

/-- Length of the rest of a string, the closing quote included. A newline that
is not escaped ends the string and is not part of it. -/
def quotedLength (quote : Char) : Nat → Text → Option Nat
  | _, [] => none
  | k + 1, _ :: r => (quotedLength quote k r).map (· + 1)
  | 0, c :: r =>
    if c = quote then some 1
    else if isNewline c then some 0
    else if c = '\\' then (quotedLength quote (stringEscapeLength r) r).map (· + 1)
    else (quotedLength quote 0 r).map (· + 1)

/-- Length of the rest of a comment, its end mark included. -/
def commentLength : Text → Option Nat
  | [] => none
  | c :: r => if c = '*' && headIs (· == '/') r then some 2 else (commentLength r).map (· + 1)

end AnimationScope.Css
