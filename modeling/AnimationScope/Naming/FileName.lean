import AnimationScope.Text.Basic

/-!
# File names

Scoped names use the last part of a path, brought into a form that an
identifier can contain: lower-case ASCII letters and digits in runs that single
underscores join.
-/

namespace AnimationScope.Naming

def isSeparator (c : Char) : Bool := c == '/' || c == '\\'

/-- The part of a path behind its last separator. -/
def baseName (path : Text) : Text := (path.reverse.takeWhile (!isSeparator ·)).reverse

/-- The name of a file without its last extension. A dot at the start is part of
the name. -/
def fileStem (path : Text) : Text :=
  let name := baseName path
  match name.reverse.dropWhile (· ≠ '.') with
  | _ :: c :: r => (c :: r).reverse
  | _ => name

/-- The lower case of a character. The only characters outside of ASCII whose
lower case has an ASCII letter are the Kelvin sign and the capital I with a dot. -/
def lowerCase (c : Char) : Text :=
  if c = '\u212A' then ['k']
  else if c = '\u0130' then ['i', '\u0307']
  else [c.toLower]

def isWordChar (c : Char) : Bool := c.isLower || c.isDigit

/-- The longest runs of letters and digits. -/
def words : Text → List Text
  | [] => []
  | c :: r =>
    if isWordChar c then
      match r, words r with
      | d :: _, w :: ws => if isWordChar d then (c :: w) :: ws else [c] :: w :: ws
      | _, ws => [c] :: ws
    else words r

/-- The words of a text in lower case, with an underscore between any two. -/
def joinedWords (t : Text) : Text := List.intercalate ['_'] (words (t.flatMap lowerCase))

/-- The scoped name that is used unless a host asks for another form. -/
def defaultName (name path : Text) : Text :=
  "__".toList ++ joinedWords (baseName path) ++ "__".toList ++ name

end AnimationScope.Naming
