import AnimationScope.Css.Character

/-!
# Names of animations

A name is usable if it is a custom identifier and none of the keywords that the
`animation` shorthand gives a meaning of its own.
-/

namespace AnimationScope.Animation

/-- The keywords of the shorthand and of every property. -/
def reservedNames : List Text :=
  [ "none", "inherit", "initial", "unset",
    "linear", "ease", "ease-in", "ease-in-out", "ease-out",
    "step-start", "step-end", "start", "end",
    "infinite",
    "normal", "reverse", "alternate", "alternate-reverse",
    "forwards", "backwards", "both",
    "running", "paused" ].map String.toList

/-- Whether the text consists of name characters and of pairs of a backslash
and any character. A null is no name character here. -/
def isIdentTail : Text → Bool
  | [] => true
  | '\\' :: _ :: r => isIdentTail r
  | c :: r => (c.isAlphanum || c == '_' || c == '-' || Css.isNonAscii c) && isIdentTail r

/-- Whether the text begins like an identifier that has no hyphen in front. -/
def hasIdentStart : Text → Bool
  | '\\' :: _ :: _ => true
  | c :: _ => c.isAlpha || c == '_' || Css.isNonAscii c
  | [] => false

/-- Whether the text is a custom identifier: two hyphens or an identifier start
after at most one hyphen, and then any identifier characters. -/
def isCustomIdent : Text → Bool
  | '-' :: '-' :: r => isIdentTail r
  | '-' :: r => hasIdentStart r && isIdentTail r
  | t => hasIdentStart t && isIdentTail t

inductive NameClass where
  | reserved
  | invalid
  | valid
deriving DecidableEq

/-- Keywords are compared with case and go before the identifier check. -/
def classify (name : Text) : NameClass :=
  if name ∈ reservedNames then .reserved
  else if isCustomIdent name then .valid
  else .invalid

end AnimationScope.Animation
