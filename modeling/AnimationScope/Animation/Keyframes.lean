import AnimationScope.Css.Lexeme
import AnimationScope.Css.VendorPrefix
import AnimationScope.Text.Blank

/-!
# Keyframes rules

The name of an animation is declared by the prelude of a keyframes rule, as an
identifier or as a string, and among any comments.
-/

namespace AnimationScope.Animation

open Css

/-- Whether an at-rule of this name declares an animation. -/
def isKeyframes (name : Text) : Bool := matchesUnprefixed name ["keyframes".toList]

/-- The text without its comments. A text that has no lexemes is left as it is. -/
def withoutComments (t : Text) : Text :=
  match lexemes t with
  | .ok ls => Lexeme.join (ls.filter (·.kind ≠ .comment))
  | .error _ => t

def unquote : Text → Text
  | [] => []
  | c :: r => if (c = '\x22' || c = '\x27') && r.getLast? = some c then r.dropLast else c :: r

/-- The animation that a prelude declares, if it declares any. -/
def declaredName? (params : Text) : Option Text :=
  match (withoutComments params).trim with
  | [] => none
  | t => some (unquote t)

end AnimationScope.Animation
