import AnimationScope.Text.Position

/-!
# Syntax errors

An error names the place of the construct that is at fault, not the place where
the reader noticed it.
-/

namespace AnimationScope.Css

inductive Fault where
  | unclosedBlock
  | unclosedComment
  | unclosedString
  | unexpectedCloseBrace
deriving DecidableEq

structure SyntaxError where
  fault : Fault
  position : Position
deriving DecidableEq

def Fault.describe : Fault → Text
  | .unclosedBlock => "unclosed block".toList
  | .unclosedComment => "unclosed comment".toList
  | .unclosedString => "unclosed string".toList
  | .unexpectedCloseBrace => "unexpected '\x7d'".toList

def SyntaxError.message (e : SyntaxError) : Text :=
  e.fault.describe ++ " at ".toList ++ e.position.render

end AnimationScope.Css
