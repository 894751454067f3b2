import AnimationScope.Json.Token
import AnimationScope.Json.Value

/-!
# Reading JSON

Tokens are read one by one. A stack holds the arrays and objects that are not
yet closed, with what they have so far in reverse.
-/

namespace AnimationScope.Json

/-- An array or an object that the value to be read belongs to. -/
inductive Frame where
  | array (items : List Value)
  | object (members : List (Option Text × Value)) (key : Option Text)

/-- What may come next, and the stack below it. -/
inductive State where
  | value (stack : List Frame)
  | firstItem (stack : List Frame)
  | behindItem (items : List Value) (stack : List Frame)
  | firstKey (stack : List Frame)
  | key (members : List (Option Text × Value)) (stack : List Frame)
  | colon (members : List (Option Text × Value)) (key : Option Text) (stack : List Frame)
  | behindMember (members : List (Option Text × Value)) (stack : List Frame)
  | done (value : Value)

namespace State

/-- Puts a complete value where it belongs. -/
def deliver (v : Value) : List Frame → State
  | [] => .done v
  | .array items :: stack => .behindItem (v :: items) stack
  | .object members k :: stack => .behindMember ((k, v) :: members) stack

def begin (stack : List Frame) : Token → Option State
  | .null => some (deliver .null stack)
  | .bool b => some (deliver (.bool b) stack)
  | .number literal => some (deliver (.number literal) stack)
  | .string text => some (deliver (.string text) stack)
  | .openBracket => some (.firstItem stack)
  | .openBrace => some (.firstKey stack)
  | .closeBracket | .closeBrace | .colon | .comma => none

def step : State → Token → Option State
  | .value stack, t => begin stack t
  | .firstItem stack, .closeBracket => some (deliver (.array []) stack)
  | .firstItem stack, t => begin (.array [] :: stack) t
  | .behindItem items stack, .comma => some (.value (.array items :: stack))
  | .behindItem items stack, .closeBracket => some (deliver (.array items.reverse) stack)
  | .firstKey stack, .closeBrace => some (deliver (.object []) stack)
  | .firstKey stack, .string k => some (.colon [] k stack)
  | .key members stack, .string k => some (.colon members k stack)
  | .colon members k stack, .colon => some (.value (.object members k :: stack))
  | .behindMember members stack, .comma => some (.key members stack)
  | .behindMember members stack, .closeBrace => some (deliver (.object members.reverse) stack)
  | _, _ => none

def run : State → List Token → Option State
  | s, [] => some s
  | s, t :: ts => (step s t).bind fun s => run s ts

end State

/-- The value that a text spells, with nothing but spaces around it. -/
def read (t : Text) : Option Value :=
  match (Token.scan .between t).bind (State.run (.value [])) with
  | some (.done v) => some v
  | _ => none

end AnimationScope.Json
