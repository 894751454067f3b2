import AnimationScope.Text.Basic

/-!
# JSON values

Numbers are kept as they are spelled. A string has no text if it holds an
escaped surrogate without a partner.
-/

namespace AnimationScope.Json

inductive Value where
  | null
  | bool (b : Bool)
  | number (literal : Text)
  | string (text : Option Text)
  | array (items : List Value)
  | object (members : List (Option Text × Value))

def Value.ofText (t : Text) : Value := .string (some t)

def Value.record (members : List (String × Value)) : Value :=
  .object (members.map fun m => (some m.1.toList, m.2))

end AnimationScope.Json
