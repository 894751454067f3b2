import AnimationScope.Json.Value
import AnimationScope.Text.Digit

/-!
# Writing JSON

Values are written without spaces. Only quotes, backslashes and control
characters below the space are escaped.
-/

namespace AnimationScope.Json

def escape (c : Char) : Text :=
  if c = '\x22' then ['\\', '\x22']
  else if c = '\\' then ['\\', '\\']
  else if c = '\x08' then ['\\', 'b']
  else if c = '\x0c' then ['\\', 'f']
  else if c = '\n' then ['\\', 'n']
  else if c = '\r' then ['\\', 'r']
  else if c = '\t' then ['\\', 't']
  else if c < ' ' then ['\\', 'u', '0', '0', Text.hexDigit (c.toNat / 16), Text.hexDigit c.toNat]
  else [c]

def writeText (t : Text) : Text := '\x22' :: t.flatMap escape ++ ['\x22']

/-- A string. One without text is written as a surrogate that has no partner. -/
def writeString : Option Text → Text
  | some t => writeText t
  | none => '\x22' :: "\\ud800".toList ++ ['\x22']

mutual

def Value.write : Value → Text
  | .null => "null".toList
  | .bool true => "true".toList
  | .bool false => "false".toList
  | .number literal => literal
  | .string t => writeString t
  | .array items => '[' :: writeItems items ++ [']']
  | .object members => '{' :: writeMembers members ++ ['}']

def Value.writeItems : List Value → Text
  | [] => []
  | [v] => v.write
  | v :: vs => v.write ++ ',' :: writeItems vs

def Value.writeMembers : List (Option Text × Value) → Text
  | [] => []
  | [(k, v)] => writeString k ++ ':' :: v.write
  | (k, v) :: ms => writeString k ++ ':' :: v.write ++ ',' :: writeMembers ms

end

end AnimationScope.Json
