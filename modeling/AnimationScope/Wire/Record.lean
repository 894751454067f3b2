import AnimationScope.Json.Read
import AnimationScope.Json.Write

/-!
# Records on the wire

A record is written as an object. It is read from an object, in which unknown
members are passed over and known ones stand at most once, or from an array of
its fields in order.
-/

namespace AnimationScope.Wire

open Json

class Record (α : Type) where
  toValue : α → Value
  ofValue? : Value → Option α

variable {α : Type} [Record α]

def write (a : α) : Text := (Record.toValue a).write

def read? (t : Text) : Option α := (read t).bind Record.ofValue?

/-- The one member of a key, if there is any. There is no result if the key is
repeated. -/
def field? (members : List (Option Text × Value)) (name : String) : Option (Option Value) :=
  match members.filter (·.1 = some name.toList) with
  | [] => some none
  | [m] => some (some m.2)
  | _ => none

/-- The fields of a record, where each may be missing. -/
def fields? (names : List String) : Value → Option (List (Option Value))
  | .object members =>
    if members.all (·.1.isSome) then names.mapM (field? members) else none
  | .array items =>
    if items.length ≤ names.length then
      some (items.map some ++ List.replicate (names.length - items.length) none)
    else none
  | _ => none

def texts? (names : List String) (v : Value) : Option (List Text) :=
  (fields? names v).bind fun fields => fields.mapM fun
    | some (.string text) => text
    | _ => none

end AnimationScope.Wire
