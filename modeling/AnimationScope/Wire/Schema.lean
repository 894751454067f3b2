import AnimationScope.Scoping.Process
import AnimationScope.Wire.Record

/-!
# The records that hosts exchange
-/

namespace AnimationScope

open Json Wire

structure Config where
  scopedNamePattern : Option Text
deriving DecidableEq

/-- The pattern may be missing or null. -/
instance : Record Config where
  toValue c := .record [("scopedNamePattern", match c.scopedNamePattern with
    | some p => .ofText p
    | none => .null)]
  ofValue? v := match fields? ["scopedNamePattern"] v with
    | some [none] | some [some .null] => some ⟨none⟩
    | some [some (.string (some p))] => some ⟨some p⟩
    | _ => none

instance : Record SourceFile where
  toValue f := .record [("path", .ofText f.path), ("css", .ofText f.css)]
  ofValue? v := match texts? ["path", "css"] v with
    | some [path, css] => some ⟨path, css⟩
    | _ => none

instance : Record Event where
  toValue e := .record [("plugin", .ofText e.plugin), ("type", .ofText e.type),
    ("name", .ofText e.name), ("value", .ofText e.value)]
  ofValue? v := match texts? ["plugin", "type", "name", "value"] v with
    | some [plugin, type, name, value] => some ⟨plugin, type, name, value⟩
    | _ => none

namespace Warning

def kinds : List Kind := [.reservedName, .invalidIdentifier, .exportKeyCollision]

def Kind.tag : Kind → Text
  | .reservedName => "reserved-name".toList
  | .invalidIdentifier => "invalid-identifier".toList
  | .exportKeyCollision => "export-key-collision".toList

def Kind.ofTag? (t : Text) : Option Kind := kinds.find? (·.tag = t)

/-- A kind is its tag, or an object with the tag as its key and null as its value. -/
def Kind.ofValue? : Value → Option Kind
  | .string (some t) => ofTag? t
  | .object [(some t, .null)] => ofTag? t
  | _ => none

end Warning

instance : Record Warning where
  toValue w := .record [("kind", .ofText w.kind.tag), ("name", .ofText w.name),
    ("message", .ofText w.message)]
  ofValue? v := match fields? ["kind", "name", "message"] v with
    | some [some kind, some (.string (some name)), some (.string (some message))] =>
      (Warning.Kind.ofValue? kind).map fun kind => ⟨kind, name, message⟩
    | _ => none

/-- The entries of a map as the members of an object, in their order. -/
def Animation.NameMap.toValue (m : Animation.NameMap) : Value :=
  .object (m.entries.map fun e => (some e.1, .ofText e.2))

def Output.toValue (o : Output) : Value :=
  .record [("css", .ofText o.css), ("exports", o.exports.toValue),
    ("warnings", .array (o.report.warnings.map Record.toValue)),
    ("messages", .array (o.report.events.map Record.toValue))]

end AnimationScope
