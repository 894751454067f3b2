import AnimationScope.Text.Basic

/-!
# What a run reports

Warnings tell of names that were left alone or overwritten. Each scoped name is
announced by an event, which other tools read.
-/

namespace AnimationScope

inductive Warning.Kind where
  | reservedName
  | invalidIdentifier
  | exportKeyCollision
deriving DecidableEq

structure Warning where
  kind : Warning.Kind
  name : Text
  message : Text
deriving DecidableEq

namespace Warning

def Kind.message (name : Text) : Kind → Text
  | .reservedName => "Unable to use reserve '".toList ++ name ++ "' animation name".toList
  | .invalidIdentifier => "Invalid animation name identifier '".toList ++ name ++ "'".toList
  | .exportKeyCollision =>
    "'".toList ++ name ++ "' identifier is already declared and will be override".toList

def about (kind : Kind) (name : Text) : Warning := ⟨kind, name, kind.message name⟩

end Warning

structure Event where
  plugin : Text
  type : Text
  name : Text
  value : Text
deriving DecidableEq

def Event.about (name value : Text) : Event :=
  ⟨"icss-keyframes".toList, "icss-scoped".toList, name, value⟩

structure Report where
  warnings : List Warning
  events : List Event
deriving DecidableEq

namespace Report

def empty : Report := ⟨[], []⟩

def append (a b : Report) : Report := ⟨a.warnings ++ b.warnings, a.events ++ b.events⟩

end Report

end AnimationScope
