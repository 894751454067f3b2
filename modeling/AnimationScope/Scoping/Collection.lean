import AnimationScope.Animation.Keyframes
import AnimationScope.Animation.Name
import AnimationScope.Animation.NameMap
import AnimationScope.Naming.Generator
import AnimationScope.Report
import AnimationScope.Stylesheet.Node

/-!
# Collecting keyframes rules

The keyframes rules at the top level are judged and renamed in the order of the
source. A name that is declared twice gets two scoped names.
-/

namespace AnimationScope

open Animation Naming

structure SourceFile where
  path : Text
  css : Text
deriving DecidableEq

/-- What became of one keyframes rule that declares a name. -/
inductive Finding where
  | rejected (kind : Warning.Kind) (name : Text)
  | renamed (name value : Text)
deriving DecidableEq

namespace Finding

def warning? : Finding → Option Warning
  | .rejected kind name => some (.about kind name)
  | .renamed _ _ => none

def pair? : Finding → Option (Text × Text)
  | .rejected _ _ => none
  | .renamed name value => some (name, value)

end Finding

/-- The nodes after the keyframes rules were renamed, with what became of each
rule in the order of the source, and the state of the generator. -/
structure Collection (σ : Type) where
  nodes : List Node
  findings : List Finding
  state : σ

namespace Collection

variable {σ : Type} (c : Collection σ)

def pairs : List (Text × Text) := c.findings.filterMap Finding.pair?

def names : NameMap := NameMap.ofList c.pairs

def report : Report where
  warnings := c.findings.filterMap Finding.warning?
  events := c.pairs.map fun p => Event.about p.1 p.2

end Collection

/-- The at-rule with another name in its prelude. A name that followed the
keyword directly, as a quoted one may, gets a space in front of it. -/
def AtRule.withParams (a : AtRule) (params : Text) : AtRule :=
  { a with afterName := if a.afterName.isEmpty then [' '] else a.afterName, params }

section

variable {σ : Type} (g : Generator σ) (file : SourceFile)

/-- Judges the name that an at-rule declares, and renames the rule if the name
is usable. -/
def AtRule.collect (a : AtRule) (state : σ) : AtRule × Option Finding × σ :=
  match if isKeyframes a.name then declaredName? a.params else none with
  | none => (a, none, state)
  | some name =>
    match classify name with
    | .reserved => (a, some (.rejected .reservedName name), state)
    | .invalid => (a, some (.rejected .invalidIdentifier name), state)
    | .valid =>
      let (value, state) := g.generate name file.path file.css state
      (a.withParams value, some (.renamed name value), state)

def Node.collect (state : σ) : Node → Node × Option Finding × σ
  | .atRule a =>
    let (a, finding, state) := a.collect g file state
    (.atRule a, finding, state)
  | .atBlock a body =>
    let (a, finding, state) := a.collect g file state
    (.atBlock a body, finding, state)
  | n => (n, none, state)

def collect : List Node → σ → Collection σ
  | [], state => ⟨[], [], state⟩
  | n :: ns, state =>
    let (n, finding, state) := n.collect g file state
    let rest := collect ns state
    ⟨n :: rest.nodes, finding.toList ++ rest.findings, rest.state⟩

end

end AnimationScope
