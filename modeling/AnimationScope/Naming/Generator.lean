import AnimationScope.Naming.Pattern

/-!
# Generators of scoped names
-/

namespace AnimationScope.Naming

/-- A source of scoped names. It is told the local name, the path and the text
of the stylesheet, and it may remember its earlier answers in a state. -/
structure Generator (σ : Type) where
  generate : (name path source : Text) → σ → Text × σ

namespace Generator

variable {σ : Type}

/-- A generator that answers from its arguments alone. -/
def ofFunction (f : (name path source : Text) → Text) : Generator σ :=
  ⟨fun name path source state => (f name path source, state)⟩

/-- The generator for hosts that ask for no other. -/
def default : Generator σ := ofFunction fun name path _ => defaultName name path

def ofPattern (p : Pattern) : Generator σ :=
  ofFunction fun name path _ => p.fill name path

def answers (g : Generator σ) : List (Text × Text × Text) → σ → List Text
  | [], _ => []
  | (name, path, source) :: calls, state =>
    let (value, state) := g.generate name path source state
    value :: g.answers calls state

end Generator

end AnimationScope.Naming
