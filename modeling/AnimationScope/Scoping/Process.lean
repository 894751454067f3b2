import AnimationScope.Animation.Reference
import AnimationScope.Icss.Export
import AnimationScope.Scoping.Collection
import AnimationScope.Stylesheet.Parse

/-!
# Scoping a stylesheet

The keyframes rules are renamed first. Then all references follow the complete
map of names, wherever they stand, and last the map is published. Of a name
that is declared twice, references follow the last declaration.
-/

namespace AnimationScope

open Animation Naming

structure Outcome (σ : Type) where
  sheet : Stylesheet
  names : NameMap
  report : Report
  state : σ

/-- What a host receives for one stylesheet. -/
structure Output where
  css : Text
  exports : NameMap
  report : Report

variable {σ : Type} (g : Generator σ) (file : SourceFile)

/-- Scopes a tree, and adds to a report. -/
def scope (sheet : Stylesheet) (report : Report) (state : σ) : Outcome σ :=
  let found := collect g file sheet.nodes state
  let renamed := renameReferences found.names { sheet with nodes := found.nodes }
  let (merged, collisions) := Icss.mergeExports found.names renamed
  { sheet := merged
    names := found.names
    report := (report.append found.report).append ⟨collisions, []⟩
    state := found.state }

def process (state : σ) : Except Css.SyntaxError Output :=
  match Stylesheet.parse file.css with
  | .error e => .error e
  | .ok sheet =>
    let outcome := scope g file sheet .empty state
    .ok ⟨outcome.sheet.render, outcome.names, outcome.report⟩

end AnimationScope
