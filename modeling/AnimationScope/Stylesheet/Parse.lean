import AnimationScope.Css.Statement
import AnimationScope.Stylesheet.Node
import AnimationScope.Text.Blank

/-!
# Reading a stylesheet

The text of each statement is divided into the parts of a node. The blanks at
both ends of a prelude are kept apart from the name, the selector or the value
that they surround.
-/

namespace AnimationScope

open Css

/-- An at-rule without a block. The keyword has its at sign. -/
def AtRule.ofPrelude (before keyword prelude : Text) : AtRule where
  before
  name := keyword.tail
  afterName := prelude.leading
  params := Text.trimEnd prelude.trimStart
  between := Text.trailing prelude.trimStart
  after := []
  semicolon := false

def Rule.ofPrelude (before prelude after : Text) : Rule where
  before
  selector := prelude.trimEnd
  between := prelude.trailing
  after

/-- The first colon divides the property from the value. Without a colon all of
the text is the property. -/
def Declaration.ofPrelude (before : Text) (prelude : List Lexeme) (semicolon : Bool) :
    Declaration :=
  let head := prelude.takeWhile (·.kind ≠ .colon)
  match prelude.dropWhile (·.kind ≠ .colon) with
  | [] => ⟨before, Lexeme.join head, [], [], semicolon⟩
  | colon :: rest =>
    let prop := Lexeme.join head
    let value := Lexeme.join rest
    ⟨before, prop.trimEnd, prop.trailing ++ colon.text ++ value.leading, value.trimStart,
      semicolon⟩

namespace Node

mutual

def ofStatement : Statement → Node
  | .comment gap c => .comment ⟨Lexeme.join gap, c.text⟩
  | .simple head semicolon =>
    let before := Lexeme.join head.gap
    match head.keyword with
    | some k =>
      .atRule { AtRule.ofPrelude before k.text (Lexeme.join head.prelude) with
        semicolon := semicolon.isSome }
    | none => .declaration (Declaration.ofPrelude before head.prelude semicolon.isSome)
  | .block head body after =>
    let before := Lexeme.join head.gap
    let nodes := ofStatements body
    match head.keyword with
    | some k =>
      .atBlock { AtRule.ofPrelude before k.text (Lexeme.join head.prelude) with
        after := Lexeme.join after } nodes
    | none => .rule (Rule.ofPrelude before (Lexeme.join head.prelude) (Lexeme.join after)) nodes

def ofStatements : List Statement → List Node
  | [] => []
  | s :: ss => ofStatement s :: ofStatements ss

end

end Node

namespace Stylesheet

def ofNest (n : Nest) : Stylesheet :=
  let run := Statement.ofNest n
  ⟨Node.ofStatements run.statements, Lexeme.join run.after⟩

/-- Reads a stylesheet, which fails only where its blocks, comments and strings
do not close. -/
def parse (t : Text) : Except SyntaxError Stylesheet := (nest t).map ofNest

end Stylesheet

end AnimationScope
