import AnimationScope.Text.Basic

/-!
# Stylesheet trees

A stylesheet is a tree of statements. Every node keeps the raw text around its
parts, so that printing a tree gives back the text that it was read from.
-/

namespace AnimationScope

/-- The parts of `@name params` with a block behind it or without one. -/
structure AtRule where
  before : Text
  /-- The name without its at sign. -/
  name : Text
  afterName : Text
  params : Text
  between : Text
  /-- Text in front of the closing brace. Only a block prints it. -/
  after : Text
  /-- Whether a semicolon ends the statement. A block does not print it. -/
  semicolon : Bool
deriving DecidableEq

structure Rule where
  before : Text
  selector : Text
  between : Text
  /-- Text in front of the closing brace. -/
  after : Text
deriving DecidableEq

structure Declaration where
  before : Text
  prop : Text
  /-- Text between the property and the value, the colon included. -/
  between : Text
  value : Text
  semicolon : Bool
deriving DecidableEq

structure Comment where
  before : Text
  /-- The comment together with its marks. -/
  text : Text
deriving DecidableEq

inductive Node where
  /-- An at-rule without a block. -/
  | atRule (a : AtRule)
  /-- An at-rule with a block. -/
  | atBlock (a : AtRule) (body : List Node)
  | rule (r : Rule) (body : List Node)
  | declaration (d : Declaration)
  | comment (c : Comment)

structure Stylesheet where
  nodes : List Node
  /-- Text behind the last node. -/
  after : Text

namespace AtRule

def head (a : AtRule) : Text :=
  a.before ++ '@' :: (a.name ++ a.afterName ++ a.params ++ a.between)

end AtRule

namespace Declaration

def render (d : Declaration) : Text :=
  d.before ++ d.prop ++ d.between ++ d.value ++ (if d.semicolon then [';'] else [])

end Declaration

namespace Node

mutual

def render : Node → Text
  | .atRule a => a.head ++ (if a.semicolon then [';'] else [])
  | .atBlock a body => a.head ++ '{' :: renderAll body ++ a.after ++ ['}']
  | .rule r body =>
    r.before ++ r.selector ++ r.between ++ '{' :: renderAll body ++ r.after ++ ['}']
  | .declaration d => d.render
  | .comment c => c.before ++ c.text

def renderAll : List Node → Text
  | [] => []
  | n :: ns => n.render ++ renderAll ns

end

@[simp] theorem renderAll_append (ns ms : List Node) :
    renderAll (ns ++ ms) = renderAll ns ++ renderAll ms := by
  induction ns with
  | nil => rfl
  | cons n ns ih => simp [renderAll, ih]

def children : Node → List Node
  | .atBlock _ body | .rule _ body => body
  | .atRule _ | .declaration _ | .comment _ => []

def withChildren (ns : List Node) : Node → Node
  | .atBlock a _ => .atBlock a ns
  | .rule r _ => .rule r ns
  | n => n

def before : Node → Text
  | .atRule a | .atBlock a _ => a.before
  | .rule r _ => r.before
  | .declaration d => d.before
  | .comment c => c.before

def withBefore (t : Text) : Node → Node
  | .atRule a => .atRule { a with before := t }
  | .atBlock a body => .atBlock { a with before := t } body
  | .rule r body => .rule { r with before := t } body
  | .declaration d => .declaration { d with before := t }
  | .comment c => .comment { c with before := t }

end Node

def Stylesheet.render (s : Stylesheet) : Text := Node.renderAll s.nodes ++ s.after

end AnimationScope
