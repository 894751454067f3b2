import AnimationScope.Stylesheet.Node

/-!
# Declarations of a tree

Declarations are visited in the order of the source and at any depth. Direct
declarations are those of one list of nodes, without the blocks in it.
-/

namespace AnimationScope

namespace Node

mutual

def mapDeclarations (f : Declaration → Declaration) : Node → Node
  | .declaration d => .declaration (f d)
  | .atBlock a body => .atBlock a (mapAllDeclarations f body)
  | .rule r body => .rule r (mapAllDeclarations f body)
  | .atRule a => .atRule a
  | .comment c => .comment c

def mapAllDeclarations (f : Declaration → Declaration) : List Node → List Node
  | [] => []
  | n :: ns => mapDeclarations f n :: mapAllDeclarations f ns

end

mutual

def declarations : Node → List Declaration
  | .declaration d => [d]
  | .atBlock _ body => allDeclarations body
  | .rule _ body => allDeclarations body
  | .atRule _ => []
  | .comment _ => []

def allDeclarations : List Node → List Declaration
  | [] => []
  | n :: ns => declarations n ++ allDeclarations ns

end

def declaration? : Node → Option Declaration
  | .declaration d => some d
  | _ => none

def directDeclarations (ns : List Node) : List Declaration := ns.filterMap declaration?

/-- Gives the last direct declaration its semicolon. -/
def terminateLast : List Node → List Node
  | [] => []
  | n :: ns =>
    match n with
    | .declaration d =>
      if (directDeclarations ns).isEmpty then .declaration { d with semicolon := true } :: ns
      else n :: terminateLast ns
    | _ => n :: terminateLast ns

/-- The indentation of the last direct declaration, unless it has none. -/
def indentation (ns : List Node) : Text :=
  match (directDeclarations ns).getLast?.map Declaration.before with
  | none | some [] => "\n  ".toList
  | some before => before

/-- Adds a declaration behind all nodes. It is indented like the last direct
declaration, which is terminated so that the two stay apart. -/
def appendDeclaration (prop value : Text) (ns : List Node) : List Node :=
  terminateLast ns ++ [.declaration ⟨indentation ns, prop, ": ".toList, value, true⟩]

def setFirst (prop value : Text) : List Node → List Node
  | [] => []
  | n :: ns =>
    match n with
    | .declaration d =>
      if d.prop = prop then .declaration { d with value } :: ns else n :: setFirst prop value ns
    | _ => n :: setFirst prop value ns

def emptyRule (selector : Text) : Node := .rule ⟨[], selector, [' '], ['\n']⟩ []

end Node

namespace Stylesheet

def mapDeclarations (f : Declaration → Declaration) (s : Stylesheet) : Stylesheet :=
  { s with nodes := Node.mapAllDeclarations f s.nodes }

def declarations (s : Stylesheet) : List Declaration := Node.allDeclarations s.nodes

end Stylesheet

end AnimationScope
