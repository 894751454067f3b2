import AnimationScope.Animation.NameMap
import AnimationScope.Report
import AnimationScope.Stylesheet.Declarations
import AnimationScope.Text.Blank

/-!
# The export block

Scoped names are published in the first `:export` rule at the top level. A sheet
without one gets it behind its last `:import` rule, or else at its end. An entry
that is already there is overwritten only if it differs.
-/

namespace AnimationScope.Icss

open Animation

inductive Block where
  | importing
  | exporting
deriving DecidableEq

/-- The block that a node is, as its selector tells. -/
def block? : Node → Option Block
  | .rule r _ =>
    let selector := r.selector.trim
    if selector = ":export".toList then some .exporting
    else if (selector.stripStart? ":import".toList).isSome then some .importing
    else none
  | _ => none

def isExport (n : Node) : Bool := block? n = some .exporting

def isImport (n : Node) : Bool := block? n = some .importing

/-- Publishes one name among the nodes of an export block. -/
def publish (name value : Text) (ns : List Node) : List Node × List Warning :=
  match (Node.directDeclarations ns).find? (·.prop = name) with
  | some d =>
    if d.value.trim = value then (ns, [])
    else (Node.setFirst name value ns, [.about .exportKeyCollision name])
  | none => (Node.appendDeclaration name value ns, [])

def publishAll : List (Text × Text) → List Node → List Node × List Warning
  | [], ns => (ns, [])
  | (name, value) :: es, ns =>
    let (ns, first) := publish name value ns
    let (ns, rest) := publishAll es ns
    (ns, first ++ rest)

def insertAfterImports (new : Node) : List Node → List Node
  | [] => [new]
  | n :: ns =>
    if isImport n && !ns.any isImport then n :: new :: ns else n :: insertAfterImports new ns

/-- The nodes with an export block among them. -/
def ensureExport (ns : List Node) : List Node :=
  let new := Node.emptyRule ":export".toList
  if ns.any isExport then ns
  else if ns.isEmpty then [new]
  else insertAfterImports (new.withBefore ['\n']) ns

def publishInFirst (es : List (Text × Text)) : List Node → List Node × List Warning
  | [] => ([], [])
  | n :: ns =>
    if isExport n then
      let (body, warnings) := publishAll es n.children
      (n.withChildren body :: ns, warnings)
    else
      let (ns, warnings) := publishInFirst es ns
      (n :: ns, warnings)

def mergeExports (names : NameMap) (s : Stylesheet) : Stylesheet × List Warning :=
  if names.isEmpty then (s, [])
  else
    let (nodes, warnings) := publishInFirst names.entries (ensureExport s.nodes)
    ({ s with nodes }, warnings)

end AnimationScope.Icss
