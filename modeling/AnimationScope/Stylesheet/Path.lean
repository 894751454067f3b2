import AnimationScope.Stylesheet.Node

/-!
# Paths into a tree

A path lists the index of a node among its siblings, from the top level down. The
empty path leads nowhere.
-/

namespace AnimationScope.Node

def at? : List Node → List Nat → Option Node
  | _, [] => none
  | ns, [i] => ns[i]?
  | ns, i :: is => ns[i]?.bind fun n => at? n.children is

/-- Changes the node that a path leads to. There is no result if the path leads
nowhere or the change is refused. -/
def updateAt? (f : Node → Option Node) : List Node → List Nat → Option (List Node)
  | _, [] => none
  | ns, [i] => do
    let n ← ns[i]?
    let m ← f n
    pure (ns.set i m)
  | ns, i :: is => do
    let n ← ns[i]?
    let children ← updateAt? f n.children is
    pure (ns.set i (n.withChildren children))

end AnimationScope.Node
