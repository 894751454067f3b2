import AnimationScope.Proofs.Collecting

/-!
# References to names

A declaration refers to a name if it belongs to an animation property and the name is
one of its words. One visit of the tree renames these references, and it counts each
declaration that has one.
-/

namespace AnimationScope

open Css Animation Naming

/-- The property is `animation` or `animation-name` in any case, with one vendor prefix
or none. -/
def NamesAnimation (prop : Text) : Prop :=
  ∃ p ∈ [] :: vendorPrefixes, ∃ base ∈ ["animation".toList, "animation-name".toList],
    prop.map Char.toLower = p ++ base

theorem isAnimationProperty_iff (prop : Text) :
    isAnimationProperty prop = true ↔ NamesAnimation prop :=
  matchesUnprefixed_iff (by decide) prop

section

variable {f : Declaration → Declaration}

mutual

theorem Node.mapDeclarations_eq_self_iff : ∀ {n : Node},
    n.mapDeclarations f = n ↔ ∀ d ∈ n.declarations, f d = d
  | .declaration d => by simp [mapDeclarations, declarations]
  | .atBlock a body => by
    rw [mapDeclarations, declarations, ← Node.mapAllDeclarations_eq_self_iff]
    simp
  | .rule r body => by
    rw [mapDeclarations, declarations, ← Node.mapAllDeclarations_eq_self_iff]
    simp
  | .atRule a => by simp [mapDeclarations, declarations]
  | .comment c => by simp [mapDeclarations, declarations]

theorem Node.mapAllDeclarations_eq_self_iff : ∀ {ns : List Node},
    mapAllDeclarations f ns = ns ↔ ∀ d ∈ allDeclarations ns, f d = d
  | [] => by simp [mapAllDeclarations, allDeclarations]
  | n :: ns => by
    rw [mapAllDeclarations, allDeclarations, List.cons.injEq, List.forall_mem_append,
      Node.mapDeclarations_eq_self_iff, Node.mapAllDeclarations_eq_self_iff]

end

end

namespace Animation

variable {names : NameMap} {d : Declaration}

def Piece.word? : Piece → Option Text
  | .gap _ => none
  | .word w => some w

/-- The words of a value. A value that is not cut into lexemes has no words. -/
def wordsOf (value : Text) : List Text :=
  match lexemes value with
  | .ok ls => (Piece.ofLexemes ls).filterMap Piece.word?
  | .error _ => []

theorem Piece.any_isKey (names : NameMap) (ps : List Piece) :
    ps.any (isKey names) = true ↔ ∃ w ∈ ps.filterMap word?, w ∈ names.keys := by
  induction ps with
  | nil => simp
  | cons p ps ih =>
    rw [List.any_cons, Bool.or_eq_true, ih]
    cases p with
    | gap t => simp [isKey, word?]
    | word w => simp [isKey, word?, NameMap.contains_iff]

theorem renameValue?_isSome_iff (names : NameMap) (value : Text) :
    (renameValue? names value).isSome = true ↔ ∃ w ∈ wordsOf value, w ∈ names.keys := by
  rw [renameValue?, wordsOf]
  cases lexemes value with
  | error e => simp
  | ok ls =>
    simp only [← Piece.any_isKey]
    split_ifs with h <;> simp [h]

/-- The declaration belongs to an animation property, and one of its words is a key. -/
def Refers (names : NameMap) (d : Declaration) : Prop :=
  NamesAnimation d.prop ∧ ∃ w ∈ wordsOf d.value, w ∈ names.keys

theorem newValue?_isSome_iff : (newValue? names d).isSome = true ↔ Refers names d := by
  rw [newValue?, Refers, ← isAnimationProperty_iff, ← renameValue?_isSome_iff]
  split_ifs with h <;> simp [h]

instance (names : NameMap) : DecidablePred (Refers names) := fun _ =>
  decidable_of_iff _ newValue?_isSome_iff

theorem newValue?_of_isEmpty (h : names.isEmpty = true) (d : Declaration) :
    newValue? names d = none := by
  rw [← Option.not_isSome_iff_eq_none, newValue?_isSome_iff]
  rintro ⟨-, w, -, hw⟩
  rw [NameMap.isEmpty, List.isEmpty_iff] at h
  rw [NameMap.keys, h] at hw
  cases hw

theorem renameDeclaration_of_none (h : newValue? names d = none) :
    renameDeclaration names d = d := by
  rw [renameDeclaration, h]

theorem renameDeclaration_of_not_refers (h : ¬ Refers names d) :
    renameDeclaration names d = d := by
  apply renameDeclaration_of_none
  rwa [← Option.not_isSome_iff_eq_none, newValue?_isSome_iff]

theorem renameDeclaration_of_not (h : ¬ NamesAnimation d.prop) : renameDeclaration names d = d :=
  renameDeclaration_of_not_refers fun hrefers => h hrefers.1

theorem renameDeclaration_of_namesAnimation (h : NamesAnimation d.prop) :
    renameDeclaration names d = { d with value := (renameValue? names d.value).getD d.value } := by
  rw [renameDeclaration, newValue?, if_pos ((isAnimationProperty_iff _).mpr h)]
  cases renameValue? names d.value <;> rfl

theorem renameDeclaration_eq_self_iff :
    renameDeclaration names d = d ↔
      (NamesAnimation d.prop → ∀ value, renameValue? names d.value = some value →
        value = d.value) := by
  by_cases h : NamesAnimation d.prop
  · rw [renameDeclaration_of_namesAnimation h]
    cases renameValue? names d.value with
    | none => simp
    | some value => cases d; simp [h]
  · simp [renameDeclaration_of_not h, h]

/-! ## The visit -/

def visit (names : NameMap) (d : Declaration) (count : Nat) : Declaration × Nat :=
  if isAnimationProperty d.prop then
    match renameValue? names d.value with
    | some value => ({ d with value }, count + 1)
    | none => (d, count)
  else (d, count)

mutual

def visitNode (names : NameMap) : Node → Nat → Node × Nat
  | .declaration d, count => (.declaration (visit names d count).1, (visit names d count).2)
  | .atBlock a body, count =>
    (.atBlock a (visitNodes names body count).1, (visitNodes names body count).2)
  | .rule r body, count =>
    (.rule r (visitNodes names body count).1, (visitNodes names body count).2)
  | .atRule a, count => (.atRule a, count)
  | .comment c, count => (.comment c, count)

def visitNodes (names : NameMap) : List Node → Nat → List Node × Nat
  | [], count => ([], count)
  | n :: ns, count =>
    let first := visitNode names n count
    let rest := visitNodes names ns first.2
    (first.1 :: rest.1, rest.2)

end

/-- Renames the references of a sheet and counts the declarations that change. Nothing is
visited if there are no names. -/
def renameCounted (names : NameMap) (s : Stylesheet) : Stylesheet × Nat :=
  if names.isEmpty then (s, 0)
  else ({ s with nodes := (visitNodes names s.nodes 0).1 }, (visitNodes names s.nodes 0).2)

theorem visit_eq (names : NameMap) (d : Declaration) (count : Nat) :
    visit names d count =
      (renameDeclaration names d, count + if Refers names d then 1 else 0) := by
  have hcount : (if Refers names d then 1 else 0) =
      if (newValue? names d).isSome = true then 1 else 0 :=
    if_congr newValue?_isSome_iff.symm rfl rfl
  rw [hcount, visit, renameDeclaration, newValue?]
  by_cases h : isAnimationProperty d.prop = true
  · simp only [h, if_true]
    cases renameValue? names d.value <;> rfl
  · simp only [h]
    rfl

mutual

theorem visitNode_eq (names : NameMap) : ∀ (n : Node) (count : Nat),
    visitNode names n count = (n.mapDeclarations (renameDeclaration names),
      count + n.declarations.countP fun d => decide (Refers names d))
  | .declaration d, count => by
    simp [visitNode, visit_eq, Node.mapDeclarations, Node.declarations, List.countP_cons]
  | .atBlock a body, count => by
    rw [visitNode, visitNodes_eq names body count, Node.mapDeclarations, Node.declarations]
  | .rule r body, count => by
    rw [visitNode, visitNodes_eq names body count, Node.mapDeclarations, Node.declarations]
  | .atRule a, count => by simp [visitNode, Node.mapDeclarations, Node.declarations]
  | .comment c, count => by simp [visitNode, Node.mapDeclarations, Node.declarations]

/-- Every declaration is visited once, and counted if one of its words is a key. -/
theorem visitNodes_eq (names : NameMap) : ∀ (ns : List Node) (count : Nat),
    visitNodes names ns count = (Node.mapAllDeclarations (renameDeclaration names) ns,
      count + (Node.allDeclarations ns).countP fun d => decide (Refers names d))
  | [], count => by simp [visitNodes, Node.mapAllDeclarations, Node.allDeclarations]
  | n :: ns, count => by
    rw [visitNodes, visitNode_eq names n count]
    simp only
    rw [visitNodes_eq names ns, Node.mapAllDeclarations, Node.allDeclarations,
      List.countP_append, Nat.add_assoc]

end

theorem renameReferences_of_isEmpty (h : names.isEmpty = true) (t : Stylesheet) :
    renameReferences names t = t := by
  have hnodes : Node.mapAllDeclarations (renameDeclaration names) t.nodes = t.nodes :=
    Node.mapAllDeclarations_eq_self_iff.mpr fun d _ =>
      renameDeclaration_of_none (newValue?_of_isEmpty h d)
  rw [renameReferences, Stylesheet.mapDeclarations, hnodes]

theorem referenceCount_eq (names : NameMap) (t : Stylesheet) :
    referenceCount names t = t.declarations.countP fun d => decide (Refers names d) := by
  rw [referenceCount]
  refine List.countP_congr fun d _ => ?_
  rw [decide_eq_true_iff, newValue?_isSome_iff]

/-- The counted visit renames the references and tells how many there are. -/
theorem renameCounted_eq (names : NameMap) (t : Stylesheet) :
    renameCounted names t = (renameReferences names t, referenceCount names t) := by
  rw [renameCounted, referenceCount_eq]
  split_ifs with h
  · have hnone : (t.declarations.countP fun d => decide (Refers names d)) = 0 := by
      rw [List.countP_eq_zero]
      intro d _
      rw [decide_eq_true_iff, ← newValue?_isSome_iff, newValue?_of_isEmpty h]
      simp
    rw [renameReferences_of_isEmpty h, hnone]
  · rw [visitNodes_eq, Nat.zero_add]
    rfl

end Animation

end AnimationScope
