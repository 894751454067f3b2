import AnimationScope.Icss.Export
import Mathlib.Tactic.Common

/-!
# What publishing says

Publishing a name changes what an export block says of this name only, so every
name collides or not by what the block said before. Of several declarations of a
name it corrects the first one, and all nodes but declarations are left alone.
-/

namespace AnimationScope

namespace Node

def atRule? : Node → Option AtRule
  | .atRule a | .atBlock a _ => some a
  | _ => none

/-- What the first direct declaration of a property says. -/
def valueOf? (ns : List Node) (prop : Text) : Option Text :=
  ((directDeclarations ns).find? (·.prop = prop)).map Declaration.value

def valuesOf (ns : List Node) (prop : Text) : List Text :=
  ((directDeclarations ns).filter (·.prop = prop)).map Declaration.value

def others (ns : List Node) : List Node := ns.filter (·.declaration?.isNone)

section

variable {d : Declaration} {n : Node} {ns : List Node} {prop name value : Text}

@[simp] theorem directDeclarations_nil : directDeclarations [] = [] := rfl

@[simp] theorem directDeclarations_declaration :
    directDeclarations (.declaration d :: ns) = d :: directDeclarations ns := rfl

theorem directDeclarations_of_none (h : n.declaration? = none) :
    directDeclarations (n :: ns) = directDeclarations ns := by
  rw [directDeclarations, List.filterMap_cons_none h]
  rfl

@[simp] theorem directDeclarations_append (ns ms : List Node) :
    directDeclarations (ns ++ ms) = directDeclarations ns ++ directDeclarations ms :=
  List.filterMap_append

theorem valueOf?_eq_head? (ns : List Node) (prop : Text) :
    valueOf? ns prop = (valuesOf ns prop).head? := by
  rw [valueOf?, valuesOf, List.head?_map, List.head?_filter]

theorem valuesOf_declaration :
    valuesOf (.declaration d :: ns) prop =
      if d.prop = prop then d.value :: valuesOf ns prop else valuesOf ns prop := by
  by_cases h : d.prop = prop <;> simp [valuesOf, h]

theorem valuesOf_of_none (h : n.declaration? = none) :
    valuesOf (n :: ns) prop = valuesOf ns prop := by
  rw [valuesOf, directDeclarations_of_none h, valuesOf]

theorem valuesOf_append (ns ms : List Node) (prop : Text) :
    valuesOf (ns ++ ms) prop = valuesOf ns prop ++ valuesOf ms prop := by
  simp [valuesOf]

theorem valueOf?_declaration :
    valueOf? (.declaration d :: ns) prop =
      if d.prop = prop then some d.value else valueOf? ns prop := by
  by_cases h : d.prop = prop <;> simp [valueOf?, h]

theorem valueOf?_of_none (h : n.declaration? = none) :
    valueOf? (n :: ns) prop = valueOf? ns prop := by
  rw [valueOf?, directDeclarations_of_none h]
  rfl

theorem exists_declaration_or (n : Node) : (∃ d, n = .declaration d) ∨ n.declaration? = none := by
  cases n with
  | declaration d => exact .inl ⟨d, rfl⟩
  | _ => exact .inr rfl

theorem others_of_none (h : n.declaration? = none) : others (n :: ns) = n :: others ns :=
  List.filter_cons_of_pos (by rw [h]; rfl)

theorem setFirst_of_none (h : n.declaration? = none) :
    setFirst prop value (n :: ns) = n :: setFirst prop value ns := by
  cases n with
  | declaration d => cases h
  | _ => rfl

theorem terminateLast_of_none (h : n.declaration? = none) :
    terminateLast (n :: ns) = n :: terminateLast ns := by
  cases n with
  | declaration d => cases h
  | _ => rfl

theorem valuesOf_setFirst (name value : Text) (ns : List Node) (prop : Text) :
    valuesOf (setFirst name value ns) prop =
      if name = prop then (valuesOf ns prop).modifyHead fun _ => value else valuesOf ns prop := by
  induction ns with
  | nil => exact (ite_self _).symm
  | cons n ns ih =>
    obtain ⟨d, rfl⟩ | hn := exists_declaration_or n
    · rw [setFirst, valuesOf_declaration]
      by_cases hd : d.prop = name
      · rw [if_pos hd, valuesOf_declaration]
        by_cases hp : name = prop <;> simp [hd, hp]
      · rw [if_neg hd, valuesOf_declaration, ih]
        by_cases hp : name = prop
        · subst hp
          simp [hd]
        · simp [hp]
    · rw [setFirst_of_none hn, valuesOf_of_none hn, valuesOf_of_none hn, ih]

theorem valuesOf_terminateLast (ns : List Node) (prop : Text) :
    valuesOf (terminateLast ns) prop = valuesOf ns prop := by
  induction ns with
  | nil => rfl
  | cons n ns ih =>
    obtain ⟨d, rfl⟩ | hn := exists_declaration_or n
    · rw [terminateLast]
      split_ifs
      · rw [valuesOf_declaration, valuesOf_declaration]
      · rw [valuesOf_declaration, valuesOf_declaration, ih]
    · rw [terminateLast_of_none hn, valuesOf_of_none hn, valuesOf_of_none hn, ih]

theorem valuesOf_appendDeclaration (name value : Text) (ns : List Node) (prop : Text) :
    valuesOf (appendDeclaration name value ns) prop =
      if name = prop then valuesOf ns prop ++ [value] else valuesOf ns prop := by
  rw [appendDeclaration, valuesOf_append, valuesOf_terminateLast, valuesOf_declaration]
  by_cases hp : name = prop <;> simp [hp, valuesOf]

theorem others_setFirst (prop value : Text) (ns : List Node) :
    others (setFirst prop value ns) = others ns := by
  induction ns with
  | nil => rfl
  | cons n ns ih =>
    obtain ⟨d, rfl⟩ | hn := exists_declaration_or n
    · rw [setFirst]
      split_ifs
      · rfl
      · exact ih
    · rw [setFirst_of_none hn, others_of_none hn, ih, others_of_none hn]

theorem others_terminateLast (ns : List Node) : others (terminateLast ns) = others ns := by
  induction ns with
  | nil => rfl
  | cons n ns ih =>
    obtain ⟨d, rfl⟩ | hn := exists_declaration_or n
    · rw [terminateLast]
      split_ifs
      · rfl
      · exact ih
    · rw [terminateLast_of_none hn, others_of_none hn, ih, others_of_none hn]

end

end Node

namespace Icss

open Animation

variable {es : List (Text × Text)} {ns : List Node} {name value : Text}

/-! ## One name -/

def collides (ns : List Node) (e : Text × Text) : Bool :=
  (Node.valueOf? ns e.1).any (·.trim ≠ e.2)

/-- What a block says of a name when a value has been published for it. -/
def corrected (value : Text) : List Text → List Text
  | [] => [value]
  | v :: vs => (if v.trim = value then v else value) :: vs

theorem publish_eq (name value : Text) (ns : List Node) :
    publish name value ns =
      match Node.valueOf? ns name with
      | some v =>
        if v.trim = value then (ns, [])
        else (Node.setFirst name value ns, [.about .exportKeyCollision name])
      | none => (Node.appendDeclaration name value ns, []) := by
  rw [publish, Node.valueOf?]
  cases (Node.directDeclarations ns).find? (·.prop = name) <;> rfl

theorem publish_warnings (name value : Text) (ns : List Node) :
    (publish name value ns).2 =
      if collides ns (name, value) then [.about .exportKeyCollision name] else [] := by
  rw [publish_eq, collides]
  cases Node.valueOf? ns name with
  | none => rfl
  | some v => by_cases hv : v.trim = value <;> simp [hv]

theorem valuesOf_publish (name value : Text) (ns : List Node) (prop : Text) :
    Node.valuesOf (publish name value ns).1 prop =
      if name = prop then corrected value (Node.valuesOf ns prop)
      else Node.valuesOf ns prop := by
  rw [publish_eq, Node.valueOf?_eq_head?]
  by_cases hp : name = prop
  · subst hp
    rw [if_pos rfl]
    cases hv : Node.valuesOf ns name with
    | nil =>
      simp only [List.head?_nil]
      rw [Node.valuesOf_appendDeclaration, if_pos rfl, hv]
      rfl
    | cons v vs =>
      simp only [List.head?_cons, corrected]
      split_ifs with htrim
      · exact hv
      · rw [Node.valuesOf_setFirst, if_pos rfl, hv]
        rfl
  · rw [if_neg hp]
    split
    · split_ifs
      · rfl
      · rw [Node.valuesOf_setFirst, if_neg hp]
    · rw [Node.valuesOf_appendDeclaration, if_neg hp]

theorem valueOf?_publish_of_ne {prop : Text} (h : name ≠ prop) (value : Text) (ns : List Node) :
    Node.valueOf? (publish name value ns).1 prop = Node.valueOf? ns prop := by
  rw [Node.valueOf?_eq_head?, valuesOf_publish, if_neg h, Node.valueOf?_eq_head?]

theorem others_publish (name value : Text) (ns : List Node) :
    Node.others (publish name value ns).1 = Node.others ns := by
  rw [publish_eq]
  split
  · split_ifs
    · rfl
    · exact Node.others_setFirst name value ns
  · have happend : ∀ d, Node.others (Node.terminateLast ns ++ [.declaration d]) =
        Node.others (Node.terminateLast ns) ++ [] := fun d => List.filter_append _ _
    rw [Node.appendDeclaration, happend, List.append_nil, Node.others_terminateLast]

theorem exists_head_corrected (value : Text) (vs : List Text) :
    ∃ w, (corrected value vs).head? = some w ∧ (w = value ∨ w.trim = value) := by
  cases vs with
  | nil => exact ⟨value, rfl, .inl rfl⟩
  | cons v vs =>
    refine ⟨_, rfl, ?_⟩
    split_ifs with h
    · exact .inr h
    · exact .inl rfl

/-! ## Names one after another -/

theorem ne_of_not_mem (h : name ∉ es.map Prod.fst) : ∀ e ∈ es, name ≠ e.1 := by
  rintro e he rfl
  exact h (List.mem_map_of_mem he)

theorem publishAll_warnings (h : (es.map Prod.fst).Nodup) (ns : List Node) :
    (publishAll es ns).2 =
      (es.filter (collides ns)).map fun e => Warning.about .exportKeyCollision e.1 := by
  induction es generalizing ns with
  | nil => rfl
  | cons e es ih =>
    obtain ⟨name, value⟩ := e
    obtain ⟨hnot, hes⟩ := List.nodup_cons.mp h
    have hsame : ∀ e ∈ es, collides (publish name value ns).1 e = collides ns e := by
      intro e he
      rw [collides, valueOf?_publish_of_ne (ne_of_not_mem hnot e he), collides]
    rw [publishAll]
    simp only
    rw [ih hes, publish_warnings, List.filter_congr hsame, List.filter_cons]
    split_ifs <;> rfl

theorem valuesOf_publishAll_of_not_mem (h : name ∉ es.map Prod.fst) (ns : List Node) :
    Node.valuesOf (publishAll es ns).1 name = Node.valuesOf ns name := by
  induction es generalizing ns with
  | nil => rfl
  | cons e es ih =>
    rw [List.map_cons, List.mem_cons, not_or] at h
    obtain ⟨hne, hes⟩ := h
    rw [publishAll]
    simp only
    rw [ih hes, valuesOf_publish, if_neg (Ne.symm hne)]

theorem valuesOf_publishAll (h : (es.map Prod.fst).Nodup) (ns : List Node) :
    ∀ e ∈ es, Node.valuesOf (publishAll es ns).1 e.1 = corrected e.2 (Node.valuesOf ns e.1) := by
  induction es generalizing ns with
  | nil => simp
  | cons e es ih =>
    obtain ⟨hnot, hes⟩ := List.nodup_cons.mp h
    intro p hp
    rw [publishAll]
    simp only
    rcases List.mem_cons.mp hp with rfl | hp
    · rw [valuesOf_publishAll_of_not_mem hnot, valuesOf_publish, if_pos rfl]
    · rw [ih hes _ p hp, valuesOf_publish, if_neg (ne_of_not_mem hnot p hp)]

theorem others_publishAll (es : List (Text × Text)) (ns : List Node) :
    Node.others (publishAll es ns).1 = Node.others ns := by
  induction es generalizing ns with
  | nil => rfl
  | cons e es ih => exact (ih _).trans (others_publish e.1 e.2 ns)

/-- Publishing adds and changes nothing but declarations. -/
theorem mem_publishAll {n : Node} (h : n ∈ (publishAll es ns).1) (hn : n.declaration? = none) :
    n ∈ ns := by
  have hothers : n ∈ Node.others (publishAll es ns).1 :=
    List.mem_filter.mpr ⟨h, by rw [hn]; rfl⟩
  rw [others_publishAll] at hothers
  exact (List.mem_filter.mp hothers).1

end Icss

end AnimationScope
