import AnimationScope.Proofs.Exports

/-!
# Merging names into a sheet

All names go into one block. What becomes of a node of this block can be told from its
place in the block alone: the first declaration of a name is corrected, the last
declaration is terminated if others follow, and all names that are not declared are added
behind the nodes, in the order of the map.
-/

namespace AnimationScope

def Node.declaredProps (ns : List Node) : List Text := (directDeclarations ns).map Declaration.prop

namespace Icss

open Animation

/-! ## What becomes of the nodes of a block -/

/-- The value of a declaration behind others of the properties `said`. The first
declaration of a name is corrected unless it agrees. -/
def settledValue (es : List (Text × Text)) (said : List Text) (d : Declaration) : Text :=
  match es.find? (·.1 = d.prop) with
  | some e => if d.prop ∉ said ∧ d.value.trim ≠ e.2 then e.2 else d.value
  | none => d.value

/-- A node behind declarations of the properties `said` and in front of other nodes. The
last declaration is terminated if something is added. -/
def settled (es : List (Text × Text)) (adds : Bool) (said : List Text) (behind : List Node) :
    Node → Node
  | .declaration d => .declaration
    { d with
      value := settledValue es said d
      semicolon := d.semicolon || (adds && (Node.directDeclarations behind).isEmpty) }
  | n => n

/-- The nodes behind declarations of the properties `said`, each settled at its place. -/
def settle (es : List (Text × Text)) (adds : Bool) (said : List Text) (ns : List Node) :
    List Node :=
  ns.mapIdx fun i n =>
    settled es adds (said ++ Node.declaredProps (ns.take i)) (ns.drop (i + 1)) n

def lacks (ns : List Node) (e : Text × Text) : Bool := (Node.valueOf? ns e.1).isNone

/-- The declarations that are added to a block, indented like its last one. -/
def additions (es : List (Text × Text)) (ns : List Node) : List Node :=
  (es.filter (lacks ns)).map fun e =>
    .declaration ⟨Node.indentation ns, e.1, ": ".toList, e.2, true⟩

section

variable {es : List (Text × Text)} {adds : Bool} {said : List Text} {ns : List Node} {n : Node}
  {d : Declaration} {name value : Text}

@[simp] theorem settle_nil : settle es adds said [] = [] := rfl

theorem settle_declaration :
    settle es adds said (.declaration d :: ns) =
      settled es adds said ns (.declaration d) :: settle es adds (said ++ [d.prop]) ns := by
  simp [settle, List.mapIdx_cons, Node.declaredProps]

theorem settle_of_none (h : n.declaration? = none) :
    settle es adds said (n :: ns) = n :: settle es adds said ns := by
  have hn : settled es adds said ns n = n := by
    cases n with
    | declaration d => cases h
    | _ => rfl
  simp [settle, List.mapIdx_cons, Node.declaredProps, Node.directDeclarations_of_none h, hn]

theorem settle_no_names (said : List Text) (ns : List Node) : settle [] false said ns = ns := by
  induction ns generalizing said with
  | nil => rfl
  | cons n ns ih =>
    obtain ⟨d, rfl⟩ | hn := Node.exists_declaration_or n
    · rw [settle_declaration, ih, settled, Bool.false_and, Bool.or_false]
      rfl
    · rw [settle_of_none hn, ih]

/-! ## One name more -/

theorem settledValue_of_ne (h : name ≠ d.prop) (said : List Text) :
    settledValue ((name, value) :: es) said d = settledValue es said d := by
  rw [settledValue, List.find?_cons_of_neg (by simpa using h), settledValue]

theorem settledValue_of_not_mem (h : d.prop ∉ es.map Prod.fst) (said : List Text) :
    settledValue es said d = d.value := by
  have hnone : es.find? (·.1 = d.prop) = none := by
    rw [List.find?_eq_none]
    intro e he heq
    exact h (List.mem_map.mpr ⟨e, he, of_decide_eq_true heq⟩)
  rw [settledValue, hnone]

theorem settledValue_self (said : List Text) :
    settledValue ((d.prop, value) :: es) said d =
      if d.prop ∉ said ∧ d.value.trim ≠ value then value else d.value := by
  rw [settledValue, List.find?_cons_of_pos (by simp)]

/-- A name changes nothing where it is declared in front, or where its first declaration
agrees with it. -/
theorem settle_skip (hname : name ∉ es.map Prod.fst)
    (h : name ∈ said ∨ ∀ v ∈ Node.valueOf? ns name, v.trim = value) :
    settle ((name, value) :: es) adds said ns = settle es adds said ns := by
  induction ns generalizing said with
  | nil => rfl
  | cons n ns ih =>
    obtain ⟨d, rfl⟩ | hn := Node.exists_declaration_or n
    · rw [Node.valueOf?_declaration] at h
      rw [settle_declaration, settle_declaration, settled, settled]
      by_cases hd : d.prop = name
      · subst hd
        have hvalue : ¬ (d.prop ∉ said ∧ d.value.trim ≠ value) := by
          rintro ⟨hsaid, htrim⟩
          rcases h with h | h
          · exact hsaid h
          · exact htrim (h d.value (if_pos rfl))
        rw [settledValue_self, if_neg hvalue, settledValue_of_not_mem hname,
          ih (.inl (by simp))]
      · rw [if_neg hd] at h
        rw [settledValue_of_ne (Ne.symm hd), ih (h.imp_left (by simp +contextual))]
    · rw [Node.valueOf?_of_none hn] at h
      rw [settle_of_none hn, settle_of_none hn, ih h]

theorem before_setFirst (name value : Text) (ns : List Node) :
    (Node.directDeclarations (Node.setFirst name value ns)).map Declaration.before =
      (Node.directDeclarations ns).map Declaration.before := by
  induction ns with
  | nil => rfl
  | cons n ns ih =>
    obtain ⟨d, rfl⟩ | hn := Node.exists_declaration_or n
    · rw [Node.setFirst]
      split_ifs
      · rfl
      · simp [ih]
    · rw [Node.setFirst_of_none hn, Node.directDeclarations_of_none hn,
        Node.directDeclarations_of_none hn, ih]

theorem isEmpty_setFirst (name value : Text) (ns : List Node) :
    (Node.directDeclarations (Node.setFirst name value ns)).isEmpty =
      (Node.directDeclarations ns).isEmpty := by
  have h := congrArg List.isEmpty (before_setFirst name value ns)
  rwa [List.isEmpty_map, List.isEmpty_map] at h

/-- A name whose first declaration disagrees has that declaration corrected. -/
theorem settle_setFirst (hname : name ∉ es.map Prod.fst) (hsaid : name ∉ said) {v : Text}
    (hv : Node.valueOf? ns name = some v) (htrim : v.trim ≠ value) :
    settle es adds said (Node.setFirst name value ns) =
      settle ((name, value) :: es) adds said ns := by
  induction ns generalizing said with
  | nil => rfl
  | cons n ns ih =>
    obtain ⟨d, rfl⟩ | hn := Node.exists_declaration_or n
    · rw [Node.valueOf?_declaration] at hv
      rw [Node.setFirst]
      by_cases hd : d.prop = name
      · -- This is the first declaration, and behind it the name changes nothing.
        subst hd
        rw [if_pos rfl] at hv
        obtain rfl := Option.some.inj hv
        rw [if_pos rfl, settle_declaration, settle_declaration, settled, settled,
          settledValue_self, if_pos ⟨hsaid, htrim⟩, settle_skip hname (.inl (by simp)),
          settledValue_of_not_mem (d := { d with value := value }) hname]
      · rw [if_neg hd] at hv
        have hsaid' : name ∉ said ++ [d.prop] := by
          simpa [hsaid] using Ne.symm hd
        rw [if_neg hd, settle_declaration, settle_declaration, ih hsaid' hv, settled, settled,
          settledValue_of_ne (Ne.symm hd), isEmpty_setFirst]
    · rw [Node.valueOf?_of_none hn] at hv
      rw [Node.setFirst_of_none hn, settle_of_none hn, settle_of_none hn, ih hsaid hv]

theorem terminateLast_of_isEmpty (h : Node.directDeclarations ns = []) :
    Node.terminateLast ns = ns := by
  induction ns with
  | nil => rfl
  | cons n ns ih =>
    obtain ⟨c, rfl⟩ | hn := Node.exists_declaration_or n
    · cases h
    · rw [Node.directDeclarations_of_none hn] at h
      rw [Node.terminateLast_of_none hn, ih h]

/-- A declaration that is added stays as it is, and the last one in front of it is
terminated. -/
theorem settle_append (hname : d.prop ∉ es.map Prod.fst) (hd : d.semicolon = true) :
    settle es adds said (Node.terminateLast ns ++ [.declaration d]) =
      settle es true said ns ++ [.declaration d] := by
  induction ns generalizing said with
  | nil =>
    have hsettled : settled es adds said [] (.declaration d) = .declaration d := by
      rw [settled, settledValue_of_not_mem hname]
      cases d
      cases hd
      rfl
    show settle es adds said [.declaration d] = [.declaration d]
    rw [settle_declaration, hsettled, settle_nil]
  | cons n ns ih =>
    obtain ⟨c, rfl⟩ | hn := Node.exists_declaration_or n
    · rw [Node.terminateLast, settle_declaration, List.cons_append, ← ih]
      by_cases hlast : Node.directDeclarations ns = []
      · have hvalue : ∀ b, settledValue es said { c with semicolon := b } =
            settledValue es said c := fun _ => rfl
        rw [if_pos (List.isEmpty_iff.mpr hlast), List.cons_append, settle_declaration, settled,
          settled, hvalue, hlast, terminateLast_of_isEmpty hlast]
        simp
      · have hbehind : (Node.directDeclarations
            (Node.terminateLast ns ++ [.declaration d])).isEmpty = false := by
          simp
        rw [if_neg (by simpa using hlast), List.cons_append, settle_declaration, settled, settled,
          hbehind, List.isEmpty_eq_false_iff.mpr hlast, Bool.and_false, Bool.and_false]
    · rw [Node.terminateLast_of_none hn, List.cons_append, settle_of_none hn, settle_of_none hn,
        ih, List.cons_append]

/-! ## All names -/

theorem indentation_eq (ns : List Node) :
    Node.indentation ns =
      match ((Node.directDeclarations ns).map Declaration.before).getLast? with
      | none | some [] => "\n  ".toList
      | some before => before := by
  rw [List.getLast?_map]
  rfl

theorem indentation_ne_nil (ns : List Node) : Node.indentation ns ≠ [] := by
  rw [Node.indentation]
  cases (Node.directDeclarations ns).getLast?.map Declaration.before with
  | none => decide
  | some before =>
    cases before with
    | nil => decide
    | cons c r => simp

theorem indentation_append (ms : List Node) (hd : d.before ≠ []) :
    Node.indentation (ms ++ [.declaration d]) = d.before := by
  rw [indentation_eq]
  simp only [Node.directDeclarations_append, Node.directDeclarations_declaration,
    Node.directDeclarations_nil, List.map_append, List.map_cons, List.map_nil,
    List.getLast?_concat]

theorem indentation_publish (name value : Text) (ns : List Node) :
    Node.indentation (publish name value ns).1 = Node.indentation ns := by
  rw [publish_eq]
  split
  · split_ifs
    · rfl
    · rw [indentation_eq, before_setFirst, indentation_eq]
  · exact indentation_append _ (indentation_ne_nil ns)

theorem lacks_publish (hname : name ∉ es.map Prod.fst) (value : Text) (ns : List Node) :
    ∀ e ∈ es, lacks (publish name value ns).1 e = lacks ns e := by
  intro e he
  rw [lacks, lacks, valueOf?_publish_of_ne (ne_of_not_mem hname e he)]

/-- Publishing names one after another settles every node at its place, and adds the
names that the block lacks. -/
theorem publishAll_nodes (h : (es.map Prod.fst).Nodup) (ns : List Node) :
    (publishAll es ns).1 = settle es (es.any (lacks ns)) [] ns ++ additions es ns := by
  induction es generalizing ns with
  | nil =>
    show ns = settle [] false [] ns ++ []
    rw [settle_no_names, List.append_nil]
  | cons e es ih =>
    obtain ⟨name, value⟩ := e
    obtain ⟨hname, hes⟩ := List.nodup_cons.mp h
    have hlacks := lacks_publish hname value ns
    have hadditions : additions es (publish name value ns).1 = additions es ns := by
      rw [additions, additions, List.filter_congr hlacks, indentation_publish]
    have hadds : es.any (lacks (publish name value ns).1) = es.any (lacks ns) := by
      rw [Bool.eq_iff_iff, List.any_eq_true, List.any_eq_true]
      exact exists_congr fun e => and_congr_right fun he => by rw [hlacks e he]
    rw [publishAll]
    simp only
    rw [ih hes, hadditions, hadds, List.any_cons, publish_eq]
    cases hv : Node.valueOf? ns name with
    | none =>
      have hlack : lacks ns (name, value) = true := by
        rw [lacks, hv]
        rfl
      have hadded : additions ((name, value) :: es) ns =
          .declaration ⟨Node.indentation ns, name, ": ".toList, value, true⟩ ::
            additions es ns := by
        rw [additions, List.filter_cons_of_pos hlack, List.map_cons, additions]
      rw [hadded, hlack, Bool.true_or, settle_skip hname (.inr (by simp [hv]))]
      simp only
      rw [Node.appendDeclaration, settle_append hname rfl, List.append_assoc, List.singleton_append]
    | some v =>
      have hlack : lacks ns (name, value) = false := by
        rw [lacks, hv]
        rfl
      have hadded : additions ((name, value) :: es) ns = additions es ns := by
        rw [additions, List.filter_cons_of_neg (by simp [hlack]), additions]
      rw [hadded, hlack, Bool.false_or]
      simp only
      split_ifs with htrim
      · rw [settle_skip hname (.inr (by simp [hv, htrim]))]
      · rw [settle_setFirst hname (by simp) hv htrim]

end

/-- What merging names into a sheet does. Without names nothing changes. Otherwise one
block changes: each of its nodes is settled at its place, the names that it lacks are
added, and each name that disagrees with its first declaration is reported. -/
theorem mergeExports_effect (names : NameMap) (s : Stylesheet) :
    (names.isEmpty = true → mergeExports names s = (s, [])) ∧
      (names.isEmpty = false → ∃ front r body behind, ExportPlace s.nodes front r body behind ∧
        mergeExports names s =
          (⟨front ++ .rule r (settle names.entries (names.entries.any (lacks body)) [] body ++
              additions names.entries body) :: behind, s.after⟩,
            (names.entries.filter (collides body)).map
              fun e => .about .exportKeyCollision e.1)) := by
  constructor
  · intro h
    rw [mergeExports, if_pos h]
  · intro h
    obtain ⟨front, r, behind, hplace, heq⟩ := exists_mergeExports h s
    refine ⟨front, r, exported s.nodes, behind, hplace, ?_⟩
    rw [heq, publishAll_nodes names.nodup, publishAll_warnings names.nodup]

end Icss

end AnimationScope
