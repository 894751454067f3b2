import AnimationScope.Proofs.Changes

/-!
# Import blocks

The import blocks of a sheet stay in their order, and nothing in them changes but the
references to names. An import whose alias is an animation property is such a reference,
so that an import block is left alone just if it has none that changes.
-/

namespace AnimationScope

open Css Animation Naming

namespace Icss

theorem not_isImport_of_isExport {n : Node} (h : isExport n = true) : ¬ isImport n = true := by
  have hblock : block? n = some .exporting := of_decide_eq_true h
  simp [isImport, hblock]

section

variable (f : Declaration → Declaration) (n : Node) (ns : List Node)

theorem isImport_mapDeclarations : isImport (n.mapDeclarations f) = isImport n := by
  cases n <;> rfl

theorem imports_mapAllDeclarations :
    (Node.mapAllDeclarations f ns).filter isImport =
      (ns.filter isImport).map (Node.mapDeclarations f) := by
  induction ns with
  | nil => rfl
  | cons n ns ih =>
    rw [Node.mapAllDeclarations, List.filter_cons, List.filter_cons, isImport_mapDeclarations, ih]
    split_ifs <;> rfl

end

theorem imports_mergeExports (names : NameMap) (t : Stylesheet) :
    (mergeExports names t).1.nodes.filter isImport = t.nodes.filter isImport := by
  refine mergeExports_unseen (f := List.filter isImport) ?_ names t
  intro front n behind _ hn
  rw [List.filter_append, List.filter_cons_of_neg (not_isImport_of_isExport hn), List.filter_append]

end Icss

section

variable {σ : Type} (g : Generator σ) (file : SourceFile)

theorem imports_collect (ns : List Node) (s : σ) :
    (collect g file ns s).nodes.filter Icss.isImport = ns.filter Icss.isImport := by
  induction ns generalizing s with
  | nil => rfl
  | cons n ns ih =>
    rw [collect_nodes, List.filter_cons, List.filter_cons, ih]
    cases n <;> rfl

variable (sheet : Stylesheet) (report : Report) (s : σ)

/-- Of the three passes only the second one enters import blocks. -/
theorem imports_scope :
    (scope g file sheet report s).sheet.nodes.filter Icss.isImport =
      (sheet.nodes.filter Icss.isImport).map
        (Node.mapDeclarations (renameDeclaration (scope g file sheet report s).names)) := by
  show (Icss.mergeExports _ (renameReferences _ (collectedSheet g file sheet s))).1.nodes.filter
    Icss.isImport = _
  rw [Icss.imports_mergeExports]
  show (Node.mapAllDeclarations _ (collect g file sheet.nodes s).nodes).filter Icss.isImport = _
  rw [Icss.imports_mapAllDeclarations, imports_collect]
  rfl

theorem sublist_imports_iff :
    (sheet.nodes.filter Icss.isImport).Sublist (scope g file sheet report s).sheet.nodes ↔
      ∀ n ∈ sheet.nodes, Icss.isImport n = true → ∀ d ∈ n.declarations,
        renameDeclaration (scope g file sheet report s).names d = d := by
  have himports := imports_scope g file sheet report s
  have hsame :
      (sheet.nodes.filter Icss.isImport).Sublist (scope g file sheet report s).sheet.nodes ↔
      (sheet.nodes.filter Icss.isImport).map
        (Node.mapDeclarations (renameDeclaration (scope g file sheet report s).names)) =
        (sheet.nodes.filter Icss.isImport).map id := by
    rw [← himports, List.map_id]
    constructor
    · intro h
      have hfilter := h.filter Icss.isImport
      rw [List.filter_filter] at hfilter
      simp only [Bool.and_self] at hfilter
      refine (hfilter.eq_of_length ?_).symm
      rw [himports, List.length_map]
    · intro h
      rw [← h]
      exact List.filter_sublist
  rw [hsame]
  simp only [List.map_inj_left, id_eq, List.mem_filter, and_imp, Node.mapDeclarations_eq_self_iff]

/-- The import blocks stay in their order with their references renamed, and they are left
alone just if no reference in them gets another value. -/
theorem imports_untouched_iff :
    (scope g file sheet report s).sheet.nodes.filter Icss.isImport =
        (sheet.nodes.filter Icss.isImport).map
          (Node.mapDeclarations (renameDeclaration (scope g file sheet report s).names)) ∧
      ((sheet.nodes.filter Icss.isImport).Sublist (scope g file sheet report s).sheet.nodes ↔
        ∀ n ∈ sheet.nodes, Icss.isImport n = true → ∀ d ∈ n.declarations,
          NamesAnimation d.prop → ∀ value,
            renameValue? (scope g file sheet report s).names d.value = some value →
              value = d.value) := by
  refine ⟨imports_scope g file sheet report s, ?_⟩
  rw [sublist_imports_iff]
  simp only [renameDeclaration_eq_self_iff]

end

/-- An import whose alias is an animation property takes part in renaming. -/
theorem import_alias_is_renamed :
    ∃ file sheet, file.css = ":import(\x22x\x22)\x7banimation:a\x7d@keyframes a\x7b\x7d".toList ∧
      Stylesheet.parse file.css = .ok sheet ∧
      ¬ (sheet.nodes.filter Icss.isImport).Sublist
        (scope .default file sheet .empty ()).sheet.nodes := by
  let file : SourceFile := ⟨"a.css".toList,
    ":import(\x22x\x22)\x7banimation:a\x7d@keyframes a\x7b\x7d".toList⟩
  have hrun : (match Stylesheet.parse file.css with
      | .ok sheet => (sheet.nodes.filter Icss.isImport).any fun n => n.declarations.any fun d =>
          renameDeclaration (scope .default file sheet .empty ()).names d ≠ d
      | .error _ => false) = true := by decide +kernel
  cases hparse : Stylesheet.parse file.css with
  | error e =>
    rw [hparse] at hrun
    cases hrun
  | ok sheet =>
    rw [hparse] at hrun
    obtain ⟨n, hn, hany⟩ := List.any_eq_true.mp hrun
    obtain ⟨d, hd, hne⟩ := List.any_eq_true.mp hany
    refine ⟨file, sheet, rfl, hparse, fun h => of_decide_eq_true hne ?_⟩
    obtain ⟨hmem, himport⟩ := List.mem_filter.mp hn
    exact (sublist_imports_iff .default file sheet .empty ()).mp h n hmem himport d hd

end AnimationScope
