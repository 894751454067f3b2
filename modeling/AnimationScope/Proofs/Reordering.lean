import AnimationScope.Proofs.Changes
import Mathlib.Data.Fin.VecNotation
import Mathlib.Data.List.FinRange

/-!
# Reordering a stylesheet

If the answers of a generator depend on the name alone, then what becomes of a top-level
node does not depend on where it stands. Each rule is renamed on its own, rules of one
name all give the same entry, and references only look names up.
-/

namespace AnimationScope

open Css Animation Naming

/-! ## References look names up -/

section

variable {m m' : NameMap}

theorem Animation.Piece.rename_congr (h : ∀ key, m.get? key = m'.get? key) :
    Piece.rename m = Piece.rename m' := by
  funext p
  cases p with
  | gap t => rfl
  | word w => rw [rename, rename, h]

theorem Animation.Piece.isKey_congr (h : ∀ key, m.get? key = m'.get? key) :
    Piece.isKey m = Piece.isKey m' := by
  funext p
  cases p with
  | gap t => rfl
  | word w => rw [isKey, isKey, NameMap.contains_eq_isSome_get?, h, NameMap.contains_eq_isSome_get?]

theorem Animation.renameDeclaration_congr (h : ∀ key, m.get? key = m'.get? key) :
    renameDeclaration m = renameDeclaration m' := by
  have hvalue : renameValue? m = renameValue? m' := by
    funext value
    rw [renameValue?, renameValue?, Piece.isKey_congr h, Piece.rename_congr h]
  funext d
  rw [renameDeclaration, renameDeclaration, newValue?, newValue?, hvalue]

end

theorem Node.mapAllDeclarations_eq_map (f : Declaration → Declaration) (ns : List Node) :
    mapAllDeclarations f ns = ns.map (mapDeclarations f) := by
  induction ns with
  | nil => rfl
  | cons n ns ih => rw [mapAllDeclarations, ih, List.map_cons]

/-! ## Steady generators -/

variable {σ : Type}

/-- The answers for a file depend on the name alone, not on earlier calls. -/
def Naming.Generator.Steady (g : Generator σ) (file : SourceFile) : Prop :=
  ∀ name s s', (g.generate name file.path file.css s).1 = (g.generate name file.path file.css s').1

section

variable {g : Generator σ} {file : SourceFile}

theorem AtRule.collect_steady (hg : g.Steady file) (a : AtRule) (s s' : σ) :
    (a.collect g file s).1 = (a.collect g file s').1 ∧
      (a.collect g file s).2.1 = (a.collect g file s').2.1 := by
  rw [collect, collect]
  cases if isKeyframes a.name then declaredName? a.params else none with
  | none => exact ⟨rfl, rfl⟩
  | some name =>
    cases hc : classify name with
    | reserved => simp only [hc, and_self]
    | invalid => simp only [hc, and_self]
    | valid => simp only [hc, hg name s s', and_self]

theorem Node.collect_steady (hg : g.Steady file) (n : Node) (s s' : σ) :
    (n.collect g file s).1 = (n.collect g file s').1 ∧
      (n.collect g file s).2.1 = (n.collect g file s').2.1 := by
  cases n with
  | atRule a =>
    obtain ⟨hrule, hfinding⟩ := a.collect_steady hg s s'
    exact ⟨congrArg Node.atRule hrule, hfinding⟩
  | atBlock a body =>
    obtain ⟨hrule, hfinding⟩ := a.collect_steady hg s s'
    exact ⟨congrArg (Node.atBlock · body) hrule, hfinding⟩
  | rule r body => exact ⟨rfl, rfl⟩
  | declaration d => exact ⟨rfl, rfl⟩
  | comment c => exact ⟨rfl, rfl⟩

theorem Node.collect_pair (n : Node) (s : σ) {p : Text × Text}
    (h : (n.collect g file s).2.1.bind Finding.pair? = some p) :
    p.2 = (g.generate p.1 file.path file.css s).1 := by
  have hrule : ∀ a : AtRule, (a.collect g file s).2.1.bind Finding.pair? = some p →
      p.2 = (g.generate p.1 file.path file.css s).1 := by
    intro a ha
    rcases a.collect_cases g file s with ⟨-, -, hnone⟩ | ⟨name, -, -, hsome⟩
    · rw [hnone] at ha
      cases ha
    · rw [hsome] at ha
      obtain rfl := Option.some.inj ha
      rfl
  cases n with
  | atRule a => exact hrule a h
  | atBlock a body => exact hrule a h
  | _ => cases h

theorem nodes_collect_steady (hg : g.Steady file) (ns : List Node) (s s₀ : σ) :
    (collect g file ns s).nodes = ns.map fun n => (n.collect g file s₀).1 := by
  induction ns generalizing s with
  | nil => rfl
  | cons n ns ih => rw [collect_nodes, ih, (n.collect_steady hg s s₀).1, List.map_cons]

theorem pairs_collect_steady (hg : g.Steady file) (ns : List Node) (s s₀ : σ) :
    (collect g file ns s).pairs =
      ns.flatMap fun n => ((n.collect g file s₀).2.1.bind Finding.pair?).toList := by
  induction ns generalizing s with
  | nil => rfl
  | cons n ns ih => rw [collect_pairs, ih, (n.collect_steady hg s s₀).2, List.flatMap_cons]

theorem snd_of_mem_pairs (hg : g.Steady file) (ns : List Node) (s s₀ : σ) :
    ∀ p ∈ (collect g file ns s).pairs, p.2 = (g.generate p.1 file.path file.css s₀).1 := by
  intro p hp
  rw [pairs_collect_steady hg ns s s₀] at hp
  obtain ⟨n, -, hn⟩ := List.mem_flatMap.mp hp
  exact n.collect_pair s₀ (Option.mem_toList.mp hn)

/-- A name is looked up alike in both maps, as its entry is the answer of the generator. -/
theorem get?_names_of_perm (hg : g.Steady file) {ns ms : List Node} (h : ms.Perm ns) (s s' : σ)
    (key : Text) :
    (collect g file ms s').names.get? key = (collect g file ns s).names.get? key := by
  have hpairs : (collect g file ms s').pairs.Perm (collect g file ns s).pairs := by
    rw [pairs_collect_steady hg ms s' s, pairs_collect_steady hg ns s s]
    exact h.flatMap_right _
  have hvalue := fun ns s' => NameMap.get?_ofList_of_function
    (f := fun name => (g.generate name file.path file.css s).1) (snd_of_mem_pairs hg ns s' s) key
  rw [Collection.names, Collection.names, hvalue, hvalue]
  exact if_congr (hpairs.map Prod.fst).mem_iff rfl rfl

end

/-! ## Both passes -/

section

variable (g : Generator σ) (file : SourceFile)

def renamedSheet (sheet : Stylesheet) (s : σ) : Stylesheet :=
  renameReferences (collect g file sheet.nodes s).names (collectedSheet g file sheet s)

/-- What the first two passes make of a node, given the names of all rules. -/
def renamedNode (names : NameMap) (s : σ) (n : Node) : Node :=
  (n.collect g file s).1.mapDeclarations (renameDeclaration names)

variable {g file}

theorem renamedSheet_of_perm (hg : g.Steady file) {ns ms : List Node} (h : ms.Perm ns)
    (after : Text) (s s' : σ) :
    renamedSheet g file ⟨ms, after⟩ s' =
      ⟨ms.map (renamedNode g file (collect g file ns s).names s), after⟩ := by
  rw [renamedSheet, renameReferences, Stylesheet.mapDeclarations, collectedSheet]
  simp only
  rw [renameDeclaration_congr (get?_names_of_perm hg h s s'), nodes_collect_steady hg ms s' s,
    Node.mapAllDeclarations_eq_map, List.map_map]
  rfl

/-- Reordering the top-level nodes of a sheet reorders what the first two passes make of
them, and leaves the map of names as it is but for the order of its entries. -/
theorem renamedSheet_reorder (hg : g.Steady file) {k : ℕ} (nodes : Fin k → Node)
    (order : Equiv.Perm (Fin k)) (after : Text) (s s' : σ) :
    (∃ renamed : Fin k → Node,
      renamedSheet g file ⟨List.ofFn nodes, after⟩ s = ⟨List.ofFn renamed, after⟩ ∧
      renamedSheet g file ⟨List.ofFn (nodes ∘ order), after⟩ s' =
        ⟨List.ofFn (renamed ∘ order), after⟩) ∧
    (collect g file (List.ofFn (nodes ∘ order)) s').names.entries.Perm
      (collect g file (List.ofFn nodes) s).names.entries ∧
    ∀ key, (collect g file (List.ofFn (nodes ∘ order)) s').names.get? key =
      (collect g file (List.ofFn nodes) s).names.get? key := by
  have hperm : (List.ofFn (nodes ∘ order)).Perm (List.ofFn nodes) := order.ofFn_comp_perm nodes
  have hget := get?_names_of_perm hg hperm s s'
  refine ⟨⟨renamedNode g file (collect g file (List.ofFn nodes) s).names s ∘ nodes, ?_, ?_⟩,
    (NameMap.perm_entries_iff _ _).mpr hget, hget⟩
  · rw [renamedSheet_of_perm hg (List.Perm.refl _) after s s, List.map_ofFn]
  · rw [renamedSheet_of_perm hg hperm after s s', List.map_ofFn, Function.comp_assoc]

/-- Two rules of one name and a reference between them, turned around. The generator counts
its calls, but its answers do not tell the count. -/
theorem renamedSheet_reorder_sample :
    ∃ (g : Generator ℕ) (file : SourceFile) (nodes : Fin 3 → Node), g.Steady file ∧
      (collect g file (List.ofFn nodes) 0).pairs.length = 2 ∧
      ((∃ renamed : Fin 3 → Node,
        renamedSheet g file ⟨List.ofFn nodes, []⟩ 0 = ⟨List.ofFn renamed, []⟩ ∧
        renamedSheet g file ⟨List.ofFn (nodes ∘ Fin.revPerm), []⟩ 7 =
          ⟨List.ofFn (renamed ∘ Fin.revPerm), []⟩) ∧
      (collect g file (List.ofFn (nodes ∘ Fin.revPerm)) 7).names.entries.Perm
        (collect g file (List.ofFn nodes) 0).names.entries ∧
      ∀ key, (collect g file (List.ofFn (nodes ∘ Fin.revPerm)) 7).names.get? key =
        (collect g file (List.ofFn nodes) 0).names.get? key) := by
  let g : Generator ℕ := ⟨fun name _ _ count => ('_' :: name, count + 1)⟩
  let file : SourceFile := ⟨"a.css".toList, []⟩
  let keyframes : Text → Node := fun params =>
    .atBlock ⟨[], "keyframes".toList, [' '], params, [], [], false⟩ []
  let reference : Node := .declaration ⟨[], "animation".toList, [':'], ['a'], false⟩
  let nodes : Fin 3 → Node := ![keyframes ['a'], reference, keyframes ['\x22', 'a', '\x22']]
  have hg : g.Steady file := fun _ _ _ => rfl
  exact ⟨g, file, nodes, hg, by decide +kernel,
    renamedSheet_reorder hg nodes Fin.revPerm [] 0 7⟩

end

end AnimationScope
