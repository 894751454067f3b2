import AnimationScope.Proofs.Exports
import AnimationScope.Proofs.Lossless
import AnimationScope.Proofs.References
import Mathlib.Data.List.Forall2

/-!
# What scoping changes

Three passes go over a tree. The first one touches the heads of top-level keyframes
rules, the second one the values of declarations that refer to animations, and the
third one the first export block. All the rest of the tree stays as it was read, and
without a usable name all of it does.
-/

namespace AnimationScope

open Css Animation Naming

/-! ## Corresponding nodes -/

/-- A node and what renaming references makes of it, at every depth. -/
inductive Node.Rewritten (names : NameMap) : Node → Node → Prop
  | atRule (a : AtRule) : Rewritten names (.atRule a) (.atRule a)
  | atBlock (a : AtRule) {body body' : List Node}
      (h : List.Forall₂ (Node.Rewritten names) body body') :
      Rewritten names (.atBlock a body) (.atBlock a body')
  | rule (r : Rule) {body body' : List Node}
      (h : List.Forall₂ (Node.Rewritten names) body body') :
      Rewritten names (.rule r body) (.rule r body')
  | reference {d : Declaration} (h : NamesAnimation d.prop) :
      Rewritten names (.declaration d)
        (.declaration { d with value := (renameValue? names d.value).getD d.value })
  | declaration {d : Declaration} (h : ¬ NamesAnimation d.prop) :
      Rewritten names (.declaration d) (.declaration d)
  | comment (c : Comment) : Rewritten names (.comment c) (.comment c)

/-- A node at the top level and what scoping makes of it. Only the head of a keyframes
rule that declares a usable name changes. -/
inductive Node.Scoped {σ : Type} (g : Generator σ) (file : SourceFile) (names : NameMap) :
    Node → Node → Prop
  | rewritten {n m : Node} (hn : ∀ a ∈ n.atRule?, ∀ name, ¬ a.Declares name)
      (h : n.Rewritten names m) : Scoped g file names n m
  | atRule {a b : AtRule} {name : Text} (ha : a.Declares name) (s : σ)
      (hb : a.RenamedTo (g.generate name file.path file.css s).1 b) :
      Scoped g file names (.atRule a) (.atRule b)
  | atBlock {a b : AtRule} {name : Text} (ha : a.Declares name) (s : σ)
      (hb : a.RenamedTo (g.generate name file.path file.css s).1 b) {body body' : List Node}
      (h : List.Forall₂ (Node.Rewritten names) body body') :
      Scoped g file names (.atBlock a body) (.atBlock b body')

variable {σ : Type} {names : NameMap} {ns ms : List Node}

section

variable (names)

mutual

theorem Node.rewritten_renamed :
    ∀ n : Node, n.Rewritten names (n.mapDeclarations (renameDeclaration names))
  | .declaration d => by
    rw [mapDeclarations]
    by_cases h : NamesAnimation d.prop
    · rw [renameDeclaration_of_namesAnimation h]
      exact .reference h
    · rw [renameDeclaration_of_not h]
      exact .declaration h
  | .atBlock a body => .atBlock a (Node.rewritten_allRenamed body)
  | .rule r body => .rule r (Node.rewritten_allRenamed body)
  | .atRule a => .atRule a
  | .comment c => .comment c

theorem Node.rewritten_allRenamed : ∀ ns : List Node,
    List.Forall₂ (Node.Rewritten names) ns (mapAllDeclarations (renameDeclaration names) ns)
  | [] => .nil
  | n :: ns => .cons (Node.rewritten_renamed n) (Node.rewritten_allRenamed ns)

end

end

section

variable (g : Generator σ) (file : SourceFile)

theorem Node.scoped_collect (names : NameMap) (n : Node) (s : σ) :
    Node.Scoped g file names n
      ((n.collect g file s).1.mapDeclarations (renameDeclaration names)) := by
  cases n with
  | atRule a =>
    show Node.Scoped g file names _ (.atRule (a.collect g file s).1)
    rcases a.collect_cases g file s with ⟨hn, heq, -⟩ | ⟨name, ha, heq, -⟩
    · rw [heq]
      exact .rewritten (by simpa [atRule?] using hn) (.atRule a)
    · exact .atRule ha s (AtRule.renamedTo_iff.mpr heq)
  | atBlock a body =>
    show Node.Scoped g file names _ (.atBlock (a.collect g file s).1 (mapAllDeclarations _ body))
    rcases a.collect_cases g file s with ⟨hn, heq, -⟩ | ⟨name, ha, heq, -⟩
    · rw [heq]
      exact .rewritten (by simpa [atRule?] using hn) (.atBlock a (rewritten_allRenamed names body))
    · exact .atBlock ha s (AtRule.renamedTo_iff.mpr heq) (rewritten_allRenamed names body)
  | rule r body => exact .rewritten (by simp [atRule?]) (rewritten_renamed names _)
  | declaration d => exact .rewritten (by simp [atRule?]) (rewritten_renamed names _)
  | comment c => exact .rewritten (by simp [atRule?]) (rewritten_renamed names _)

theorem scoped_collect (names : NameMap) (ns : List Node) (s : σ) :
    List.Forall₂ (Node.Scoped g file names) ns
      (Node.mapAllDeclarations (renameDeclaration names) (collect g file ns s).nodes) := by
  induction ns generalizing s with
  | nil => exact .nil
  | cons n ns ih => exact .cons (n.scoped_collect g file names s) (ih _)

end

/-! ## The export block -/

theorem Node.Rewritten.isExport_eq {n m : Node} (h : n.Rewritten names m) :
    Icss.isExport m = Icss.isExport n := by
  cases h <;> rfl

theorem Node.Scoped.isExport_eq {g : Generator σ} {file : SourceFile} {n m : Node}
    (h : Node.Scoped g file names n m) : Icss.isExport m = Icss.isExport n := by
  cases h with
  | rewritten _ h => exact h.isExport_eq
  | atRule => rfl
  | atBlock => rfl

theorem forall₂_eraseP {R : Node → Node → Prop} {p : Node → Bool}
    (hp : ∀ n m, R n m → p m = p n) (h : List.Forall₂ R ns ms) :
    List.Forall₂ R (ns.eraseP p) (ms.eraseP p) := by
  induction h with
  | nil => exact .nil
  | @cons n m ns ms hnm hns ih =>
    rw [List.eraseP_cons, List.eraseP_cons, hp n m hnm]
    cases p n with
    | true => exact hns
    | false => exact .cons hnm ih

namespace Icss

theorem eraseP_mergeExports (names : NameMap) (t : Stylesheet) :
    (mergeExports names t).1.nodes.eraseP isExport = t.nodes.eraseP isExport := by
  cases hne : names.isEmpty with
  | true => rw [mergeExports, hne]; rfl
  | false =>
    obtain ⟨front, r, behind, hplace, heq⟩ := exists_mergeExports hne t
    have hfront : ∀ m ∈ front, ¬ isExport m = true := fun m hm => by
      simp [hplace.isExport_front m hm]
    have hskip : ∀ ms, (front ++ .rule r ms :: behind).eraseP isExport = front ++ behind :=
      fun ms => by
        rw [List.eraseP_append_right _ hfront, List.eraseP_cons_of_pos (hplace.isExport_rule ms)]
    rw [heq, hskip]
    rcases hplace.nodes_eq with hns | ⟨hns, hnone, -⟩
    · rw [hns, hskip]
    · rw [List.eraseP_of_forall_not (by simpa using hnone), hns]

end Icss

/-! ## Sheets without names -/

section

variable (g : Generator σ) (file : SourceFile)

theorem Node.declarations_collect (n : Node) (s : σ) :
    (n.collect g file s).1.declarations = n.declarations := by
  cases n <;> rfl

theorem allDeclarations_collect (ns : List Node) (s : σ) :
    Node.allDeclarations (collect g file ns s).nodes = Node.allDeclarations ns := by
  induction ns generalizing s with
  | nil => rfl
  | cons n ns ih =>
    rw [collect_nodes, Node.allDeclarations, n.declarations_collect, ih, Node.allDeclarations]

theorem Node.collect_of_none {n : Node} {s : σ}
    (h : (n.collect g file s).2.1.bind Finding.pair? = none) : (n.collect g file s).1 = n := by
  have hrule : ∀ a : AtRule, (a.collect g file s).2.1.bind Finding.pair? = none →
      (a.collect g file s).1 = a := by
    intro a ha
    rcases a.collect_cases g file s with ⟨-, heq, -⟩ | ⟨name, -, -, hsome⟩
    · exact heq
    · rw [ha] at hsome
      cases hsome
  cases n with
  | atRule a => exact congrArg Node.atRule (hrule a h)
  | atBlock a body => exact congrArg (Node.atBlock · body) (hrule a h)
  | _ => rfl

theorem Node.collect_pair_eq_none_iff (n : Node) (s : σ) :
    (n.collect g file s).2.1.bind Finding.pair? = none ↔
      ∀ a ∈ n.atRule?, ∀ name, ¬ a.Declares name := by
  have hrule : ∀ a : AtRule, (a.collect g file s).2.1.bind Finding.pair? = none ↔
      ∀ name, ¬ a.Declares name := by
    intro a
    rcases a.collect_cases g file s with ⟨hn, -, hnone⟩ | ⟨name, ha, -, hsome⟩
    · simp [hnone, hn]
    · rw [hsome]
      simpa using ⟨name, ha⟩
  cases n with
  | atRule a => exact (hrule a).trans (by simp [atRule?])
  | atBlock a body => exact (hrule a).trans (by simp [atRule?])
  | _ => simp [collect, atRule?]

theorem nodes_collect_of_pairs {s : σ} (h : (collect g file ns s).pairs = []) :
    (collect g file ns s).nodes = ns := by
  induction ns generalizing s with
  | nil => rfl
  | cons n ns ih =>
    rw [collect_pairs, List.append_eq_nil_iff, Option.toList_eq_nil_iff] at h
    rw [collect_nodes, n.collect_of_none g file h.1, ih h.2]

theorem pairs_eq_nil_iff (ns : List Node) (s : σ) :
    (collect g file ns s).pairs = [] ↔
      ∀ a ∈ ns.filterMap Node.atRule?, ∀ name, ¬ a.Declares name := by
  induction ns generalizing s with
  | nil => simp [collect, Collection.pairs]
  | cons n ns ih =>
    rw [collect_pairs, List.append_eq_nil_iff, Option.toList_eq_nil_iff, ih,
      n.collect_pair_eq_none_iff]
    cases h : n.atRule? <;> simp [h]

end

/-! ## The whole run -/

section

variable (g : Generator σ) (file : SourceFile) (sheet : Stylesheet) (report : Report) (s : σ)

/-- The sheet as the first pass leaves it. -/
def collectedSheet : Stylesheet := { sheet with nodes := (collect g file sheet.nodes s).nodes }

/-- What a run of scoping changes. The names are published in the first export block of
the result, which is the first one of the sheet or is added to it. -/
structure Changes (o : Outcome σ) : Prop where
  unnamed : o.names.isEmpty = true → o.sheet = sheet
  after : o.sheet.after = sheet.after
  published : o.names.isEmpty = false → o.sheet.nodes.any Icss.isExport = true
  /-- The other nodes correspond one to one and in order. -/
  nodes : List.Forall₂ (Node.Scoped g file o.names) (sheet.nodes.eraseP Icss.isExport)
    (o.sheet.nodes.eraseP Icss.isExport)
  visited : o.sheet =
    (Icss.mergeExports o.names (renameCounted o.names (collectedSheet g file sheet s)).1).1
  /-- The visit counts the declarations that refer to names, in the export block too. -/
  count : (renameCounted o.names (collectedSheet g file sheet s)).2 =
    sheet.declarations.countP fun d => decide (Refers o.names d)

theorem names_scope_isEmpty_iff :
    (scope g file sheet report s).names.isEmpty = true ↔
      ∀ a ∈ sheet.nodes.filterMap Node.atRule?, ∀ name, ¬ a.Declares name :=
  (NameMap.isEmpty_ofList _).trans (pairs_eq_nil_iff g file sheet.nodes s)

theorem sheet_scope_of_isEmpty (h : (scope g file sheet report s).names.isEmpty = true) :
    (scope g file sheet report s).sheet = sheet := by
  have hnames : (collect g file sheet.nodes s).names.isEmpty = true := h
  have hpairs : (collect g file sheet.nodes s).pairs = [] := (NameMap.isEmpty_ofList _).mp h
  show (Icss.mergeExports (collect g file sheet.nodes s).names (renameReferences
    (collect g file sheet.nodes s).names (collectedSheet g file sheet s))).1 = sheet
  rw [renameReferences_of_isEmpty hnames, collectedSheet, nodes_collect_of_pairs g file hpairs,
    Icss.mergeExports, if_pos hnames]

theorem scope_changes : Changes g file sheet s (scope g file sheet report s) where
  unnamed := sheet_scope_of_isEmpty g file sheet report s
  after := Icss.after_mergeExports _ _
  published := fun h => Icss.any_isExport_mergeExports h _
  nodes := by
    show List.Forall₂ _ _ ((Icss.mergeExports _ _).1.nodes.eraseP Icss.isExport)
    rw [Icss.eraseP_mergeExports]
    exact forall₂_eraseP (fun _ _ hnm => hnm.isExport_eq) (scoped_collect g file _ sheet.nodes s)
  visited := by
    rw [renameCounted_eq]
    rfl
  count := by
    rw [renameCounted_eq, referenceCount_eq, Stylesheet.declarations, collectedSheet,
      allDeclarations_collect, Stylesheet.declarations]

/-- Scoping fails just where reading fails. The exports are empty just if no rule declares
a usable name, and then the output is the input and nothing is announced. -/
theorem process_unnamed :
    (∀ e, process g file s = .error e ↔ Stylesheet.parse file.css = .error e) ∧
      ∀ sheet, Stylesheet.parse file.css = .ok sheet → ∃ out, process g file s = .ok out ∧
        (out.exports.isEmpty = true ↔
          ∀ a ∈ sheet.nodes.filterMap Node.atRule?, ∀ name, ¬ a.Declares name) ∧
        (out.exports.isEmpty = true → out.css = file.css ∧ out.report.events = []) := by
  constructor
  · intro e
    rw [process]
    cases Stylesheet.parse file.css <;> simp
  · intro sheet hparse
    refine ⟨_, by rw [process, hparse], names_scope_isEmpty_iff g file sheet .empty s, ?_⟩
    intro h
    have hpairs : (collect g file sheet.nodes s).pairs = [] := (NameMap.isEmpty_ofList _).mp h
    refine ⟨?_, ?_⟩
    · show (scope g file sheet .empty s).sheet.render = file.css
      rw [sheet_scope_of_isEmpty g file sheet .empty s h, Stylesheet.render_of_parse hparse]
    · show ([] ++ (collect g file sheet.nodes s).report.events) ++ [] = []
      rw [Collection.report, hpairs]
      rfl

end

/-- A reserved name, a rule without a name, an export block and references. -/
theorem process_unnamed_sample :
    ∃ file out,
      file.css = "@keyframes none\x7b\x7d@keyframes \x7b\x7d".toList ++
        ":export\x7ba:b\x7d.c\x7banimation:none,a\x7d".toList ∧
      process .default file () = .ok out ∧ out.exports.isEmpty = true ∧
      out.css = file.css ∧ out.report.events = [] := by
  let file : SourceFile := ⟨"a.css".toList, "@keyframes none\x7b\x7d@keyframes \x7b\x7d".toList ++
    ":export\x7ba:b\x7d.c\x7banimation:none,a\x7d".toList⟩
  have hrun : (match process .default file () with
      | .ok out => out.exports.isEmpty
      | .error _ => false) = true := by decide +kernel
  cases hparse : Stylesheet.parse file.css with
  | error e =>
    rw [((process_unnamed .default file ()).1 e).mpr hparse] at hrun
    cases hrun
  | ok sheet =>
    obtain ⟨out, hout, -, h⟩ := (process_unnamed .default file ()).2 sheet hparse
    rw [hout] at hrun
    exact ⟨file, out, rfl, hout, hrun, h hrun⟩

end AnimationScope
