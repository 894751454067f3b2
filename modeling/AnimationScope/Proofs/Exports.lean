import AnimationScope.Proofs.Publishing

/-!
# The place of the export block

Names go into one rule of a sheet, which is its first export block or is added to it.
Nothing around this rule changes, and what the block says of a name afterwards is the
value that was published.
-/

namespace AnimationScope

namespace Icss

open Animation

def exported (ns : List Node) : List Node := ((ns.find? isExport).map Node.children).getD []

def newExport (before : Text) : Rule := ⟨before, ":export".toList, [' '], ['\n']⟩

/-- The block that names are published in, as the nodes in front of it, its rule, its own
nodes and the nodes behind it. It is the first export block, or else it is added behind the
last import block, or at the end. -/
inductive ExportPlace : List Node → List Node → Rule → List Node → List Node → Prop
  | found {front behind body : List Node} {r : Rule} (hr : isExport (.rule r body) = true)
      (hfront : ∀ n ∈ front, isExport n = false) :
      ExportPlace (front ++ .rule r body :: behind) front r body behind
  | behindImports {front behind : List Node} {n : Node} (hn : isImport n = true)
      (hbehind : ∀ m ∈ behind, isImport m = false)
      (hnone : ∀ m ∈ front ++ n :: behind, isExport m = false) :
      ExportPlace (front ++ n :: behind) (front ++ [n]) (newExport ['\n']) [] behind
  | atEnd {ns : List Node} (hnone : ∀ n ∈ ns, isImport n = false ∧ isExport n = false) :
      ExportPlace ns ns (newExport (if ns.isEmpty then [] else ['\n'])) [] []

variable {es : List (Text × Text)} {n : Node} {ns front behind body : List Node} {r : Rule}

theorem exists_rule_of_isExport (h : isExport n = true) : ∃ r body, n = .rule r body := by
  cases n with
  | rule r body => exact ⟨r, body, rfl⟩
  | _ => simp [isExport, block?] at h

theorem exported_cons (n : Node) (ns : List Node) :
    exported (n :: ns) = if isExport n then n.children else exported ns := by
  rw [exported, List.find?_cons]
  cases hn : isExport n <;> rfl

/-! ## The block in its place -/

theorem find?_isExport_at (hr : isExport (.rule r body) = true)
    (hfront : ∀ n ∈ front, isExport n = false) (behind : List Node) :
    (front ++ .rule r body :: behind).find? isExport = some (.rule r body) := by
  have hnone : front.find? isExport = none :=
    List.find?_eq_none.mpr fun n hn => by simp [hfront n hn]
  rw [List.find?_append, hnone, Option.none_or, List.find?_cons_of_pos hr]

theorem publishInFirst_at (es : List (Text × Text)) (hr : isExport (.rule r body) = true)
    (hfront : ∀ n ∈ front, isExport n = false) (behind : List Node) :
    publishInFirst es (front ++ .rule r body :: behind) =
      (front ++ .rule r (publishAll es body).1 :: behind, (publishAll es body).2) := by
  induction front with
  | nil =>
    rw [List.nil_append, publishInFirst, if_pos hr]
    rfl
  | cons m front ih =>
    rw [List.forall_mem_cons] at hfront
    rw [List.cons_append, publishInFirst, hfront.1, ih hfront.2]
    rfl

theorem exists_last_import (h : ns.any isImport = true) :
    ∃ front n behind, ns = front ++ n :: behind ∧ isImport n = true ∧
      ∀ m ∈ behind, isImport m = false := by
  induction ns with
  | nil => cases h
  | cons m ns ih =>
    cases hns : ns.any isImport with
    | true =>
      obtain ⟨front, n, behind, rfl, hn, hbehind⟩ := ih hns
      exact ⟨m :: front, n, behind, rfl, hn, hbehind⟩
    | false =>
      have hm : isImport m = true := by simpa [hns] using h
      exact ⟨[], m, ns, rfl, hm, by simpa using hns⟩

theorem insertAfterImports_at (new : Node) (hn : isImport n = true)
    (hbehind : ∀ m ∈ behind, isImport m = false) :
    insertAfterImports new (front ++ n :: behind) = front ++ n :: new :: behind := by
  induction front with
  | nil =>
    have hnone : behind.any isImport = false := by simpa using hbehind
    rw [List.nil_append, insertAfterImports, hn, hnone]
    rfl
  | cons m front ih =>
    have hany : (front ++ n :: behind).any isImport = true := by simp [hn]
    rw [List.cons_append, insertAfterImports, hany, ih]
    simp

theorem insertAfterImports_of_not_any {new : Node} (h : ns.any isImport = false) :
    insertAfterImports new ns = ns ++ [new] := by
  induction ns with
  | nil => rfl
  | cons n ns ih =>
    simp only [List.any_cons, Bool.or_eq_false_iff] at h
    rw [insertAfterImports, h.1, ih h.2]
    rfl

/-- There is one place for the block, and the nodes with the block among them are the nodes
around this place. -/
theorem exists_exportPlace (ns : List Node) :
    ∃ front r body behind, ExportPlace ns front r body behind ∧
      ensureExport ns = front ++ .rule r body :: behind := by
  cases hexport : ns.any isExport with
  | true =>
    obtain ⟨n, hmem, hn⟩ := List.any_eq_true.mp hexport
    obtain ⟨n, front, behind, hfront, hn, rfl, -⟩ := List.exists_of_eraseP hmem hn
    obtain ⟨r, body, rfl⟩ := exists_rule_of_isExport hn
    have hnone : ∀ m ∈ front, isExport m = false := fun m hm => by simpa using hfront m hm
    exact ⟨front, r, body, behind, .found hn hnone, if_pos hexport⟩
  | false =>
    have hnone : ∀ n ∈ ns, isExport n = false := by simpa using hexport
    cases himport : ns.any isImport with
    | true =>
      obtain ⟨front, n, behind, rfl, hn, hbehind⟩ := exists_last_import himport
      refine ⟨front ++ [n], newExport ['\n'], [], behind, .behindImports hn hbehind hnone, ?_⟩
      rw [ensureExport, hexport]
      simp [insertAfterImports_at _ hn hbehind, newExport, Node.emptyRule, Node.withBefore]
    | false =>
      have hnone' : ∀ n ∈ ns, isImport n = false ∧ isExport n = false := fun n hn =>
        ⟨by simpa using List.any_eq_false.mp himport n hn, hnone n hn⟩
      refine ⟨ns, _, [], [], .atEnd hnone', ?_⟩
      rw [ensureExport, hexport]
      cases ns with
      | nil => rfl
      | cons n ns => exact insertAfterImports_of_not_any himport

section

variable (h : ExportPlace ns front r body behind)

include h

theorem ExportPlace.isExport_rule (ms : List Node) : isExport (.rule r ms) = true := by
  cases h with
  | found hr _ => exact hr
  | behindImports => rfl
  | atEnd => rfl

theorem ExportPlace.isExport_front : ∀ n ∈ front, isExport n = false := by
  cases h with
  | found _ hfront => exact hfront
  | behindImports hn hbehind hnone =>
    intro m hm
    refine hnone m ?_
    rw [List.append_cons]
    exact List.mem_append_left _ hm
  | atEnd hnone => exact fun n hn => (hnone n hn).2

/-- The block is one of the nodes, or it is added and empty. -/
theorem ExportPlace.nodes_eq :
    ns = front ++ .rule r body :: behind ∨
      ns = front ++ behind ∧ (∀ n ∈ ns, isExport n = false) ∧ body = [] ∧
        ∃ before, (before = [] ∨ before = ['\n']) ∧ r = newExport before := by
  cases h with
  | found => exact .inl rfl
  | behindImports _ _ hnone => exact .inr ⟨by simp, hnone, rfl, _, .inr rfl, rfl⟩
  | atEnd hnone =>
    refine .inr ⟨(List.append_nil ns).symm, fun n hn => (hnone n hn).2, rfl, _, ?_, rfl⟩
    cases ns <;> simp

theorem ExportPlace.front_eq (hexport : ns.any isExport = false)
    (himport : ns.any isImport = false) : front = ns := by
  cases h with
  | found hr => simp [hr] at hexport
  | behindImports hn => simp [hn] at himport
  | atEnd => rfl

theorem ExportPlace.exported_eq : exported ns = body := by
  rcases h.nodes_eq with hns | ⟨-, hnone, rfl, -⟩
  · rw [hns, exported, find?_isExport_at (h.isExport_rule body) h.isExport_front]
    rfl
  · have hfind : ns.find? isExport = none :=
      List.find?_eq_none.mpr fun n hn => by simp [hnone n hn]
    rw [exported, hfind]
    rfl

end

/-! ## A sheet with its names merged -/

/-- Merging names changes one rule, in which all of them are published. -/
theorem exists_mergeExports {names : NameMap} (h : names.isEmpty = false) (s : Stylesheet) :
    ∃ front r behind, ExportPlace s.nodes front r (exported s.nodes) behind ∧
      mergeExports names s =
        (⟨front ++ .rule r (publishAll names.entries (exported s.nodes)).1 :: behind, s.after⟩,
          (publishAll names.entries (exported s.nodes)).2) := by
  obtain ⟨front, r, body, behind, hplace, hensure⟩ := exists_exportPlace s.nodes
  obtain rfl := hplace.exported_eq
  refine ⟨front, r, behind, hplace, ?_⟩
  rw [mergeExports, h, hensure,
    publishInFirst_at _ (hplace.isExport_rule _) hplace.isExport_front]
  rfl

theorem isEmpty_of_mem {names : NameMap} {e : Text × Text} (h : e ∈ names.entries) :
    names.isEmpty = false :=
  List.isEmpty_eq_false_iff.mpr (List.ne_nil_of_mem h)

/-- What does not see the first export block is the same in front of merging and behind it. -/
theorem mergeExports_unseen {α : Type} {f : List Node → α}
    (hf : ∀ front n behind, (∀ m ∈ front, isExport m = false) → isExport n = true →
      f (front ++ n :: behind) = f (front ++ behind)) (names : NameMap) (s : Stylesheet) :
    f (mergeExports names s).1.nodes = f s.nodes := by
  cases hne : names.isEmpty with
  | true => rw [mergeExports, hne]; rfl
  | false =>
    obtain ⟨front, r, behind, hplace, heq⟩ := exists_mergeExports hne s
    have hskip := fun ms => hf front (.rule r ms) behind hplace.isExport_front
      (hplace.isExport_rule ms)
    rw [heq, hskip]
    rcases hplace.nodes_eq with hns | ⟨hns, -⟩
    · rw [hns, hskip]
    · rw [hns]

theorem atRules_mergeExports (names : NameMap) (s : Stylesheet) :
    (mergeExports names s).1.nodes.filterMap Node.atRule? = s.nodes.filterMap Node.atRule? := by
  refine mergeExports_unseen (f := List.filterMap Node.atRule?) ?_ names s
  intro front n behind _ hn
  obtain ⟨r, body, rfl⟩ := exists_rule_of_isExport hn
  rw [List.filterMap_append, List.filterMap_cons_none rfl, List.filterMap_append]

theorem after_mergeExports (names : NameMap) (s : Stylesheet) :
    (mergeExports names s).1.after = s.after := by
  rw [mergeExports]
  split_ifs <;> rfl

theorem any_isExport_mergeExports {names : NameMap} (h : names.isEmpty = false) (s : Stylesheet) :
    (mergeExports names s).1.nodes.any isExport = true := by
  obtain ⟨front, r, behind, hplace, heq⟩ := exists_mergeExports h s
  rw [heq, List.any_eq_true]
  exact ⟨_, List.mem_append_right _ List.mem_cons_self, hplace.isExport_rule _⟩

theorem find?_isExport_mergeExports {names : NameMap} (h : names.isEmpty = false)
    (s : Stylesheet) :
    ∃ r, (mergeExports names s).1.nodes.find? isExport =
      some (.rule r (publishAll names.entries (exported s.nodes)).1) := by
  obtain ⟨front, r, behind, hplace, heq⟩ := exists_mergeExports h s
  rw [heq]
  exact ⟨r, find?_isExport_at (hplace.isExport_rule _) hplace.isExport_front behind⟩

theorem exported_mergeExports {names : NameMap} (h : names.isEmpty = false) (s : Stylesheet) :
    exported (mergeExports names s).1.nodes = (publishAll names.entries (exported s.nodes)).1 := by
  obtain ⟨r, hfind⟩ := find?_isExport_mergeExports h s
  rw [exported, hfind]
  rfl

/-- A node is left alone, or it is the block in which the names are published. -/
theorem mem_mergeExports {names : NameMap} {s : Stylesheet}
    (h : n ∈ (mergeExports names s).1.nodes) :
    n ∈ s.nodes ∨ ∃ r body, n = .rule r (publishAll names.entries body).1 ∧
      (mergeExports names s).1.nodes.find? isExport = some n ∧
      (Node.rule r body ∈ s.nodes ∨
        body = [] ∧ ∃ before, (before = [] ∨ before = ['\n']) ∧ r = newExport before) := by
  cases hne : names.isEmpty with
  | true =>
    rw [mergeExports, hne] at h
    exact .inl h
  | false =>
    obtain ⟨front, r, behind, hplace, heq⟩ := exists_mergeExports hne s
    rw [heq] at h ⊢
    generalize exported s.nodes = body at hplace h ⊢
    have hfind := find?_isExport_at (hplace.isExport_rule (publishAll names.entries body).1)
      hplace.isExport_front behind
    have hmem : n ∈ front ∨ n = .rule r (publishAll names.entries body).1 ∨ n ∈ behind := by
      simpa using h
    rcases hplace.nodes_eq with hns | ⟨hns, -, hnew⟩
    · rw [hns]
      rcases hmem with hmem | rfl | hmem
      · exact .inl (List.mem_append_left _ hmem)
      · exact .inr ⟨r, body, rfl, hfind, .inl (List.mem_append_right _ List.mem_cons_self)⟩
      · exact .inl (List.mem_append_right _ (List.mem_cons_of_mem _ hmem))
    · rw [hns]
      rcases hmem with hmem | rfl | hmem
      · exact .inl (List.mem_append_left _ hmem)
      · exact .inr ⟨r, body, rfl, hfind, .inr hnew⟩
      · exact .inl (List.mem_append_right _ hmem)

/-- The collisions are those with the export block as it was, in the order of the
map. -/
theorem mergeExports_warnings (names : NameMap) (s : Stylesheet) :
    (mergeExports names s).2 =
      (names.entries.filter (collides (exported s.nodes))).map
        fun e => Warning.about .exportKeyCollision e.1 := by
  cases hne : names.isEmpty with
  | true =>
    have hentries : names.entries = [] := List.isEmpty_iff.mp hne
    rw [mergeExports, hne, hentries]
    rfl
  | false =>
    obtain ⟨front, r, behind, -, heq⟩ := exists_mergeExports hne s
    rw [heq]
    exact publishAll_warnings names.nodup _

theorem valuesOf_mergeExports (names : NameMap) (s : Stylesheet) :
    ∀ e ∈ names.entries, Node.valuesOf (exported (mergeExports names s).1.nodes) e.1 =
      corrected e.2 (Node.valuesOf (exported s.nodes) e.1) := by
  intro e he
  rw [exported_mergeExports (isEmpty_of_mem he)]
  exact valuesOf_publishAll names.nodup _ e he

theorem valueOf?_mergeExports (names : NameMap) (s : Stylesheet) :
    ∀ e ∈ names.entries, ∃ w,
      Node.valueOf? (exported (mergeExports names s).1.nodes) e.1 = some w ∧
        (w = e.2 ∨ w.trim = e.2) := by
  intro e he
  rw [Node.valueOf?_eq_head?, valuesOf_mergeExports names s e he]
  exact exists_head_corrected _ _

end Icss

end AnimationScope
