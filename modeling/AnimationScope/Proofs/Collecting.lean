import AnimationScope.Proofs.Entries
import AnimationScope.Proofs.Exports
import AnimationScope.Scoping.Process

/-!
# What becomes of the keyframes rules

The top-level at-rules are handled one after another, and each of them is left
alone, or reported, or renamed. The report and the map of names are made of just
these findings.
-/

namespace AnimationScope

open Animation Naming

/-- The name is `keyframes` in any case, with one vendor prefix or none. -/
def NamesKeyframes (name : Text) : Prop :=
  ∃ p ∈ [] :: Css.vendorPrefixes, name.map Char.toLower = p ++ "keyframes".toList

theorem Css.unprefixed_cases (name : Text) :
    ∃ p ∈ [] :: vendorPrefixes, name = p ++ unprefixed name := by
  rw [unprefixed]
  cases h : vendorPrefixes.findSome? name.stripStart? with
  | none => exact ⟨[], by simp, rfl⟩
  | some rest =>
    obtain ⟨p, hp, hrest⟩ := List.exists_of_findSome?_eq_some h
    exact ⟨p, List.mem_cons_of_mem _ hp, Text.stripStart?_eq_some_iff.mp hrest⟩

/-- One prefix or none is taken off a name, as long as no base begins with a prefix
itself. -/
theorem Css.matchesUnprefixed_iff {bases : List Text}
    (hb : ∀ p ∈ [] :: vendorPrefixes, ∀ base ∈ bases, unprefixed (p ++ base) = base)
    (name : Text) :
    matchesUnprefixed name bases = true ↔
      ∃ p ∈ [] :: vendorPrefixes, ∃ base ∈ bases, name.map Char.toLower = p ++ base := by
  rw [matchesUnprefixed, decide_eq_true_iff]
  constructor
  · intro h
    obtain ⟨p, hp, hname⟩ := unprefixed_cases (name.map Char.toLower)
    exact ⟨p, hp, _, h, hname⟩
  · rintro ⟨p, hp, base, hbase, hname⟩
    rw [hname, hb p hp base hbase]
    exact hbase

theorem isKeyframes_iff (name : Text) : isKeyframes name = true ↔ NamesKeyframes name := by
  rw [isKeyframes, Css.matchesUnprefixed_iff (by decide)]
  simp only [List.mem_singleton, exists_eq_left, NamesKeyframes]

theorem declaredName?_eq_none_iff (params : Text) :
    declaredName? params = none ↔ (withoutComments params).trim = [] := by
  rw [declaredName?]
  cases (withoutComments params).trim <;> simp

/-- The at-rule `b` is the at-rule `a` with a new name. If the keyword of `a` was followed directly,
a space divides the keyword of `b` from the name. -/
structure AtRule.RenamedTo (a : AtRule) (name : Text) (b : AtRule) : Prop where
  params : b.params = name
  afterName : b.afterName = if a.afterName = [] then [' '] else a.afterName
  before : b.before = a.before
  keyword : b.name = a.name
  between : b.between = a.between
  after : b.after = a.after
  semicolon : b.semicolon = a.semicolon

theorem AtRule.renamedTo_iff {a b : AtRule} {name : Text} :
    a.RenamedTo name b ↔ b = a.withParams name := by
  constructor
  · rintro ⟨hparams, hafterName, hbefore, hkeyword, hbetween, hafter, hsemicolon⟩
    cases b
    simp_all [AtRule.withParams]
  · rintro rfl
    exact ⟨rfl, by simp [AtRule.withParams], rfl, rfl, rfl, rfl, rfl⟩

variable {σ : Type}

/-- How at-rules are handled one after another: which rules become of them, what
is found, and which state the generator is left in. -/
inductive Handled (g : Generator σ) (file : SourceFile) :
    List AtRule → σ → List AtRule → List Finding → σ → Prop
  | done {s : σ} : Handled g file [] s [] [] s
  | other {a : AtRule} {as bs : List AtRule} {fs : List Finding} {s s' : σ}
      (hk : ¬ NamesKeyframes a.name) (has : Handled g file as s bs fs s') :
      Handled g file (a :: as) s (a :: bs) fs s'
  | nameless {a : AtRule} {as bs : List AtRule} {fs : List Finding} {s s' : σ}
      (hk : NamesKeyframes a.name) (hn : (withoutComments a.params).trim = [])
      (has : Handled g file as s bs fs s') : Handled g file (a :: as) s (a :: bs) fs s'
  | reserved {a : AtRule} {as bs : List AtRule} {fs : List Finding} {s s' : σ} {name : Text}
      (hk : NamesKeyframes a.name) (hn : declaredName? a.params = some name)
      (hc : classify name = .reserved) (has : Handled g file as s bs fs s') :
      Handled g file (a :: as) s (a :: bs) (.rejected .reservedName name :: fs) s'
  | invalid {a : AtRule} {as bs : List AtRule} {fs : List Finding} {s s' : σ} {name : Text}
      (hk : NamesKeyframes a.name) (hn : declaredName? a.params = some name)
      (hc : classify name = .invalid) (has : Handled g file as s bs fs s') :
      Handled g file (a :: as) s (a :: bs) (.rejected .invalidIdentifier name :: fs) s'
  | renamed {a b : AtRule} {as bs : List AtRule} {fs : List Finding} {s s₁ s' : σ}
      {name value : Text} (hk : NamesKeyframes a.name)
      (hn : declaredName? a.params = some name) (hc : classify name = .valid)
      (hg : g.generate name file.path file.css s = (value, s₁)) (hb : a.RenamedTo value b)
      (has : Handled g file as s₁ bs fs s') :
      Handled g file (a :: as) s (b :: bs) (.renamed name value :: fs) s'

section

variable {g : Generator σ} {file : SourceFile} {a : AtRule} {as bs : List AtRule}
  {fs : List Finding} {s s' : σ}

theorem Handled.cons (has : Handled g file as (a.collect g file s).2.2 bs fs s') :
    Handled g file (a :: as) s ((a.collect g file s).1 :: bs)
      ((a.collect g file s).2.1.toList ++ fs) s' := by
  rw [AtRule.collect] at has ⊢
  by_cases hk : isKeyframes a.name = true
  · have hkey := (isKeyframes_iff a.name).mp hk
    simp only [hk, if_true] at has ⊢
    cases hn : declaredName? a.params with
    | none =>
      rw [hn] at has
      exact .nameless hkey ((declaredName?_eq_none_iff _).mp hn) has
    | some name =>
      rw [hn] at has
      cases hc : classify name with
      | reserved =>
        simp only [hc] at has ⊢
        exact .reserved hkey hn hc has
      | invalid =>
        simp only [hc] at has ⊢
        exact .invalid hkey hn hc has
      | valid =>
        simp only [hc] at has ⊢
        exact .renamed hkey hn hc rfl (AtRule.renamedTo_iff.mpr rfl) has
  · have hkey : ¬ NamesKeyframes a.name := fun h => hk ((isKeyframes_iff a.name).mpr h)
    simp only [hk] at has ⊢
    exact .other hkey has

/-- The at-rules among the nodes are handled, and all other nodes are kept. -/
theorem handled_collect (g : Generator σ) (file : SourceFile) (ns : List Node) (s : σ) :
    Handled g file (ns.filterMap Node.atRule?) s
      ((collect g file ns s).nodes.filterMap Node.atRule?) (collect g file ns s).findings
      (collect g file ns s).state := by
  induction ns generalizing s with
  | nil => exact .done
  | cons n ns ih =>
    cases n with
    | atRule a => exact Handled.cons (ih _)
    | atBlock a body => exact Handled.cons (ih _)
    | rule r body => exact ih s
    | declaration d => exact ih s
    | comment c => exact ih s

theorem Handled.valid (h : Handled g file as s bs fs s') :
    ∀ p ∈ fs.filterMap Finding.pair?, classify p.1 = .valid := by
  induction h with
  | done => simp
  | other _ _ ih | nameless _ _ _ ih => exact ih
  | reserved _ _ _ _ ih | invalid _ _ _ _ ih => simpa [Finding.pair?] using ih
  | renamed _ _ hc _ _ _ ih =>
    intro p hp
    rcases List.mem_cons.mp hp with rfl | hp
    · exact hc
    · exact ih p hp

end

/-- A keyframes rule that declares a usable name. -/
structure AtRule.Declares (a : AtRule) (name : Text) : Prop where
  keyframes : NamesKeyframes a.name
  declared : declaredName? a.params = some name
  usable : classify name = .valid

section

variable (g : Generator σ) (file : SourceFile)

/-- A rule is left alone, or it declares a usable name and is given another one. -/
theorem AtRule.collect_cases (a : AtRule) (s : σ) :
    ((∀ name, ¬ a.Declares name) ∧ (a.collect g file s).1 = a ∧
        (a.collect g file s).2.1.bind Finding.pair? = none) ∨
      ∃ name, a.Declares name ∧
        (a.collect g file s).1 = a.withParams (g.generate name file.path file.css s).1 ∧
        (a.collect g file s).2.1.bind Finding.pair? =
          some (name, (g.generate name file.path file.css s).1) := by
  have rejected : ∀ {name : Text}, declaredName? a.params = some name →
      classify name ≠ .valid → ∀ other, ¬ a.Declares other := by
    rintro name hname hc other ⟨-, hdeclared, husable⟩
    rw [hname] at hdeclared
    exact hc (Option.some.inj hdeclared ▸ husable)
  rw [collect]
  split
  · next hnone =>
    refine .inl ⟨?_, rfl, rfl⟩
    rintro name ⟨hk, hdeclared, -⟩
    rw [if_pos ((isKeyframes_iff _).mpr hk), hdeclared] at hnone
    cases hnone
  · next name hname =>
    split_ifs at hname with hk
    split
    · next hc => exact .inl ⟨rejected hname (by simp [hc]), rfl, rfl⟩
    · next hc => exact .inl ⟨rejected hname (by simp [hc]), rfl, rfl⟩
    · next hc => exact .inr ⟨name, ⟨(isKeyframes_iff _).mp hk, hname, hc⟩, rfl, rfl⟩

theorem AtRule.collect_of_declares {a : AtRule} {name : Text} (h : a.Declares name) (s : σ) :
    a.collect g file s =
      (a.withParams (g.generate name file.path file.css s).1,
        some (.renamed name (g.generate name file.path file.css s).1),
        (g.generate name file.path file.css s).2) := by
  rw [collect, if_pos ((isKeyframes_iff _).mpr h.keyframes), h.declared]
  simp only [h.usable]

theorem collect_nodes (n : Node) (ns : List Node) (s : σ) :
    (collect g file (n :: ns) s).nodes =
      (n.collect g file s).1 :: (collect g file ns (n.collect g file s).2.2).nodes := rfl

theorem collect_pairs (n : Node) (ns : List Node) (s : σ) :
    (collect g file (n :: ns) s).pairs =
      ((n.collect g file s).2.1.bind Finding.pair?).toList ++
        (collect g file ns (n.collect g file s).2.2).pairs := by
  show ((n.collect g file s).2.1.toList ++
    (collect g file ns (n.collect g file s).2.2).findings).filterMap Finding.pair? = _
  rw [List.filterMap_append]
  cases (n.collect g file s).2.1 with
  | none => rfl
  | some f =>
    cases hf : f.pair? <;> simp [hf, Collection.pairs]

end

/-! ## The other passes -/

section

variable (f : Declaration → Declaration) (n : Node) (ns : List Node)

theorem Node.atRules_mapAllDeclarations :
    (mapAllDeclarations f ns).filterMap atRule? = ns.filterMap atRule? := by
  have hone : ∀ n : Node, (mapDeclarations f n).atRule? = n.atRule? := by
    intro n
    cases n <;> rfl
  induction ns with
  | nil => rfl
  | cons n ns ih => rw [mapAllDeclarations, List.filterMap_cons, List.filterMap_cons, hone, ih]

theorem Icss.isExport_mapDeclarations : isExport (n.mapDeclarations f) = isExport n := by
  cases n <;> rfl

theorem Icss.exported_mapAllDeclarations :
    exported (Node.mapAllDeclarations f ns) = Node.mapAllDeclarations f (exported ns) := by
  induction ns with
  | nil => rfl
  | cons n ns ih =>
    rw [Node.mapAllDeclarations, exported_cons, exported_cons, isExport_mapDeclarations, ih]
    split_ifs
    · cases n <;> rfl
    · rfl

theorem Node.directDeclarations_mapAllDeclarations :
    directDeclarations (mapAllDeclarations f ns) = (directDeclarations ns).map f := by
  induction ns with
  | nil => rfl
  | cons n ns ih =>
    obtain ⟨d, rfl⟩ | hn := exists_declaration_or n
    · rw [mapAllDeclarations, mapDeclarations, directDeclarations_declaration, ih]
      rfl
    · have hf : (mapDeclarations f n).declaration? = none := by
        cases n with
        | declaration d => cases hn
        | _ => rfl
      rw [mapAllDeclarations, directDeclarations_of_none hf, directDeclarations_of_none hn, ih]

end

theorem Animation.renameDeclaration_prop (names : NameMap) (d : Declaration) :
    (renameDeclaration names d).prop = d.prop := by
  rw [renameDeclaration]
  split <;> rfl

theorem Icss.exported_collect (g : Generator σ) (file : SourceFile) (ns : List Node) (s : σ) :
    exported (collect g file ns s).nodes = exported ns := by
  induction ns generalizing s with
  | nil => rfl
  | cons n ns ih =>
    rw [collect]
    simp only
    rw [exported_cons, exported_cons, ih]
    cases n <;> rfl

/-- Whether the export block of the nodes, with its references renamed, says
something else of a name. -/
def collidesIn (ns : List Node) (names : NameMap) (e : Text × Text) : Bool :=
  ((Node.directDeclarations (Icss.exported ns)).find? (·.prop = e.1)).any
    fun d => (renameDeclaration names d).value.trim ≠ e.2

theorem Icss.collides_renamed (ns : List Node) (names : NameMap) (e : Text × Text) :
    collides (exported (Node.mapAllDeclarations (renameDeclaration names) ns)) e =
      collidesIn ns names e := by
  rw [collides, exported_mapAllDeclarations, Node.valueOf?,
    Node.directDeclarations_mapAllDeclarations, List.find?_map, collidesIn]
  simp only [Function.comp_def, renameDeclaration_prop]
  cases (Node.directDeclarations (exported ns)).find? (·.prop = e.1) <;> rfl

section

variable (g : Generator σ) (file : SourceFile) (sheet : Stylesheet) (report : Report) (s : σ)

theorem atRules_scope :
    (scope g file sheet report s).sheet.nodes.filterMap Node.atRule? =
      (collect g file sheet.nodes s).nodes.filterMap Node.atRule? :=
  (Icss.atRules_mergeExports _ _).trans (Node.atRules_mapAllDeclarations _ _)

theorem warnings_scope :
    (scope g file sheet report s).report.warnings =
      report.warnings ++ (collect g file sheet.nodes s).findings.filterMap Finding.warning? ++
        ((scope g file sheet report s).names.entries.filter
          (collidesIn sheet.nodes (scope g file sheet report s).names)).map
          fun e => Warning.about .exportKeyCollision e.1 := by
  have hmerge := Icss.mergeExports_warnings (collect g file sheet.nodes s).names
    (renameReferences (collect g file sheet.nodes s).names
      { sheet with nodes := (collect g file sheet.nodes s).nodes })
  have hcollides : ∀ e, Icss.collides (Icss.exported (Node.mapAllDeclarations
      (renameDeclaration (collect g file sheet.nodes s).names)
      (collect g file sheet.nodes s).nodes)) e =
      collidesIn sheet.nodes (collect g file sheet.nodes s).names e := by
    intro e
    rw [Icss.collides_renamed, collidesIn, Icss.exported_collect, collidesIn]
  rw [renameReferences, Stylesheet.mapDeclarations,
    List.filter_congr fun e _ => hcollides e] at hmerge
  simp only [scope, Report.append, Collection.report]
  exact congrArg _ hmerge

end

/-- What one run of scoping leaves behind: the top-level at-rules were handled in
order, and what was found went into the report, into the map of names and into the
rules themselves. -/
structure Bookkeeping (g : Generator σ) (file : SourceFile) (sheet : Stylesheet)
    (report : Report) (s : σ) (findings : List Finding) (o : Outcome σ) : Prop where
  rules : Handled g file (sheet.nodes.filterMap Node.atRule?) s
    (o.sheet.nodes.filterMap Node.atRule?) findings o.state
  events : o.report.events =
    report.events ++ (findings.filterMap Finding.pair?).map fun p => Event.about p.1 p.2
  /-- The collisions with the export block come last, in the order of the map. -/
  warnings : o.report.warnings = report.warnings ++ findings.filterMap Finding.warning? ++
    (o.names.entries.filter (collidesIn sheet.nodes o.names)).map
      fun e => Warning.about .exportKeyCollision e.1
  names : o.names = NameMap.ofList (findings.filterMap Finding.pair?)
  keys : o.names.keys = ((findings.filterMap Finding.pair?).map Prod.fst).eraseDups
  values : ∀ key, o.names.get? key =
    ((findings.filterMap Finding.pair?).reverse.find? (·.1 = key)).map Prod.snd
  valid : ∀ key ∈ o.names.keys, classify key = .valid

theorem scope_bookkeeping (g : Generator σ) (file : SourceFile) (sheet : Stylesheet)
    (report : Report) (s : σ) :
    ∃ findings, Bookkeeping g file sheet report s findings (scope g file sheet report s) := by
  have hh := handled_collect g file sheet.nodes s
  have hkeys := NameMap.keys_ofList (collect g file sheet.nodes s).pairs
  refine ⟨(collect g file sheet.nodes s).findings, ?_, ?_, warnings_scope g file sheet report s,
    rfl, hkeys, NameMap.get?_ofList _, ?_⟩
  · rw [atRules_scope]
    exact hh
  · simp [scope, Report.append, Collection.report, Collection.pairs]
  · intro key hkey
    have hmem : key ∈ ((collect g file sheet.nodes s).pairs.map Prod.fst).eraseDups :=
      hkeys ▸ hkey
    obtain ⟨p, hp, rfl⟩ := List.mem_map.mp (List.mem_eraseDups.mp hmem)
    exact hh.valid p hp

/-- A rule that is named by an empty string is reported, although its name is
empty. -/
theorem empty_name_is_reported :
    ¬ ∀ (file : SourceFile) (a : AtRule) (out : Output),
      Stylesheet.parse file.css = .ok ⟨[.atBlock a []], []⟩ → NamesKeyframes a.name →
      (declaredName? a.params).getD [] = [] → process .default file () = .ok out →
      out.report.warnings = [] := by
  intro h
  let a : AtRule := ⟨[], "keyframes".toList, [], ['\x22', '\x22'], [], [], false⟩
  let css : Text := '@' :: "keyframes".toList ++ ['\x22', '\x22', '\x7b', '\x7d']
  let out : Output := ⟨css, .empty, ⟨[.about .invalidIdentifier []], []⟩⟩
  have hk : NamesKeyframes a.name := ⟨[], List.mem_cons_self, by decide⟩
  have hw := h ⟨[], css⟩ a out rfl hk rfl rfl
  cases hw

end AnimationScope
