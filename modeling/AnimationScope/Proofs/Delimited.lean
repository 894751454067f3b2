import AnimationScope.Proofs.Exports
import AnimationScope.Proofs.Levels
import AnimationScope.Proofs.Renaming

/-!
# Which outputs are read back

Scoping puts names and declarations between raw parts of the source. The output is
read back as the tree that it was printed from just if the parts on both sides stay
apart: nothing is added behind an open statement, and every declaration of the export
block and every reference to an animation is read back on its own.
-/

namespace AnimationScope

open Css Animation Naming

/-- What keeps the parts of an output apart. -/
structure WellDelimited (s : Stylesheet) : Prop where
  /-- Nothing stands behind an open statement at the top level. -/
  top : OpenLast s.nodes
  /-- Nothing stands behind an open statement of the export block, and each of its
  declarations is read back. -/
  exports : ∀ r body, s.nodes.find? Icss.isExport = some (.rule r body) →
    OpenLast body ∧ ∀ d ∈ Node.directDeclarations body, Level.Keeps ⟨true, body, r.after⟩ d
  /-- Every declaration that refers to animations is read back. -/
  references : ∀ l ∈ s.levels, l.KeepsReferences

variable {e : Option Char} {after : Text} {ns : List Node}

/-! ## An output that is read back -/

theorem Node.level_of_mem {r : Rule} {body : List Node} (h : Node.rule r body ∈ ns) :
    (⟨true, body, r.after⟩ : Level) ∈ allLevels ns :=
  mem_allLevels.mpr ⟨_, h, by rw [levels]; exact List.mem_cons_self⟩

theorem Stylesheet.ReadsBack.wellDelimited {s : Stylesheet} (h : s.ReadsBack) :
    WellDelimited s where
  top := (readsAt_iff.mp (readsBack_iff.mp h)).1
  exports := by
    intro r body hfind
    have hlevel := Node.level_of_mem (List.mem_of_find?_eq_some hfind)
    have hreads := h.reads _ (List.mem_cons_of_mem _ hlevel)
    exact ⟨(readsAt_iff.mp hreads).1, fun d hd => hreads.keeps hd⟩
  references := fun l hl d hd _ => (h.reads l hl).keeps hd

/-! ## The export block -/

theorem Css.Ends.of_emptyBlock {ls : List Lexeme}
    (h : lexemes (Lexeme.join (ls ++ [.openBrace, .closeBrace])) =
      .ok (ls ++ [.openBrace, .closeBrace])) : Ends (some '{') ls :=
  fun x => (Lexed.of_lexemes h (by simp)).1.replace rfl x

theorem emptyExport_reads {before : Text} (h : before = [] ∨ before = ['\n']) :
    (⟨before, ":export".toList, [' '], ['\n']⟩ : Rule).HeadReads := by
  rcases h with rfl | rfl
  · refine ⟨⟨[], none, [⟨.colon, [':']⟩, ⟨.other, "export".toList⟩, ⟨.whitespace, [' ']⟩]⟩,
      ⟨by simp, by simp, ?_, ?_⟩, rfl, rfl, .of_emptyBlock rfl⟩
    · simp [Lexeme.InPrelude]
    · simp [Lexeme.StartsPrelude]
  · refine ⟨⟨[⟨.whitespace, ['\n']⟩], none,
      [⟨.colon, [':']⟩, ⟨.other, "export".toList⟩, ⟨.whitespace, [' ']⟩]⟩,
      ⟨?_, by simp, ?_, ?_⟩, rfl, rfl, .of_emptyBlock rfl⟩
    · simp [Lexeme.IsGap]
    · simp [Lexeme.InPrelude]
    · simp [Lexeme.StartsPrelude]

theorem readsAt_newline : ReadsAt (some '}') [] ['\n'] := by
  refine ⟨[], [⟨.whitespace, ['\n']⟩], .done (by simp [Lexeme.IsGap]), rfl, rfl, ?_⟩
  exact fun x => lexed_spaces (by simp) (by simp; decide) (by simp; decide)

theorem Text.isBlank_getLast_trimEnd (t : Text) :
    ∀ c ∈ t.trimEnd.getLast?, Text.isBlank c = false := by
  intro c hc
  rw [Text.trimEnd, List.getLast?_reverse] at hc
  have hnot := List.head?_dropWhile_not Text.isBlank t.reverse
  rw [hc] at hnot
  exact hnot

theorem Declaration.isBlank_getLast_prop {d : Declaration}
    (h : (Node.declaration d).ReadsBefore e after) (hv : d.value ≠ []) :
    ∀ c ∈ d.prop.getLast?, Text.isBlank c = false := by
  obtain ⟨s, -, -, hs, -⟩ := h.exists_statement
  obtain ⟨gap, prelude, semicolon, -, rfl⟩ := Statement.eq_simple_of_declaration hs
  rw [ofPrelude] at hv ⊢
  split at hv
  · exact absurd rfl hv
  · exact Text.isBlank_getLast_trimEnd _

/-! ## Names -/

theorem Animation.NameMap.mem_put {name value : Text} {p : Text × Text} {es : List (Text × Text)}
    (h : p ∈ (put name value es).2) : p = (name, value) ∨ p ∈ es := by
  induction es with
  | nil => exact .inl (List.mem_singleton.mp h)
  | cons e es ih =>
    rw [put] at h
    split_ifs at h
    · exact (List.mem_cons.mp h).imp_right (List.mem_cons_of_mem _)
    · rcases List.mem_cons.mp h with rfl | h
      · exact .inr List.mem_cons_self
      · exact (ih h).imp_right (List.mem_cons_of_mem _)

theorem Animation.NameMap.mem_ofList {pairs : List (Text × Text)} {p : Text × Text}
    (h : p ∈ (ofList pairs).entries) : p ∈ pairs := by
  induction pairs using List.reverseRecOn with
  | nil => cases h
  | append_singleton pairs q ih =>
    rw [ofList_concat] at h
    rcases mem_put h with rfl | h
    · simp
    · exact List.mem_append_left _ (ih h)

/-! ## What is published -/

theorem Node.mem_mapAllDeclarations {f : Declaration → Declaration} {n : Node} :
    n ∈ mapAllDeclarations f ns ↔ ∃ m ∈ ns, mapDeclarations f m = n := by
  induction ns with
  | nil => simp [mapAllDeclarations]
  | cons m ns ih => simp [mapAllDeclarations, ih, eq_comm]

theorem Node.eq_rule_of_mapDeclarations {f : Declaration → Declaration} {m : Node} {r : Rule}
    {body : List Node} (h : mapDeclarations f m = .rule r body) :
    ∃ inner, m = .rule r inner ∧ mapAllDeclarations f inner = body := by
  cases m with
  | rule r' inner =>
    obtain ⟨rfl, rfl⟩ := Node.rule.inj h
    exact ⟨inner, rfl, rfl⟩
  | _ => cases h

section

variable {names : NameMap} {u : Stylesheet}

/-- A block that is read back is so with declarations in it that are. -/
theorem Rule.HeadReads.reads_of_exports {s : Stylesheet} {r : Rule} {body : List Node}
    (h : r.HeadReads) (hw : WellDelimited s)
    (hfind : s.nodes.find? Icss.isExport = some (.rule r body))
    (hafter : ReadsAt (some '}') [] r.after)
    (hbody : ∀ n ∈ body, n.declaration? = none → n.ReadsBefore (some '}') r.after) :
    (Node.rule r body).ReadsBefore e after := by
  obtain ⟨hopen, hkeeps⟩ := hw.exports r body hfind
  refine reads_rule_iff.mpr ⟨h, readsAt_iff.mpr ⟨hopen, hafter, ?_⟩⟩
  intro n hn
  obtain ⟨d, rfl⟩ | hnone := n.exists_declaration_or
  · exact Level.keeps_iff.mp (hkeeps d (Node.mem_directDeclarations.mpr hn))
  · exact hbody n hn hnone

/-- Publishing leaves nodes that are read back, as long as what it puts together is
kept apart. -/
theorem readsBefore_merged (hu : ReadsAt none u.nodes u.after)
    (hw : WellDelimited (Icss.mergeExports names (renameReferences names u)).1) :
    ∀ n ∈ (Icss.mergeExports names (renameReferences names u)).1.nodes,
      n.ReadsBefore none (Icss.mergeExports names (renameReferences names u)).1.after := by
  intro n hn
  have hafter : (Icss.mergeExports names (renameReferences names u)).1.after = u.after :=
    Icss.after_mergeExports names _
  have hlevels : ∀ l ∈ n.levels, l.KeepsReferences := fun l hl =>
    hw.references l (List.mem_cons_of_mem _ (Node.mem_allLevels.mpr ⟨n, hn, hl⟩))
  have hold : n ∈ (renameReferences names u).nodes →
      n.ReadsBefore none (Icss.mergeExports names (renameReferences names u)).1.after := by
    intro hmem
    obtain ⟨m, hm, rfl⟩ := Node.mem_mapAllDeclarations.mp hmem
    refine Node.readsBefore_renamed names ?_ hlevels ?_
    · rw [hafter]
      exact hu.readsBefore m hm
    · intro d hd hanim
      rw [hd] at hn
      exact (hw.references _ List.mem_cons_self).readsBefore hn hanim
  rcases Icss.mem_mergeExports hn with hmem | ⟨r, body, rfl, hfind, hr⟩
  · exact hold hmem
  · rcases hr with hmem | ⟨rfl, before, hb, rfl⟩
    · obtain ⟨m, hm, heq⟩ := Node.mem_mapAllDeclarations.mp hmem
      obtain ⟨inner, rfl, rfl⟩ := Node.eq_rule_of_mapDeclarations heq
      obtain ⟨hhead, hinner⟩ := reads_rule_iff.mp (hu.readsBefore _ hm)
      refine hhead.reads_of_exports hw hfind hinner.nil ?_
      intro k hk hnone
      obtain ⟨k, hk', rfl⟩ := Node.mem_mapAllDeclarations.mp (Icss.mem_publishAll hk hnone)
      refine Node.readsBefore_renamed names (hinner.readsBefore k hk') ?_ ?_
      · intro l hl
        refine hlevels l ?_
        rw [Node.levels]
        exact List.mem_cons_of_mem _ (Node.mem_allLevels.mpr ⟨_, hk, hl⟩)
      · intro d hd
        rw [hd] at hnone
        cases hnone
    · refine (emptyExport_reads hb).reads_of_exports hw hfind readsAt_newline ?_
      intro k hk hnone
      exact absurd (Icss.mem_publishAll hk hnone) List.not_mem_nil

end

/-! ## Names that are published -/

theorem WellDelimited.isBlank_getLast {names : NameMap} {t : Stylesheet}
    (hw : WellDelimited (Icss.mergeExports names t).1) {p : Text × Text} (hp : p ∈ names.entries)
    (hv : p.2 ≠ []) : ∀ c ∈ p.1.getLast?, Text.isBlank c = false := by
  obtain ⟨w, hvalue, hsame⟩ := Icss.valueOf?_mergeExports names t p hp
  have hne : w ≠ [] := by
    rintro rfl
    rcases hsame with h | h
    · exact hv h.symm
    · exact hv h.symm
  rw [Icss.exported] at hvalue
  cases hfind : (Icss.mergeExports names t).1.nodes.find? Icss.isExport with
  | none =>
    rw [hfind] at hvalue
    cases hvalue
  | some n =>
    obtain ⟨r, body, rfl⟩ := Icss.exists_rule_of_isExport (List.find?_some hfind)
    rw [hfind] at hvalue
    obtain ⟨d, hd, rfl⟩ := Option.map_eq_some_iff.mp hvalue
    have hprop : d.prop = p.1 := by simpa using List.find?_some hd
    have hkeeps := (hw.exports r body hfind).2 d (List.mem_of_find?_eq_some hd)
    rw [← hprop]
    exact Declaration.isBlank_getLast_prop (Level.keeps_iff.mp hkeeps) hne

section

variable {σ : Type} (file : SourceFile) (s : σ) {sheet : Stylesheet} (report : Report)

/-- The tree of an output is read back just if its parts are kept apart. -/
theorem scope_readsBack_iff (h : Stylesheet.parse file.css = .ok sheet) :
    (scope Generator.default file sheet report s).sheet.ReadsBack ↔
      WellDelimited (scope Generator.default file sheet report s).sheet := by
  constructor
  · exact fun hreads => hreads.wellDelimited
  · intro hw
    have hends : ∀ p ∈ (collect Generator.default file sheet.nodes s).pairs,
        ∃ c ∈ p.1.getLast?, Text.isBlank c = false := by
      intro p hp
      obtain ⟨hvalid, -⟩ := classify_of_mem_pairs file hp
      have hkey : p.1 ∈ (collect Generator.default file sheet.nodes s).names.keys := by
        rw [Collection.names, NameMap.keys_ofList, List.mem_eraseDups]
        exact List.mem_map_of_mem hp
      obtain ⟨q, hq, hpq⟩ := List.mem_map.mp hkey
      obtain ⟨-, hdefault⟩ := classify_of_mem_pairs file (NameMap.mem_ofList hq)
      have hvalue : q.2 ≠ [] := by
        rw [hdefault]
        simp [defaultName]
      have hlast := WellDelimited.isBlank_getLast hw hq hvalue
      rw [hpq] at hlast
      have hne := (unmarked_of_isCustomIdent (isCustomIdent_of_classify hvalid)).2
      exact ⟨_, List.getLast?_eq_some_getLast hne, hlast _ (List.getLast?_eq_some_getLast hne)⟩
    have hfound := (ReadsAt.of_parse h).collect file s hends
    refine Stylesheet.readsBack_iff.mpr (readsAt_iff.mpr ⟨hw.top, ?_, ?_⟩)
    · have hafter : (scope Generator.default file sheet report s).sheet.after = sheet.after :=
        Icss.after_mergeExports _ _
      rw [hafter]
      exact hfound.nil
    · exact readsBefore_merged (u := ⟨_, sheet.after⟩) hfound hw

/-- The output of a run is read back as the tree that it was printed from just if the
parts of that tree are kept apart. The first export block of the tree declares every
name in any case. -/
theorem process_reads_back_iff {out : Output} (h : Stylesheet.parse file.css = .ok sheet)
    (hout : process Generator.default file s = .ok out) :
    (Stylesheet.parse out.css = .ok (scope Generator.default file sheet .empty s).sheet ↔
        WellDelimited (scope Generator.default file sheet .empty s).sheet) ∧
      ∀ e ∈ out.exports.entries, ∃ w,
        Node.valueOf? (Icss.exported (scope Generator.default file sheet .empty s).sheet.nodes) e.1 =
            some w ∧ (w = e.2 ∨ w.trim = e.2) := by
  rw [process, h] at hout
  obtain rfl := Except.ok.inj hout
  refine ⟨scope_readsBack_iff file s .empty h, ?_⟩
  exact Icss.valueOf?_mergeExports _ _

/-- An import that only the end of the input ends takes in the export block that is put
behind it. -/
theorem open_import_takes_export :
    ∃ (file : SourceFile) (sheet : Stylesheet) (out : Output),
      file.css = "@keyframes a \x7b\x7d\n@import 'x.css'".toList ∧
      Stylesheet.parse file.css = .ok sheet ∧ process .default file () = .ok out ∧
      Stylesheet.parse out.css ≠ .ok (scope .default file sheet .empty ()).sheet := by
  let file : SourceFile := ⟨"a.css".toList, "@keyframes a \x7b\x7d\n@import 'x.css'".toList⟩
  have hopen : (match Stylesheet.parse file.css with
      | .ok sheet => decide (OpenLast (scope .default file sheet .empty ()).sheet.nodes)
      | .error _ => true) = false := by decide +kernel
  cases h : Stylesheet.parse file.css with
  | error e =>
    rw [h] at hopen
    cases hopen
  | ok sheet =>
    rw [h] at hopen
    have hout : process .default file () = .ok ⟨(scope .default file sheet .empty ()).sheet.render,
        (scope .default file sheet .empty ()).names,
        (scope .default file sheet .empty ()).report⟩ := by
      rw [process, h]
    refine ⟨file, sheet, _, rfl, h, hout, fun hreads => ?_⟩
    have hw := (process_reads_back_iff file () h hout).1.mp hreads
    exact of_decide_eq_false hopen hw.top

end

end AnimationScope
