import AnimationScope.Proofs.Changes
import AnimationScope.Proofs.Delimited
import AnimationScope.Proofs.Words

/-!
# Declared names and references to them

A sheet declares a name in a keyframes rule and refers to it in a declaration. Both are
given the same scoped name unless the name is misread in one of the two places: blanks at
its ends are lost in the rule, a newline behind a backslash divides it in the value, and a
short hexadecimal escape at its end takes the space behind it in the value.
-/

namespace AnimationScope

open Css Animation Naming

/-! ## Reading the sheet -/

/-- A sheet that declares a name in a keyframes rule and refers to it in a declaration. -/
def declareAndRefer (keyword prop name : Text) : Text :=
  '@' :: keyword ++ ' ' :: name ++ " \x7b\x7d\n.a \x7b ".toList ++ prop ++ ": ".toList ++ name ++
    " \x7d".toList

def declaringRule (keyword name : Text) : AtRule :=
  .ofPrelude [] ('@' :: keyword) (' ' :: name ++ [' '])

def referringDeclaration (prop : Text) (value : List Lexeme) : Declaration :=
  ⟨[' '], prop, ':' :: Text.leading (Lexeme.join value), Text.trimStart (Lexeme.join value), false⟩

/-- The sheet as it is read. The spaces behind the value belong to the block. -/
def sheetOf (keyword prop name : Text) (value after : List Lexeme) : Stylesheet :=
  ⟨[.atBlock (declaringRule keyword name) [],
    .rule ⟨['\n'], ".a".toList, [' '], Lexeme.join after⟩
      [.declaration (referringDeclaration prop value)]], []⟩

section

variable {keyword prop t : Text} {value after : List Lexeme}

theorem declaringRule_reads (hk : NamesKeyframes keyword) (ht : Unmarked t) :
    (declaringRule keyword t).HeadReads (some '{') := by
  refine AtRule.headReads_of_unmarked (by simp) (lexed_nil []) hk
    (by simp [IsEnd]) (unmarked_space.append (ht.append unmarked_space)) ?_ rfl
  exact nameLength_of_blank (c := ' ') (by decide) (by decide)

theorem classRule_reads (after : Text) :
    (⟨['\n'], ".a".toList, [' '], after⟩ : Rule).HeadReads := by
  refine ⟨⟨[⟨.whitespace, ['\n']⟩], none,
    [⟨.other, ['.']⟩, ⟨.other, ['a']⟩, ⟨.whitespace, [' ']⟩]⟩, ⟨?_, by simp, ?_, ?_⟩, rfl, rfl,
    .of_emptyBlock rfl⟩
  · simp [Lexeme.IsGap]
  · simp [Lexeme.InPrelude]
  · simp [Lexeme.StartsPrelude]

/-- The spaces behind the last lexeme of the value are no part of the declaration. -/
structure DividesValue (name : Text) (value after : List Lexeme) : Prop where
  join : Lexeme.join (value ++ after) = ' ' :: name ++ [' ']
  lexed : Ends (some '}') (value ++ after)
  inPrelude : ∀ l ∈ value, l.InPrelude
  last : ∀ l ∈ value.getLast?, l.kind ≠ .whitespace
  spaces : ∀ l ∈ after, l.kind = .whitespace

theorem referringDeclaration_reads (hprop : ∀ y, Lexed [⟨.other, prop⟩] (':' :: y))
    (htrim : Trimmed prop) (hv : DividesValue t value after) :
    ReadsAt (some '}') [.declaration (referringDeclaration prop value)] (Lexeme.join after) := by
  refine ⟨[.simple ⟨[⟨.whitespace, [' ']⟩], none,
    ⟨.other, prop⟩ :: ⟨.colon, [':']⟩ :: value⟩ none], after,
    .openDeclaration ⟨by simp [Lexeme.IsGap], by simp, ?_, ?_⟩ rfl ?_ hv.spaces, ?_, rfl, ?_⟩
  · simpa [Lexeme.InPrelude] using hv.inPrelude
  · simp [Lexeme.StartsPrelude]
  · cases hl : value.getLast? with
    | none =>
      obtain rfl := List.getLast?_eq_none_iff.mp hl
      exact ⟨⟨.colon, [':']⟩, rfl, by simp⟩
    | some l => exact ⟨l, by simp [List.getLast?_cons, hl], hv.last l hl⟩
  · simp [Node.ofStatements, Node.ofStatement, Declaration.ofPrelude, referringDeclaration,
      htrim.trimEnd_eq, htrim.trailing_eq]
  · intro x
    have hlexemes : Statement.lexemesOf [.simple ⟨[⟨.whitespace, [' ']⟩], none,
        ⟨.other, prop⟩ :: ⟨.colon, [':']⟩ :: value⟩ none] ++ after =
        ⟨.whitespace, [' ']⟩ :: ⟨.other, prop⟩ :: ⟨.colon, [':']⟩ :: (value ++ after) := by
      simp [Statement.lexemesOf, Statement.lexemes]
    have hcolon : Lexed (⟨.colon, [':']⟩ :: (value ++ after)) ('}' :: x) :=
      lexed_cons_iff.mpr ⟨lexed_mark (k := .colon) rfl rfl _, hv.lexed x⟩
    rw [hlexemes]
    refine lexed_cons_iff.mpr ⟨lexed_space ?_, lexed_cons_iff.mpr ⟨hprop _, hcolon⟩⟩
    intro y hy
    refine htrim.isSpace_head (Lexeme.join (⟨.colon, [':']⟩ :: (value ++ after)) ++ '}' :: x) y ?_
    simpa using hy

theorem parse_declareAndRefer (hk : NamesKeyframes keyword) (ht : Unmarked t)
    (hprop : ∀ y, Lexed [⟨.other, prop⟩] (':' :: y)) (htrim : Trimmed prop)
    (hv : DividesValue t value after) :
    Stylesheet.parse (declareAndRefer keyword prop t) =
      .ok (sheetOf keyword prop t value after) := by
  have hback : (sheetOf keyword prop t value after).ReadsBack := by
    rw [Stylesheet.readsBack_iff]
    refine (readsAt_cons_iff rfl).mpr ⟨?_, (readsAt_cons_iff rfl).mpr ⟨?_, readsAt_nil none⟩⟩
    · exact reads_atBlock_iff.mpr ⟨rfl, declaringRule_reads hk ht, readsAt_nil _⟩
    · exact reads_rule_iff.mpr ⟨classRule_reads _, referringDeclaration_reads hprop htrim hv⟩
  have hrule : (declaringRule keyword t).head = '@' :: (keyword ++ (' ' :: t ++ [' '])) := by
    simp only [AtRule.head, declaringRule, AtRule.ofPrelude, List.append_assoc,
      Text.trimEnd_append_trailing, Text.leading_append_trimStart]
    rfl
  have hdeclaration : ∀ y, (referringDeclaration prop value).render ++ (Lexeme.join after ++ y) =
      ' ' :: (prop ++ ':' :: (' ' :: t ++ ' ' :: y)) := by
    intro y
    have hjoin := congrArg (· ++ y) hv.join
    simp only [Lexeme.join_append, List.append_assoc] at hjoin
    simp [Declaration.render, referringDeclaration, hjoin]
  have hrender : (sheetOf keyword prop t value after).render = declareAndRefer keyword prop t := by
    have hbody : (declaringRule keyword t).after = [] := rfl
    simp [Stylesheet.render, sheetOf, Node.renderAll, Node.render, hrule, hbody, hdeclaration,
      declareAndRefer]
  rwa [Stylesheet.ReadsBack, hrender] at hback

end

/-! ## The value of the declaration -/

section

variable {t : Text} {value after : List Lexeme}

theorem exists_dividesValue (ht : Unmarked t) : ∃ value after, DividesValue t value after := by
  obtain ⟨ls, hls, hjoin, hkinds⟩ :=
    (unmarked_space.append (ht.append unmarked_space)).exists_lexed (atMark_closeBrace [])
  have hsplit := List.rdropWhile_append_rtakeWhile (p := Statement.isWhitespace) (l := ls)
  refine ⟨ls.rdropWhile Statement.isWhitespace, ls.rtakeWhile Statement.isWhitespace, ?_, ?_, ?_,
    ?_, Statement.trailing_whitespace⟩
  · rw [hsplit, hjoin]
    rfl
  · rw [hsplit]
    exact fun x => hls.replace rfl x
  · intro l hl
    have hmem := (List.rdropWhile_prefix Statement.isWhitespace ls).subset hl
    rcases hkinds l hmem with hk | hk <;> simp [Lexeme.InPrelude, hk]
  · intro l hl hk
    have hne : ls.rdropWhile Statement.isWhitespace ≠ [] := by
      intro hnil
      rw [hnil] at hl
      cases hl
    have hnot := List.rdropWhile_last_not Statement.isWhitespace ls hne
    rw [List.getLast?_eq_some_getLast hne, Option.mem_some_iff] at hl
    rw [hl] at hnot
    exact hnot (by rw [Statement.isWhitespace, hk]; rfl)

theorem isSpace_head_name (h : isCustomIdent t = true) (y : Text) :
    ∀ d ∈ (t ++ y).head?, isSpace d = false := by
  obtain ⟨c, r, rfl⟩ := List.exists_cons_of_ne_nil (unmarked_of_isCustomIdent h).2
  intro d hd
  obtain rfl : c = d := by simpa using hd
  exact isSpace_of_isIdentTail (isIdentTail_of_isCustomIdent h)

/-- A name that does not go on is the value, and the space behind it is no part of it. -/
theorem dividesValue_name (h : isCustomIdent t = true) (hnew : escapesNewline t = false)
    (hhex : endsInHex t = false) :
    DividesValue t [⟨.whitespace, [' ']⟩, ⟨.other, t⟩] [⟨.whitespace, [' ']⟩] where
  join := by simp
  lexed := by
    intro x
    have hname : Lexed [⟨.other, t⟩] ([' '] ++ '}' :: x) :=
      lexed_name h hnew unmarked_space (atMark_closeBrace x) rfl (by simp [hhex]; decide)
    have hspace : Lexed [⟨.whitespace, [' ']⟩] ('}' :: x) := lexed_space (by simp; decide)
    have htail : Lexed [⟨.other, t⟩, ⟨.whitespace, [' ']⟩] ('}' :: x) :=
      lexed_append_iff.mpr ⟨by simpa using hname, hspace⟩
    have hhead : Lexed [⟨.whitespace, [' ']⟩]
        (Lexeme.join [⟨.other, t⟩, ⟨.whitespace, [' ']⟩] ++ '}' :: x) :=
      lexed_space (by simpa using isSpace_head_name h (' ' :: '}' :: x))
    exact lexed_cons_iff.mpr ⟨hhead, htail⟩
  inPrelude := by simp [Lexeme.InPrelude]
  last := by simp
  spaces := by simp

/-- A short hexadecimal escape takes the space into the value. -/
theorem dividesValue_space (h : isCustomIdent t = true) (hnew : escapesNewline t = false)
    (hhex : endsInHex t = true) :
    DividesValue t [⟨.whitespace, [' ']⟩, ⟨.other, t ++ [' ']⟩] [] where
  join := by simp
  lexed := by
    intro x
    have hname : Lexed [⟨.other, t ++ [' ']⟩] ('}' :: x) :=
      lexed_name_space h hnew hhex (atMark_closeBrace x)
    have hhead : Lexed [⟨.whitespace, [' ']⟩] (Lexeme.join [⟨.other, t ++ [' ']⟩] ++ '}' :: x) :=
      lexed_space (by simpa using isSpace_head_name h (' ' :: '}' :: x))
    exact lexed_cons_iff.mpr ⟨hhead, hname⟩
  inPrelude := by simp [Lexeme.InPrelude]
  last := by simp
  spaces := by simp

end

/-! ## Names that are misread -/

/-- Names that are not the same as a declared name and as a word of a value. -/
def Misread (t : Text) : Prop := t.trim ≠ t ∨ escapesNewline t = true ∨ endsInHex t = true

instance : DecidablePred Misread := fun t =>
  inferInstanceAs (Decidable (t.trim ≠ t ∨ escapesNewline t = true ∨ endsInHex t = true))

variable {keyword prop t : Text} {value after : List Lexeme}

theorem Text.trim_spaces (t : Text) : trim (' ' :: t ++ [' ']) = trim t := by
  have hblank : isBlank ' ' = true := by decide
  have hend : ∀ u : Text, trimEnd (u ++ [' ']) = trimEnd u := by
    intro u
    simp [trimEnd, hblank]
  have hstart : trimStart (' ' :: t ++ [' ']) = trimStart (t ++ [' ']) := by
    simp [trimStart, hblank]
  rw [trim, hstart, trim, trimStart, List.dropWhile_append, ← trimStart]
  split_ifs with hnil
  · rw [List.isEmpty_iff] at hnil
    simp [hnil, trimEnd, hblank]
  · exact hend _

theorem params_declaringRule (keyword t : Text) : (declaringRule keyword t).params = t.trim :=
  Text.trim_spaces t

theorem isBlank_head_of_trim (h : t.trim = t) : ∀ c ∈ t.head?, Text.isBlank c = false := by
  intro c hc
  obtain ⟨r, rfl⟩ := List.head?_eq_some_iff.mp hc
  rw [Bool.eq_false_iff]
  intro hb
  have hr : Text.trim (c :: r) = Text.trim r := by
    rw [Text.trim, Text.trimStart, List.dropWhile_cons_of_pos hb]
    rfl
  have hlen := congrArg List.length (hr.symm.trans h)
  have hle := (Text.trim_sublist r).length_le
  rw [List.length_cons] at hlen
  omega

/-- The value is the name, perhaps with the space, or it breaks off before the end. -/
theorem DividesValue.prefix_value (hv : DividesValue t value after) (prop : Text) (hne : t ≠ [])
    (hhead : ∀ c ∈ t.head?, Text.isBlank c = false) :
    (referringDeclaration prop value).value <+: t ++ [' '] := by
  have hjoin := hv.join
  rw [Lexeme.join_append] at hjoin
  show Text.trimStart (Lexeme.join value) <+: t ++ [' ']
  cases hl : Lexeme.join value with
  | nil => exact List.nil_prefix
  | cons c v =>
    rw [hl, List.cons_append, List.cons_append, List.cons.injEq] at hjoin
    obtain ⟨rfl, hjoin⟩ := hjoin
    have hstart : ∀ d ∈ v.head?, Text.isBlank d = false := by
      intro d hd
      apply hhead
      obtain ⟨w, rfl⟩ := List.head?_eq_some_iff.mp hd
      obtain ⟨a, r, rfl⟩ := List.exists_cons_of_ne_nil hne
      exact congrArg some (List.cons.inj hjoin).1.symm
    have htrim : Text.trimStart (' ' :: v) = v :=
      Text.trimStart_append (b := [' ']) (by simp; decide) hstart
    rw [htrim, ← hjoin]
    exact List.prefix_append _ _

/-- What becomes of the value when the sheet is read. -/
theorem exists_value (prop : Text) (h : isCustomIdent t = true) :
    ∃ value after, DividesValue t value after ∧
      (¬ Misread t → (referringDeclaration prop value).value = t) ∧
      (Misread t → t.trim = t → t ∉ wordsOf (referringDeclaration prop value).value) := by
  obtain ⟨hu, hne⟩ := unmarked_of_isCustomIdent h
  have hstart : ∀ {u}, t.trim = t → Text.trimStart ([' '] ++ (t ++ u)) = t ++ u := by
    intro u htrim
    apply Text.trimStart_append (by simp; decide)
    intro c hc
    rw [List.head?_append_of_ne_nil _ hne] at hc
    exact isBlank_head_of_trim htrim c hc
  cases hnew : escapesNewline t with
  | true =>
    obtain ⟨value, after, hv⟩ := exists_dividesValue hu
    refine ⟨value, after, hv, fun hm => absurd (.inr (.inl hnew)) hm, fun _ htrim => ?_⟩
    exact not_mem_wordsOf h hnew (hv.prefix_value prop hne (isBlank_head_of_trim htrim))
  | false =>
    cases hhex : endsInHex t with
    | false =>
      refine ⟨_, _, dividesValue_name h hnew hhex, fun hm => ?_, fun hm htrim => ?_⟩
      · have htrim : t.trim = t := by
          by_contra htrim
          exact hm (.inl htrim)
        simpa [referringDeclaration] using hstart (u := []) htrim
      · simp [Misread, htrim, hnew, hhex] at hm
    | true =>
      refine ⟨_, _, dividesValue_space h hnew hhex, fun hm => absurd (.inr (.inr hhex)) hm,
        fun _ htrim => ?_⟩
      have hvalue : (referringDeclaration prop
          [⟨.whitespace, [' ']⟩, ⟨.other, t ++ [' ']⟩]).value = t ++ [' '] := by
        simpa [referringDeclaration] using hstart (u := [' ']) htrim
      rw [hvalue, wordsOf_of_lexeme (lexemes_name_space h hnew hhex)]
      simp

/-! ## Scoping the sheet -/

namespace Icss

variable {ns : List Node}

theorem exists_nodes_mergeExports (ns : List Node) (hexport : ns.any isExport = false)
    (himport : ns.any isImport = false) (names : NameMap) (after : Text) :
    ∃ rest, (mergeExports names ⟨ns, after⟩).1.nodes = ns ++ rest := by
  cases hne : names.isEmpty with
  | true => exact ⟨[], by rw [mergeExports, hne]; exact (List.append_nil ns).symm⟩
  | false =>
    obtain ⟨front, r, behind, hplace, heq⟩ := exists_mergeExports hne ⟨ns, after⟩
    rw [heq, hplace.front_eq hexport himport]
    exact ⟨_, rfl⟩

end Icss

section

variable {σ : Type} (g : Generator σ) (file : SourceFile) (s : σ)

variable (keyword prop t : Text) (value after : List Lexeme)

theorem names_scope_sheetOf :
    (scope g file (sheetOf keyword prop t value after) .empty s).names =
      NameMap.ofList
        (((declaringRule keyword t).collect g file s).2.1.bind Finding.pair?).toList := by
  show NameMap.ofList (collect g file (sheetOf keyword prop t value after).nodes s).pairs = _
  rw [sheetOf, collect_pairs, collect_pairs]
  show NameMap.ofList (_ ++ ([] ++ [])) = _
  rw [List.append_nil, List.append_nil]
  rfl

theorem nodes_scope_sheetOf :
    ∃ body r rest, (scope g file (sheetOf keyword prop t value after) .empty s).sheet.nodes =
      .atBlock ((declaringRule keyword t).collect g file s).1 body :: .rule r
        [.declaration (renameDeclaration
          (scope g file (sheetOf keyword prop t value after) .empty s).names
          (referringDeclaration prop value))] :: rest := by
  obtain ⟨rest, hrest⟩ := Icss.exists_nodes_mergeExports [
    .atBlock ((declaringRule keyword t).collect g file s).1 [],
    .rule ⟨['\n'], ".a".toList, [' '], Lexeme.join after⟩ [.declaration (renameDeclaration
      (scope g file (sheetOf keyword prop t value after) .empty s).names
      (referringDeclaration prop value))]] rfl rfl
    (scope g file (sheetOf keyword prop t value after) .empty s).names []
  exact ⟨_, _, rest, hrest⟩

theorem report_scope_sheetOf {name : Text} (h : (declaringRule keyword t).Declares name) :
    (scope g file (sheetOf keyword prop t value after) .empty s).report =
      ⟨[], [.about name (g.generate name file.path file.css s).1]⟩ := by
  have hfindings : (collect g file (sheetOf keyword prop t value after).nodes s).findings =
      [.renamed name (g.generate name file.path file.css s).1] := by
    show ((declaringRule keyword t).collect g file s).2.1.toList ++ ([] ++ []) = _
    rw [AtRule.collect_of_declares g file h]
    rfl
  have hcollides : ∀ names e,
      collidesIn (sheetOf keyword prop t value after).nodes names e = false := fun _ _ => rfl
  have hwarnings := warnings_scope g file (sheetOf keyword prop t value after) .empty s
  rw [hfindings, List.filter_eq_nil_iff.mpr (by simp [hcollides])] at hwarnings
  have hevents : (scope g file (sheetOf keyword prop t value after) .empty s).report.events =
      [.about name (g.generate name file.path file.css s).1] := by
    show ([] ++ ((collect g file (sheetOf keyword prop t value after).nodes s).findings.filterMap
      Finding.pair?).map fun p => Event.about p.1 p.2) ++ [] = _
    rw [hfindings]
    rfl
  exact congr (congrArg Report.mk hwarnings) hevents

end

/-! ## Vendor prefixes -/

variable {p q : Text}

theorem namesKeyframes_prefixed (hp : p ∈ [] :: vendorPrefixes) :
    NamesKeyframes (p ++ "keyframes".toList) := by
  have hlower : ∀ p ∈ [] :: vendorPrefixes,
      (p ++ "keyframes".toList).map Char.toLower = p ++ "keyframes".toList := by decide
  exact ⟨p, hp, hlower p hp⟩

theorem namesAnimation_prefixed (hq : q ∈ [] :: vendorPrefixes) :
    NamesAnimation (q ++ "animation-name".toList) := by
  have hlower : ∀ q ∈ [] :: vendorPrefixes,
      (q ++ "animation-name".toList).map Char.toLower = q ++ "animation-name".toList := by decide
  exact ⟨q, hq, _, by simp, hlower q hq⟩

theorem lexed_property (hq : q ∈ [] :: vendorPrefixes) :
    Trimmed (q ++ "animation-name".toList) ∧
      ∀ y, Lexed [⟨.other, q ++ "animation-name".toList⟩] (':' :: y) := by
  simp only [vendorPrefixes, List.mem_cons, List.not_mem_nil, or_false] at hq
  rcases hq with rfl | rfl | rfl | rfl | rfl <;>
    exact ⟨⟨⟨_, rfl, by decide⟩, ⟨_, rfl, by decide⟩⟩, fun y =>
      (@Lexed.of_lexemes _ [⟨.colon, [':']⟩] rfl (by simp)).1.replace rfl y⟩

/-! ## Agreement -/

/-- The name is exported and announced with its scoped name, there are no warnings, and both
the rule and the declaration have the scoped name. -/
structure Agrees (name answer : Text) (tree : Stylesheet) (out : Output) : Prop where
  exports : out.exports.entries = [(name, answer)]
  report : out.report = ⟨[], [.about name answer]⟩
  nodes : ∃ a body r d rest, tree.nodes = .atBlock a body :: .rule r [.declaration d] :: rest ∧
    a.params = answer ∧ d.value = answer

theorem declares_of_not_misread (hk : NamesKeyframes keyword) (ht : classify t = .valid)
    (hm : ¬ Misread t) : (declaringRule keyword t).Declares t := by
  obtain ⟨htrim, hnew, -⟩ : t.trim = t ∧ escapesNewline t = false ∧ endsInHex t = false := by
    simpa [Misread] using hm
  have hname := declaredName?_name (isCustomIdent_of_classify ht) hnew htrim
  exact ⟨hk, by rw [params_declaringRule, htrim, hname], ht⟩

theorem trim_of_declares (h : (declaringRule keyword t).Declares t) : t.trim = t := by
  have hlen := length_le_of_declaredName? h.declared
  rw [params_declaringRule] at hlen
  exact (Text.trim_sublist t).eq_of_length_le hlen

section

variable {σ : Type} (g : Generator σ) (file : SourceFile) (s : σ)

theorem declares_of_keys
    (h : (scope g file (sheetOf keyword prop t value after) .empty s).names.keys = [t]) :
    (declaringRule keyword t).Declares t := by
  rw [names_scope_sheetOf] at h
  rcases (declaringRule keyword t).collect_cases g file s with ⟨-, -, hnone⟩ |
    ⟨name, hdeclares, -, hsome⟩
  · rw [hnone] at h
    cases h
  · rw [hsome] at h
    obtain rfl : name = t := (List.cons.inj h).1
    exact hdeclares

theorem agrees_of_not_misread (hk : NamesKeyframes keyword) (hprop : NamesAnimation prop)
    (ht : classify t = .valid) (hm : ¬ Misread t)
    (hvalue : (referringDeclaration prop value).value = t) :
    let outcome := scope g file (sheetOf keyword prop t value after) .empty s
    Agrees t (g.generate t file.path file.css s).1 outcome.sheet
      ⟨outcome.sheet.render, outcome.names, outcome.report⟩ := by
  intro outcome
  have hdeclares := declares_of_not_misread hk ht hm
  have hnew : escapesNewline t = false := Bool.eq_false_iff.mpr fun hnew => hm (.inr (.inl hnew))
  have hnames : outcome.names = NameMap.ofList [(t, (g.generate t file.path file.css s).1)] := by
    rw [names_scope_sheetOf, AtRule.collect_of_declares g file hdeclares]
    rfl
  have hget : outcome.names.get? t = some (g.generate t file.path file.css s).1 := by
    rw [hnames]
    exact (NameMap.get?_ofList _ _).trans (by simp)
  have hrename : renameValue? outcome.names (referringDeclaration prop value).value =
      some (g.generate t file.path file.css s).1 := by
    rw [hvalue]
    exact renameValue?_of_lexeme (lexemes_name (isCustomIdent_of_classify ht) hnew) hget
  have hrenamed : renameDeclaration outcome.names (referringDeclaration prop value) =
      { referringDeclaration prop value with value := (g.generate t file.path file.css s).1 } := by
    rw [renameDeclaration_of_namesAnimation hprop, hrename]
    rfl
  obtain ⟨body, r, rest, hnodes⟩ := nodes_scope_sheetOf g file s keyword prop t value after
  rw [AtRule.collect_of_declares g file hdeclares, hrenamed] at hnodes
  exact
    { exports := congrArg NameMap.entries hnames
      report := report_scope_sheetOf g file s keyword prop t value after hdeclares
      nodes := ⟨_, _, _, _, _, hnodes, rfl, rfl⟩ }

theorem not_agrees_of_misread (hne : t ≠ []) (hv : DividesValue t value after)
    (hwords : t.trim = t → t ∉ wordsOf (referringDeclaration prop value).value) {answer : Text}
    (hlong : t.length + 1 < answer.length) :
    let outcome := scope g file (sheetOf keyword prop t value after) .empty s
    ¬ Agrees t answer outcome.sheet ⟨outcome.sheet.render, outcome.names, outcome.report⟩ := by
  rintro outcome ⟨hexports, -, a, body', r', d, rest', hnodes', -, hd⟩
  have hkeys : outcome.names.keys = [t] := congrArg (List.map Prod.fst) hexports
  have htrim := trim_of_declares (declares_of_keys g file s hkeys)
  have hrefers : ¬ Refers outcome.names (referringDeclaration prop value) := by
    rintro ⟨-, w, hw, hkey⟩
    rw [hkeys, List.mem_singleton] at hkey
    exact hwords htrim (hkey ▸ hw)
  obtain ⟨body, r, rest, hnodes⟩ := nodes_scope_sheetOf g file s keyword prop t value after
  rw [renameDeclaration_of_not_refers hrefers] at hnodes
  have hvalue : (referringDeclaration prop value).value = answer := by
    rw [hnodes] at hnodes'
    simp only [List.cons.injEq, Node.rule.injEq, Node.declaration.injEq] at hnodes'
    rw [hnodes'.2.1.2.1, hd]
  have hle := (hv.prefix_value prop hne (isBlank_head_of_trim htrim)).length_le
  rw [hvalue, List.length_append, List.length_singleton] at hle
  exact absurd hle (Nat.not_le_of_lt hlong)

end

/-- A usable name is given the same scoped name where it is declared and where it is referred
to, unless it is misread. If it is misread, the two do not agree on any scoped name that is
longer than the value. -/
theorem reference_agrees {σ : Type} (g : Generator σ) (s : σ) (file : SourceFile)
    (hp : p ∈ [] :: vendorPrefixes) (hq : q ∈ [] :: vendorPrefixes) (ht : classify t = .valid)
    (hcss : file.css = declareAndRefer (p ++ "keyframes".toList) (q ++ "animation-name".toList) t) :
    ∃ sheet out, Stylesheet.parse file.css = .ok sheet ∧ process g file s = .ok out ∧
      (¬ Misread t → Agrees t (g.generate t file.path file.css s).1
        (scope g file sheet .empty s).sheet out) ∧
      (Misread t → t.length + 1 < (g.generate t file.path file.css s).1.length →
        ¬ Agrees t (g.generate t file.path file.css s).1
          (scope g file sheet .empty s).sheet out) := by
  have hident := isCustomIdent_of_classify ht
  obtain ⟨hu, hne⟩ := unmarked_of_isCustomIdent hident
  have hk := namesKeyframes_prefixed hp
  obtain ⟨htrimmed, hlexed⟩ := lexed_property hq
  obtain ⟨value, after, hv, hplain, hmisread⟩ := exists_value (q ++ "animation-name".toList) hident
  have hparse := parse_declareAndRefer hk hu hlexed htrimmed hv
  rw [← hcss] at hparse
  refine ⟨_, _, hparse, by rw [process, hparse], fun hm => ?_, fun hm hlong => ?_⟩
  · exact agrees_of_not_misread g file s hk (namesAnimation_prefixed hq) ht hm (hplain hm)
  · exact not_agrees_of_misread g file s hne hv (hmisread hm) hlong

/-- A hexadecimal escape at the end of the name, and a name that is read well behind prefixes. -/
theorem hex_escape_is_misread :
    (∃ file sheet out,
      file.css = "@keyframes a\\4 \x7b\x7d\n.a \x7b animation-name: a\\4 \x7d".toList ∧
      classify "a\\4".toList = .valid ∧ Stylesheet.parse file.css = .ok sheet ∧
      process .default file () = .ok out ∧
      ¬ Agrees "a\\4".toList (defaultName "a\\4".toList file.path)
        (scope .default file sheet .empty ()).sheet out) ∧
    ∃ file sheet out,
      file.css =
        "@-webkit-keyframes a \x7b\x7d\n.a \x7b -moz-animation-name: a \x7d".toList ∧
      classify "a".toList = .valid ∧ Stylesheet.parse file.css = .ok sheet ∧
      process .default file () = .ok out ∧
      Agrees "a".toList (defaultName "a".toList file.path)
        (scope .default file sheet .empty ()).sheet out := by
  constructor
  · let file : SourceFile := ⟨"a.css".toList,
      "@keyframes a\\4 \x7b\x7d\n.a \x7b animation-name: a\\4 \x7d".toList⟩
    have hvalid : classify "a\\4".toList = .valid := by decide
    obtain ⟨sheet, out, hparse, hout, -, hnot⟩ := reference_agrees (p := []) (q := [])
      .default () file (by simp) (by simp) hvalid rfl
    exact ⟨file, sheet, out, rfl, hvalid, hparse, hout, hnot (by decide) (by decide)⟩
  · let file : SourceFile := ⟨"a.css".toList,
      "@-webkit-keyframes a \x7b\x7d\n.a \x7b -moz-animation-name: a \x7d".toList⟩
    have hvalid : classify "a".toList = .valid := by decide
    obtain ⟨sheet, out, hparse, hout, hagrees, -⟩ := reference_agrees (p := "-webkit-".toList)
      (q := "-moz-".toList) .default () file (by simp [vendorPrefixes])
      (by simp [vendorPrefixes]) hvalid rfl
    exact ⟨file, sheet, out, rfl, hvalid, hparse, hout, hagrees (by decide)⟩

end AnimationScope
