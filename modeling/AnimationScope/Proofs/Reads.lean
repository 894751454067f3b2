import AnimationScope.Proofs.Ends
import AnimationScope.Proofs.Lossless

/-!
# Trees that are read back

A tree is read back from its text just if every node is on its own, wherever the
node stands, and nothing but the last node of each block is left open.
-/

namespace AnimationScope

open Css

/-! ## Statements that stand alone -/

namespace Css.Statement

/-- A statement that neither a semicolon nor a block nor a comment ends. -/
def isOpen : Statement → Bool
  | .simple _ none => true
  | _ => false

variable {s : Statement} {ss : List Statement} {after : List Lexeme}

theorem formed_cons_iff (h : s.isOpen = false) :
    Formed (s :: ss) after ↔ Formed [s] [] ∧ Formed ss after := by
  have hnil : Formed [] [] := .done (by simp)
  constructor
  · intro hf
    cases hf with
    | comment hg hc hss => exact ⟨.comment hg hc hnil, hss⟩
    | simple hh hp hl hss => exact ⟨.simple hh hp hl hnil, hss⟩
    | block hh hb hss => exact ⟨.block hh hb hnil, hss⟩
    | openRule => cases h
    | openDeclaration => cases h
  · rintro ⟨hf, hss⟩
    cases hf with
    | comment hg hc _ => exact .comment hg hc hss
    | simple hh hp hl _ => exact .simple hh hp hl hss
    | block hh hb _ => exact .block hh hb hss
    | openRule => cases h
    | openDeclaration => cases h

theorem Formed.eq_nil_of_isOpen (h : Formed (s :: ss) after) (hs : s.isOpen = true) : ss = [] := by
  cases h with
  | comment => cases hs
  | simple => cases hs
  | block => cases hs
  | openRule => rfl
  | openDeclaration => rfl

theorem Formed.exists_stop (h : Formed [s] []) (hs : s.isOpen = false) :
    ∃ ls l, s.lexemes = ls ++ [l] ∧ l.Stops := by
  cases h with
  | @comment gap c _ _ _ hc _ => exact ⟨gap, c, rfl, .inl hc⟩
  | @simple h l _ _ _ _ hl _ =>
    exact ⟨h.gap ++ h.keyword.toList ++ h.prelude, l, by simp [lexemes], .inr (.inl hl)⟩
  | @block h body _ inner _ _ _ _ =>
    exact ⟨h.gap ++ h.keyword.toList ++ h.prelude ++ .openBrace :: (lexemesOf body ++ inner),
      .closeBrace, by simp [lexemes], .inr (.inr rfl)⟩
  | openRule => cases hs
  | openDeclaration => cases hs

theorem Formed.balanced (h : Formed ss after) : Balanced (lexemesOf ss ++ after) := by
  obtain ⟨n, hn, hl, -⟩ := h.exists_nest
  exact ⟨n, hn, hl⟩

theorem Formed.gap (h : Formed ss after) : ∀ l ∈ after, l.IsGap := by
  induction h with
  | done ha => exact ha
  | comment _ _ _ ih => exact ih
  | simple _ _ _ _ ih => exact ih
  | block _ _ _ _ ih => exact ih
  | openRule => simp
  | openDeclaration _ _ _ ha => exact fun l hl => .inl (ha l hl)

end Css.Statement

/-! ## Nodes that are read back -/

def Node.isOpen : Node → Bool
  | .declaration d => !d.semicolon
  | .atRule a => !a.semicolon
  | _ => false

def OpenLast : List Node → Prop
  | [] => True
  | n :: ns => (n.isOpen = true → ns = []) ∧ OpenLast ns

instance OpenLast.decidable : (ns : List Node) → Decidable (OpenLast ns)
  | [] => isTrue trivial
  | n :: ns =>
    haveI := OpenLast.decidable ns
    haveI : Decidable (ns = []) := decidable_of_iff _ List.isEmpty_iff
    inferInstanceAs (Decidable ((n.isOpen = true → ns = []) ∧ OpenLast ns))

theorem Node.isOpen_ofStatement (s : Statement) : (ofStatement s).isOpen = s.isOpen := by
  cases s with
  | comment gap c => rfl
  | simple h semicolon =>
    obtain ⟨gap, keyword, prelude⟩ := h
    cases keyword with
    | some k => cases semicolon <;> rfl
    | none =>
      cases semicolon <;>
        simp [ofStatement, isOpen, Statement.isOpen, Declaration.semicolon_ofPrelude]
  | block h body after =>
    obtain ⟨gap, keyword, prelude⟩ := h
    cases keyword <;> rfl

/-! ## The statement that a node is made of -/

namespace Css.Statement

theorem eq_simple_of_declaration {d : Declaration} (h : Node.ofStatement s = .declaration d) :
    ∃ gap prelude semicolon, s = .simple ⟨gap, none, prelude⟩ semicolon ∧
      Declaration.ofPrelude (Lexeme.join gap) prelude semicolon.isSome = d := by
  rcases s with ⟨gap, c⟩ | ⟨⟨gap, _ | k, prelude⟩, semicolon⟩ | ⟨⟨gap, _ | k, prelude⟩, ss, ls⟩
  case simple.none => exact ⟨gap, prelude, semicolon, rfl, Node.declaration.inj h⟩
  all_goals cases h

theorem eq_simple_of_atRule {a : AtRule} (h : Node.ofStatement s = .atRule a) :
    ∃ gap k prelude semicolon, s = .simple ⟨gap, some k, prelude⟩ semicolon ∧
      { AtRule.ofPrelude (Lexeme.join gap) k.text (Lexeme.join prelude) with
        semicolon := semicolon.isSome } = a := by
  rcases s with ⟨gap, c⟩ | ⟨⟨gap, _ | k, prelude⟩, semicolon⟩ | ⟨⟨gap, _ | k, prelude⟩, ss, ls⟩
  case simple.some => exact ⟨gap, k, prelude, semicolon, rfl, Node.atRule.inj h⟩
  all_goals cases h

theorem eq_block_of_rule {r : Rule} {body : List Node} (h : Node.ofStatement s = .rule r body) :
    ∃ gap prelude ss ls, s = .block ⟨gap, none, prelude⟩ ss ls ∧
      Rule.ofPrelude (Lexeme.join gap) (Lexeme.join prelude) (Lexeme.join ls) = r ∧
      Node.ofStatements ss = body := by
  rcases s with ⟨gap, c⟩ | ⟨⟨gap, _ | k, prelude⟩, semicolon⟩ | ⟨⟨gap, _ | k, prelude⟩, ss, ls⟩
  case block.none => exact ⟨gap, prelude, ss, ls, rfl, Node.rule.inj h⟩
  all_goals cases h

theorem eq_block_of_atBlock {a : AtRule} {body : List Node}
    (h : Node.ofStatement s = .atBlock a body) :
    ∃ gap k prelude ss ls, s = .block ⟨gap, some k, prelude⟩ ss ls ∧
      { AtRule.ofPrelude (Lexeme.join gap) k.text (Lexeme.join prelude) with
        after := Lexeme.join ls } = a ∧
      Node.ofStatements ss = body := by
  rcases s with ⟨gap, c⟩ | ⟨⟨gap, _ | k, prelude⟩, semicolon⟩ | ⟨⟨gap, _ | k, prelude⟩, ss, ls⟩
  case block.some => exact ⟨gap, k, prelude, ss, ls, rfl, Node.atBlock.inj h⟩
  all_goals cases h

end Css.Statement

/-! ## Reading nodes back -/

def Node.Reads (n : Node) : Prop :=
  ∃ s : Statement, s.isOpen = false ∧ Statement.Formed [s] [] ∧ ofStatement s = n ∧
    ∀ x, Lexed s.lexemes x

/-- The nodes and the text behind them are read back, up to a character that ends
their block or up to the end of the input. -/
def ReadsAt (e : Option Char) (ns : List Node) (after : Text) : Prop :=
  ∃ ss ls, Statement.Formed ss ls ∧ Node.ofStatements ss = ns ∧ Lexeme.join ls = after ∧
    Ends e (Statement.lexemesOf ss ++ ls)

/-- A node is read back if what is behind it is the end of its block. -/
def Node.ReadsBefore (e : Option Char) (after : Text) (n : Node) : Prop :=
  if n.isOpen then ReadsAt e [n] after else n.Reads

/-- Printing and reading again gives the same tree. -/
def Stylesheet.ReadsBack (s : Stylesheet) : Prop := Stylesheet.parse s.render = .ok s

variable {e : Option Char} {n : Node} {ns : List Node} {after : Text}

theorem Stylesheet.readsBack_iff {s : Stylesheet} : s.ReadsBack ↔ ReadsAt none s.nodes s.after := by
  rw [ReadsBack, parse_eq_ok_iff]
  constructor
  · rintro ⟨⟨ss, ls⟩, hr, hl, rfl⟩
    refine ⟨ss, ls, hr, rfl, rfl, ?_⟩
    rw [render_ofRun hr (spelled_of_lexemes hl)] at hl
    exact hl
  · rintro ⟨ss, ls, hf, hns, hafter, hl⟩
    have hs : s = .ofRun ⟨ss, ls⟩ := by
      cases s
      rw [ofRun, hns, hafter]
    have hr : Statement.Run.Formed ⟨ss, ls⟩ := hf
    have hlex : lexemes (Lexeme.join (Statement.Run.lexemes ⟨ss, ls⟩)) =
        .ok (Statement.Run.lexemes ⟨ss, ls⟩) := hl
    refine ⟨⟨ss, ls⟩, hr, ?_, hs⟩
    rw [hs, render_ofRun hr (spelled_of_lexemes hlex)]
    exact hlex

theorem ReadsAt.of_parse {css : Text} {s : Stylesheet} (h : Stylesheet.parse css = .ok s) :
    ReadsAt none s.nodes s.after := by
  obtain ⟨⟨ss, ls⟩, hr, hl, rfl⟩ := Stylesheet.parse_eq_ok_iff.mp h
  refine ⟨ss, ls, hr, rfl, rfl, ?_⟩
  have hl' := hl
  rw [← join_lexemes hl] at hl'
  exact hl'

theorem ReadsAt.nil (h : ReadsAt e ns after) : ReadsAt e [] after := by
  obtain ⟨ss, ls, hf, -, hafter, hl⟩ := h
  exact ⟨[], ls, .done hf.gap, rfl, hafter, hl.of_append⟩

theorem readsAt_nil (e : Option Char) : ReadsAt e [] [] :=
  ⟨[], [], .done (by simp), rfl, rfl, ends_nil e⟩

theorem ReadsAt.exists_statement (h : ReadsAt e [n] after) :
    ∃ s ls, Statement.Formed [s] ls ∧ Node.ofStatement s = n ∧ Lexeme.join ls = after ∧
      Ends e (s.lexemes ++ ls) := by
  obtain ⟨ss, ls, hf, hns, hafter, hl⟩ := h
  cases ss with
  | nil => cases hns
  | cons s ss =>
    obtain ⟨hs, hss⟩ := List.cons.inj hns
    cases ss with
    | cons t ss => cases hss
    | nil => exact ⟨s, ls, hf, hs, hafter, by simpa [Statement.lexemesOf] using hl⟩

theorem Node.ReadsBefore.exists_statement (h : n.ReadsBefore e after) :
    ∃ s ls, Statement.Formed [s] ls ∧ Node.ofStatement s = n ∧ Ends e (s.lexemes ++ ls) := by
  rw [Node.ReadsBefore] at h
  split_ifs at h
  · obtain ⟨s, ls, hf, hs, -, hl⟩ := h.exists_statement
    exact ⟨s, ls, hf, hs, hl⟩
  · obtain ⟨s, -, hf, hs, hl⟩ := h
    have hb : Balanced s.lexemes := by simpa [Statement.lexemesOf] using hf.balanced
    exact ⟨s, [], hf, hs, Ends.append hl hb (ends_nil e)⟩

/-- Behind a node that is not open, the others are read back on their own. -/
theorem readsAt_cons_iff (hn : n.isOpen = false) :
    ReadsAt e (n :: ns) after ↔ n.Reads ∧ ReadsAt e ns after := by
  constructor
  · rintro ⟨ss, ls, hf, hns, hafter, hl⟩
    obtain ⟨s, ss, rfl⟩ : ∃ s ss', ss = s :: ss' := by
      cases ss with
      | nil => cases hns
      | cons s ss => exact ⟨s, ss, rfl⟩
    obtain ⟨rfl, rfl⟩ := List.cons.inj hns
    rw [Node.isOpen_ofStatement] at hn
    obtain ⟨hs, hss⟩ := (Statement.formed_cons_iff hn).mp hf
    obtain ⟨ms, l, hms, hstop⟩ := hs.exists_stop hn
    rw [Statement.lexemesOf, hms, List.append_assoc] at hl
    obtain ⟨hfree, hend⟩ := hl.split hstop
    rw [← hms] at hfree
    exact ⟨⟨s, hn, hs, rfl, hfree⟩, ss, ls, hss, rfl, hafter, hend⟩
  · rintro ⟨⟨s, hs, hf, rfl, hl⟩, ss, ls, hss, rfl, rfl, hend⟩
    refine ⟨s :: ss, ls, (Statement.formed_cons_iff hs).mpr ⟨hf, hss⟩, rfl, rfl, ?_⟩
    have hb : Balanced s.lexemes := by simpa [Statement.lexemesOf] using hf.balanced
    rw [Statement.lexemesOf, List.append_assoc]
    exact Ends.append hl hb hend

theorem ReadsAt.eq_nil_of_isOpen (h : ReadsAt e (n :: ns) after) (hn : n.isOpen = true) :
    ns = [] := by
  obtain ⟨ss, ls, hf, hns, -, -⟩ := h
  cases ss with
  | nil => cases hns
  | cons s ss =>
    obtain ⟨rfl, rfl⟩ := List.cons.inj hns
    rw [Node.isOpen_ofStatement] at hn
    obtain rfl := hf.eq_nil_of_isOpen hn
    rfl

/-- Nodes are read back just if nothing but the last of them is open, the text
behind them is a gap, and each of them is read back on its own. -/
theorem readsAt_iff :
    ReadsAt e ns after ↔
      OpenLast ns ∧ ReadsAt e [] after ∧ ∀ n ∈ ns, n.ReadsBefore e after := by
  induction ns with
  | nil => simp [OpenLast]
  | cons n ns ih =>
    cases hn : n.isOpen with
    | true =>
      constructor
      · intro h
        obtain rfl := h.eq_nil_of_isOpen hn
        refine ⟨⟨fun _ => rfl, trivial⟩, h.nil, ?_⟩
        intro m hm
        obtain rfl := List.mem_singleton.mp hm
        rwa [Node.ReadsBefore, if_pos hn]
      · rintro ⟨⟨hnil, -⟩, -, h⟩
        obtain rfl := hnil hn
        have hm := h n List.mem_cons_self
        rwa [Node.ReadsBefore, if_pos hn] at hm
    | false =>
      rw [readsAt_cons_iff hn, ih]
      have hone : n.ReadsBefore e after ↔ n.Reads := by
        rw [Node.ReadsBefore, hn]
        rfl
      simp only [OpenLast, hn, List.forall_mem_cons, hone]
      constructor
      · rintro ⟨h1, h2, h3, h4⟩
        exact ⟨⟨by simp, h2⟩, h3, h1, h4⟩
      · rintro ⟨⟨-, h2⟩, h3, h1, h4⟩
        exact ⟨h1, h2, h3, h4⟩

/-! ## Blocks -/

/-- The prelude of a rule is read back in front of its block. -/
def Rule.HeadReads (r : Rule) : Prop :=
  ∃ h : Statement.Head, h.Formed ∧ h.keyword = none ∧
    Rule.ofPrelude (Lexeme.join h.gap) (Lexeme.join h.prelude) r.after = r ∧
    Ends (some '{') (h.gap ++ h.prelude)

/-- The name and the prelude of an at-rule are read back in front of its end. -/
def AtRule.HeadReads (e : Option Char) (a : AtRule) : Prop :=
  ∃ (h : Statement.Head) (k : Lexeme), h.Formed ∧ h.keyword = some k ∧
    { AtRule.ofPrelude (Lexeme.join h.gap) k.text (Lexeme.join h.prelude) with
      after := a.after, semicolon := a.semicolon } = a ∧
    Ends e (h.gap ++ k :: h.prelude)

/-- What a statement with a block consists of, put together. -/
theorem lexed_block_iff {h : Statement.Head} {ss : List Statement} {ls : List Lexeme} :
    (∀ x, Lexed (Statement.block h ss ls).lexemes x) ↔
      Ends (some '{') (h.gap ++ (h.keyword.toList ++ h.prelude)) ∧
        Ends (some '}') (Statement.lexemesOf ss ++ ls) := by
  have hbrace : ∀ x, Lexed [Lexeme.openBrace] x := lexed_mark (k := .opening .curly) rfl rfl
  have hclose : ∀ x, Lexed [Lexeme.closeBrace] x := lexed_mark (k := .closing .curly) rfl rfl
  have hsplit : (Statement.block h ss ls).lexemes =
      (h.gap ++ (h.keyword.toList ++ h.prelude)) ++
        ([.openBrace] ++ ((Statement.lexemesOf ss ++ ls) ++ [.closeBrace])) := by
    simp [Statement.lexemes]
  rw [hsplit]
  generalize h.gap ++ (h.keyword.toList ++ h.prelude) = head
  generalize Statement.lexemesOf ss ++ ls = inner
  simp only [lexed_append_iff]
  constructor
  · intro h
    constructor
    · intro x
      exact (h []).1.replace rfl x
    · intro x
      exact (h x).2.2.1
  · rintro ⟨h1, h2⟩ x
    exact ⟨h1 _, hbrace _, h2 x, hclose x⟩

theorem reads_rule_iff {r : Rule} {body : List Node} :
    (Node.rule r body).Reads ↔ r.HeadReads ∧ ReadsAt (some '}') body r.after := by
  constructor
  · rintro ⟨s, -, hf, hs, hl⟩
    obtain ⟨gap, prelude, ss, ls, rfl, rfl, rfl⟩ := Statement.eq_block_of_rule hs
    obtain ⟨h1, h2⟩ := lexed_block_iff.mp hl
    cases hf with
    | block hh hb _ => exact ⟨⟨_, hh, rfl, rfl, h1⟩, ss, ls, hb, rfl, rfl, h2⟩
  · rintro ⟨⟨h, hh, hk, hr, h1⟩, ss, ls, hb, rfl, hafter, h2⟩
    obtain ⟨gap, keyword, prelude⟩ := h
    obtain rfl : keyword = none := hk
    refine ⟨.block ⟨gap, none, prelude⟩ ss ls, rfl, .block hh hb (.done (by simp)), ?_,
      lexed_block_iff.mpr ⟨h1, h2⟩⟩
    rw [Node.ofStatement]
    simp only
    rw [hafter]
    exact congrArg (Node.rule · _) hr

theorem reads_atBlock_iff {a : AtRule} {body : List Node} :
    (Node.atBlock a body).Reads ↔
      a.semicolon = false ∧ a.HeadReads (some '{') ∧ ReadsAt (some '}') body a.after := by
  constructor
  · rintro ⟨s, -, hf, hs, hl⟩
    obtain ⟨gap, k, prelude, ss, ls, rfl, rfl, rfl⟩ := Statement.eq_block_of_atBlock hs
    obtain ⟨h1, h2⟩ := lexed_block_iff.mp hl
    cases hf with
    | block hh hb _ => exact ⟨rfl, ⟨_, k, hh, rfl, rfl, h1⟩, ss, ls, hb, rfl, rfl, h2⟩
  · rintro ⟨hsemi, ⟨h, k, hh, hk, ha, h1⟩, ss, ls, hb, rfl, hafter, h2⟩
    obtain ⟨gap, keyword, prelude⟩ := h
    obtain rfl : keyword = some k := hk
    refine ⟨.block ⟨gap, some k, prelude⟩ ss ls, rfl, .block hh hb (.done (by simp)), ?_,
      lexed_block_iff.mpr ⟨h1, h2⟩⟩
    rw [hsemi] at ha
    rw [Node.ofStatement]
    simp only
    rw [hafter]
    exact congrArg (Node.atBlock · _) ha

/-! ## Statements without a block -/

theorem lexed_semicolon_iff {head : List Lexeme} :
    (∀ x, Lexed (head ++ [⟨.semicolon, [';']⟩]) x) ↔ Ends (some ';') head := by
  have hmark : ∀ x, Lexed [⟨Lexeme.Kind.semicolon, [';']⟩] x :=
    lexed_mark (k := .semicolon) rfl rfl
  simp only [lexed_append_iff]
  constructor
  · intro h x
    exact (h x).1
  · intro h x
    exact ⟨h x, hmark x⟩

theorem Css.Lexeme.Spelled.eq_semicolon {l : Lexeme} (hs : l.Spelled) (hl : l.kind = .semicolon) :
    l = ⟨.semicolon, [';']⟩ := by
  obtain ⟨k, t⟩ := l
  obtain rfl : k = .semicolon := hl
  exact congrArg (Lexeme.mk _) hs

theorem reads_atRule_iff {a : AtRule} :
    (Node.atRule a).Reads ↔ a.semicolon = true ∧ a.after = [] ∧ a.HeadReads (some ';') := by
  constructor
  · rintro ⟨s, hopen, hf, hs, hl⟩
    obtain ⟨gap, k, prelude, semicolon, rfl, rfl⟩ := Statement.eq_simple_of_atRule hs
    cases semicolon with
    | none => cases hopen
    | some l =>
      cases hf with
      | simple hh _ hk _ =>
        have hspelled := (hl []).spelled l (by simp [Statement.lexemes])
        obtain rfl := hspelled.eq_semicolon hk
        refine ⟨rfl, rfl, ⟨_, k, hh, rfl, rfl, lexed_semicolon_iff.mp ?_⟩⟩
        intro x
        simpa [Statement.lexemes] using hl x
  · rintro ⟨hsemi, hafter, ⟨h, k, hh, hk, ha, h1⟩⟩
    obtain ⟨gap, keyword, prelude⟩ := h
    obtain rfl : keyword = some k := hk
    refine ⟨.simple ⟨gap, some k, prelude⟩ (some ⟨.semicolon, [';']⟩), rfl,
      .simple hh (by simp) rfl (.done (by simp)), ?_, ?_⟩
    · rw [hsemi, hafter] at ha
      exact congrArg Node.atRule ha
    · have hlexed := lexed_semicolon_iff.mpr h1
      intro x
      simpa [Statement.lexemes] using hlexed x

theorem readsAt_open_atRule_iff {a : AtRule} (hopen : a.semicolon = false) :
    ReadsAt e [.atRule a] after ↔ after = [] ∧ a.after = [] ∧ a.HeadReads e := by
  constructor
  · intro h
    obtain ⟨s, ls, hf, hs, rfl, hl⟩ := h.exists_statement
    obtain ⟨gap, k, prelude, semicolon, rfl, rfl⟩ := Statement.eq_simple_of_atRule hs
    obtain rfl : semicolon = none :=
      Option.isNone_iff_eq_none.mp (Option.isSome_eq_false_iff.mp hopen)
    cases hf with
    | openRule hh _ =>
      refine ⟨rfl, rfl, ⟨_, k, hh, rfl, rfl, ?_⟩⟩
      simpa [Statement.lexemes] using hl
    | openDeclaration _ hk _ _ => cases hk
  · rintro ⟨rfl, hafter, h, k, hh, hk, ha, h1⟩
    obtain ⟨gap, keyword, prelude⟩ := h
    obtain rfl : keyword = some k := hk
    refine ⟨[.simple ⟨gap, some k, prelude⟩ none], [], .openRule hh (by simp), ?_, rfl, ?_⟩
    · rw [hopen, hafter] at ha
      exact congrArg (fun a => [Node.atRule a]) ha
    · simpa [Statement.lexemesOf, Statement.lexemes] using h1

end AnimationScope
