import AnimationScope.Proofs.Formed
import AnimationScope.Proofs.SyntaxErrors

/-!
# Reading loses nothing

What is read from a text is a run of formed statements with the lexemes of the
text, and no other text has this run. Printing the tree of the run puts the
lexemes side by side again.
-/

namespace AnimationScope

open Css

variable {t : Text}

theorem Css.spelled_of_lexemes {ls : List Lexeme} (h : lexemes t = .ok ls) :
    ∀ l ∈ ls, l.Spelled := by
  rw [lexemes] at h
  split at h
  · cases h
  · obtain rfl := Except.ok.inj h
    exact spelled_of_mem_lexemes (tokens_spelled t)

def Stylesheet.ofRun (r : Statement.Run) : Stylesheet :=
  ⟨Node.ofStatements r.statements, Lexeme.join r.after⟩

theorem Css.exists_nest_of_parse {s : Stylesheet} (h : Stylesheet.parse t = .ok s) :
    ∃ n : Nest, n.Plain ∧ lexemes t = .ok n.lexemes ∧ s = .ofNest n := by
  have hc : ¬ CutOff t := by
    rintro ⟨pre, hp | hp⟩
    · rw [parse_of_syntaxError? (syntaxError?_openComment hp)] at h
      cases h
    · rw [parse_of_syntaxError? (syntaxError?_openString hp)] at h
      cases h
  have hb : ∀ pre, ¬ OpenBlock t pre := by
    intro pre hp
    obtain ⟨pre, o, post, ht, ho, hn, hl⟩ := LeavesBlock.exists_last ⟨pre, hp⟩
    rw [parse_openBlock hc ht ho hn hl] at h
    cases h
  have hs : ∀ pre, ¬ StrayBrace t pre := by
    intro pre hp
    obtain ⟨pre, hf⟩ := exists_isFirst ⟨pre, hp⟩
    rw [parse_strayBrace (lexemes_of_closed hc hb) hf] at h
    cases h
  obtain ⟨n, hn, hl, hnest⟩ := nest_of_closed hc hb hs
  rw [Stylesheet.parse, hnest] at h
  exact ⟨n, hn, hl, (Except.ok.inj h).symm⟩

/-- Reading is finding the formed statements with the lexemes of the text. -/
theorem Stylesheet.parse_eq_ok_iff {s : Stylesheet} :
    parse t = .ok s ↔
      ∃ r : Statement.Run, r.Formed ∧ lexemes t = .ok r.lexemes ∧ s = .ofRun r := by
  constructor
  · intro h
    obtain ⟨n, hn, hl, rfl⟩ := exists_nest_of_parse h
    refine ⟨Statement.ofNest n, (Statement.ofNest_formed hn).1, ?_, rfl⟩
    rw [hl, (Statement.lexemes_ofNest n).1]
  · rintro ⟨⟨ss, after⟩, hr, hl, rfl⟩
    obtain ⟨n, hn, hnl, hnr⟩ := hr.exists_nest
    have hl' : lexemes t = .ok n.lexemes := by rw [hl, hnl]; rfl
    rw [parse, nest, hl', Except.map, Nest.ofLexemes_lexemes hn]
    show Except.ok (ofNest n) = _
    rw [ofNest, hnr, ofRun]

/-! ## Printing -/

theorem AtRule.head_ofPrelude (before : Text) {keyword : Text} (h : ∃ r, keyword = '@' :: r)
    (prelude : Text) :
    (AtRule.ofPrelude before keyword prelude).head = before ++ keyword ++ prelude := by
  obtain ⟨r, rfl⟩ := h
  simp [AtRule.head, AtRule.ofPrelude]

theorem Rule.parts_ofPrelude (before prelude after : Text) :
    let r := Rule.ofPrelude before prelude after
    r.before ++ r.selector ++ r.between = before ++ prelude := by
  simp [Rule.ofPrelude]

theorem Declaration.render_ofPrelude (before : Text) (prelude : List Lexeme) (semicolon : Bool) :
    (Declaration.ofPrelude before prelude semicolon).render =
      before ++ Lexeme.join prelude ++ (if semicolon then [';'] else []) := by
  have hj : Lexeme.join (prelude.takeWhile (·.kind ≠ .colon)) ++
      Lexeme.join (prelude.dropWhile (·.kind ≠ .colon)) = Lexeme.join prelude := by
    rw [← Lexeme.join_append, List.takeWhile_append_dropWhile]
  rw [← hj, Declaration.ofPrelude]
  split
  · next h =>
    rw [h]
    simp [Declaration.render]
  · next colon rest h =>
    rw [h]
    -- The blanks around the colon are kept between the two parts.
    have hp := Text.trimEnd_append_trailing (Lexeme.join (prelude.takeWhile (·.kind ≠ .colon)))
    have hv := Text.leading_append_trimStart (Lexeme.join rest)
    rw [Lexeme.join_cons]
    conv_rhs => rw [← hp, ← hv]
    simp only [Declaration.render, List.append_assoc]

theorem Declaration.before_ofPrelude (before : Text) (prelude : List Lexeme) (semicolon : Bool) :
    (ofPrelude before prelude semicolon).before = before := by
  rw [ofPrelude]
  split <;> rfl

theorem Declaration.semicolon_ofPrelude (before : Text) (prelude : List Lexeme)
    (semicolon : Bool) : (ofPrelude before prelude semicolon).semicolon = semicolon := by
  rw [ofPrelude]
  split <;> rfl

theorem Css.Statement.Head.Formed.keyword_text {h : Statement.Head} (hh : h.Formed)
    (hs : ∀ k ∈ h.keyword, k.Spelled) : ∀ k ∈ h.keyword, ∃ r, k.text = '@' :: r := by
  intro k hk
  have hsp := hs k hk
  rwa [Lexeme.Spelled, hh.keyword k hk] at hsp

theorem Node.render_simple {h : Statement.Head} (hk : ∀ k ∈ h.keyword, ∃ r, k.text = '@' :: r)
    {semicolon : Option Lexeme} (hs : ∀ l ∈ semicolon, l.text = [';']) :
    (Node.ofStatement (.simple h semicolon)).render =
      Lexeme.join (Statement.simple h semicolon).lexemes := by
  obtain ⟨gap, keyword, prelude⟩ := h
  have hmark : (if semicolon.isSome then [';'] else []) = Lexeme.join semicolon.toList := by
    cases semicolon with
    | none => rfl
    | some l => simp [hs l rfl]
  cases keyword with
  | some k =>
    have hhead := AtRule.head_ofPrelude (Lexeme.join gap) (hk k rfl) (Lexeme.join prelude)
    simp only [AtRule.head] at hhead
    simp only [Node.ofStatement, Node.render, AtRule.head, hmark, hhead]
    simp [Statement.lexemes]
  | none =>
    simp only [Node.ofStatement, Node.render, Declaration.render_ofPrelude, hmark]
    simp [Statement.lexemes]

theorem Node.render_block {h : Statement.Head} (hk : ∀ k ∈ h.keyword, ∃ r, k.text = '@' :: r)
    {body : List Statement} {inner : List Lexeme}
    (hb : Node.renderAll (Node.ofStatements body) = Lexeme.join (Statement.lexemesOf body)) :
    (Node.ofStatement (.block h body inner)).render =
      Lexeme.join (Statement.block h body inner).lexemes := by
  obtain ⟨gap, keyword, prelude⟩ := h
  cases keyword with
  | some k =>
    have hhead := AtRule.head_ofPrelude (Lexeme.join gap) (hk k rfl) (Lexeme.join prelude)
    simp only [AtRule.head] at hhead
    simp only [Node.ofStatement, Node.render, AtRule.head, hb, hhead]
    simp [Statement.lexemes, Lexeme.openBrace, Lexeme.closeBrace]
  | none =>
    have hparts := Rule.parts_ofPrelude (Lexeme.join gap) (Lexeme.join prelude)
      (Lexeme.join inner)
    simp only [Node.ofStatement, Node.render, hb, hparts]
    simp [Rule.ofPrelude, Statement.lexemes, Lexeme.openBrace, Lexeme.closeBrace]

/-- Formed statements are printed as their lexemes. -/
theorem Node.renderAll_ofStatements {ss : List Statement} {after : List Lexeme}
    (h : Statement.Formed ss after) (hs : ∀ l ∈ Statement.lexemesOf ss, l.Spelled) :
    Node.renderAll (Node.ofStatements ss) = Lexeme.join (Statement.lexemesOf ss) := by
  have cons : ∀ {s : Statement} {ss : List Statement}, (Node.ofStatement s).render =
      Lexeme.join s.lexemes → Node.renderAll (Node.ofStatements ss) =
      Lexeme.join (Statement.lexemesOf ss) →
      Node.renderAll (Node.ofStatements (s :: ss)) =
        Lexeme.join (Statement.lexemesOf (s :: ss)) := by
    intro s ss h1 h2
    simp only [Node.ofStatements, Node.renderAll, Statement.lexemesOf, Lexeme.join_append, h1, h2]
  induction h with
  | done => rfl
  | comment _ _ _ ih =>
    refine cons ?_ (ih fun l hl => hs l (by simp [Statement.lexemesOf, hl]))
    simp [Node.ofStatement, Node.render, Statement.lexemes]
  | @simple h l ss after hh _ hk _ ih =>
    refine cons (Node.render_simple (hh.keyword_text ?_) ?_)
      (ih fun l hl => hs l (by simp [Statement.lexemesOf, hl]))
    · intro k hk
      exact hs k (by simp [Statement.lexemesOf, Statement.lexemes, Option.mem_def.mp hk])
    · rintro m ⟨⟩
      have hsp := hs l (by simp [Statement.lexemesOf, Statement.lexemes])
      rwa [Lexeme.Spelled, hk] at hsp
  | @block h body ss inner after hh _ _ ihb ih =>
    refine cons (Node.render_block (hh.keyword_text ?_) (ihb ?_))
      (ih fun l hl => hs l (by simp [Statement.lexemesOf, hl]))
    · intro k hk
      exact hs k (by simp [Statement.lexemesOf, Statement.lexemes, Option.mem_def.mp hk])
    · intro l hl
      exact hs l (by simp [Statement.lexemesOf, Statement.lexemes, hl])
  | @openRule h hh _ | @openDeclaration h _ hh _ _ _ =>
    refine cons (Node.render_simple (hh.keyword_text ?_) (by simp)) rfl
    intro k hk
    exact hs k (by simp [Statement.lexemesOf, Statement.lexemes, Option.mem_def.mp hk])

theorem Stylesheet.render_ofRun {r : Statement.Run} (hr : r.Formed)
    (hs : ∀ l ∈ r.lexemes, l.Spelled) : (ofRun r).render = Lexeme.join r.lexemes := by
  have hn : Node.renderAll (Node.ofStatements r.statements) =
      Lexeme.join (Statement.lexemesOf r.statements) :=
    Node.renderAll_ofStatements hr fun l hl => hs l (List.mem_append_left _ hl)
  rw [render, ofRun, Statement.Run.lexemes, Lexeme.join_append, ← hn]

/-- Printing a tree gives back the text that it was read from. -/
theorem Stylesheet.render_of_parse {s : Stylesheet} (h : Stylesheet.parse t = .ok s) :
    s.render = t := by
  obtain ⟨r, hr, hl, rfl⟩ := Stylesheet.parse_eq_ok_iff.mp h
  rw [render_ofRun hr (spelled_of_lexemes hl), join_lexemes hl]

/-- A statement of each sort, with a stray semicolon, a blank that is no space and
a group that hangs open. -/
theorem Stylesheet.render_of_parse_sample :
    ∃ s, parse "@x 'y' ;;a\u00a0\x7bb ;c : d;\x7d/*e*/\n@f \x7b\x7d g : h(\x7d".toList = .ok s ∧
      s.render = "@x 'y' ;;a\u00a0\x7bb ;c : d;\x7d/*e*/\n@f \x7b\x7d g : h(\x7d".toList :=
  ⟨_, rfl, render_of_parse rfl⟩

end AnimationScope
