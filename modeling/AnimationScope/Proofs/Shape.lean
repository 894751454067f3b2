import AnimationScope.Proofs.Levels
import AnimationScope.Proofs.Places
import AnimationScope.Proofs.Renaming

/-!
# The shape of a parsed tree

Every level of a tree that is read from a text has only its last node open, and the
parts of its nodes that stand between names and values are blanks and marks. The
tree has as many blocks as the text has lexemes that open one.
-/

namespace AnimationScope

open Css

def Text.IsGap (t : Text) : Prop := ∀ c ∈ t, isSpace c = true ∨ c = ';'

def Text.IsBlank (t : Text) : Prop := ∀ c ∈ t, isBlank c = true

/-- What stands between the property and the value of a declaration. -/
def Declaration.Divided (d : Declaration) : Prop :=
  (∃ u v : Text, d.between = u ++ ':' :: v ∧ u.IsBlank ∧ v.IsBlank) ∨ d.between = [] ∧ d.value = []

def Css.IsComment (t : Text) : Prop := ∃ u, t = "/*".toList ++ u ++ "*/".toList

/-- The parts of a node that are read from blanks and marks. -/
def Node.Shaped : Node → Prop
  | .atRule a => a.before.IsGap ∧ a.afterName.IsBlank ∧ a.between.IsBlank ∧ a.after = []
  | .atBlock a _ =>
    a.before.IsGap ∧ a.afterName.IsBlank ∧ a.between.IsBlank ∧ a.semicolon = false
  | .rule r _ => r.before.IsGap ∧ r.between.IsBlank
  | .declaration d => d.before.IsGap ∧ d.Divided
  | .comment c => c.before.IsGap ∧ IsComment c.text

structure Level.Shaped (l : Level) : Prop where
  openLast : OpenLast l.nodes
  nodes : ∀ n ∈ l.nodes, n.Shaped
  after : l.after.IsGap

/-! ## Comments -/

namespace Css

variable {t : Text} {ls : List Lexeme}

theorem Token.isComment_of_cut {u rest : Text} (h : Cut [⟨.comment, u⟩] rest) : IsComment u := by
  have htokens : tokens u = [⟨.comment, u⟩] := by simpa [Cut] using cut_comment h []
  have hspells : Kind.Spells .comment u :=
    spells_of_mem (t := ⟨.comment, u⟩) (htokens ▸ List.mem_singleton_self _)
  obtain ⟨r, rfl⟩ := hspells
  have hclosed : commentIsClosed ('/' :: '*' :: r) = true := by
    by_contra hopen
    have hk := kind_of_last_comment htokens
    rw [if_neg hopen] at hk
    cases hk
  obtain ⟨v, rfl⟩ := (commentIsClosed_iff r).mp hclosed
  exact ⟨v, rfl⟩

/-- No token is cut off, so that the comments among the lexemes are closed. -/
theorem Token.isComment_of_mem_lexemes {ts : List Token} {rest : Text} (h : Cut ts rest)
    (hw : ∀ u ∈ ts, u.Whole) : ∀ l ∈ Token.lexemes ts, l.kind = .comment → IsComment l.text := by
  intro l hl hk
  obtain ⟨u, hu, -, rfl | ⟨hother, -⟩⟩ := exists_first_of_mem_lexemes hl
  · have hkind := kind_of_lexeme_comment (hw u hu) hk
    obtain ⟨pre, post, rfl⟩ := List.append_of_mem hu
    have hcut := (cut_append_iff.mp h).2
    obtain ⟨k, v⟩ := u
    obtain rfl : k = .comment := hkind
    exact isComment_of_cut (cut_cons_iff.mp hcut).1
  · rw [hother] at hk
    cases hk

/-! ## Parts of a node -/

/-- Lexemes that are spelled like their kind, with closed comments. -/
def Lexeme.Sound (l : Lexeme) : Prop := l.Spelled ∧ (l.kind = .comment → IsComment l.text)

theorem sound_of_lexemes (h : lexemes t = .ok ls) : ∀ l ∈ ls, l.Sound := by
  intro l hl
  refine ⟨spelled_of_lexemes h l hl, ?_⟩
  obtain ⟨herr, rfl⟩ := lexemes_eq_ok_iff.mp h
  exact Token.isComment_of_mem_lexemes (Token.cut_tokens t) (whole_of_syntaxError? herr) l hl

theorem Lexed.sound {rest : Text} (h : Lexed ls rest) : ∀ l ∈ ls, l.Sound := by
  intro l hl
  refine ⟨h.spelled l hl, ?_⟩
  obtain ⟨ts, hcut, -, hw, rfl⟩ := h
  exact Token.isComment_of_mem_lexemes hcut hw l hl

theorem Lexeme.isGap_join (hgap : ∀ l ∈ ls, l.IsGap) (hs : ∀ l ∈ ls, l.Spelled) :
    (Lexeme.join ls).IsGap := by
  intro c hc
  obtain ⟨⟨k, u⟩, hl, hc⟩ := List.mem_flatMap.mp hc
  have hspelled := hs _ hl
  rcases hgap _ hl with hk | hk
  · obtain rfl : k = .whitespace := hk
    exact .inl (hspelled c hc)
  · obtain rfl : k = .semicolon := hk
    obtain rfl : u = [';'] := hspelled
    exact .inr (List.mem_singleton.mp hc)

end Css

theorem Text.isBlank_leading (t : Text) : t.leading.IsBlank := fun _ => Text.isBlank_of_mem_leading

theorem Text.isBlank_trailing (t : Text) : t.trailing.IsBlank :=
  fun _ => Text.isBlank_of_mem_trailing

theorem Declaration.divided_ofPrelude (before : Text) {prelude : List Lexeme} (semicolon : Bool)
    (hs : ∀ l ∈ prelude, l.Spelled) : (ofPrelude before prelude semicolon).Divided := by
  rw [ofPrelude]
  split
  · exact .inr ⟨rfl, rfl⟩
  · next colon rest h =>
    have hmem : colon ∈ prelude := (List.dropWhile_suffix _).subset (h ▸ List.mem_cons_self)
    have hk : colon.kind = .colon := by
      have hhead := List.head_dropWhile_not (l := prelude)
        (fun l : Lexeme => decide (l.kind ≠ .colon)) (h ▸ List.cons_ne_nil _ _)
      simp only [h, List.head_cons] at hhead
      simpa using hhead
    have hcolon := hs colon hmem
    rw [Lexeme.Spelled, hk] at hcolon
    obtain hcolon : colon.text = [':'] := hcolon
    simp only [Divided, hcolon, List.append_assoc, List.singleton_append]
    exact .inl ⟨_, _, rfl, Text.isBlank_trailing _, Text.isBlank_leading _⟩

namespace Node

variable {ss : List Statement} {after : List Lexeme} {h : Statement.Head}

theorem shaped_simple {semicolon : Option Lexeme} (hh : h.Formed)
    (hs : ∀ l ∈ (Statement.simple h semicolon).lexemes, l.Sound) :
    (ofStatement (.simple h semicolon)).Shaped := by
  obtain ⟨gap, keyword, prelude⟩ := h
  have hgap : (Lexeme.join gap).IsGap :=
    Lexeme.isGap_join hh.gap fun l hl => (hs l (by simp [Statement.lexemes, hl])).1
  cases keyword with
  | some k => exact ⟨hgap, Text.isBlank_leading _, Text.isBlank_trailing _, rfl⟩
  | none =>
    refine ⟨?_, Declaration.divided_ofPrelude _ _ fun l hl =>
      (hs l (by simp [Statement.lexemes, hl])).1⟩
    rwa [Declaration.before_ofPrelude]

theorem shaped_block {body : List Statement} (hh : h.Formed)
    (hs : ∀ l ∈ h.gap, l.Sound) : (ofStatement (.block h body after)).Shaped := by
  obtain ⟨gap, keyword, prelude⟩ := h
  have hgap : (Lexeme.join gap).IsGap := Lexeme.isGap_join hh.gap fun l hl => (hs l hl).1
  cases keyword with
  | some k => exact ⟨hgap, Text.isBlank_leading _, Text.isBlank_trailing _, rfl⟩
  | none => exact ⟨hgap, Text.isBlank_trailing _⟩

theorem shaped_comment {gap : List Lexeme} {c : Lexeme} (hg : ∀ l ∈ gap, l.IsGap)
    (hc : c.kind = .comment) (hs : ∀ l ∈ (Statement.comment gap c).lexemes, l.Sound) :
    (ofStatement (.comment gap c)).Shaped :=
  ⟨Lexeme.isGap_join hg fun l hl => (hs l (by simp [Statement.lexemes, hl])).1,
    (hs c (by simp [Statement.lexemes])).2 hc⟩

end Node

/-! ## Levels -/

namespace Level.Shaped

variable {nested : Bool} {n : Node} {ns : List Node} {after : Text}

theorem nil (h : after.IsGap) : (⟨nested, [], after⟩ : Level).Shaped := ⟨trivial, by simp, h⟩

theorem cons (hopen : n.isOpen = false) (hn : n.Shaped)
    (h : (⟨nested, ns, after⟩ : Level).Shaped) : (⟨nested, n :: ns, after⟩ : Level).Shaped where
  openLast := ⟨fun ho => absurd ho (hopen ▸ Bool.false_ne_true), h.openLast⟩
  nodes := List.forall_mem_cons.mpr ⟨hn, h.nodes⟩
  after := h.after

theorem singleton (hn : n.Shaped) (h : after.IsGap) : (⟨nested, [n], after⟩ : Level).Shaped :=
  ⟨⟨fun _ => rfl, trivial⟩, by simpa using hn, h⟩

end Level.Shaped

theorem Node.levels_simple (h : Statement.Head) (semicolon : Option Lexeme) :
    levels (ofStatement (.simple h semicolon)) = [] := by
  obtain ⟨gap, keyword, prelude⟩ := h
  cases keyword <;> rfl

theorem Node.levels_block (h : Statement.Head) (body : List Statement) (inner : List Lexeme) :
    levels (ofStatement (.block h body inner)) =
      ⟨true, ofStatements body, Lexeme.join inner⟩ :: allLevels (ofStatements body) := by
  obtain ⟨gap, keyword, prelude⟩ := h
  cases keyword <;> rfl

/-- Formed statements make a level of the right shape, and so do their blocks. -/
theorem Css.Statement.Formed.shaped {ss : List Statement} {after : List Lexeme}
    (h : Formed ss after) (nested : Bool) (hs : ∀ l ∈ lexemesOf ss ++ after, l.Sound) :
    (⟨nested, Node.ofStatements ss, Lexeme.join after⟩ : Level).Shaped ∧
      ∀ l ∈ Node.allLevels (Node.ofStatements ss), l.Shaped := by
  induction h generalizing nested with
  | done ha =>
    exact ⟨.nil (Lexeme.isGap_join ha fun l hl => (hs l (by simp [hl])).1),
      by simp [Node.ofStatements, Node.allLevels]⟩
  | comment hg hc _ ih =>
    rw [lexemesOf, List.append_assoc, List.forall_mem_append] at hs
    obtain ⟨hlevel, hlevels⟩ := ih nested hs.2
    exact ⟨.cons rfl (Node.shaped_comment hg hc hs.1) hlevel, hlevels⟩
  | simple hh _ _ _ ih =>
    rw [lexemesOf, List.append_assoc, List.forall_mem_append] at hs
    obtain ⟨hlevel, hlevels⟩ := ih nested hs.2
    refine ⟨.cons (Node.isOpen_ofStatement _) (Node.shaped_simple hh hs.1) hlevel, ?_⟩
    rwa [Node.ofStatements, Node.allLevels, Node.levels_simple, List.nil_append]
  | @block h body ss inner after hh _ _ ihb ih =>
    rw [lexemesOf, List.append_assoc, List.forall_mem_append] at hs
    obtain ⟨hlevel, hlevels⟩ := ih nested hs.2
    obtain ⟨hblock, hblocks⟩ := ihb true fun l hl =>
      hs.1 l (List.mem_append_left _ (List.mem_append_right _ (List.mem_cons_of_mem _ hl)))
    have hshaped : (Node.ofStatement (.block h body inner)).Shaped :=
      Node.shaped_block hh fun l hl => hs.1 l (by simp [lexemes, hl])
    refine ⟨.cons (Node.isOpen_ofStatement _) hshaped hlevel, ?_⟩
    rw [Node.ofStatements, Node.allLevels, Node.levels_block, List.cons_append,
      List.forall_mem_cons, List.forall_mem_append]
    exact ⟨hblock, hblocks, hlevels⟩
  | openRule hh _ =>
    rw [lexemesOf, List.append_assoc, List.forall_mem_append] at hs
    refine ⟨.singleton (Node.shaped_simple hh hs.1) (by simp [Text.IsGap]), ?_⟩
    simp [Node.ofStatements, Node.allLevels, Node.levels_simple]
  | openDeclaration hh _ _ ha =>
    rw [lexemesOf, List.append_assoc, List.forall_mem_append] at hs
    have hafter := Lexeme.isGap_join (fun l hl => .inl (ha l hl)) fun l hl => (hs.2 l hl).1
    refine ⟨.singleton (Node.shaped_simple hh hs.1) hafter, ?_⟩
    simp [Node.ofStatements, Node.allLevels, Node.levels_simple]

/-! ## Blocks and braces -/

def Css.openBraces (ls : List Lexeme) : Nat := ls.countP (·.kind = .openBrace)

namespace Css

theorem openBraces_append (ls ms : List Lexeme) :
    openBraces (ls ++ ms) = openBraces ls + openBraces ms := List.countP_append

theorem openBraces_eq_zero {ls : List Lexeme} (h : ∀ l ∈ ls, l.kind ≠ .openBrace) :
    openBraces ls = 0 := by
  rw [openBraces, List.countP_eq_zero]
  simpa using h

theorem openBraces_gap {ls : List Lexeme} (h : ∀ l ∈ ls, l.IsGap) : openBraces ls = 0 :=
  openBraces_eq_zero fun l hl => (h l hl).ne_brace.1

theorem Statement.Head.Formed.openBraces {h : Statement.Head} (hh : h.Formed) :
    openBraces (h.gap ++ h.keyword.toList ++ h.prelude) = 0 := by
  refine openBraces_eq_zero ?_
  simp only [List.forall_mem_append]
  refine ⟨⟨fun l hl => (hh.gap l hl).ne_brace.1, fun l hl => ?_⟩, fun l hl => (hh.prelude l hl).2.1⟩
  rw [hh.keyword l (Option.mem_toList.mp hl)]
  decide

/-- Each block of formed statements has its own brace. -/
theorem Statement.Formed.length_allLevels {ss : List Statement} {after : List Lexeme}
    (h : Formed ss after) :
    (Node.allLevels (Node.ofStatements ss)).length = Css.openBraces (lexemesOf ss ++ after) := by
  induction h with
  | done ha =>
    rw [lexemesOf, List.nil_append, openBraces_gap ha]
    rfl
  | @comment gap c ss after hg hc _ ih =>
    have hbrace : ∀ l ∈ gap ++ [c], l.kind ≠ .openBrace := by
      rw [List.forall_mem_append]
      exact ⟨fun l hl => (hg l hl).ne_brace.1, by simp [hc]⟩
    rw [lexemesOf, List.append_assoc, openBraces_append, lexemes, openBraces_eq_zero hbrace, ← ih,
      Nat.zero_add]
    rfl
  | @simple h l ss after hh _ hl _ ih =>
    have hbrace : Css.openBraces [l] = 0 := openBraces_eq_zero (by simp [hl])
    rw [lexemesOf, List.append_assoc, openBraces_append, lexemes, openBraces_append, hh.openBraces,
      Option.toList_some, hbrace, ← ih, Node.ofStatements, Node.allLevels, Node.levels_simple]
    simp
  | @block h body ss inner after hh _ _ ihb ih =>
    have hopen : Css.openBraces (.openBrace :: (lexemesOf body ++ inner)) =
        Css.openBraces (lexemesOf body ++ inner) + 1 := List.countP_cons_of_pos rfl
    have hclose : Css.openBraces [Lexeme.closeBrace] = 0 := rfl
    have hblock : Css.openBraces (Statement.block h body inner).lexemes =
        Css.openBraces (lexemesOf body ++ inner) + 1 := by
      rw [lexemes, openBraces_append _ [Lexeme.closeBrace],
        openBraces_append _ (.openBrace :: (lexemesOf body ++ inner)), hh.openBraces, hopen, hclose]
      omega
    rw [lexemesOf, List.append_assoc, openBraces_append (Statement.block h body inner).lexemes,
      hblock, ← ihb, ← ih, Node.ofStatements, Node.allLevels, Node.levels_block, List.length_append,
      List.length_cons]
  | @openRule h hh _ =>
    rw [lexemesOf, lexemesOf, lexemes, List.append_nil, List.append_nil, Option.toList_none,
      List.append_nil, hh.openBraces, Node.ofStatements, Node.allLevels, Node.levels_simple]
    rfl
  | @openDeclaration h after hh _ _ ha =>
    rw [lexemesOf, lexemesOf, lexemes, List.append_nil, Option.toList_none, List.append_nil,
      openBraces_append, hh.openBraces, openBraces_gap fun l hl => .inl (ha l hl),
      Node.ofStatements, Node.allLevels, Node.levels_simple]
    rfl

end Css

/-- The shape of every tree that is read. -/
theorem Stylesheet.shape_of_parse {t : Text} {s : Stylesheet} (h : parse t = .ok s) :
    (∀ l ∈ s.levels, l.Shaped) ∧
      ∃ ls, lexemes t = .ok ls ∧ (Node.allLevels s.nodes).length = openBraces ls := by
  obtain ⟨r, hr, hl, rfl⟩ := parse_eq_ok_iff.mp h
  obtain ⟨hlevel, hlevels⟩ := hr.shaped false (sound_of_lexemes hl)
  exact ⟨List.forall_mem_cons.mpr ⟨hlevel, hlevels⟩, r.lexemes, hl, hr.length_allLevels⟩

/-- Stray semicolons, an empty block in another one, and statements that are left open. -/
theorem Stylesheet.shape_of_parse_sample :
    ∃ s, parse "@x;;a \x7bb : c;; @y\x7b\x7d d \x7d/*e*/@f g".toList = .ok s ∧
      (∀ l ∈ s.levels, l.Shaped) ∧
        ∃ ls, lexemes "@x;;a \x7bb : c;; @y\x7b\x7d d \x7d/*e*/@f g".toList = .ok ls ∧
          (Node.allLevels s.nodes).length = openBraces ls :=
  ⟨_, rfl, shape_of_parse rfl⟩

end AnimationScope
