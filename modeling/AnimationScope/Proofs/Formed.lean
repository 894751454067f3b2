import AnimationScope.Proofs.Blocks
import AnimationScope.Css.Statement
import Mathlib.Data.List.DropRight

/-!
# Statements as they are read

Reading gives only statements that begin, go on and end in certain ways, and
statements that do so are read back from their lexemes.
-/

namespace AnimationScope.Css

/-- Lexemes that may stand between two statements. -/
def Lexeme.IsGap (l : Lexeme) : Prop := l.kind = .whitespace ∨ l.kind = .semicolon

def Lexeme.InPrelude (l : Lexeme) : Prop :=
  l.kind ≠ .semicolon ∧ l.kind ≠ .openBrace ∧ l.kind ≠ .closeBrace

/-- Lexemes that begin a prelude without a keyword. -/
def Lexeme.StartsPrelude (l : Lexeme) : Prop :=
  l.kind ≠ .whitespace ∧ l.kind ≠ .comment ∧ l.kind ≠ .atKeyword

namespace Statement

structure Head.Formed (h : Head) : Prop where
  gap : ∀ l ∈ h.gap, l.IsGap
  keyword : ∀ k ∈ h.keyword, k.kind = .atKeyword
  prelude : ∀ l ∈ h.prelude, l.InPrelude
  start : h.keyword = none → ∀ l ∈ h.prelude.head?, l.StartsPrelude

/-- The statements of a sequence and the gap behind them, as they are read. Only
the last one may do without a semicolon, and it leaves the gap to the sequence
unless it is an at-rule. -/
inductive Formed : List Statement → List Lexeme → Prop
  | done {after : List Lexeme} (ha : ∀ l ∈ after, l.IsGap) : Formed [] after
  | comment {gap : List Lexeme} {c : Lexeme} {ss : List Statement} {after : List Lexeme}
      (hg : ∀ l ∈ gap, l.IsGap) (hc : c.kind = .comment) (hss : Formed ss after) :
      Formed (.comment gap c :: ss) after
  | simple {h : Head} {l : Lexeme} {ss : List Statement} {after : List Lexeme} (hh : h.Formed)
      (hp : h.keyword = none → h.prelude ≠ []) (hl : l.kind = .semicolon)
      (hss : Formed ss after) : Formed (.simple h (some l) :: ss) after
  | block {h : Head} {body ss : List Statement} {inner after : List Lexeme} (hh : h.Formed)
      (hb : Formed body inner) (hss : Formed ss after) : Formed (.block h body inner :: ss) after
  | openRule {h : Head} (hh : h.Formed) (hk : h.keyword ≠ none) : Formed [.simple h none] []
  | openDeclaration {h : Head} {after : List Lexeme} (hh : h.Formed) (hk : h.keyword = none)
      (hp : ∃ l ∈ h.prelude.getLast?, l.kind ≠ .whitespace)
      (ha : ∀ l ∈ after, l.kind = .whitespace) : Formed [.simple h none] after

def Run.Formed (r : Run) : Prop := Statement.Formed r.statements r.after

inductive Ending.Formed : Ending → Prop
  | close : Ending.Formed .close
  | semicolon {l : Lexeme} {rest : Run} (hl : l.kind = .semicolon) (hr : rest.Formed) :
      Ending.Formed (.semicolon l rest)
  | block {body rest : Run} (hb : body.Formed) (hr : rest.Formed) :
      Ending.Formed (.block body rest)

theorem Head.Formed.widen {h : Head} (hh : h.Formed) {l : Lexeme} (hl : l.IsGap) :
    Head.Formed { h with gap := l :: h.gap } where
  gap := by
    intro m hm
    rcases List.mem_cons.mp hm with rfl | hm
    · exact hl
    · exact hh.gap m hm
  keyword := hh.keyword
  prelude := hh.prelude
  start := hh.start

theorem Run.Formed.widen {r : Run} (hr : r.Formed) {l : Lexeme} (hl : l.IsGap) :
    (r.widen l).Formed := by
  have hcons : ∀ {gap : List Lexeme}, (∀ m ∈ gap, m.IsGap) → ∀ m ∈ l :: gap, m.IsGap := by
    intro gap hg m hm
    rcases List.mem_cons.mp hm with rfl | hm
    · exact hl
    · exact hg m hm
  obtain ⟨ss, after⟩ := r
  cases hr with
  | done ha => exact .done (hcons ha)
  | comment hg hc hss => exact .comment (hcons hg) hc hss
  | simple hh hp hk hss => exact .simple (hh.widen hl) hp hk hss
  | block hh hb hss => exact .block (hh.widen hl) hb hss
  | openRule hh hk => exact .openRule (hh.widen hl) hk
  | openDeclaration hh hk hp ha => exact .openDeclaration (hh.widen hl) hk hp ha

theorem trailing_whitespace {ls : List Lexeme} :
    ∀ l ∈ ls.rtakeWhile isWhitespace, l.kind = .whitespace := by
  intro l hl
  simpa [isWhitespace] using List.mem_rtakeWhile_imp hl

/-- What is left of a prelude when the whitespace behind it goes to the block. -/
theorem backOff_prelude {l : Lexeme} (ls : List Lexeme) (h : l.kind ≠ .whitespace) :
    ∃ ms, (l :: ls).rdropWhile isWhitespace = l :: ms ∧ (∀ m ∈ ms, m ∈ ls) ∧
      ∃ m ∈ (l :: ms).getLast?, m.kind ≠ .whitespace := by
  obtain ⟨rest, hrest⟩ := List.rdropWhile_prefix isWhitespace (l :: ls)
  have hne : (l :: ls).rdropWhile isWhitespace ≠ [] := by
    intro hnil
    have hall := List.rdropWhile_eq_nil_iff.mp hnil l List.mem_cons_self
    simp [isWhitespace, h] at hall
  have hlast := List.rdropWhile_last_not isWhitespace (l :: ls) hne
  obtain ⟨a, ms, ha⟩ := List.exists_cons_of_ne_nil hne
  rw [ha, List.cons_append] at hrest
  obtain ⟨rfl, hls⟩ := List.cons.inj hrest
  refine ⟨ms, ha, fun m hm => hls ▸ List.mem_append_left _ hm, _,
    List.getLast?_eq_some_getLast (by simp), ?_⟩
  simp only [ha] at hlast
  simpa [isWhitespace] using hlast

theorem finish_formed {keyword : Option Lexeme} {prelude : List Lexeme} {e : Ending}
    (hh : Head.Formed ⟨[], keyword, prelude⟩)
    (hp : keyword = none → prelude = [] → ∃ body rest, e = .block body rest) (he : e.Formed) :
    (finish keyword prelude e).Formed := by
  cases he with
  | close =>
    cases keyword with
    | some k => exact .openRule hh (by simp)
    | none =>
      cases prelude with
      | nil =>
        obtain ⟨body, rest, he⟩ := hp rfl rfl
        cases he
      | cons l ls =>
        obtain ⟨ms, hms, hmem, hlast⟩ := backOff_prelude ls (hh.start rfl l rfl).1
        have hkept : Head.Formed ⟨[], none, l :: ms⟩ :=
          { gap := hh.gap
            keyword := hh.keyword
            prelude := by
              intro m hm
              rcases List.mem_cons.mp hm with rfl | hm
              · exact hh.prelude m List.mem_cons_self
              · exact hh.prelude m (List.mem_cons_of_mem _ (hmem m hm))
            start := hh.start }
        have hf : Statement.Formed [.simple ⟨[], none, l :: ms⟩ none]
            ((l :: ls).rtakeWhile isWhitespace) :=
          .openDeclaration hkept rfl hlast trailing_whitespace
        rw [← hms] at hf
        exact hf
  | semicolon hl hr =>
    refine .simple hh ?_ hl hr
    intro hk hnil
    obtain ⟨body, rest, he⟩ := hp hk hnil
    cases he
  | block hb hr => exact .block hh hb hr

theorem ofNest_formed {n : Nest} (h : n.Plain) :
    (ofNest n).Formed ∧ (∀ l ∈ (preludeOf n).1, l.InPrelude) ∧ (preludeOf n).2.Formed := by
  induction n with
  | done => exact ⟨.done (by simp [ofNest]), by simp [preludeOf], .close⟩
  | block body rest hb hr =>
    have hb' := (hb h.1).1
    have hr' := (hr h.2).1
    refine ⟨?_, by simp [preludeOf], .block hb' hr'⟩
    exact .block ⟨by simp, by simp, by simp, by simp⟩ hb' hr'
  | lexeme l rest ih =>
    obtain ⟨ho, hc, hp⟩ := h
    obtain ⟨h1, h2, h3⟩ := ih hp
    constructor
    · simp only [ofNest]
      split
      · next hk => exact h1.widen (.inl hk)
      · next hk => exact h1.widen (.inr hk)
      · next hk => exact .comment (by simp) hk h1
      · next hk => exact finish_formed ⟨by simp, by simpa using hk, h2, by simp⟩ (by simp) h3
      · next hw hs hk ha =>
        refine finish_formed ⟨by simp, by simp, ?_, ?_⟩ (by simp) h3
        · intro m hm
          rcases List.mem_cons.mp hm with rfl | hm
          · exact ⟨hs, ho, hc⟩
          · exact h2 m hm
        · rintro - m ⟨⟩
          exact ⟨hw, hk, ha⟩
    · simp only [preludeOf]
      split
      · next hk => exact ⟨by simp, .semicolon hk h1⟩
      · next hk =>
        refine ⟨?_, h3⟩
        intro m hm
        rcases List.mem_cons.mp hm with rfl | hm
        · exact ⟨hk, ho, hc⟩
        · exact h2 m hm

end Statement

/-! ## Reading formed statements back -/

def Nest.behind (n : Nest) (ls : List Lexeme) : Nest := ls.foldr .lexeme n

theorem Nest.lexemes_behind (n : Nest) (ls : List Lexeme) :
    (n.behind ls).lexemes = ls ++ n.lexemes := by
  induction ls with
  | nil => rfl
  | cons l ls ih => simpa [behind, lexemes] using ih

theorem Nest.Plain.behind {n : Nest} (h : n.Plain) {ls : List Lexeme}
    (hls : ∀ l ∈ ls, l.kind ≠ .openBrace ∧ l.kind ≠ .closeBrace) : (n.behind ls).Plain := by
  induction ls with
  | nil => exact h
  | cons l ls ih =>
    obtain ⟨ho, hc⟩ := hls l List.mem_cons_self
    exact ⟨ho, hc, ih fun m hm => hls m (List.mem_cons_of_mem _ hm)⟩

theorem Lexeme.IsGap.ne_brace {l : Lexeme} (h : l.IsGap) :
    l.kind ≠ .openBrace ∧ l.kind ≠ .closeBrace := by
  rcases h with h | h <;> simp [h]

namespace Statement

def Run.widenAll (gap : List Lexeme) (r : Run) : Run := gap.foldr Run.widen r

theorem ofNest_behind_gap {gap : List Lexeme} (h : ∀ l ∈ gap, l.IsGap) (n : Nest) :
    ofNest (n.behind gap) = (ofNest n).widenAll gap := by
  induction gap with
  | nil => rfl
  | cons l gap ih =>
    have ih := ih fun m hm => h m (List.mem_cons_of_mem _ hm)
    have hl := h l List.mem_cons_self
    rw [Nest.behind, List.foldr_cons, ofNest]
    split
    · exact congrArg (Run.widen l) ih
    · exact congrArg (Run.widen l) ih
    all_goals rcases hl with hl | hl <;> simp_all

theorem preludeOf_behind {ls : List Lexeme} (h : ∀ l ∈ ls, l.kind ≠ .semicolon) (n : Nest) :
    preludeOf (n.behind ls) = (ls ++ (preludeOf n).1, (preludeOf n).2) := by
  induction ls with
  | nil => rfl
  | cons l ls ih =>
    have ih := ih fun m hm => h m (List.mem_cons_of_mem _ hm)
    have hl := h l List.mem_cons_self
    rw [Nest.behind] at ih
    rw [Nest.behind, List.foldr_cons, preludeOf]
    split
    · contradiction
    · rw [ih]
      rfl

theorem widenAll_done (gap after : List Lexeme) :
    Run.widenAll gap ⟨[], after⟩ = ⟨[], gap ++ after⟩ := by
  induction gap with
  | nil => rfl
  | cons l gap ih => rw [Run.widenAll, List.foldr_cons, ← Run.widenAll, ih]; rfl

def widenAll (gap : List Lexeme) (s : Statement) : Statement := gap.foldr widen s

theorem Run.widenAll_cons (gap : List Lexeme) (s : Statement) (r : Run) :
    (r.cons s).widenAll gap = r.cons (s.widenAll gap) := by
  induction gap with
  | nil => rfl
  | cons l gap ih => rw [Run.widenAll, List.foldr_cons, ← Run.widenAll, ih]; rfl

theorem widenAll_comment (gap : List Lexeme) (c : Lexeme) :
    widenAll gap (.comment [] c) = .comment gap c := by
  induction gap with
  | nil => rfl
  | cons l gap ih => rw [widenAll, List.foldr_cons, ← widenAll, ih]; rfl

theorem widenAll_simple (gap : List Lexeme) (h : Head) (s : Option Lexeme) :
    widenAll gap (.simple { h with gap := [] } s) = .simple { h with gap } s := by
  induction gap with
  | nil => rfl
  | cons l gap ih => rw [widenAll, List.foldr_cons, ← widenAll, ih]; rfl

theorem widenAll_block (gap : List Lexeme) (h : Head) (body : List Statement)
    (after : List Lexeme) :
    widenAll gap (.block { h with gap := [] } body after) = .block { h with gap } body after := by
  induction gap with
  | nil => rfl
  | cons l gap ih => rw [widenAll, List.foldr_cons, ← widenAll, ih]; rfl

/-- A formed head is read in front of what ends it. -/
theorem ofNest_behind_head {h : Head} (hh : h.Formed) {n : Nest}
    (hn : h.keyword = none → h.prelude = [] → ∃ body rest, n = .block body rest) :
    ofNest (((n.behind h.prelude).behind h.keyword.toList).behind h.gap) =
      (finish h.keyword (h.prelude ++ (preludeOf n).1) (preludeOf n).2).widenAll h.gap := by
  have hsemi : ∀ l ∈ h.prelude, l.kind ≠ .semicolon := fun l hl => (hh.prelude l hl).1
  have hp := preludeOf_behind hsemi n
  rw [ofNest_behind_gap hh.gap]
  congr 1
  obtain ⟨gap, keyword, prelude⟩ := h
  cases keyword with
  | some k =>
    have hk : k.kind = .atKeyword := hh.keyword k rfl
    show ofNest (.lexeme k (n.behind prelude)) = _
    rw [ofNest, hk, hp]
  | none =>
    cases prelude with
    | nil =>
      obtain ⟨body, rest, rfl⟩ := hn rfl rfl
      rfl
    | cons l ls =>
      obtain ⟨hw, hc, hk⟩ := hh.start rfl l rfl
      have hls := preludeOf_behind (fun m hm => hsemi m (List.mem_cons_of_mem _ hm)) n
      show ofNest (.lexeme l (n.behind ls)) = _
      rw [ofNest, hls]
      split <;> simp_all

theorem Head.Formed.plain_behind {h : Head} (hh : h.Formed) {n : Nest} (hn : n.Plain) :
    (((n.behind h.prelude).behind h.keyword.toList).behind h.gap).Plain := by
  refine Nest.Plain.behind (Nest.Plain.behind (Nest.Plain.behind hn ?_) ?_) ?_
  · exact fun l hl => (hh.prelude l hl).2
  · intro l hl
    have hk := hh.keyword l (by simpa using hl)
    simp [hk]
  · exact fun l hl => (hh.gap l hl).ne_brace

theorem finish_close_rule (k : Lexeme) (prelude : List Lexeme) :
    finish (some k) prelude .close = Run.cons (.simple ⟨[], some k, prelude⟩ none) ⟨[], []⟩ := rfl

/-- Whitespace behind a prelude is taken off it again. -/
theorem finish_close_declaration {prelude after : List Lexeme}
    (hp : ∃ l ∈ prelude.getLast?, l.kind ≠ .whitespace) (ha : ∀ l ∈ after, l.kind = .whitespace) :
    finish none (prelude ++ after) .close =
      Run.cons (.simple ⟨[], none, prelude⟩ none) ⟨[], after⟩ := by
  obtain ⟨l, hl, hk⟩ := hp
  obtain ⟨ls, rfl⟩ := List.getLast?_eq_some_iff.mp hl
  have hall : ∀ m ∈ after.reverse, isWhitespace m = true := by
    intro m hm
    simp [isWhitespace, ha m (List.mem_reverse.mp hm)]
  have hneg : ¬ isWhitespace l = true := by simp [isWhitespace, hk]
  simp only [finish, Option.isSome_none, Bool.false_eq_true, if_false, List.reverse_append,
    List.dropWhile_append_of_pos hall, List.takeWhile_append_of_pos hall]
  simp [hneg, Run.cons]

theorem Formed.exists_nest {ss : List Statement} {after : List Lexeme} (h : Formed ss after) :
    ∃ n : Nest, n.Plain ∧ n.lexemes = lexemesOf ss ++ after ∧ ofNest n = ⟨ss, after⟩ := by
  induction h with
  | @done after ha =>
    have hdone : Nest.Plain .done := trivial
    refine ⟨Nest.behind .done after, hdone.behind fun l hl => (ha l hl).ne_brace, ?_, ?_⟩
    · rw [Nest.lexemes_behind]
      simp [Nest.lexemes, lexemesOf]
    · rw [ofNest_behind_gap ha, ofNest, widenAll_done, List.append_nil]
  | @comment gap c ss after hg hc _ ih =>
    obtain ⟨n, hn, hl, hr⟩ := ih
    refine ⟨Nest.behind (.lexeme c n) gap, Nest.Plain.behind ?_ fun l hl => (hg l hl).ne_brace,
      ?_, ?_⟩
    · exact ⟨by simp [hc], by simp [hc], hn⟩
    · rw [Nest.lexemes_behind, Nest.lexemes, hl]
      simp [lexemesOf, lexemes]
    · rw [ofNest_behind_gap hg, ofNest, hc, hr, Run.widenAll_cons, widenAll_comment]
      rfl
  | @simple h l ss after hh hp hk _ ih =>
    obtain ⟨n, hn, hl, hr⟩ := ih
    have hpre : preludeOf (.lexeme l n) = ([], .semicolon l ⟨ss, after⟩) := by
      rw [preludeOf, hk, hr]
    refine ⟨_, hh.plain_behind (n := .lexeme l n) ⟨by simp [hk], by simp [hk], hn⟩, ?_, ?_⟩
    · simp only [Nest.lexemes_behind, Nest.lexemes, hl]
      simp [lexemesOf, lexemes]
    · rw [ofNest_behind_head hh (fun h1 h2 => absurd h2 (hp h1)), hpre, List.append_nil, finish,
        Run.widenAll_cons]
      exact congrArg (Run.cons · ⟨ss, after⟩) (widenAll_simple h.gap h (some l))
  | @block h body ss inner after hh _ _ ihb ih =>
    obtain ⟨m, hm, hml, hmr⟩ := ihb
    obtain ⟨n, hn, hl, hr⟩ := ih
    have hpre : preludeOf (.block m n) = ([], .block ⟨body, inner⟩ ⟨ss, after⟩) := by
      rw [preludeOf, hmr, hr]
    refine ⟨_, hh.plain_behind (n := .block m n) ⟨hm, hn⟩, ?_, ?_⟩
    · simp only [Nest.lexemes_behind, Nest.lexemes, hml, hl]
      simp [lexemesOf, lexemes]
    · rw [ofNest_behind_head hh (fun _ _ => ⟨m, n, rfl⟩), hpre, List.append_nil, finish,
        Run.widenAll_cons]
      exact congrArg (Run.cons · ⟨ss, after⟩) (widenAll_block h.gap h body inner)
  | @openRule h hh hk =>
    obtain ⟨gap, keyword, prelude⟩ := h
    obtain ⟨k, rfl⟩ := Option.ne_none_iff_exists'.mp hk
    refine ⟨_, hh.plain_behind (n := .done) trivial, ?_, ?_⟩
    · simp only [Nest.lexemes_behind, Nest.lexemes]
      simp [lexemesOf, lexemes]
    · rw [ofNest_behind_head hh (fun h1 _ => absurd h1 hk), preludeOf, List.append_nil,
        finish_close_rule, Run.widenAll_cons]
      exact congrArg (Run.cons · ⟨[], []⟩) (widenAll_simple gap ⟨gap, some k, prelude⟩ none)
  | @openDeclaration h after hh hk hp ha =>
    obtain ⟨gap, keyword, prelude⟩ := h
    obtain rfl : keyword = none := hk
    have hne : prelude ≠ [] := by
      rintro rfl
      simp at hp
    have hh' : Head.Formed ⟨gap, none, prelude ++ after⟩ :=
      { gap := hh.gap
        keyword := hh.keyword
        prelude := by
          intro l hl
          rcases List.mem_append.mp hl with hl | hl
          · exact hh.prelude l hl
          · simp [Lexeme.InPrelude, ha l hl]
        start := by
          intro _ l hl
          refine hh.start rfl l ?_
          rwa [List.head?_append_of_ne_nil _ hne] at hl }
    refine ⟨_, hh'.plain_behind (n := .done) trivial, ?_, ?_⟩
    · simp only [Nest.lexemes_behind, Nest.lexemes]
      simp [lexemesOf, lexemes]
    · rw [ofNest_behind_head hh' (fun _ h2 => absurd h2 (by simp [hne])), preludeOf,
        List.append_nil, finish_close_declaration hp ha, Run.widenAll_cons]
      exact congrArg (Run.cons · ⟨[], after⟩) (widenAll_simple gap ⟨gap, none, prelude⟩ none)

end Statement

end AnimationScope.Css
