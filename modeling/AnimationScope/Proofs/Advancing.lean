import AnimationScope.Proofs.Lossless
import AnimationScope.Proofs.Turns

/-!
# Reading leads on

The statements that are read turn by turn are those of the blocks that the lexemes make. So
from every place reading comes to an end, and a stylesheet is read where it comes to the end of
all lexemes.
-/

namespace AnimationScope.Css

open Statement

variable {ls : List Lexeme} {l : Lexeme} {p q e : Nat}

/-! ## Where blocks lie -/

/-- The sequence lies among the lexemes from one place to another. -/
inductive Nest.Lies (ls : List Lexeme) : Nat → Nest → Nat → Prop
  | done {p : Nat} (h : ∀ l ∈ ls[p]?, l.kind = .closeBrace) : Lies ls p .done p
  | lexeme {p e : Nat} {l : Lexeme} {n : Nest} (hl : ls[p]? = some l)
      (ho : l.kind ≠ .openBrace) (hc : l.kind ≠ .closeBrace) (hn : Lies ls (p + 1) n e) :
      Lies ls p (.lexeme l n) e
  | block {p inner e : Nat} {l : Lexeme} {body rest : Nest} (hl : ls[p]? = some l)
      (ho : l.kind = .openBrace) (hb : Lies ls (p + 1) body inner)
      (hr : Lies ls (pastBrace ls inner) rest e) : Lies ls p (.block body rest) e

theorem Nest.Lies.stops {n : Nest} (h : Lies ls p n e) :
    ∀ l ∈ ls[e]?, l.kind = .closeBrace := by
  induction h with
  | done h => exact h
  | lexeme _ _ _ _ ih => exact ih
  | block _ _ _ _ _ ih => exact ih

theorem Nest.ofLexemes_of_close (hc : l.kind = .closeBrace) (ls : List Lexeme) :
    ofLexemes (l :: ls) = (.done, (ofLexemes ls).1 :: (ofLexemes ls).2) := by
  rw [ofLexemes, hc]

theorem Nest.ofLexemes_of_open (ho : l.kind = .openBrace) (ls : List Lexeme) :
    ofLexemes (l :: ls) =
      (.block (ofLexemes ls).1 ((ofLexemes ls).2.headD .done), (ofLexemes ls).2.tail) := by
  rw [ofLexemes, ho]
  rcases ofLexemes ls with ⟨n, _ | ⟨rest, ns⟩⟩ <;> rfl

theorem Nest.ofLexemes_pastBrace (h : ∀ l ∈ ls[e]?, l.kind = .closeBrace) :
    ofLexemes (ls.drop (pastBrace ls e)) =
      ((ofLexemes (ls.drop e)).2.headD .done, (ofLexemes (ls.drop e)).2.tail) := by
  cases hl : ls[e]? with
  | none =>
    rw [pastBrace, hl, if_neg (by simp), drop_of_none hl]
    rfl
  | some l =>
    have hc := h l hl
    rw [pastBrace, hl, Option.map_some, if_pos (congrArg some hc), drop_of_getElem? hl,
      ofLexemes_of_close hc]
    rfl

theorem Nest.ofLexemes_rest_eq_nil_iff (he : e ≤ ls.length)
    (h : ∀ l ∈ ls[e]?, l.kind = .closeBrace) : (ofLexemes (ls.drop e)).2 = [] ↔ e = ls.length := by
  constructor
  · intro hnil
    by_contra hne
    have hl := List.getElem?_eq_getElem (Nat.lt_of_le_of_ne he hne)
    rw [drop_of_getElem? hl, ofLexemes_of_close (h _ hl)] at hnil
    cases hnil
  · rintro rfl
    rw [List.drop_length]
    rfl

/-- The blocks that lexemes make lie among them, up to a place from which on nothing more belongs
to them. -/
theorem Nest.exists_lies (hp : p ≤ ls.length) :
    ∃ e ≤ ls.length, p ≤ e ∧ Lies ls p (ofLexemes (ls.drop p)).1 e ∧
      (ofLexemes (ls.drop e)).2 = (ofLexemes (ls.drop p)).2 := by
  -- On how much is left, since what stands behind a block is read after its body.
  induction hk : ls.length - p using Nat.strongRecOn generalizing p with
  | ind k ih =>
    subst hk
    cases hl : ls[p]? with
    | none =>
      refine ⟨p, hp, Nat.le_refl p, ?_, rfl⟩
      rw [drop_of_none hl]
      exact .done (by simp [hl])
    | some l =>
      have hlt := (List.getElem?_eq_some_iff.mp hl).1
      have hdrop := drop_of_getElem? hl
      obtain ⟨inner, hinner, hle, hbody, hend⟩ := ih _ (by omega) (p := p + 1) hlt rfl
      by_cases hc : l.kind = .closeBrace
      · refine ⟨p, hp, Nat.le_refl p, ?_, rfl⟩
        rw [hdrop, ofLexemes_of_close hc]
        exact .done (by simp [hl, hc])
      by_cases ho : l.kind = .openBrace
      · have hpast : inner ≤ pastBrace ls inner := le_pastBrace
        obtain ⟨e, he, hqe, hrest, htail⟩ :=
          ih _ (by omega) (p := pastBrace ls inner) (pastBrace_le_length hinner) rfl
        rw [ofLexemes_pastBrace hbody.stops, hend] at hrest htail
        rw [hdrop, ofLexemes_of_open ho]
        exact ⟨e, he, by omega, .block hl ho hbody hrest, htail⟩
      · rw [hdrop, ofLexemes_plain ho hc]
        exact ⟨inner, hinner, Nat.le_of_succ_le hle, .lexeme hl ho hc hbody, hend⟩

namespace Statement

/-! ## Turns by the lexeme in front of them -/

theorem turn_of_stop (hpq : p ≤ q) (hq : q ≤ ls.length) (hg : ∀ l ∈ ls.extract p q, l.IsGap)
    (h : ∀ l ∈ ls[q]?, l.kind = .closeBrace) : turn ls p = .stop (ls.extract p q) q := by
  have hskip : skip Lexeme.IsGap ls p = q :=
    skip_eq hpq hq hg fun l hl => by simp [Lexeme.IsGap, h l hl]
  rw [turn, hskip]
  cases hl : ls[q]? with
  | none => rfl
  | some l => simp only [h l hl]

theorem turn_of_comment (hl : ls[p]? = some l) (hk : l.kind = .comment) :
    turn ls p = .statement (.comment [] l) (p + 1) := by
  have hskip : skip Lexeme.IsGap ls p = p := skip_of_not (by simp [hl, Lexeme.IsGap, hk])
  rw [turn, hskip, hl, extract_self]
  simp only [hk]

theorem turn_of_atKeyword (hl : ls[p]? = some l) (hk : l.kind = .atKeyword) :
    turn ls p = endTurn ls [] (some l) (p + 1) := by
  have hskip : skip Lexeme.IsGap ls p = p := skip_of_not (by simp [hl, Lexeme.IsGap, hk])
  rw [turn, hskip, hl, extract_self]
  simp only [hk]

/-- Anything else begins a prelude without a keyword, which in front of a brace is empty. -/
theorem turn_of_prelude (hl : ls[p]? = some l) (hg : ¬ l.IsGap) (hc : l.kind ≠ .closeBrace)
    (hm : l.kind ≠ .comment) (hk : l.kind ≠ .atKeyword) : turn ls p = endTurn ls [] none p := by
  rw [turn, skip_of_not (by simpa [hl] using hg), hl, extract_self]
  dsimp only
  split <;> first | contradiction | rfl

def Turn.widen (l : Lexeme) : Turn → Turn
  | .stop gap q => .stop (l :: gap) q
  | .statement s q => .statement (s.widen l) q
  | .block head brace => .block { head with gap := l :: head.gap } brace

theorem endTurn_widen (gap : List Lexeme) (keyword : Option Lexeme) (start : Nat) :
    endTurn ls (l :: gap) keyword start = (endTurn ls gap keyword start).widen l := by
  rw [endTurn, endTurn]
  dsimp only
  split <;> rfl

theorem turn_of_gap (hl : ls[p]? = some l) (hg : l.IsGap) :
    turn ls p = (turn ls (p + 1)).widen l := by
  rw [turn, turn, extract_skip_of_getElem? hl hg, skip_of_getElem? hl hg]
  cases ls[skip Lexeme.IsGap ls (p + 1)]? with
  | none => rfl
  | some m =>
    dsimp only
    split
    · rfl
    · rfl
    · exact endTurn_widen ..
    · exact endTurn_widen ..

theorem Reads.widen {r : Run} (h : Reads ls (p + 1) r e) (hl : ls[p]? = some l) (hg : l.IsGap) :
    Reads ls p (r.widen l) e := by
  have ht := turn_of_gap hl hg
  cases h with
  | stop h => exact .stop (by rw [ht, h]; rfl)
  | @statement _ q _ s r h hr =>
    have hw : turn ls p = .statement (s.widen l) q := by rw [ht, h]; rfl
    exact .statement hw hr
  | @block _ brace _ _ head body r h hb hr =>
    have hw : turn ls p = .block { head with gap := l :: head.gap } brace := by rw [ht, h]; rfl
    exact .block hw hb hr

/-! ## From the blocks to the turns -/

/-- What ends a prelude is read from one place to another. -/
inductive EndsAt (ls : List Lexeme) : Nat → Ending → Nat → Prop
  | close {p : Nat} (h : ∀ l ∈ ls[p]?, l.kind = .closeBrace) : EndsAt ls p .close p
  | semicolon {p e : Nat} {l : Lexeme} {r : Run} (hl : ls[p]? = some l) (hk : l.kind = .semicolon)
      (hr : Reads ls (p + 1) r e) : EndsAt ls p (.semicolon l r) e
  | block {p inner e : Nat} {l : Lexeme} {body r : Run} (hl : ls[p]? = some l)
      (hk : l.kind = .openBrace) (hb : Reads ls (p + 1) body inner)
      (hr : Reads ls (pastBrace ls inner) r e) : EndsAt ls p (.block body r) e

theorem extract_of_append {start stop : Nat} {front back : List Lexeme} (hs : start ≤ stop)
    (hlen : stop ≤ ls.length) (h : ls.extract start stop = front ++ back) :
    ls.extract start (start + front.length) = front ∧
      ls.extract (start + front.length) stop = back := by
  have hdrop : ls.drop start = front ++ (back ++ ls.drop stop) := by
    rw [drop_eq_extract_append hs, h, List.append_assoc]
  have hback : stop - (start + front.length) = back.length := by
    have hl := congrArg List.length h
    rw [length_extract hlen, List.length_append] at hl
    omega
  constructor
  · rw [List.extract_eq_take_drop, Nat.add_sub_cancel_left, hdrop, List.take_left]
  · rw [List.extract_eq_take_drop, hback, ← List.drop_drop, hdrop, List.drop_left, List.take_left]

/-- The whitespace that a turn goes back over is the gap of the next one. -/
theorem turn_backOff {start stop : Nat} (hs : start ≤ stop) (hlen : stop ≤ ls.length)
    (h : ∀ l ∈ ls[stop]?, l.kind = .closeBrace) :
    ls.extract start (backOff ls start stop) = (ls.extract start stop).rdropWhile isWhitespace ∧
      turn ls (backOff ls start stop) =
        .stop ((ls.extract start stop).rtakeWhile isWhitespace) stop := by
  obtain ⟨hfront, hback⟩ :=
    extract_of_append hs hlen (List.rdropWhile_append_rtakeWhile (p := isWhitespace)).symm
  rw [← backOff_eq hs hlen] at hfront hback
  refine ⟨hfront, ?_⟩
  rw [← hback]
  refine turn_of_stop backOff_le hlen (fun l hl => ?_) h
  rw [hback] at hl
  exact .inl (trailing_whitespace l hl)

/-- A turn for a prelude gives the statement that ends there. -/
theorem reads_finish {start : Nat} {keyword : Option Lexeme} {ending : Ending}
    (hs : start ≤ ls.length) (ht : turn ls p = endTurn ls [] keyword start)
    (h : EndsAt ls (skip Lexeme.InPrelude ls start) ending e) :
    Reads ls p (finish keyword (ls.extract start (skip Lexeme.InPrelude ls start)) ending) e := by
  rw [endTurn] at ht
  dsimp only at ht
  cases h with
  | semicolon hl hk hr =>
    rw [hl, Option.map_some, hk] at ht
    exact .statement ht hr
  | block hl hk hb hr =>
    rw [hl, Option.map_some, hk] at ht
    exact .block ht hb hr
  | close hc =>
    have hlen := skip_le_length (P := Lexeme.InPrelude) hs
    have hsimple : turn ls p =
        let stop := skip Lexeme.InPrelude ls start
        let back := if keyword.isSome then stop else backOff ls start stop
        .statement (.simple ⟨[], keyword, ls.extract start back⟩ none) back := by
      rw [ht]
      cases hl : ls[skip Lexeme.InPrelude ls start]? with
      | none => rfl
      | some l => simp only [Option.map_some, hc l hl]
    cases keyword with
    | some k =>
      have hstop := turn_of_stop (Nat.le_refl _) hlen (by simp) hc
      rw [extract_self] at hstop
      exact .statement hsimple (.stop hstop)
    | none =>
      obtain ⟨hfront, hstop⟩ := turn_backOff le_skip hlen hc
      simp only [Option.isSome_none, Bool.false_eq_true, if_false, hfront] at hsimple
      exact .statement hsimple (.stop hstop)

theorem endsAt_of_skip {ending : Ending} (h : ∀ l ∈ ls[p]?, ¬ l.InPrelude)
    (he : EndsAt ls p ending e) :
    ls.extract p (skip Lexeme.InPrelude ls p) = [] ∧
      EndsAt ls (skip Lexeme.InPrelude ls p) ending e := by
  rw [skip_of_not h]
  exact ⟨extract_self ls p, he⟩

/-- Turns read the statements of the blocks. -/
theorem reads_of_lies {n : Nest} (h : n.Lies ls p e) (hp : p ≤ ls.length) :
    Reads ls p (ofNest n) e ∧
      ls.extract p (skip Lexeme.InPrelude ls p) = (preludeOf n).1 ∧
      EndsAt ls (skip Lexeme.InPrelude ls p) (preludeOf n).2 e := by
  induction h with
  | @done p h =>
    have hstop := turn_of_stop (Nat.le_refl p) hp (by simp) h
    rw [extract_self] at hstop
    exact ⟨.stop hstop, endsAt_of_skip (fun l hl hi => hi.2.2 (h l hl)) (.close h)⟩
  | @block p inner e l body rest hl ho _ _ ihb ihr =>
    have hlt := (List.getElem?_eq_some_iff.mp hl).1
    obtain ⟨hbody, -⟩ := ihb hlt
    obtain ⟨hrest, -⟩ := ihr (pastBrace_le_length (hbody.bounds hlt).2)
    have hends : EndsAt ls p (.block (ofNest body) (ofNest rest)) e := .block hl ho hbody hrest
    obtain ⟨hnil, hat⟩ := endsAt_of_skip (by simp [hl, Lexeme.InPrelude, ho]) hends
    refine ⟨?_, hnil, hat⟩
    have hturn : turn ls p = endTurn ls [] none p :=
      turn_of_prelude hl (by simp [Lexeme.IsGap, ho]) (by simp [ho]) (by simp [ho]) (by simp [ho])
    have hreads := reads_finish hp hturn hat
    rwa [hnil] at hreads
  | @lexeme p e l n hl ho hc _ ih =>
    have hlt := (List.getElem?_eq_some_iff.mp hl).1
    obtain ⟨hrest, hprelude, hends⟩ := ih hlt
    have hlater (hi : l.InPrelude) : ls.extract p (skip Lexeme.InPrelude ls p) =
        l :: (preludeOf n).1 ∧ EndsAt ls (skip Lexeme.InPrelude ls p) (preludeOf n).2 e := by
      rw [extract_skip_of_getElem? hl hi, skip_of_getElem? hl hi, hprelude]
      exact ⟨rfl, hends⟩
    constructor
    · rw [ofNest]
      split
      · next hk => exact hrest.widen hl (.inl hk)
      · next hk => exact hrest.widen hl (.inr hk)
      · next hk => exact .statement (turn_of_comment hl hk) hrest
      · next hk =>
        have hreads := reads_finish hlt (turn_of_atKeyword hl hk) hends
        rwa [hprelude] at hreads
      · next hw hs hcomment hk =>
        have hturn := turn_of_prelude hl (fun h => h.elim hw hs) hc hcomment hk
        obtain ⟨hextract, hat⟩ := hlater ⟨hs, ho, hc⟩
        have hreads := reads_finish hp hturn hat
        rwa [hextract] at hreads
    · rw [preludeOf]
      split
      · next hk =>
        exact endsAt_of_skip (by simp [hl, Lexeme.InPrelude, hk]) (.semicolon hl hk hrest)
      · next hs => exact hlater ⟨hs, ho, hc⟩

/-- From every place there is one way to read, up to a place from which on nothing more belongs
to the blocks that are made from there. -/
theorem exists_reads_iff (hp : p ≤ ls.length) :
    ∃ e ≤ ls.length, (∀ l ∈ ls[e]?, l.kind = .closeBrace) ∧
      (Nest.ofLexemes (ls.drop e)).2 = (Nest.ofLexemes (ls.drop p)).2 ∧
      ∀ r q, Reads ls p r q ↔ r = ofNest (Nest.ofLexemes (ls.drop p)).1 ∧ q = e := by
  obtain ⟨e, he, -, hlies, hend⟩ := Nest.exists_lies hp
  have hreads := (reads_of_lies hlies hp).1
  refine ⟨e, he, hlies.stops, hend, fun r q => ⟨fun h => h.unique hreads, ?_⟩⟩
  rintro ⟨rfl, rfl⟩
  exact hreads

theorem stop_or_advances (hp : p ≤ ls.length) :
    (∃ gap q, turn ls p = .stop gap q) ∨ ∃ q, Advances ls p q := by
  have hw := turn_within hp
  cases ht : turn ls p with
  | stop gap q => exact .inl ⟨gap, q, rfl⟩
  | statement s q => exact .inr ⟨q, .statement ht⟩
  | block head brace =>
    rw [ht] at hw
    obtain ⟨inner, -, -, -, hreads⟩ := exists_reads_iff (p := brace + 1) hw.2
    exact .inr ⟨_, .block ht ((hreads _ _).mpr ⟨rfl, rfl⟩)⟩

end Statement

/-- A stylesheet is read where reading from the start takes all lexemes. -/
theorem parse_eq_ok_iff_reads {t : Text} (h : lexemes t = .ok ls) {s : Stylesheet} :
    Stylesheet.parse t = .ok s ↔ ∃ r, Reads ls 0 r ls.length ∧ s = .ofRun r := by
  obtain ⟨e, he, hstop, hend, hreads⟩ := exists_reads_iff (Nat.zero_le ls.length)
  have hlast := Nest.ofLexemes_rest_eq_nil_iff he hstop
  rw [List.drop_zero] at hend hreads
  rw [hend] at hlast
  rw [Stylesheet.parse, nest, h, Except.map]
  simp only [hreads]
  cases hn : Nest.ofLexemes ls with
  | mk n rest =>
    rw [hn] at hlast
    cases rest with
    | nil =>
      have he : ls.length = e := (hlast.mp rfl).symm
      constructor
      · intro hs
        exact ⟨ofNest n, ⟨rfl, he⟩, (Except.ok.inj hs).symm⟩
      · rintro ⟨_, ⟨rfl, -⟩, rfl⟩
        rfl
    | cons m rest =>
      constructor
      · intro hs
        cases hs
      · rintro ⟨_, ⟨-, he⟩, -⟩
        cases hlast.mpr he.symm

/-- Reading goes on with each statement, wherever it begins, and so it comes to an end. A
stylesheet is read where it ends behind the last lexeme. -/
theorem reading_advances {t : Text} (h : lexemes t = .ok ls) :
    (∀ p ≤ ls.length, ((∃ gap q, turn ls p = .stop gap q) ∨ ∃ q, Advances ls p q) ∧
      ∀ q, Advances ls p q → p < q ∧ q ≤ ls.length) ∧
    (∀ p ≤ ls.length, ∃ e ≤ ls.length, ∀ r q,
      Reads ls p r q ↔ r = ofNest (Nest.ofLexemes (ls.drop p)).1 ∧ q = e) ∧
    (∀ p ≤ ls.length, ∀ r q, Reads ls p r q → p + r.statements.length ≤ q) ∧
    ∀ s, Stylesheet.parse t = .ok s ↔ ∃ r, Reads ls 0 r ls.length ∧ s = .ofRun r := by
  refine ⟨fun p hp => ⟨stop_or_advances hp, fun q hq => hq.lt hp⟩, fun p hp => ?_,
    fun p hp r q hr => (hr.bounds hp).1, fun s => parse_eq_ok_iff_reads h⟩
  obtain ⟨e, he, -, -, hreads⟩ := exists_reads_iff hp
  exact ⟨e, he, hreads⟩

/-- The declaration goes up to the brace and back to the blank in front of it. -/
theorem reading_advances_over_blank :
    let ls : List Lexeme :=
      [⟨.other, ['a']⟩, .openBrace, ⟨.other, ['b']⟩, ⟨.whitespace, [' ']⟩, .closeBrace]
    lexemes "a\x7bb \x7d".toList = .ok ls ∧ skip Lexeme.InPrelude ls 2 = 4 ∧
      Advances ls 2 3 ∧ 2 < 3 ∧ ∃ r, Reads ls 0 r 5 := by
  intro ls
  have h : lexemes "a\x7bb \x7d".toList = .ok ls := rfl
  have ha : Advances ls 2 3 := .statement rfl
  obtain ⟨hturns, -, -, hparse⟩ := reading_advances h
  obtain ⟨r, hr, -⟩ := (hparse _).mp rfl
  exact ⟨h, rfl, ha, ((hturns 2 (by decide)).2 3 ha).1, r, hr⟩

end AnimationScope.Css
