import AnimationScope.Proofs.Formed

/-!
# Reading statement by statement

Statements can be read from place to place among the lexemes of a text. A turn passes over a
gap and a statement, and where a declaration ends without a semicolon it goes back over the
whitespace behind it. Even so each turn ends further on than it began, so that reading comes to
an end from every place.
-/

namespace AnimationScope.Css.Statement

variable {P : Lexeme → Prop} [DecidablePred P] {ls : List Lexeme} {l : Lexeme}
  {start p q stop : Nat}

instance : DecidablePred Lexeme.IsGap := fun _ => inferInstanceAs (Decidable (_ ∨ _))

instance : DecidablePred Lexeme.InPrelude := fun _ => inferInstanceAs (Decidable (_ ∧ _ ∧ _))

/-- The first place from `p` on at which there is no lexeme of the sort. -/
def skip (P : Lexeme → Prop) [DecidablePred P] (ls : List Lexeme) (p : Nat) : Nat :=
  p + ((ls.drop p).takeWhile P).length

/-- Goes back over whitespace, but not behind `start`. -/
def backOff (ls : List Lexeme) (start : Nat) : Nat → Nat
  | 0 => 0
  | stop + 1 =>
    if start ≤ stop ∧ ls[stop]?.any isWhitespace then backOff ls start stop else stop + 1

inductive Turn where
  /-- A gap in front of the end or of a closing brace. -/
  | stop (gap : List Lexeme) (place : Nat)
  | statement (s : Statement) (next : Nat)
  /-- A head whose block opens in a place. -/
  | block (head : Head) (brace : Nat)

/-- Reads a prelude and what ends it. -/
def endTurn (ls : List Lexeme) (gap : List Lexeme) (keyword : Option Lexeme) (start : Nat) : Turn :=
  let stop := skip Lexeme.InPrelude ls start
  match ls[stop]?.map Lexeme.kind with
  | some .openBrace => .block ⟨gap, keyword, ls.extract start stop⟩ stop
  | some .semicolon =>
    .statement (.simple ⟨gap, keyword, ls.extract start stop⟩ ls[stop]?) (stop + 1)
  | _ =>
    let back := if keyword.isSome then stop else backOff ls start stop
    .statement (.simple ⟨gap, keyword, ls.extract start back⟩ none) back

/-- Reads a gap and what stands behind it, up to the block if there is one. -/
def turn (ls : List Lexeme) (p : Nat) : Turn :=
  let start := skip Lexeme.IsGap ls p
  let gap := ls.extract p start
  match ls[start]? with
  | none => .stop gap start
  | some l =>
    match l.kind with
    | .closeBrace => .stop gap start
    | .comment => .statement (.comment gap l) (start + 1)
    | .atKeyword => endTurn ls gap (some l) (start + 1)
    | _ => endTurn ls gap none start

/-- The place behind a block whose statements end in a place. -/
def pastBrace (ls : List Lexeme) (p : Nat) : Nat :=
  if ls[p]?.map Lexeme.kind = some .closeBrace then p + 1 else p

/-- Turn after turn, from one place to another, reads the statements of a sequence. -/
inductive Reads (ls : List Lexeme) : Nat → Run → Nat → Prop
  | stop {p q : Nat} {gap : List Lexeme} (h : turn ls p = .stop gap q) : Reads ls p ⟨[], gap⟩ q
  | statement {p q e : Nat} {s : Statement} {r : Run} (h : turn ls p = .statement s q)
      (hr : Reads ls q r e) : Reads ls p (r.cons s) e
  | block {p brace inner e : Nat} {head : Head} {body r : Run}
      (h : turn ls p = .block head brace) (hb : Reads ls (brace + 1) body inner)
      (hr : Reads ls (pastBrace ls inner) r e) :
      Reads ls p (r.cons (.block head body.statements body.after)) e

/-- A turn that reads a statement, with its block if it has one, leads from one place to
another. -/
inductive Advances (ls : List Lexeme) : Nat → Nat → Prop
  | statement {p q : Nat} {s : Statement} (h : turn ls p = .statement s q) : Advances ls p q
  | block {p brace inner : Nat} {head : Head} {body : Run} (h : turn ls p = .block head brace)
      (hb : Reads ls (brace + 1) body inner) : Advances ls p (pastBrace ls inner)

/-! ## Passing over lexemes -/

theorem drop_of_none (hl : ls[p]? = none) : ls.drop p = [] :=
  List.drop_eq_nil_of_le (List.getElem?_eq_none_iff.mp hl)

theorem drop_of_getElem? (hl : ls[p]? = some l) : ls.drop p = l :: ls.drop (p + 1) := by
  obtain ⟨hp, rfl⟩ := List.getElem?_eq_some_iff.mp hl
  exact List.drop_eq_getElem_cons hp

theorem extract_self (ls : List Lexeme) (p : Nat) : ls.extract p p = [] := by
  rw [List.extract_eq_take_drop, Nat.sub_self, List.take_zero]

theorem length_extract (h : q ≤ ls.length) : (ls.extract p q).length = q - p := by
  rw [List.extract_eq_take_drop, List.length_take, List.length_drop]
  omega

theorem drop_eq_extract_append (h : p ≤ q) : ls.drop p = ls.extract p q ++ ls.drop q := by
  have hq : ls.drop q = (ls.drop p).drop (q - p) := by
    rw [List.drop_drop, Nat.add_sub_cancel' h]
  rw [List.extract_eq_take_drop, hq, List.take_append_drop]

theorem le_skip : p ≤ skip P ls p := Nat.le_add_right ..

theorem skip_le_length (h : p ≤ ls.length) : skip P ls p ≤ ls.length := by
  have hle := (List.takeWhile_prefix (p := fun l => decide (P l)) (l := ls.drop p)).length_le
  rw [List.length_drop] at hle
  unfold skip
  omega

theorem extract_skip : ls.extract p (skip P ls p) = (ls.drop p).takeWhile P := by
  rw [List.extract_eq_take_drop, skip, Nat.add_sub_cancel_left]
  exact (List.prefix_iff_eq_take.mp (List.takeWhile_prefix _)).symm

theorem takeWhile_drop_of_not (h : ∀ l ∈ ls[p]?, ¬ P l) : (ls.drop p).takeWhile P = [] := by
  cases hl : ls[p]? with
  | none => rw [drop_of_none hl, List.takeWhile_nil]
  | some l => rw [drop_of_getElem? hl, List.takeWhile_cons_of_neg (by simpa using h l hl)]

theorem skip_of_not (h : ∀ l ∈ ls[p]?, ¬ P l) : skip P ls p = p := by
  rw [skip, takeWhile_drop_of_not h, List.length_nil, Nat.add_zero]

theorem skip_eq (hpq : p ≤ q) (hq : q ≤ ls.length) (h : ∀ l ∈ ls.extract p q, P l)
    (hn : ∀ l ∈ ls[q]?, ¬ P l) : skip P ls p = q := by
  rw [skip, drop_eq_extract_append hpq, List.takeWhile_append_of_pos (by simpa using h),
    takeWhile_drop_of_not hn, List.append_nil, length_extract hq, Nat.add_sub_cancel' hpq]

theorem skip_of_getElem? (hl : ls[p]? = some l) (h : P l) : skip P ls p = skip P ls (p + 1) := by
  rw [skip, skip, drop_of_getElem? hl, List.takeWhile_cons_of_pos (by simpa using h),
    List.length_cons]
  omega

theorem extract_skip_of_getElem? (hl : ls[p]? = some l) (h : P l) :
    ls.extract p (skip P ls p) = l :: ls.extract (p + 1) (skip P ls (p + 1)) := by
  rw [extract_skip, extract_skip, drop_of_getElem? hl,
    List.takeWhile_cons_of_pos (by simpa using h)]

theorem not_of_skip (hl : ls[skip P ls p]? = some l) : ¬ P l := by
  have hsplit := List.takeWhile_append_dropWhile (p := fun l => decide (P l)) (l := ls.drop p)
  have hdrop : ls.drop (skip P ls p) = (ls.drop p).dropWhile P := by
    rw [skip, ← List.drop_drop]
    exact (congrArg (List.drop _) hsplit).symm.trans List.drop_left
  have hnot := List.head?_dropWhile_not (fun l => decide (P l)) (ls.drop p)
  rw [← hdrop, List.head?_drop, hl] at hnot
  simpa using hnot

/-! ## Going back over whitespace -/

theorem backOff_le : backOff ls start stop ≤ stop := by
  induction stop with
  | zero => exact Nat.le_refl 0
  | succ stop ih =>
    rw [backOff]
    split
    · exact Nat.le_succ_of_le ih
    · exact Nat.le_refl _

theorem lt_backOff (hl : ls[start]? = some l) (hw : l.kind ≠ .whitespace) (h : start < stop) :
    start < backOff ls start stop := by
  induction stop with
  | zero => contradiction
  | succ stop ih =>
    rw [backOff]
    split
    · next hback =>
      have hne : start ≠ stop := by
        rintro rfl
        rw [hl] at hback
        simp [isWhitespace, hw] at hback
      exact ih (by omega)
    · exact h

theorem extract_succ (h : start ≤ stop) (hl : ls[stop]? = some l) :
    ls.extract start (stop + 1) = ls.extract start stop ++ [l] := by
  obtain ⟨hs, rfl⟩ := List.getElem?_eq_some_iff.mp hl
  rw [List.extract_eq_take_drop, List.extract_eq_take_drop, Nat.succ_sub h, List.take_add_one,
    List.getElem?_drop, Nat.add_sub_cancel' h, List.getElem?_eq_getElem hs]
  rfl

theorem backOff_eq (hs : start ≤ stop) (hl : stop ≤ ls.length) :
    backOff ls start stop =
      start + ((ls.extract start stop).rdropWhile isWhitespace).length := by
  induction stop with
  | zero =>
    obtain rfl := Nat.le_zero.mp hs
    simp [backOff]
  | succ stop ih =>
    rcases Nat.lt_or_eq_of_le hs with hlt | rfl
    · have hle : start ≤ stop := Nat.le_of_lt_succ hlt
      obtain ⟨l, hget⟩ : ∃ l, ls[stop]? = some l := ⟨_, List.getElem?_eq_getElem hl⟩
      rw [backOff, extract_succ hle hget, List.rdropWhile_concat, hget, Option.any_some]
      by_cases hw : isWhitespace l
      · rw [if_pos ⟨hle, hw⟩, if_pos hw, ih hle (by omega)]
      · rw [if_neg (fun h => hw h.2), if_neg hw, List.length_append, length_extract (by omega),
          List.length_singleton]
        omega
    · rw [backOff, if_neg (fun h => absurd h.1 (by omega)), extract_self]
      rfl

/-! ## Where a turn leads -/

/-- A turn stays between two places. If it reads a statement, it leaves the first one, and if it
comes to a block, the brace is in front of the second one. -/
def Turn.Within (lo hi : Nat) : Turn → Prop
  | .stop _ q => lo ≤ q ∧ q ≤ hi
  | .statement _ q => lo < q ∧ q ≤ hi
  | .block _ brace => lo ≤ brace ∧ brace < hi

theorem endTurn_within {gap : List Lexeme} {keyword : Option Lexeme} (hp : p ≤ start)
    (hs : start ≤ ls.length) (hk : ∀ k ∈ keyword, p < start)
    (hn : keyword = none → ∃ l, ls[start]? = some l ∧ ¬ l.IsGap ∧ l.kind ≠ .closeBrace) :
    (endTurn ls gap keyword start).Within p ls.length := by
  have hle : start ≤ skip Lexeme.InPrelude ls start := le_skip
  have hlen := skip_le_length (P := Lexeme.InPrelude) hs
  rw [endTurn]
  dsimp only
  split
  · next hkind =>
    obtain ⟨l, hl, -⟩ := Option.map_eq_some_iff.mp hkind
    exact ⟨hp.trans hle, (List.getElem?_eq_some_iff.mp hl).1⟩
  · next hkind =>
    obtain ⟨l, hl, -⟩ := Option.map_eq_some_iff.mp hkind
    exact ⟨Nat.lt_succ_of_le (hp.trans hle), (List.getElem?_eq_some_iff.mp hl).1⟩
  · next hopen hsemi =>
    cases keyword with
    | some k => exact ⟨(hk k rfl).trans_le hle, hlen⟩
    | none =>
      obtain ⟨l, hl, hgap, hclose⟩ := hn rfl
      -- The first lexeme is no open brace, since that would end the prelude here.
      have hpre : l.InPrelude := by
        by_contra hpre
        have hstop : skip Lexeme.InPrelude ls start = start :=
          skip_of_not (by simpa [hl] using hpre)
        rw [hstop, hl] at hopen
        exact hpre ⟨fun h => hgap (.inr h), by simpa using hopen, hclose⟩
      have hlt : start < skip Lexeme.InPrelude ls start := by
        rw [skip_of_getElem? hl hpre]
        exact le_skip
      exact ⟨hp.trans_lt (lt_backOff hl (fun h => hgap (.inl h)) hlt), backOff_le.trans hlen⟩

theorem turn_within (h : p ≤ ls.length) : (turn ls p).Within p ls.length := by
  have hle : p ≤ skip Lexeme.IsGap ls p := le_skip
  have hlen := skip_le_length (P := Lexeme.IsGap) h
  rw [turn]
  cases hl : ls[skip Lexeme.IsGap ls p]? with
  | none => exact ⟨hle, hlen⟩
  | some l =>
    have hlt := (List.getElem?_eq_some_iff.mp hl).1
    have hgap := not_of_skip hl
    dsimp only
    split
    · exact ⟨hle, hlen⟩
    · exact ⟨Nat.lt_succ_of_le hle, hlt⟩
    · exact endTurn_within (Nat.le_succ_of_le hle) hlt (fun _ _ => Nat.lt_succ_of_le hle)
        (fun h => by cases h)
    · next hclose _ _ =>
      exact endTurn_within hle hlen (fun _ h => by cases h) fun _ => ⟨l, hl, hgap, hclose⟩

/-! ## Where reading leads -/

theorem le_pastBrace : p ≤ pastBrace ls p := by
  unfold pastBrace
  split
  · exact Nat.le_succ p
  · exact Nat.le_refl p

theorem pastBrace_le_length (h : p ≤ ls.length) : pastBrace ls p ≤ ls.length := by
  unfold pastBrace
  split
  · next hkind =>
    obtain ⟨l, hl, -⟩ := Option.map_eq_some_iff.mp hkind
    exact (List.getElem?_eq_some_iff.mp hl).1
  · exact h

theorem Reads.bounds {r : Run} {e : Nat} (h : Reads ls p r e) (hp : p ≤ ls.length) :
    p + r.statements.length ≤ e ∧ e ≤ ls.length := by
  induction h with
  | stop h =>
    have hw := turn_within hp
    rw [h] at hw
    exact hw
  | statement h _ ih =>
    have hw := turn_within hp
    rw [h] at hw
    obtain ⟨hlt, hle⟩ := hw
    obtain ⟨hcount, hlen⟩ := ih hle
    refine ⟨?_, hlen⟩
    rw [Run.cons, List.length_cons]
    omega
  | @block p brace inner e head body r h _ _ ihb ihr =>
    have hw := turn_within hp
    rw [h] at hw
    obtain ⟨hlt, hle⟩ := hw
    obtain ⟨hinner, hend⟩ := ihb hle
    obtain ⟨hcount, hlen⟩ := ihr (pastBrace_le_length hend)
    refine ⟨?_, hlen⟩
    have hpast : inner ≤ pastBrace ls inner := le_pastBrace
    rw [Run.cons, List.length_cons]
    omega

theorem Advances.lt (h : Advances ls p q) (hp : p ≤ ls.length) : p < q ∧ q ≤ ls.length := by
  have hw := turn_within hp
  cases h with
  | statement h =>
    rw [h] at hw
    exact hw
  | @block brace inner _ _ h hb =>
    rw [h] at hw
    obtain ⟨hlt, hle⟩ := hw
    obtain ⟨hinner, hend⟩ := hb.bounds hle
    have hpast : inner ≤ pastBrace ls inner := le_pastBrace
    exact ⟨by omega, pastBrace_le_length hend⟩

theorem Reads.unique {r r' : Run} {e e' : Nat} (h : Reads ls p r e) (h' : Reads ls p r' e') :
    r = r' ∧ e = e' := by
  induction h generalizing r' e' with
  | stop h =>
    cases h' with
    | stop h' =>
      obtain ⟨rfl, rfl⟩ := Turn.stop.inj (h.symm.trans h')
      exact ⟨rfl, rfl⟩
    | statement h' => cases h.symm.trans h'
    | block h' => cases h.symm.trans h'
  | statement h _ ih =>
    cases h' with
    | statement h' hr =>
      obtain ⟨rfl, rfl⟩ := Turn.statement.inj (h.symm.trans h')
      obtain ⟨rfl, rfl⟩ := ih hr
      exact ⟨rfl, rfl⟩
    | stop h' => cases h.symm.trans h'
    | block h' => cases h.symm.trans h'
  | block h _ _ ihb ihr =>
    cases h' with
    | block h' hb hr =>
      obtain ⟨rfl, rfl⟩ := Turn.block.inj (h.symm.trans h')
      obtain ⟨rfl, rfl⟩ := ihb hb
      obtain ⟨rfl, rfl⟩ := ihr hr
      exact ⟨rfl, rfl⟩
    | stop h' => cases h.symm.trans h'
    | statement h' => cases h.symm.trans h'

end AnimationScope.Css.Statement
