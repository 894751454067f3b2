import AnimationScope.Css.Token
import Mathlib.Tactic.Common

/-!
# How tokens start

The first character of a token, and at most one more, decides which construct
it is. Each way to start has an equation for the token, and the kind of a token
tells how its text looks.
-/

namespace AnimationScope.Css

def isQuote (c : Char) : Bool := c == '\x22' || c == '\x27'

namespace Token

/-- The ways in which the text `c :: r` starts a token. -/
inductive Start (c : Char) (r : Text) : Prop
  | space (h : isSpace c = true)
  | quote (h : isQuote c = true)
  | comment (hc : c = '/') (s : Text) (hr : r = '*' :: s)
  | hash (h : c = '#')
  | atSign (h : c = '@')
  | mark (k : Kind) (h : punctuation? c = some k)
  /-- A number, an identifier or an operator. -/
  | plain (hspace : isSpace c = false) (hquote : isQuote c = false)
      (hcomment : c = '/' → r.head? ≠ some '*') (hhash : c ≠ '#') (hat : c ≠ '@')
      (hmark : punctuation? c = none)

theorem start (c : Char) (r : Text) : Start c r := by
  by_cases hspace : isSpace c = true
  · exact .space hspace
  by_cases hquote : isQuote c = true
  · exact .quote hquote
  by_cases hcomment : c = '/' ∧ r.head? = some '*'
  · obtain ⟨s, hs⟩ := List.head?_eq_some_iff.mp hcomment.2
    exact .comment hcomment.1 s hs
  by_cases hhash : c = '#'
  · exact .hash hhash
  by_cases hat : c = '@'
  · exact .atSign hat
  cases hmark : punctuation? c with
  | some k => exact .mark k hmark
  | none =>
    exact .plain (Bool.eq_false_iff.mpr hspace) (Bool.eq_false_iff.mpr hquote)
      (fun h h' => hcomment ⟨h, h'⟩) hhash hat hmark

variable {c : Char} {r : Text}

theorem first_space (h : isSpace c = true) :
    first c r = (.whitespace, (r.takeWhile isSpace).length + 1) := by
  rw [first, if_pos h]

theorem isQuote_cases (h : isQuote c = true) : c = '\x22' ∨ c = '\x27' := by
  simpa [isQuote] using h

theorem first_quote (h : isQuote c = true) :
    first c r =
      match quotedLength c 0 r with
      | some n => (.string, n + 1)
      | none => (.unclosedString, r.length + 1) := by
  rcases isQuote_cases h with rfl | rfl <;> simp only [first] <;> rfl

theorem first_comment (s : Text) :
    first '/' ('*' :: s) =
      match commentLength s with
      | some n => (.comment, n + 2)
      | none => (.unclosedComment, s.length + 2) := by
  simp only [first]
  rfl

theorem first_hash :
    first '#' r =
      (.other, if startsIdent r || headIs (fun d => d.isDigit || d == '-') r
        then nameLength 0 r + 1 else 1) := by
  simp [first, isSpace, isNewline]

theorem first_at :
    first '@' r = if startsIdent r then (.atKeyword, nameLength 0 r + 1) else (.other, 1) := by
  simp [first, isSpace, isNewline]

theorem mem_marks {k : Kind} (h : punctuation? c = some k) :
    (c, k) ∈ [(':', Kind.colon), (';', .semicolon), (',', .comma), ('!', .bang),
      ('(', .opening .round), ('[', .opening .square), ('{', .opening .curly),
      (')', .closing .round), (']', .closing .square), ('}', .closing .curly)] := by
  unfold punctuation? at h
  split_ifs at h <;> simp_all

theorem first_mark {k : Kind} (h : punctuation? c = some k) : first c r = (k, 1) := by
  have hm := mem_marks h
  simp only [List.mem_cons, Prod.mk.injEq, List.not_mem_nil, or_false] at hm
  rcases hm with h | h | h | h | h | h | h | h | h | h <;> obtain ⟨rfl, rfl⟩ := h <;>
    simp [first, isSpace, isNewline, punctuation?]

theorem first_plain (hspace : isSpace c = false) (hquote : isQuote c = false)
    (hcomment : c = '/' → r.head? ≠ some '*') (hhash : c ≠ '#') (hat : c ≠ '@')
    (hmark : punctuation? c = none) :
    first c r =
      if startsNumber (c :: r) then (.other, numericLength (c :: r))
      else if operatorLength (c :: r) = 1 && startsIdent (c :: r) then identLike (c :: r)
      else (.other, operatorLength (c :: r)) := by
  have h1 : c ≠ '\x22' := by rintro rfl; simp [isQuote] at hquote
  have h2 : c ≠ '\x27' := by rintro rfl; simp [isQuote] at hquote
  have h3 : (decide (c = '/') && headIs (fun x => x == '*') r) = false := by
    rw [Bool.and_eq_false_iff]
    by_cases hc : c = '/'
    · right
      cases r with
      | nil => rfl
      | cons a r => simpa [headIs] using hcomment hc
    · left
      simpa using hc
  simp [first, hspace, h1, h2, h3, hhash, hat, hmark]

theorem fst_identLike (t : Text) :
    (identLike t).1 = .other ∨ (identLike t).1 = .opening .round := by
  simp only [identLike]
  split
  · split
    · exact .inl rfl
    · exact .inr rfl
  · exact .inl rfl

def Kind.Spells : Kind → Text → Prop
  | .whitespace, t => ∀ c ∈ t, isSpace c = true
  | .comment, t | .unclosedComment, t => ∃ r, t = '/' :: '*' :: r
  | .string, t | .unclosedString, t => ∃ q r, isQuote q = true ∧ t = q :: r
  | .atKeyword, t => ∃ r, t = '@' :: r
  | .colon, t => t = [':']
  | .semicolon, t => t = [';']
  | .comma, t => t = [',']
  | .bang, t => t = ['!']
  | .opening .square, t => t = ['[']
  | .opening .curly, t => t = ['{']
  | .closing .round, t => t = [')']
  | .closing .square, t => t = [']']
  | .closing .curly, t => t = ['}']
  | .opening .round, t | .other, t => t.head?.all fun c => !isSpace c

theorem first_spells (c : Char) (r : Text) :
    (first c r).1.Spells (c :: r.take ((first c r).2 - 1)) := by
  have other : ∀ n, isSpace c = false → Kind.Spells .other (c :: r.take n) := by
    intro n h
    simp [Kind.Spells, h]
  rcases start c r with h | h | ⟨rfl, s, rfl⟩ | rfl | rfl | ⟨k, h⟩ | ⟨hs, hq, hc, hh, ha, hm⟩
  · rw [first_space h]
    intro a ha
    have htake : r.take (r.takeWhile isSpace).length = r.takeWhile isSpace :=
      List.prefix_iff_eq_take.mp (List.takeWhile_prefix isSpace) |>.symm
    rw [Nat.add_sub_cancel, htake, List.mem_cons] at ha
    rcases ha with rfl | ha
    · exact h
    · exact List.all_eq_true.mp List.all_takeWhile a ha
  · rw [first_quote h]
    split <;> exact ⟨c, _, h, rfl⟩
  · rw [first_comment]
    split <;> exact ⟨_, rfl⟩
  · rw [first_hash]
    exact other _ rfl
  · rw [first_at]
    split
    · exact ⟨_, rfl⟩
    · exact other _ rfl
  · rw [first_mark h]
    have hm := mem_marks h
    simp only [List.mem_cons, Prod.mk.injEq, List.not_mem_nil, or_false] at hm
    rcases hm with h | h | h | h | h | h | h | h | h | h <;> obtain ⟨rfl, rfl⟩ := h <;> rfl
  · rw [first_plain hs hq hc hh ha hm]
    split_ifs
    · exact other _ hs
    · rcases fst_identLike (c :: r) with h | h <;> rw [h]
      · exact other _ hs
      · exact other _ hs
    · exact other _ hs

@[simp] theorem tokens_nil : tokens [] = [] := rfl

theorem forall_mem_tokens {P : Token → Prop}
    (h : ∀ c r, P ⟨(first c r).1, c :: r.take ((first c r).2 - 1)⟩) (s : Text) :
    ∀ t ∈ tokens s, P t := by
  induction hn : s.length using Nat.strongRecOn generalizing s with
  | ind n ih =>
    cases s with
    | nil => simp
    | cons c r =>
      rw [tokens_cons, List.forall_mem_cons]
      refine ⟨h c r, ih _ ?_ _ rfl⟩
      subst hn
      simp only [List.length_drop, List.length_cons]
      omega

theorem text_ne_nil_of_mem {t : Token} {s : Text} (h : t ∈ tokens s) : t.text ≠ [] :=
  forall_mem_tokens (P := fun t => t.text ≠ []) (fun _ _ => List.cons_ne_nil _ _) s t h

theorem spells_of_mem {t : Token} {s : Text} (h : t ∈ tokens s) : t.kind.Spells t.text :=
  forall_mem_tokens (P := fun t => t.kind.Spells t.text) first_spells s t h

end Token

end AnimationScope.Css
