import AnimationScope.Proofs.Ends
import AnimationScope.Text.Blank

/-!
# Texts without marks

A text of name characters, blanks and escapes is cut into spaces and other lexemes
that are no marks, up to whatever mark it stands in front of.
-/

namespace AnimationScope.Css

/-- A text of name characters, blanks and escapes. -/
inductive Unmarked : Text → Prop
  | nil : Unmarked []
  | char {c : Char} {r : Text} (hc : isNameChar c = true ∨ Text.isBlank c = true)
      (hr : Unmarked r) : Unmarked (c :: r)
  | escape (c : Char) {r : Text} (hr : Unmarked r) : Unmarked ('\\' :: c :: r)

/-- The text is over or goes on with a mark that ends a name. -/
def AtMark (rest : Text) : Prop := ∀ d ∈ rest.head?, isBarrier d = true ∧ isSpace d = false

variable {u rest t : Text} {c : Char} {n : Nat}

namespace Unmarked

theorem append {v : Text} (hu : Unmarked u) (hv : Unmarked v) : Unmarked (u ++ v) := by
  induction hu with
  | nil => exact hv
  | char hc _ ih => exact .char hc ih
  | escape c _ ih => exact .escape c ih

theorem of_cons (h : Unmarked (c :: u)) (hc : c ≠ '\\') : Unmarked u := by
  cases h with
  | char _ hr => exact hr
  | escape c hr => exact absurd rfl hc

/-- Only between a backslash and what it escapes the text cannot be divided. -/
theorem drop (h : Unmarked u) (hn : ∀ x ∈ u.take n, x ≠ '\\') : Unmarked (u.drop n) := by
  induction n generalizing u with
  | zero => exact h
  | succ n ih =>
    cases u with
    | nil => exact .nil
    | cons c u =>
      apply ih (h.of_cons (hn c (by simp)))
      intro x hx
      exact hn x (by simp [hx])

theorem head_cases (h : Unmarked (c :: u)) :
    isNameChar c = true ∨ Text.isBlank c = true ∨ c = '\\' := by
  cases h with
  | char hc _ => exact hc.imp_right .inl
  | escape c _ => exact .inr (.inr rfl)

end Unmarked

theorem unmarked_of_blank {t : Text} (h : ∀ c ∈ t, Text.isBlank c = true) : Unmarked t := by
  induction t with
  | nil => exact .nil
  | cons c t ih =>
    exact .char (.inr (h c List.mem_cons_self)) (ih fun d hd => h d (List.mem_cons_of_mem _ hd))

theorem unmarked_of_nameChar {t : Text} (h : ∀ c ∈ t, isNameChar c = true) : Unmarked t := by
  induction t with
  | nil => exact .nil
  | cons c t ih =>
    exact .char (.inl (h c List.mem_cons_self)) (ih fun d hd => h d (List.mem_cons_of_mem _ hd))

/-- Characters that are in an unmarked text only behind a backslash. -/
def isMark (c : Char) : Bool := !isNameChar c && !Text.isBlank c && c != '\\'

theorem Unmarked.isMark_head (h : Unmarked (c :: u)) : isMark c = false := by
  rcases h.head_cases with h | h | rfl
  · simp [isMark, h]
  · simp [isMark, h]
  · decide

theorem Unmarked.head_ne (h : Unmarked (c :: u)) {d : Char} (hd : isMark d = true) : c ≠ d := by
  rintro rfl
  rw [h.isMark_head] at hd
  cases hd

/-- What is made of characters that do not begin the rest ends in front of it. -/
theorem length_take_of_forall {p : Char → Prop} (hp : ∀ x ∈ (u ++ rest).take n, p x)
    (hd : ∀ d ∈ rest.head?, ¬ p d) :
    min n (u ++ rest).length = (u.take n).length ∧ (u ++ rest).drop n = u.drop n ++ rest := by
  rcases Nat.lt_or_ge u.length n with hn | hn
  · cases rest with
    | nil => simp
    | cons d y =>
      refine absurd (hp d ?_) (hd d rfl)
      rw [List.take_append, List.mem_append]
      right
      obtain ⟨m, hm⟩ := Nat.exists_eq_succ_of_ne_zero (Nat.sub_ne_zero_of_lt hn)
      rw [hm]
      exact List.mem_cons_self
  · refine ⟨?_, List.drop_append_of_le_length hn⟩
    rw [List.length_take, List.length_append]
    omega

/-! ## Names -/

theorem AtMark.barrier (h : AtMark rest) {d : Char} (hd : d ∈ rest.head?) : Barrier d :=
  Barrier.of_isBarrier (h d hd).1

theorem AtMark.nameLength_eq (h : AtMark rest) : nameLength 0 rest = 0 := by
  cases rest with
  | nil => rfl
  | cons d y =>
    have hb := h.barrier (d := d) rfl
    simp [nameLength, hb.nameChar, hb.unlike '\\' (by simp)]

theorem isNewline_blank (h : isNewline c = true) : Text.isBlank c = true := by
  obtain (rfl | rfl) | rfl : (c = '\n' ∨ c = '\r') ∨ c = '\x0c' := by simpa [isNewline] using h
  all_goals decide

theorem isSpace_blank (h : isSpace c = true) : Text.isBlank c = true := by
  simp only [isSpace, Bool.or_eq_true, beq_iff_eq] at h
  rcases h with (rfl | rfl) | h
  · decide
  · decide
  · exact isNewline_blank h

/-- What an escape passes over stays inside the text. -/
theorem Unmarked.exists_of_escape (hu : Unmarked u) (hr : AtMark rest) (hc : isNewline c = false) :
    ∃ m v, u = m ++ v ∧ Unmarked v ∧
      min (escapeLength (c :: (u ++ rest))) (c :: (u ++ rest)).length = m.length + 1 ∧
      (c :: (u ++ rest)).drop (escapeLength (c :: (u ++ rest))) = v ++ rest := by
  have hs : stringEscapeLength (c :: (u ++ rest)) = escapeLength (c :: (u ++ rest)) := by
    rw [stringEscapeLength, headIs, hc]
    rfl
  have hpos := stringEscapeLength_pos c (u ++ rest)
  rw [hs] at hpos
  obtain ⟨k, hk⟩ := Nat.exists_eq_succ_of_ne_zero (Nat.ne_of_gt hpos)
  rw [hk]
  have hmem : ∀ x ∈ (u ++ rest).take k, isSpace x = true ∨ (Text.hexValue? x).isSome = true := by
    intro x hx
    apply mem_stringEscape (t := c :: (u ++ rest))
    rw [hs, hk]
    exact hx
  have hrest : ∀ d ∈ rest.head?, ¬ (isSpace d = true ∨ (Text.hexValue? d).isSome = true) := by
    intro d hd
    simp [(hr d hd).2, (hr.barrier hd).hex]
  obtain ⟨h1, h2⟩ := length_take_of_forall hmem hrest
  refine ⟨u.take k, u.drop k, (List.take_append_drop k u).symm, hu.drop ?_, ?_, ?_⟩
  · intro x hx
    have hx' : x ∈ (u ++ rest).take k := by
      rw [List.take_append]
      exact List.mem_append_left _ hx
    rintro rfl
    have hno : isSpace '\\' = false ∧ Text.hexValue? '\\' = none := by decide
    simpa [hno.1, hno.2] using hmem _ hx'
  · rw [← h1, List.length_cons]
    omega
  · rw [List.drop_succ_cons, h2]

theorem Unmarked.drop_name (hu : Unmarked u) (hr : AtMark rest) :
    nameLength 0 (u ++ rest) ≤ u.length ∧ Unmarked (u.drop (nameLength 0 (u ++ rest))) := by
  induction hl : u.length using Nat.strongRecOn generalizing u with
  | ind n ih =>
    subst hl
    cases hu with
    | nil =>
      rw [List.nil_append, hr.nameLength_eq]
      exact ⟨Nat.le_refl _, .nil⟩
    | @char c r hc hu =>
      rw [List.cons_append, nameLength]
      split_ifs with hn hb
      · obtain ⟨h1, h2⟩ := ih r.length (by simp) hu rfl
        exact ⟨by rw [List.length_cons]; omega, by rwa [List.drop_succ_cons]⟩
      · obtain rfl : c = '\\' := by
          simp only [Bool.and_eq_true, decide_eq_true_eq] at hb
          exact hb.1
        have hno : isNameChar '\\' = false ∧ Text.isBlank '\\' = false := by decide
        simp [hno.1, hno.2] at hc
      · exact ⟨Nat.zero_le _, .char hc hu⟩
    | @escape c r hu =>
      rw [List.cons_append, nameLength, if_neg (by decide)]
      split_ifs with hb
      · have hnl : isNewline c = false := by simpa [headIs] using hb
        obtain ⟨m, v, rfl, hv, hlen, hdrop⟩ := hu.exists_of_escape hr hnl
        obtain ⟨h1, h2⟩ := ih v.length (by simp only [List.length_cons, List.length_append]; omega)
          hv rfl
        rw [List.cons_append, nameLength_skip, hdrop, hlen]
        constructor
        · simp only [List.length_cons, List.length_append]
          omega
        · rw [List.drop_succ_cons, Nat.add_right_comm, List.drop_succ_cons, ← List.drop_drop,
            List.drop_left]
          exact h2
      · exact ⟨Nat.zero_le _, .escape c hu⟩

/-! ## Numbers -/

def isNumberChar (c : Char) : Bool :=
  c.isDigit || isSign c || c == '.' || c == 'e' || c == 'E'

theorem mem_take_add {p : Char → Prop} {m k : Nat} (hm : ∀ x ∈ t.take m, p x)
    (hk : ∀ x ∈ (t.drop m).take k, p x) : ∀ x ∈ t.take (m + k), p x := by
  intro x hx
  rw [List.take_add, List.mem_append] at hx
  exact hx.elim (hm x) (hk x)

theorem isNumberChar_of_mem_digits (t : Text) :
    ∀ x ∈ t.take (digitsLength t), isNumberChar x = true := by
  intro x hx
  have htake : t.take (t.takeWhile Char.isDigit).length = t.takeWhile Char.isDigit :=
    (List.prefix_iff_eq_take.mp (List.takeWhile_prefix _)).symm
  rw [digitsLength, htake] at hx
  have hd : x.isDigit = true := List.all_eq_true.mp List.all_takeWhile x hx
  rw [isNumberChar, hd]
  rfl

theorem isNumberChar_of_mem_sign (t : Text) :
    ∀ x ∈ t.take (signLength t), isNumberChar x = true := by
  intro x hx
  cases t with
  | nil => simp at hx
  | cons c r =>
    rw [signLength] at hx
    split_ifs at hx with hs
    · obtain rfl : x = c := by simpa using hx
      have hsign : isSign x = true := hs
      simp [isNumberChar, hsign]
    · simp at hx

theorem isNumberChar_of_mem_fraction (t : Text) :
    ∀ x ∈ t.take (fractionLength t), isNumberChar x = true := by
  intro x hx
  unfold fractionLength at hx
  split at hx
  · split_ifs at hx
    · rw [List.take_succ_cons, List.mem_cons] at hx
      rcases hx with rfl | hx
      · decide
      · exact isNumberChar_of_mem_digits _ x hx
    · simp at hx
  · simp at hx

theorem isNumberChar_of_mem_power (t : Text) :
    ∀ x ∈ t.take (powerLength t), isNumberChar x = true := by
  intro x hx
  cases t with
  | nil => simp at hx
  | cons c r =>
    rw [powerLength] at hx
    split_ifs at hx with hs
    · rw [List.take_succ_cons, List.mem_cons] at hx
      rcases hx with rfl | hx
      · simp [isNumberChar, hs]
      · exact isNumberChar_of_mem_digits _ x hx
    · simp at hx
    · exact isNumberChar_of_mem_digits _ x hx

theorem isNumberChar_of_mem_exponent (t : Text) :
    ∀ x ∈ t.take (exponentLength t), isNumberChar x = true := by
  intro x hx
  cases t with
  | nil => simp at hx
  | cons c r =>
    rw [exponentLength] at hx
    split_ifs at hx with he
    · rw [List.take_succ_cons, List.mem_cons] at hx
      rcases hx with rfl | hx
      · simp only [Bool.and_eq_true, Bool.or_eq_true, beq_iff_eq] at he
        rcases he.1 with rfl | rfl <;> decide
      · exact isNumberChar_of_mem_power _ x hx
    · simp at hx

theorem isNumberChar_of_mem_number (t : Text) :
    ∀ x ∈ t.take (numberLength t), isNumberChar x = true :=
  mem_take_add (mem_take_add (mem_take_add (isNumberChar_of_mem_sign t)
    (isNumberChar_of_mem_digits _)) (isNumberChar_of_mem_fraction _))
      (isNumberChar_of_mem_exponent _)

theorem Unmarked.drop_number (hu : Unmarked u) (hr : AtMark rest) :
    numericLength (u ++ rest) ≤ u.length ∧ Unmarked (u.drop (numericLength (u ++ rest))) := by
  have hn := numberLength_le (u ++ rest)
  have hmem := isNumberChar_of_mem_number (u ++ rest)
  rw [numericLength_eq]
  generalize numberLength (u ++ rest) = n at hn hmem ⊢
  have hrest : ∀ d ∈ rest.head?, ¬ isNumberChar d = true := by
    intro d hd
    have hb := hr.barrier hd
    simp [isNumberChar, hb.digit, hb.sign, hb.unlike '.' (by simp), hb.unlike 'e' (by simp),
      hb.unlike 'E' (by simp)]
  obtain ⟨h1, h2⟩ := length_take_of_forall hmem hrest
  rw [Nat.min_eq_left hn, List.length_take] at h1
  have hdrop : Unmarked (u.drop n) := by
    apply hu.drop
    rintro x hx rfl
    have hx' : '\\' ∈ (u ++ rest).take n := by
      rw [List.take_append]
      exact List.mem_append_left _ hx
    exact absurd (hmem _ hx') (by decide)
  have hunit : unitLength (u.drop n ++ rest) ≤ (u.drop n).length ∧
      Unmarked ((u.drop n).drop (unitLength (u.drop n ++ rest))) := by
    have hpercent : headIs (· == '%') (u.drop n ++ rest) = false := by
      cases hv : u.drop n with
      | nil =>
        cases rest with
        | nil => rfl
        | cons d y => simpa [headIs] using (hr.barrier (d := d) rfl).unlike '%' (by simp)
      | cons c v =>
        rw [hv] at hdrop
        simpa [headIs] using hdrop.head_ne (d := '%') (by decide)
    rw [unitLength, hpercent, if_neg (by simp)]
    split_ifs
    · exact hdrop.drop_name hr
    · exact ⟨Nat.zero_le _, hdrop⟩
  rw [h2]
  rw [List.length_drop] at hunit
  refine ⟨by omega, ?_⟩
  rw [← List.drop_drop]
  exact hunit.2

/-! ## Tokens -/

theorem Unmarked.operatorLength (hu : Unmarked (c :: u)) (hr : AtMark rest) :
    Token.operatorLength (c :: (u ++ rest)) = 1 := by
  rw [Token.operatorLength_cons, if_neg, if_neg, ite_eq_right_iff]
  · intro _
    rw [if_neg]
    intro hc
    simp only [List.mem_cons, List.not_mem_nil, or_false] at hc
    rcases hc with rfl | rfl | rfl | rfl | rfl <;> exact hu.head_ne (by decide) rfl
  · rintro ⟨rfl, h⟩
    have hu := hu.of_cons (by decide)
    have hb : ∀ d ∈ rest.head?, d ≠ '-' ∧ d ≠ '>' := fun d hd =>
      ⟨(hr.barrier hd).unlike '-' (by simp), (hr.barrier hd).unlike '>' (by simp)⟩
    rcases u with _ | ⟨a, _ | ⟨b, u⟩⟩
    · cases rest with
      | nil => cases h
      | cons d y => exact (hb d rfl).1 (List.cons.inj h).1
    · cases rest with
      | nil => cases h
      | cons d y =>
        have htake : [a, d] = ['-', '>'] := h
        exact (hb d rfl).2 (by simpa using (List.cons.inj htake).2)
    · obtain ⟨rfl, rfl⟩ : a = '-' ∧ b = '>' := by simpa using h
      exact (hu.of_cons (by decide)).head_ne (d := '>') (by decide) rfl
  · rintro ⟨rfl, -⟩
    exact hu.head_ne (d := '<') (by decide) rfl

theorem Unmarked.identLike (hu : Unmarked u) (hr : AtMark rest) :
    Token.identLike (u ++ rest) = (.other, nameLength 0 (u ++ rest)) := by
  obtain ⟨hn, hdrop⟩ := hu.drop_name hr
  simp only [Token.identLike]
  rw [List.drop_append_of_le_length hn]
  split
  · next r hparen =>
    exfalso
    cases hv : u.drop (nameLength 0 (u ++ rest)) with
    | nil =>
      rw [hv, List.nil_append] at hparen
      exact (hr.barrier (d := '(') (by rw [hparen]; rfl)).unlike '(' (by simp) rfl
    | cons c v =>
      rw [hv] at hdrop hparen
      exact hdrop.head_ne (d := '(') (by decide) (List.cons.inj hparen).1
  · rfl

theorem Unmarked.drop_spaces (hu : Unmarked u) (hr : AtMark rest) :
    ((u ++ rest).takeWhile isSpace).length ≤ u.length ∧
      Unmarked (u.drop ((u ++ rest).takeWhile isSpace).length) := by
  have hle : ((u ++ rest).takeWhile isSpace).length ≤ (u ++ rest).length :=
    (List.takeWhile_prefix _).length_le
  have hmem : ∀ x ∈ (u ++ rest).take ((u ++ rest).takeWhile isSpace).length, isSpace x = true := by
    rw [← List.prefix_iff_eq_take.mp (List.takeWhile_prefix _)]
    exact List.all_eq_true.mp List.all_takeWhile
  have hrest : ∀ d ∈ rest.head?, ¬ isSpace d = true := by
    intro d hd
    simp [(hr d hd).2]
  obtain ⟨h, -⟩ := length_take_of_forall hmem hrest
  rw [Nat.min_eq_left hle, List.length_take] at h
  refine ⟨by omega, hu.drop ?_⟩
  rintro x hx rfl
  have hx' : '\\' ∈ (u ++ rest).take ((u ++ rest).takeWhile isSpace).length := by
    rw [List.take_append]
    exact List.mem_append_left _ hx
  exact absurd (hmem _ hx') (by decide)

/-- A token of the text begins with a space, or it is a number, an identifier or an operator. -/
theorem Unmarked.first_plain (hu : Unmarked (c :: u)) (hs : isSpace c = false) (t : Text) :
    Token.first c t =
      if startsNumber (c :: t) then (.other, numericLength (c :: t))
      else if Token.operatorLength (c :: t) = 1 && startsIdent (c :: t) then
        Token.identLike (c :: t)
      else (.other, Token.operatorLength (c :: t)) := by
  rcases Token.start c t with h | h | ⟨rfl, s, -⟩ | rfl | rfl | ⟨k, h⟩ | ⟨-, hq, hc, hh, ha, hm⟩
  · rw [hs] at h
    cases h
  · rcases Token.isQuote_cases h with rfl | rfl
    · exact absurd rfl (hu.head_ne (d := '\x22') (by decide))
    · exact absurd rfl (hu.head_ne (d := '\x27') (by decide))
  · exact absurd rfl (hu.head_ne (d := '/') (by decide))
  · exact absurd rfl (hu.head_ne (d := '#') (by decide))
  · exact absurd rfl (hu.head_ne (d := '@') (by decide))
  · have hm := Token.mem_marks h
    simp only [List.mem_cons, Prod.mk.injEq, List.not_mem_nil, or_false] at hm
    rcases hm with h | h | h | h | h | h | h | h | h | h <;> obtain ⟨rfl, rfl⟩ := h <;>
      exact absurd rfl (hu.head_ne (by decide))
  · exact Token.first_plain hs hq hc hh ha hm

/-- The first token ends where the text can be divided. -/
theorem Unmarked.drop_first (hu : Unmarked (c :: u)) (hr : AtMark rest) :
    (Token.first c (u ++ rest)).2 - 1 ≤ u.length ∧
      Unmarked (u.drop ((Token.first c (u ++ rest)).2 - 1)) ∧
      ((Token.first c (u ++ rest)).1 = .whitespace ∨ (Token.first c (u ++ rest)).1 = .other) := by
  -- What is measured from the first character on may only be empty if that is no backslash.
  have behind : ∀ n, (c = '\\' → 0 < n) → n ≤ (c :: u).length ∧ Unmarked ((c :: u).drop n) →
      n - 1 ≤ u.length ∧ Unmarked (u.drop (n - 1)) := by
    rintro n hn ⟨h1, h2⟩
    cases n with
    | zero => exact ⟨Nat.zero_le _, hu.of_cons fun hc => Nat.lt_irrefl 0 (hn hc)⟩
    | succ n => exact ⟨Nat.le_of_succ_le_succ h1, h2⟩
  by_cases h : isSpace c = true
  · rw [Token.first_space h]
    have hne : c ≠ '\\' := by
      rintro rfl
      exact absurd h (by decide)
    obtain ⟨h1, h2⟩ := (hu.of_cons hne).drop_spaces hr
    exact ⟨h1, h2, .inl rfl⟩
  · rw [hu.first_plain (Bool.eq_false_iff.mpr h), hu.operatorLength hr, ← List.cons_append]
    split_ifs with hnum hid
    · have hne : c ≠ '\\' := by
        rintro rfl
        simp [startsNumber, isSign, startsUnsigned, headIs] at hnum
      obtain ⟨h1, h2⟩ := behind _ (fun hc => absurd hc hne) (hu.drop_number hr)
      exact ⟨h1, h2, .inr rfl⟩
    · rw [hu.identLike hr]
      have hpos : c = '\\' → 0 < nameLength 0 (c :: u ++ rest) := by
        rintro rfl
        have hb : headIs isNewline (u ++ rest) = false := by simpa [startsIdent] using hid
        rw [List.cons_append, nameLength, if_neg (by decide), hb]
        exact Nat.succ_pos _
      obtain ⟨h1, h2⟩ := behind _ hpos (hu.drop_name hr)
      exact ⟨h1, h2, .inr rfl⟩
    · refine ⟨Nat.zero_le _, ?_, .inr rfl⟩
      cases hu with
      | char _ hu => exact hu
      | escape d hu =>
        have hnl : isNewline d = true := by simpa [startsIdent, headIs] using hid
        exact .char (.inr (isNewline_blank hnl)) hu

/-- An unmarked text is cut into spaces and into tokens that are no marks. -/
theorem Unmarked.exists_cut (hu : Unmarked u) (hr : AtMark rest) :
    ∃ ts, Token.Cut ts rest ∧ Token.join ts = u ∧
      ∀ t ∈ ts, t.kind = .whitespace ∨ t.kind = .other := by
  induction hl : u.length using Nat.strongRecOn generalizing u with
  | ind n ih =>
    subst hl
    cases u with
    | nil => exact ⟨[], Token.cut_nil rest, rfl, by simp⟩
    | cons c u =>
      obtain ⟨hle, hdrop, hk⟩ := hu.drop_first hr
      obtain ⟨ts, hcut, hjoin, hts⟩ :=
        ih _ (by rw [List.length_drop, List.length_cons]; omega) hdrop rfl
      generalize hn : (Token.first c (u ++ rest)).2 - 1 = n at hle hdrop hjoin
      have htake : u.take n ++ (u.drop n ++ rest) = u ++ rest := by
        rw [← List.append_assoc, List.take_append_drop]
      refine ⟨⟨(Token.first c (u ++ rest)).1, c :: u.take n⟩ :: ts, ?_, ?_, ?_⟩
      · refine Token.cut_cons_iff.mpr ⟨?_, hcut⟩
        rw [hjoin]
        apply Token.cut_singleton <;> rw [htake]
        rw [hn, List.length_take, Nat.min_eq_left hle]
      · rw [Token.join_cons, hjoin, List.cons_append, List.take_append_drop]
      · intro t ht
        rcases List.mem_cons.mp ht with rfl | ht
        · exact hk
        · exact hts t ht

/-! ## Lexemes -/

theorem Ends.of_lexed {e : Option Char} {ls : List Lexeme} (he : ∀ c ∈ e, isBarrier c = true)
    (hl : Lexed ls e.toList) (hb : Balanced ls) : Ends e ls := by
  cases e with
  | some c => exact fun x => hl.replace (he c rfl) x
  | none =>
    have h : lexemes (Lexeme.join (ls ++ [])) = .ok (ls ++ []) :=
      lexemes_append_of_lexed hl hb rfl
    rwa [List.append_nil] at h

/-- Characters that end a statement, or the end of the input. -/
def IsEnd (e : Option Char) : Prop := ∀ c ∈ e, c = ';' ∨ c = '{' ∨ c = '}'

theorem IsEnd.atMark {e : Option Char} (he : IsEnd e) : AtMark e.toList := by
  rintro d hd
  have hmem : d ∈ e := by rwa [Option.head?_toList] at hd
  rcases he d hmem with rfl | rfl | rfl <;> decide

theorem Unmarked.exists_lexed (hu : Unmarked u) (hr : AtMark rest) :
    ∃ ls, Lexed ls rest ∧ Lexeme.join ls = u ∧
      ∀ l ∈ ls, l.kind = .whitespace ∨ l.kind = .other := by
  obtain ⟨ts, hcut, hjoin, hk⟩ := hu.exists_cut hr
  have hg : ∀ ts : List Token, (∀ t ∈ ts, t.kind = .whitespace ∨ t.kind = .other) →
      Grouped ts ∧ ∀ l ∈ Token.lexemes ts, l.kind = .whitespace ∨ l.kind = .other := by
    intro ts h
    induction ts with
    | nil => exact ⟨.nil, by simp⟩
    | cons t ts ih =>
      obtain ⟨hg, hls⟩ := ih fun v hv => h v (List.mem_cons_of_mem _ hv)
      have ht := h t List.mem_cons_self
      have hnone : t.kind.group? = none := by
        rcases ht with ht | ht <;> rw [ht] <;> rfl
      refine ⟨.token hnone hg, ?_⟩
      rw [Token.lexemes_cons hnone]
      intro l hl
      rcases List.mem_cons.mp hl with rfl | hl
      · rcases ht with ht | ht
        · exact .inl (congrArg Token.Kind.lexeme ht)
        · exact .inr (congrArg Token.Kind.lexeme ht)
      · exact hls l hl
  obtain ⟨hgrouped, hls⟩ := hg ts hk
  refine ⟨Token.lexemes ts, ⟨ts, hcut, hgrouped, ?_, rfl⟩, by rw [Token.join_lexemes, hjoin], hls⟩
  intro t ht
  rcases hk t ht with h | h <;> constructor <;> rw [h] <;> decide

end AnimationScope.Css
