import AnimationScope.Proofs.Extents

/-!
# The token in front of a barrier

What is true of the constructs is put together for the token that starts with
them, along the ways in which a token can start.
-/

namespace AnimationScope.Css.Token

variable {d : Char} {u x y : Text}

theorem operatorLength_cons (c : Char) (r : Text) :
    operatorLength (c :: r) =
      if c = '<' ∧ r.take 3 = ['!', '-', '-'] then 4
      else if c = '-' ∧ r.take 2 = ['-', '>'] then 3
      else if r.head? = some '=' then if c ∈ ['$', '*', '^', '|', '~'] then 2 else 1
      else 1 := by
  unfold operatorLength
  split
  · simp_all
  · simp_all
  · simp_all
  · next h1 h2 h3 =>
    rw [if_neg, if_neg, if_neg]
    · intro h
      obtain ⟨s, rfl⟩ := List.head?_eq_some_iff.mp h
      exact h3 _ _ rfl
    · rintro ⟨rfl, h⟩
      exact h2 (r.drop 2) (by rw [← List.take_append_drop 2 r, h]; rfl)
    · rintro ⟨rfl, h⟩
      exact h1 (r.drop 3) (by rw [← List.take_append_drop 3 r, h]; rfl)

theorem operatorLength_append (hd : Barrier d) (c : Char) (u y : Text) :
    operatorLength (c :: (u ++ d :: y)) = operatorLength (c :: u) := by
  have h : ∀ c ∈ ['-', '!', '>', '='], d ≠ c := fun c hc => hd.unlike c (by grind)
  rw [operatorLength_cons, operatorLength_cons]
  rcases u with _ | ⟨a, _ | ⟨b, _ | ⟨e, u⟩⟩⟩ <;> simp_all

theorem nameLength_le_identLike (t : Text) : nameLength 0 t ≤ (identLike t).2 := by
  simp only [identLike]
  split
  · split <;> simp only [Nat.add_assoc, Nat.le_add_right]
  · exact Nat.le_refl _

theorem identLike_resume (hd : Barrier d) (hx : Resumes d x)
    (hn : (identLike (u ++ d :: y)).2 ≤ u.length)
    (hb : LosesNewline d x → u.drop (identLike (u ++ d :: y)).2 ≠ ['\\'])
    (hs : (identLike (u ++ d :: y)).1 = .opening .round →
      endsSpaces d (u.drop (identLike (u ++ d :: y)).2) = true) :
    identLike (u ++ x) = identLike (u ++ d :: y) := by
  have hl : nameLength 0 (u ++ d :: y) ≤ u.length := Nat.le_trans (nameLength_le_identLike _) hn
  have hp : d ≠ '(' := hd.unlike '(' (by simp)
  have hname : nameLength 0 (u ++ x) = nameLength 0 (u ++ d :: y) := by
    refine nameLength_resume hd hx hl fun hlost hdrop => hb hlost ?_
    simp only [identLike, List.drop_append_of_le_length hl, hdrop]
    exact hdrop
  simp only [identLike, hname, List.drop_append_of_le_length hl,
    List.take_append_of_le_length hl] at hn hs ⊢
  generalize nameLength 0 (u ++ d :: y) = n at *
  cases hr : u.drop n with
  | nil => cases hx <;> simp [hp]
  | cons c r =>
    by_cases hc : c = '('
    · subst hc
      have hlen := congrArg List.length hr
      simp only [List.length_drop, List.length_cons] at hlen
      have hdrop : u.drop (n + 1) = r := by
        rw [← List.drop_drop, hr]
        rfl
      simp only [hr, List.cons_append] at hn hs ⊢
      split_ifs at hn hs ⊢ with hu
      · rw [unquotedUrlLength?_resume hd hx]
        · intro m hm
          simp only [hm] at hn
          omega
        · intro hm
          simpa [hm, hdrop] using hs
      · rfl
    · simp [hc]

theorem first_quote_resume (hd : isBarrier d = true) (hx : Resumes d x) {c : Char}
    (h : isQuote c = true) (hn : (first c (u ++ d :: y)).2 ≤ u.length + 1)
    (hq : LosesNewline d x → (first c (u ++ d :: y)).2 = u.length + 1 →
      (quotedLength c 0 u).isSome) : first c (u ++ x) = first c (u ++ d :: y) := by
  have hne : d ≠ c := by
    rintro rfl
    rcases isQuote_cases h with rfl | rfl <;> simp [isBarrier, isSpace, isNewline] at hd
  rw [first_quote h] at hn hq ⊢
  rw [first_quote h]
  cases hl : quotedLength c 0 (u ++ d :: y) with
  | none =>
    simp only [hl, List.length_append, List.length_cons] at hn
    omega
  | some n =>
    simp only [hl, Nat.add_le_add_iff_right, Nat.add_right_cancel_iff] at hn hq
    rcases quotedLength_resume (.of_isBarrier hd) hx hne hl hn with hsome | ⟨hnone, hlen, hlost⟩
    · rw [hsome]
    · have hclosed := hq hlost hlen
      rw [hlost.2, List.append_nil] at hnone
      rw [hnone] at hclosed
      cases hclosed

theorem first_comment_replace (hn : (first '/' ('*' :: u ++ d :: y)).2 ≤ u.length + 2) (x : Text) :
    first '/' ('*' :: u ++ x) = first '/' ('*' :: u ++ d :: y) := by
  rw [List.cons_append, first_comment] at hn ⊢
  rw [List.cons_append, first_comment]
  cases hl : commentLength (u ++ d :: y) with
  | none =>
    simp only [hl, List.length_append, List.length_cons] at hn
    omega
  | some n => rw [commentLength_replace hl (by simpa [hl] using hn) x]

/-- A backslash in front of a newline is a token by itself, and so is one at the end of the
input, where it is an escape. -/
theorem first_backslash (hd : Barrier d) (h : isNewline d = true) (y : Text) :
    first '\\' (d :: y) = first '\\' [] := by
  have hop := operatorLength_append hd '\\' [] y
  have hnumber := startsNumber_append hd ['\\'] y
  have hident : startsIdent ('\\' :: d :: y) = false := by simp [startsIdent, headIs, h]
  rw [List.nil_append] at hop
  rw [List.singleton_append] at hnumber
  rw [first_plain (by decide) (by decide) (by simp) (by decide) (by decide) (by decide), hnumber,
    hop, hident]
  rfl

/-- What begins with no mark of its own is a number, a name or an operator. -/
theorem first_plain_resume (hd : Barrier d) (hx : Resumes d x) {c : Char}
    (hspace : isSpace c = false) (hquote : isQuote c = false)
    (hcomment : c = '/' → (u ++ d :: y).head? ≠ some '*') (hhash : c ≠ '#') (hat : c ≠ '@')
    (hmark : punctuation? c = none) (hn : (first c (u ++ d :: y)).2 ≤ u.length + 1)
    (hs : (first c (u ++ d :: y)).1 = .opening .round →
      endsSpaces d (u.drop ((first c (u ++ d :: y)).2 - 1)) = true)
    (hb : LosesNewline d x → u.drop ((first c (u ++ d :: y)).2 - 1) ≠ ['\\']) :
    first c (u ++ x) = first c (u ++ d :: y) := by
  by_cases hback : c :: u = ['\\'] ∧ LosesNewline d x
  · obtain ⟨hcu, hnew, rfl⟩ := hback
    obtain ⟨rfl, rfl⟩ := List.cons.inj hcu
    exact (first_backslash hd hnew y).symm
  · have hcu : LosesNewline d x → c :: u ≠ ['\\'] := fun hlost hcu => hback ⟨hcu, hlost⟩
    have hcomment' : c = '/' → (u ++ x).head? ≠ some '*' := by
      intro hc
      have hne := hcomment hc
      cases u with
      | nil =>
        cases hx with
        | atEnd => simp
        | barrier y' => simpa using hne
      | cons a u => simpa using hne
    have hdrop : ∀ n, (LosesNewline d x → u.drop (n - 1) ≠ ['\\']) →
        LosesNewline d x → (c :: u).drop n ≠ ['\\'] := by
      rintro (_ | n) hb' hlost
      · exact hcu hlost
      · exact hb' hlost
    have hnumber : startsNumber (c :: u ++ x) = startsNumber (c :: u) :=
      hx.eq_of_append (startsNumber_append hd (c :: u))
    have hop : operatorLength (c :: u ++ x) = operatorLength (c :: u) :=
      hx.eq_of_append (operatorLength_append hd c u)
    have hident := startsIdent_resume hd hx hcu y
    rw [first_plain hspace hquote hcomment' hhash hat hmark, ← List.cons_append, hnumber, hop,
      hident]
    have hfirst := first_plain (r := u ++ d :: y) hspace hquote hcomment hhash hat hmark
    rw [← List.cons_append, startsNumber_append hd, List.cons_append, operatorLength_append hd,
      ← List.cons_append] at hfirst
    rw [hfirst] at hn hs hb ⊢
    split_ifs at hn hs hb ⊢
    · rw [numericLength_resume hd hx hn (hdrop _ hb)]
    · refine identLike_resume hd hx hn (hdrop _ hb) fun hk => ?_
      have he := hs hk
      cases hn0 : (identLike (c :: u ++ d :: y)).2 with
      | zero => simp [endsSpaces, hspace]
      | succ n =>
        rw [hn0, Nat.add_sub_cancel] at he
        exact he
    · rfl

/-- A token that ends in front of a barrier is the same whatever comes in place of the barrier.
Only a function's name looks past spaces, for a quote. If the barrier is a newline and the input
ends there instead, no backslash may be left, and no string may end with it. -/
theorem first_resume (hd : isBarrier d = true) (hx : Resumes d x) {c : Char}
    (hn : (first c (u ++ d :: y)).2 ≤ u.length + 1)
    (hs : (first c (u ++ d :: y)).1 = .opening .round →
      endsSpaces d (u.drop ((first c (u ++ d :: y)).2 - 1)) = true)
    (hb : LosesNewline d x → u.drop ((first c (u ++ d :: y)).2 - 1) ≠ ['\\'])
    (hq : LosesNewline d x → isQuote c = true → (first c (u ++ d :: y)).2 = u.length + 1 →
      (quotedLength c 0 u).isSome) :
    first c (u ++ x) = first c (u ++ d :: y) := by
  have hbar := Barrier.of_isBarrier hd
  cases start c (u ++ d :: y) with
  | space h =>
    rw [first_space h] at hn ⊢
    rw [first_space h]
    cases he : endsSpaces d u with
    | false =>
      have hlt := lt_length_spaces he y
      simp only [Nat.add_le_add_iff_right] at hn
      omega
    | true =>
      rw [hx.eq_of_append (f := fun t => (t.takeWhile isSpace).length) (length_spaces_append he),
        length_spaces_append he]
  | quote h => exact first_quote_resume hd hx h hn fun hlost => hq hlost h
  | comment hc s hr =>
    subst hc
    cases u with
    | nil => exact absurd (List.cons.inj hr).1 (hbar.unlike '*' (by simp))
    | cons a u =>
      obtain ⟨rfl, -⟩ := List.cons.inj hr
      exact first_comment_replace hn x
  | hash hc =>
    subst hc
    have hhead := headIs_resume (p := fun d => d.isDigit || d == '-') hx
      (fun _ _ => by simp [hbar.digit, hbar.unlike '-' (by simp)]) (u := u) y
    have hident := startsIdent_resume hbar hx (u := u) (by
      rintro hlost rfl
      refine hb hlost ?_
      rw [first_hash]
      simp [startsIdent, headIs, hlost.1]) y
    rw [first_hash] at hn hb
    rw [first_hash, first_hash, hident, hhead]
    split_ifs at hn hb ⊢
    · rw [nameLength_resume hbar hx (by simpa using hn) (by simpa using hb)]
    · rfl
  | atSign hc =>
    subst hc
    have hident := startsIdent_resume hbar hx (u := u) (by
      rintro hlost rfl
      refine hb hlost ?_
      rw [first_at]
      simp [startsIdent, headIs, hlost.1]) y
    rw [first_at] at hn hb
    rw [first_at, first_at, hident]
    split_ifs at hn hb ⊢
    · rw [nameLength_resume hbar hx (by simpa using hn) (by simpa using hb)]
    · rfl
  | mark k h => rw [first_mark h, first_mark h]
  | plain hspace hquote hcomment hhash hat hmark =>
    exact first_plain_resume hbar hx hspace hquote hcomment hhash hat hmark hn hs hb

end AnimationScope.Css.Token
