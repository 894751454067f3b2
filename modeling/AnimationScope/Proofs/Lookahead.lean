import AnimationScope.Proofs.TokenStart

/-!
# How far a token looks ahead

A token is found by looking at the text in front of it, and some constructs look
past their own end. None of them looks past a barrier: a space, a comma, a
colon, a semicolon, a slash or a closing bracket or a brace. So a construct that
ends in front of a barrier is the same whatever stands behind the barrier, and
also if the input ends in front of it. The end of the input makes two exceptions
where the barrier is a newline: the newline ends a string that is open at the end
of the input, and a backslash in front of it is no escape.
-/

namespace AnimationScope.Css

/-- Characters that continue no name, number, operator or escape. -/
def isBarrier (c : Char) : Bool :=
  isSpace c || c ∈ [',', ':', ';', '/', ')', ']', '{', '}']

theorem isBarrier_cases {d : Char} (h : isBarrier d = true) :
    d = ' ' ∨ d = '\t' ∨ d = '\n' ∨ d = '\r' ∨ d = '\x0c' ∨ d = ',' ∨ d = ':' ∨ d = ';' ∨
      d = '/' ∨ d = ')' ∨ d = ']' ∨ d = '{' ∨ d = '}' := by
  simpa [isBarrier, isSpace, isNewline, or_assoc] using h

/-- What a barrier is not, in the terms in which the constructs ask for it. -/
structure Barrier (d : Char) : Prop where
  nameChar : isNameChar d = false
  nameStart : isNameStart d = false
  digit : d.isDigit = false
  hex : Text.hexValue? d = none
  sign : isSign d = false
  unlike : ∀ c ∈ ['\\', '-', '!', '>', '=', '.', '%', '(', 'e', 'E', '*', '\x22', '\x27'], d ≠ c

theorem Barrier.of_isBarrier {d : Char} (h : isBarrier d = true) : Barrier d := by
  rcases isBarrier_cases h with
    rfl | rfl | rfl | rfl | rfl | rfl | rfl | rfl | rfl | rfl | rfl | rfl | rfl <;>
  exact ⟨by decide, by decide, by decide, by decide, by decide, by simp⟩

/-- What may come in place of a barrier and of all that is behind it: the barrier with
something else behind it, or the end of the input. -/
inductive Resumes (d : Char) : Text → Prop
  | atEnd : Resumes d []
  | barrier (y : Text) : Resumes d (d :: y)

/-- The barrier is a newline, and the end of the input comes in its place. -/
def LosesNewline (d : Char) (x : Text) : Prop := isNewline d = true ∧ x = []

/-- A length that does not change with what comes in place of a barrier, as long as it does
not reach the barrier. -/
def StopsAt (d : Char) (f : Text → Nat) : Prop :=
  ∀ u y x, Resumes d x → f (u ++ d :: y) ≤ u.length → f (u ++ x) = f (u ++ d :: y)

variable {d : Char} {u x y : Text}

theorem not_losesNewline_cons (d e : Char) (y : Text) : ¬ LosesNewline d (e :: y) :=
  fun h => List.cons_ne_nil e y h.2

/-- What does not see the barrier at all does not see the end of the input either. -/
theorem Resumes.eq_of_append {α : Type} {f : Text → α} (hx : Resumes d x)
    (h : ∀ y, f (u ++ d :: y) = f u) : f (u ++ x) = f u := by
  cases hx with
  | atEnd => rw [List.append_nil]
  | barrier y => exact h y

theorem headIs_resume {p : Char → Bool} (hx : Resumes d x) (h : u = [] → x = [] → p d = false)
    (y : Text) : headIs p (u ++ x) = headIs p (u ++ d :: y) := by
  cases u with
  | cons c u => rfl
  | nil =>
    cases hx with
    | atEnd => exact (h rfl rfl).symm
    | barrier y' => rfl

theorem headIs_append_of_not {p : Char → Bool} (hd : p d = false) (u y : Text) :
    headIs p (u ++ d :: y) = headIs p u := by
  cases u with
  | nil => exact hd
  | cons c u => rfl

theorem length_takeWhile_append {p : Char → Bool} (hd : p d = false) (u y : Text) :
    ((u ++ d :: y).takeWhile p).length = (u.takeWhile p).length := by
  induction u with
  | nil => simp [hd]
  | cons c u ih =>
    by_cases hc : p c = true
    · simpa [hc] using ih
    · simp [hc]

/-! ## Escapes and names -/

theorem escapeDigits_append (hd : Text.hexValue? d = none) (u y : Text) :
    escapeDigits (u ++ d :: y) = escapeDigits u := by
  simp only [escapeDigits]
  generalize 6 = n
  induction u generalizing n with
  | nil => cases n <;> simp [hd]
  | cons c u ih =>
    cases n with
    | zero => rfl
    | succ n =>
      by_cases hc : (Text.hexValue? c).isSome = true
      · simpa [hc] using ih n
      · simp [hc]

theorem length_escapeDigits_le (u : Text) : (escapeDigits u).length ≤ u.length := by
  have h := (List.takeWhile_prefix (fun c => (Text.hexValue? c).isSome) (l := u.take 6)).length_le
  rw [escapeDigits]
  rw [List.length_take] at h
  omega

/-- Length of one character of a class at the head, where a carriage return and a line feed
together are one. -/
def breakLength (p : Char → Bool) : Text → Nat
  | '\r' :: '\n' :: _ => 2
  | c :: _ => if p c then 1 else 0
  | [] => 0

theorem newlineLength_eq (t : Text) : newlineLength t = breakLength isNewline t := rfl

theorem escapeEndLength_eq (t : Text) : escapeEndLength t = breakLength isSpace t := rfl

theorem breakLength_cons_cons (p : Char → Bool) (a b : Char) (t : Text) :
    breakLength p (a :: b :: t) = if a = '\r' ∧ b = '\n' then 2 else if p a then 1 else 0 := by
  by_cases h : a = '\r' ∧ b = '\n'
  · obtain ⟨rfl, rfl⟩ := h
    rfl
  · rw [if_neg h, breakLength]
    intro r ha hb
    exact h ⟨ha, (List.cons.inj hb).1⟩

theorem breakLength_eq_zero {p : Char → Bool} (hp : p '\r' = true) (y : Text) :
    breakLength p (d :: y) = 0 ↔ p d = false := by
  unfold breakLength
  split <;> simp_all

theorem stopsAt_breakLength {p : Char → Bool} (hp : p '\r' = true) : StopsAt d (breakLength p) := by
  intro u y x hx h
  rcases u with _ | ⟨a, _ | ⟨b, u⟩⟩
  · have hy : breakLength p (d :: y) = 0 := Nat.le_zero.mp h
    cases hx with
    | atEnd => exact hy.symm
    | barrier y' =>
      have hd := (breakLength_eq_zero hp y).mp hy
      simp only [List.nil_append, hy, (breakLength_eq_zero hp y').mpr hd]
  · cases hx with
    | atEnd =>
      simp only [List.append_nil, List.cons_append, List.nil_append, breakLength_cons_cons] at h ⊢
      split_ifs at h ⊢ <;> simp_all [breakLength]
    | barrier y' => simp [breakLength_cons_cons]
  · simp [breakLength_cons_cons]

theorem stopsAt_escapeLength (hd : Barrier d) : StopsAt d escapeLength := by
  intro u y x hx h
  have hdigits : escapeDigits (u ++ x) = escapeDigits u :=
    hx.eq_of_append (escapeDigits_append hd.hex u)
  simp only [escapeLength, escapeEndLength_eq, hdigits, escapeDigits_append hd.hex] at h ⊢
  cases he : escapeDigits u with
  | nil =>
    cases u with
    | nil => simp [he] at h
    | cons c u => simp
  | cons a as =>
    rw [he] at h
    simp only at h ⊢
    have hl : (a :: as).length ≤ u.length := he ▸ length_escapeDigits_le u
    rw [List.drop_append_of_le_length hl] at h ⊢
    rw [List.drop_append_of_le_length hl]
    congr 1
    apply stopsAt_breakLength (p := isSpace) rfl _ _ _ hx
    simp only [List.length_drop]
    omega

theorem stringEscapeLength_pos (c : Char) (r : Text) : 0 < stringEscapeLength (c :: r) := by
  rw [stringEscapeLength]
  split_ifs with hn
  · have hc : isNewline c = true := hn
    rw [newlineLength_eq, Nat.pos_iff_ne_zero, ne_eq, breakLength_eq_zero rfl, hc]
    simp
  · rw [escapeLength]
    split
    · simp
    · next hd =>
      have hl := List.length_pos_iff.mpr hd
      omega

theorem stopsAt_stringEscapeLength (hd : Barrier d) : StopsAt d stringEscapeLength := by
  intro u y x hx h
  cases u with
  | nil =>
    have hpos := stringEscapeLength_pos d y
    rw [List.nil_append, List.length_nil] at h
    omega
  | cons c u =>
    have hhead := headIs_resume (p := isNewline) (u := c :: u) hx (by simp) y
    simp only [stringEscapeLength, newlineLength_eq, hhead] at h ⊢
    split_ifs at h ⊢
    · exact stopsAt_breakLength (p := isNewline) rfl _ _ _ hx h
    · exact stopsAt_escapeLength hd _ _ _ hx h

/-- The first argument of a length counts characters that are passed over. -/
theorem length_skip {f : Nat → Text → Nat} (hnil : ∀ k, f k [] = 0)
    (hcons : ∀ k c r, f (k + 1) (c :: r) = f k r + 1) (k : Nat) (t : Text) :
    f k t = min k t.length + f 0 (t.drop k) := by
  induction k generalizing t with
  | zero => simp
  | succ k ih =>
    cases t with
    | nil => simp [hnil]
    | cons c r =>
      rw [hcons, ih, List.drop_succ_cons, List.length_cons]
      omega

theorem nameLength_skip (k : Nat) (t : Text) :
    nameLength k t = min k t.length + nameLength 0 (t.drop k) :=
  length_skip (fun k => by cases k <;> rfl) (fun _ _ _ => rfl) k t

theorem nameLength_backslash (h : isNewline d = true) (y : Text) :
    nameLength 0 ('\\' :: d :: y) = 0 := by
  rw [nameLength, if_neg (by decide), if_neg (by simp [headIs, h])]

/-- A name stays the same, unless only a backslash is left behind it in front of a newline
that the end of the input replaces. -/
theorem nameLength_resume (hd : Barrier d) (hx : Resumes d x) {k : Nat}
    (h : nameLength k (u ++ d :: y) ≤ u.length)
    (hb : LosesNewline d x → u.drop (nameLength k (u ++ d :: y)) ≠ ['\\']) :
    nameLength k (u ++ x) = nameLength k (u ++ d :: y) := by
  induction u generalizing k with
  | nil =>
    cases k with
    | succ k => simp [nameLength] at h
    | zero =>
      have hzero : ∀ y, nameLength 0 ([] ++ d :: y) = nameLength 0 [] := fun y => by
        simp [nameLength, hd.nameChar, hd.unlike '\\' (by simp)]
      rw [hx.eq_of_append hzero, hzero]
  | cons c u ih =>
    cases k with
    | succ k =>
      simp only [List.cons_append, nameLength, List.length_cons, Nat.add_le_add_iff_right,
        List.drop_succ_cons] at h hb ⊢
      rw [ih h hb]
    | zero =>
      have hhead : (decide (c = '\\') && !headIs isNewline (u ++ x)) =
          (decide (c = '\\') && !headIs isNewline (u ++ d :: y)) := by
        by_cases hc : c = '\\'
        · subst hc
          rw [headIs_resume hx]
          rintro rfl rfl
          rw [Bool.eq_false_iff]
          intro hn
          refine hb ⟨hn, rfl⟩ ?_
          rw [List.singleton_append, nameLength_backslash hn]
          rfl
        · simp [hc]
      simp only [List.cons_append, nameLength, hhead, List.length_cons] at h hb ⊢
      split_ifs at h hb ⊢
      · rw [ih (by simpa using h) hb]
      · have hk := nameLength_skip (escapeLength (u ++ d :: y)) (u ++ d :: y)
        simp only [List.length_append, List.length_cons, Nat.add_le_add_iff_right] at h hk
        rw [stopsAt_escapeLength hd u y x hx (by omega), ih h hb]
      · rfl

theorem startsIdent_resume (hd : Barrier d) (hx : Resumes d x)
    (hb : LosesNewline d x → u ≠ ['\\']) (y : Text) :
    startsIdent (u ++ x) = startsIdent (u ++ d :: y) := by
  have h1 : d ≠ '-' := hd.unlike '-' (by simp)
  have h2 : d ≠ '\\' := hd.unlike '\\' (by simp)
  rcases u with _ | ⟨c, u⟩
  · have hnone : ∀ y, startsIdent ([] ++ d :: y) = startsIdent [] := fun y => by
      rw [List.nil_append, startsIdent.eq_4 d y h1 h2, hd.nameStart]
      rfl
    rw [hx.eq_of_append hnone, hnone]
  · by_cases hc : c = '-'
    · subst hc
      exact headIs_resume hx (fun _ _ => by simp [hd.nameStart, h1, h2]) y
    · by_cases hc' : c = '\\'
      · subst hc'
        refine congrArg (!·) (headIs_resume hx ?_ y)
        rintro rfl rfl
        rw [Bool.eq_false_iff]
        exact fun hn => hb ⟨hn, rfl⟩ rfl
      · rw [List.cons_append, List.cons_append, startsIdent, startsIdent] <;> simp [hc, hc']

/-! ## Strings and comments -/

theorem quotedLength_skip (q : Char) (k : Nat) (r : Text) :
    quotedLength q k r = (quotedLength q 0 (r.drop k)).map (· + min k r.length) := by
  induction k generalizing r with
  | zero => simp
  | succ k ih =>
    cases r with
    | nil => simp [quotedLength]
    | cons c r =>
      rw [quotedLength, ih, List.drop_succ_cons, Option.map_map]
      congr 1
      funext n
      simp only [Function.comp_apply, List.length_cons]
      omega

theorem le_quotedLength {q : Char} {k n : Nat} {t : Text} (h : quotedLength q k t = some n) :
    min k t.length ≤ n := by
  rw [quotedLength_skip] at h
  obtain ⟨m, -, rfl⟩ := Option.map_eq_some_iff.mp h
  exact Nat.le_add_left _ m

/-- A string stays the same, unless it is the newline that ends it. -/
theorem quotedLength_resume (hd : Barrier d) (hx : Resumes d x) {quote : Char} (hq : d ≠ quote)
    {k n : Nat} (h : quotedLength quote k (u ++ d :: y) = some n) (hn : n ≤ u.length) :
    quotedLength quote k (u ++ x) = some n ∨
      quotedLength quote k (u ++ x) = none ∧ n = u.length ∧ LosesNewline d x := by
  induction u generalizing k n with
  | nil =>
    obtain rfl := Nat.le_zero.mp hn
    have hnew : k = 0 ∧ isNewline d = true := by
      cases k with
      | succ k =>
        obtain ⟨m, -, hm⟩ := Option.map_eq_some_iff.mp h
        cases hm
      | zero =>
        have hb : d ≠ '\\' := hd.unlike '\\' (by simp)
        simp only [List.nil_append, quotedLength, hq, hb, if_false] at h
        split_ifs at h with h1
        · exact ⟨rfl, h1⟩
        · obtain ⟨m, -, hm⟩ := Option.map_eq_some_iff.mp h
          cases hm
    obtain ⟨rfl, hnew⟩ := hnew
    cases hx with
    | atEnd => exact .inr ⟨rfl, rfl, hnew, rfl⟩
    | barrier y' => exact .inl (by simp [quotedLength, hq, hnew])
  | cons c u ih =>
    have later : ∀ {k m}, quotedLength quote k (u ++ d :: y) = some m → m + 1 ≤ (c :: u).length →
        (quotedLength quote k (u ++ x)).map (· + 1) = some (m + 1) ∨
          (quotedLength quote k (u ++ x)).map (· + 1) = none ∧ m + 1 = (c :: u).length ∧
            LosesNewline d x := by
      intro k m hm hle
      rcases ih hm (by simpa using hle) with hsome | ⟨hnone, rfl, hnew⟩
      · exact .inl (by rw [hsome]; rfl)
      · exact .inr ⟨by rw [hnone]; rfl, rfl, hnew⟩
    cases k with
    | succ k =>
      obtain ⟨m, hm, rfl⟩ := Option.map_eq_some_iff.mp h
      exact later hm hn
    | zero =>
      simp only [List.cons_append, quotedLength] at h ⊢
      split_ifs at h ⊢ with h1 h2 h3
      · exact .inl h
      · exact .inl h
      · obtain ⟨m, hm, rfl⟩ := Option.map_eq_some_iff.mp h
        have hk := le_quotedLength hm
        simp only [List.length_append, List.length_cons] at hk hn
        rw [stopsAt_stringEscapeLength hd u y x hx (by omega)]
        exact later hm (by simpa using hn)
      · obtain ⟨m, hm, rfl⟩ := Option.map_eq_some_iff.mp h
        exact later hm hn

theorem commentLength_le {r : Text} {n : Nat} (h : commentLength r = some n) : n ≤ r.length := by
  induction r generalizing n with
  | nil => cases h
  | cons c r ih =>
    rw [commentLength] at h
    split at h
    · next hc =>
      obtain rfl := Option.some.inj h
      cases r with
      | nil => simp [headIs] at hc
      | cons d r => simp
    · obtain ⟨m, hm, rfl⟩ := Option.map_eq_some_iff.mp h
      simpa using ih hm

theorem commentLength_pos {r : Text} {n : Nat} (h : commentLength r = some n) : 0 < n := by
  cases r with
  | nil => cases h
  | cons c r =>
    rw [commentLength] at h
    split at h
    · obtain rfl := Option.some.inj h
      omega
    · obtain ⟨m, -, rfl⟩ := Option.map_eq_some_iff.mp h
      omega

theorem commentLength_replace {n : Nat} (h : commentLength (u ++ x) = some n)
    (hn : n ≤ u.length) (y : Text) : commentLength (u ++ y) = some n := by
  induction u generalizing n with
  | nil =>
    have hpos := commentLength_pos h
    simp at hn
    omega
  | cons c u ih =>
    rw [List.cons_append, commentLength] at h ⊢
    cases u with
    | nil =>
      split at h
      · obtain rfl := Option.some.inj h
        simp at hn
      · obtain ⟨m, hm, rfl⟩ := Option.map_eq_some_iff.mp h
        have hpos := commentLength_pos hm
        simp at hn
        omega
    | cons d u =>
      have hhead : headIs (· == '/') (d :: u ++ y) = headIs (· == '/') (d :: u ++ x) := rfl
      rw [hhead]
      by_cases hc : (decide (c = '*') && headIs (· == '/') (d :: u ++ x)) = true
      · rwa [if_pos hc] at h ⊢
      · rw [if_neg hc] at h ⊢
        obtain ⟨m, hm, rfl⟩ := Option.map_eq_some_iff.mp h
        rw [ih hm (by simpa using hn)]
        rfl

end AnimationScope.Css
