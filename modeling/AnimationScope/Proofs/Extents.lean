import AnimationScope.Proofs.Lookahead

/-!
# Numbers and addresses in front of a barrier

A number does not see the barrier, so the end of the input is the same to it. An
address may contain barriers, but nothing behind its parenthesis.
-/

namespace AnimationScope.Css

variable {d : Char} {u x y : Text}

/-! ## Numbers -/

theorem digitsLength_append (hd : Barrier d) (u y : Text) :
    digitsLength (u ++ d :: y) = digitsLength u :=
  length_takeWhile_append hd.digit u y

theorem digitsLength_le (u : Text) : digitsLength u ≤ u.length :=
  (List.takeWhile_prefix _).length_le

theorem fractionLength_append (hd : Barrier d) (u y : Text) :
    fractionLength (u ++ d :: y) = fractionLength u := by
  rcases u with _ | ⟨c, u⟩
  · have h : d ≠ '.' := hd.unlike '.' (by simp)
    simp [fractionLength, h]
  · by_cases hc : c = '.'
    · subst hc
      simp only [List.cons_append, fractionLength, headIs_append_of_not hd.digit,
        digitsLength_append hd]
    · simp [fractionLength, hc]

theorem fractionLength_le (u : Text) : fractionLength u ≤ u.length := by
  unfold fractionLength
  split
  · next r =>
    have h := digitsLength_le r
    simp only [List.length_cons]
    split_ifs <;> omega
  · simp

theorem powerLength_append (hd : Barrier d) (u y : Text) :
    powerLength (u ++ d :: y) = powerLength u := by
  rcases u with _ | ⟨c, u⟩
  · simp [powerLength, hd.sign, digitsLength, hd.digit]
  · have hc := digitsLength_append hd (c :: u) y
    rw [List.cons_append] at hc
    simp only [List.cons_append, powerLength, headIs_append_of_not hd.digit,
      digitsLength_append hd, hc]

theorem powerLength_le (u : Text) : powerLength u ≤ u.length := by
  rcases u with _ | ⟨c, u⟩
  · simp [powerLength]
  · have h1 := digitsLength_le u
    have h2 := digitsLength_le (c :: u)
    simp only [powerLength, List.length_cons] at h2 ⊢
    split_ifs <;> omega

theorem exponentLength_append (hd : Barrier d) (u y : Text) :
    exponentLength (u ++ d :: y) = exponentLength u := by
  rcases u with _ | ⟨c, u⟩
  · simp [exponentLength, hd.unlike 'e' (by simp), hd.unlike 'E' (by simp)]
  · simp only [List.cons_append, exponentLength, powerLength_append hd]

theorem exponentLength_le (u : Text) : exponentLength u ≤ u.length := by
  rcases u with _ | ⟨c, u⟩
  · simp [exponentLength]
  · have h := powerLength_le u
    simp only [exponentLength, List.length_cons]
    split_ifs <;> omega

theorem signLength_append (hd : Barrier d) (u y : Text) :
    signLength (u ++ d :: y) = signLength u := by
  simp only [signLength, headIs_append_of_not hd.sign]

theorem signLength_le (u : Text) : signLength u ≤ u.length := by
  rcases u with _ | ⟨c, u⟩
  · simp [signLength, headIs]
  · simp only [signLength, List.length_cons]
    split_ifs <;> omega

theorem startsUnsigned_append (hd : Barrier d) (u y : Text) :
    startsUnsigned (u ++ d :: y) = startsUnsigned u := by
  rcases u with _ | ⟨c, u⟩
  · have h : d ≠ '.' := hd.unlike '.' (by simp)
    simp [startsUnsigned, h, headIs, hd.digit]
  · by_cases hc : c = '.'
    · subst hc
      exact headIs_append_of_not hd.digit u y
    · simp [startsUnsigned, hc, headIs]

theorem startsNumber_append (hd : Barrier d) (u y : Text) :
    startsNumber (u ++ d :: y) = startsNumber u := by
  rcases u with _ | ⟨c, u⟩
  · have h := startsUnsigned_append hd [] y
    rw [List.nil_append] at h
    have hsign : ¬ isSign d = true := by simp [hd.sign]
    show startsNumber (d :: y) = false
    rw [startsNumber, if_neg hsign, h]
    rfl
  · have h := startsUnsigned_append hd (c :: u) y
    rw [List.cons_append] at h
    simp only [List.cons_append, startsNumber, startsUnsigned_append hd u y, h]

def numberLength (t : Text) : Nat :=
  let sign := signLength t
  let whole := sign + digitsLength (t.drop sign)
  let decimal := whole + fractionLength (t.drop whole)
  decimal + exponentLength (t.drop decimal)

theorem numericLength_eq (t : Text) :
    numericLength t = numberLength t + unitLength (t.drop (numberLength t)) := rfl

theorem add_length_drop_le {f : Text → Nat} (hf : ∀ t, f t ≤ t.length) {n : Nat} {t : Text}
    (h : n ≤ t.length) : n + f (t.drop n) ≤ t.length := by
  have hle := hf (t.drop n)
  rw [List.length_drop] at hle
  omega

theorem numberLength_le (t : Text) : numberLength t ≤ t.length :=
  add_length_drop_le exponentLength_le
    (add_length_drop_le fractionLength_le (add_length_drop_le digitsLength_le (signLength_le t)))

theorem numberLength_append (hd : Barrier d) (u y : Text) :
    numberLength (u ++ d :: y) = numberLength u := by
  have hsign := signLength_le u
  have hwhole := add_length_drop_le digitsLength_le hsign
  have hdecimal := add_length_drop_le fractionLength_le hwhole
  simp only [numberLength, signLength_append hd, digitsLength_append hd, fractionLength_append hd,
    exponentLength_append hd, List.drop_append_of_le_length hsign,
    List.drop_append_of_le_length hwhole, List.drop_append_of_le_length hdecimal]

theorem unitLength_resume (hd : Barrier d) (hx : Resumes d x)
    (h : unitLength (u ++ d :: y) ≤ u.length)
    (hb : LosesNewline d x → u.drop (unitLength (u ++ d :: y)) ≠ ['\\']) :
    unitLength (u ++ x) = unitLength (u ++ d :: y) := by
  have hpercent : headIs (· == '%') (u ++ x) = headIs (· == '%') (u ++ d :: y) :=
    headIs_resume hx (fun _ _ => by simp [hd.unlike '%' (by simp)]) y
  have hident : startsIdent (u ++ x) = startsIdent (u ++ d :: y) := by
    refine startsIdent_resume hd hx ?_ y
    rintro hlost rfl
    have hzero : unitLength (['\\'] ++ d :: y) = 0 := by
      simp [unitLength, startsIdent, headIs, hlost.1]
    exact hb hlost (by rw [hzero]; rfl)
  simp only [unitLength, hpercent, hident] at h hb ⊢
  split_ifs at h hb ⊢
  · rfl
  · exact nameLength_resume hd hx h hb
  · rfl

theorem numericLength_resume (hd : Barrier d) (hx : Resumes d x)
    (h : numericLength (u ++ d :: y) ≤ u.length)
    (hb : LosesNewline d x → u.drop (numericLength (u ++ d :: y)) ≠ ['\\']) :
    numericLength (u ++ x) = numericLength (u ++ d :: y) := by
  have hle := numberLength_le u
  have hnumber : numberLength (u ++ x) = numberLength u :=
    hx.eq_of_append (numberLength_append hd u)
  simp only [numericLength_eq, hnumber, numberLength_append hd, ← List.drop_drop,
    List.drop_append_of_le_length hle] at h hb ⊢
  rw [unitLength_resume hd hx (by rw [List.length_drop]; omega) hb]

/-! ## Addresses -/

theorem brokenUrlLength_pos (k : Nat) (c : Char) (r : Text) : 0 < brokenUrlLength k (c :: r) := by
  cases k with
  | zero =>
    rw [brokenUrlLength]
    split_ifs <;> omega
  | succ k => exact Nat.succ_pos _

theorem urlEndLength_pos (c : Char) (r : Text) : 0 < urlEndLength (c :: r) := by
  rw [urlEndLength]
  split_ifs <;> omega

theorem urlBodyLength_pos (k : Nat) (c : Char) (r : Text) : 0 < urlBodyLength k (c :: r) := by
  cases k with
  | zero =>
    rw [urlBodyLength]
    split_ifs <;> omega
  | succ k => exact Nat.succ_pos _

theorem brokenUrlLength_replace {k : Nat} (h : brokenUrlLength k (u ++ d :: y) ≤ u.length)
    (x : Text) : brokenUrlLength k (u ++ x) = brokenUrlLength k (u ++ d :: y) := by
  induction u generalizing k with
  | nil =>
    have hpos := brokenUrlLength_pos k d y
    rw [List.nil_append, List.length_nil] at h
    omega
  | cons c u ih =>
    cases k with
    | succ k =>
      simp only [List.cons_append, brokenUrlLength, List.length_cons,
        Nat.add_le_add_iff_right] at h ⊢
      rw [ih h]
    | zero =>
      rw [List.cons_append, brokenUrlLength] at h ⊢
      rw [List.cons_append, brokenUrlLength]
      by_cases hc : c = ')'
      · rw [if_pos hc, if_pos hc]
      · rw [if_neg hc] at h ⊢
        rw [if_neg hc]
        cases u with
        | nil =>
          have h0 := brokenUrlLength_pos 0 d y
          have h1 := brokenUrlLength_pos 1 d y
          rw [List.nil_append, List.length_singleton] at h
          split_ifs at h <;> omega
        | cons e u =>
          have hhead : ∀ p, headIs p (e :: u ++ x) = headIs p (e :: u ++ d :: y) := fun _ => rfl
          rw [hhead]
          split_ifs at h ⊢
          · rw [ih (by simpa using h)]
          · rw [ih (by simpa using h)]

theorem urlEndLength_replace (h : urlEndLength (u ++ d :: y) ≤ u.length) (x : Text) :
    urlEndLength (u ++ x) = urlEndLength (u ++ d :: y) := by
  induction u with
  | nil =>
    have hpos := urlEndLength_pos d y
    rw [List.nil_append, List.length_nil] at h
    omega
  | cons c u ih =>
    simp only [List.cons_append, urlEndLength] at h ⊢
    split_ifs at h ⊢
    · rfl
    · rw [ih (by simpa using h)]
    · rw [brokenUrlLength_replace (by simpa using h) x]

theorem urlBodyLength_skip (k : Nat) (t : Text) :
    urlBodyLength k t = min k t.length + urlBodyLength 0 (t.drop k) :=
  length_skip (fun k => by cases k <;> rfl) (fun _ _ _ => rfl) k t

theorem stopsAt_urlBodyLength (hd : Barrier d) (k : Nat) : StopsAt d (urlBodyLength k) := by
  intro u y x hx h
  induction u generalizing k with
  | nil =>
    have hpos := urlBodyLength_pos k d y
    rw [List.nil_append, List.length_nil] at h
    omega
  | cons c u ih =>
    cases k with
    | succ k =>
      simp only [List.cons_append, urlBodyLength, List.length_cons,
        Nat.add_le_add_iff_right] at h ⊢
      rw [ih k h]
    | zero =>
      rw [List.cons_append, urlBodyLength] at h ⊢
      rw [List.cons_append, urlBodyLength]
      by_cases hc : c = ')'
      · rw [if_pos hc, if_pos hc]
      · rw [if_neg hc] at h ⊢
        rw [if_neg hc]
        cases u with
        | nil =>
          have hbody := fun k => urlBodyLength_pos k d y
          have hend := urlEndLength_pos d y
          have hbroken := brokenUrlLength_pos 0 d y
          have h0 := hbody 0
          have hescape := hbody (escapeLength (d :: y))
          rw [List.nil_append, List.length_singleton] at h
          split_ifs at h <;> omega
        | cons e u =>
          have hhead : ∀ p, headIs p (e :: u ++ x) = headIs p (e :: u ++ d :: y) := fun _ => rfl
          rw [hhead]
          split_ifs at h ⊢
          · rw [urlEndLength_replace (by simpa using h) x]
          · rw [brokenUrlLength_replace (by simpa using h) x]
          · rw [brokenUrlLength_replace (by simpa using h) x]
          · have hk := urlBodyLength_skip (escapeLength (e :: u ++ d :: y)) (e :: u ++ d :: y)
            simp only [List.length_append, List.length_cons] at h hk
            rw [stopsAt_escapeLength hd (e :: u) y x hx (by simp only [List.length_cons]; omega),
              ih _ (by simpa using h)]
          · rw [ih 0 (by simpa using h)]

/-- Whether the end of the spaces at the head is in sight before the barrier. -/
def endsSpaces (d : Char) (u : Text) : Bool := !isSpace d || u.any (!isSpace ·)

theorem length_spaces_append (h : endsSpaces d u = true) (y : Text) :
    ((u ++ d :: y).takeWhile isSpace).length = (u.takeWhile isSpace).length := by
  induction u with
  | nil =>
    have hd : isSpace d = false := by simpa [endsSpaces] using h
    simp [hd]
  | cons c u ih =>
    by_cases hc : isSpace c = true
    · have hu : endsSpaces d u = true := by simpa [endsSpaces, hc] using h
      simp [hc, ih hu]
    · simp [hc]

theorem lt_length_spaces (h : endsSpaces d u = false) (y : Text) :
    u.length < ((u ++ d :: y).takeWhile isSpace).length := by
  simp only [endsSpaces, Bool.or_eq_false_iff, Bool.not_eq_false', List.any_eq_false,
    Bool.not_eq_true'] at h
  have hu : ∀ c ∈ u, isSpace c = true := fun c hc => by simpa using h.2 c hc
  rw [List.takeWhile_append_of_pos hu, List.takeWhile_cons_of_pos h.1]
  simp

/-- Only for a quote does an address look past its spaces. -/
theorem unquotedUrlLength?_resume (hd : Barrier d) (hx : Resumes d x)
    (hm : ∀ m, unquotedUrlLength? (u ++ d :: y) = some m → m ≤ u.length)
    (hs : unquotedUrlLength? (u ++ d :: y) = none → endsSpaces d u = true) :
    unquotedUrlLength? (u ++ x) = unquotedUrlLength? (u ++ d :: y) := by
  have hspaces : endsSpaces d u = true := by
    cases hopt : unquotedUrlLength? (u ++ d :: y) with
    | none => exact hs hopt
    | some m =>
      have hle := hm m hopt
      by_contra hrun
      have hlt := lt_length_spaces (Bool.eq_false_iff.mpr hrun) y
      simp only [unquotedUrlLength?] at hopt
      split_ifs at hopt
      simp only [Option.some.injEq] at hopt
      omega
  have hl := (List.takeWhile_prefix isSpace (l := u)).length_le
  have hrun : ((u ++ x).takeWhile isSpace).length = (u.takeWhile isSpace).length :=
    hx.eq_of_append (f := fun t => (t.takeWhile isSpace).length) (length_spaces_append hspaces)
  have hquote : ∀ v : Text, headIs (fun c => c == '\x22' || c == '\x27') (v ++ x) =
      headIs (fun c => c == '\x22' || c == '\x27') (v ++ d :: y) := fun v =>
    headIs_resume hx (fun _ _ => by
      simp [hd.unlike '\x22' (by simp), hd.unlike '\x27' (by simp)]) y
  simp only [unquotedUrlLength?, hrun, length_spaces_append hspaces,
    List.drop_append_of_le_length hl, hquote] at hm ⊢
  split_ifs with h
  · rfl
  · have hle := hm _ (if_neg h)
    rw [stopsAt_urlBodyLength hd 0 _ y x hx (by rw [List.length_drop]; omega)]

end AnimationScope.Css
