import AnimationScope.Proofs.Lookahead

/-!
# Comments and strings that are cut off

Whether the end of the input cuts off a comment or a string can be told from its
text alone: it does not end with its end mark, or holds no quote that is not
escaped.
-/

namespace AnimationScope.Css

def commentIsClosed (t : Text) : Bool := 4 ≤ t.length && ['*', '/'].isSuffixOf t

/-- Whether the quote occurs, not counting the character behind a backslash. -/
def closesQuote (quote : Char) : (escaped : Bool) → Text → Bool
  | _, [] => false
  | true, _ :: r => closesQuote quote false r
  | false, c :: r =>
    if c = '\\' then closesQuote quote true r else c = quote || closesQuote quote false r

def stringIsClosed : Text → Bool
  | [] => false
  | quote :: r => closesQuote quote false r

/-! ## Comments -/

theorem isSome_commentLength (x y : Text) : (commentLength (x ++ '*' :: '/' :: y)).isSome := by
  induction x with
  | nil => rfl
  | cons c x ih =>
    rw [List.cons_append, commentLength]
    split
    · rfl
    · rw [Option.isSome_map]
      exact ih

theorem suffix_of_commentLength {r : Text} {n : Nat} (h : commentLength r = some n)
    (hn : r.length ≤ n) : ['*', '/'] <:+ r := by
  induction r generalizing n with
  | nil => simp [commentLength] at h
  | cons c r ih =>
    rw [commentLength] at h
    split at h
    · next hc =>
      obtain rfl := Option.some.inj h
      simp only [Bool.and_eq_true, decide_eq_true_eq] at hc
      obtain ⟨rfl, hr⟩ := hc
      cases r with
      | nil => simp [headIs] at hr
      | cons d r =>
        obtain rfl : d = '/' := by simpa [headIs] using hr
        obtain rfl : r = [] := by
          apply List.eq_nil_of_length_eq_zero
          simp only [List.length_cons] at hn
          omega
        exact List.suffix_rfl
    · obtain ⟨m, hm, rfl⟩ := Option.map_eq_some_iff.mp h
      exact (ih hm (by simpa using hn)).trans (List.suffix_cons c r)

theorem commentIsClosed_iff (r : Text) :
    commentIsClosed ('/' :: '*' :: r) = true ↔ ['*', '/'] <:+ r := by
  simp only [commentIsClosed, Bool.and_eq_true, decide_eq_true_eq, List.isSuffixOf_iff_suffix,
    List.length_cons]
  constructor
  · rintro ⟨hl, x, hx⟩
    rcases x with _ | ⟨a, _ | ⟨b, x⟩⟩
    · simp at hx
    · simp only [List.cons_append, List.nil_append, List.cons.injEq] at hx
      obtain ⟨-, -, rfl⟩ := hx
      simp at hl
    · simp only [List.cons_append, List.cons.injEq] at hx
      exact ⟨x, hx.2.2⟩
  · intro h
    have hl := h.length_le
    simp only [List.length_cons, List.length_nil] at hl
    exact ⟨by omega, h.trans ((List.suffix_cons _ _).trans (List.suffix_cons _ _))⟩

/-! ## Strings -/

theorem closesQuote_drop {quote : Char} {u : Text} (h : ∀ c ∈ u, c ≠ '\\' ∧ c ≠ quote) (v : Text) :
    closesQuote quote false (u ++ v) = closesQuote quote false v := by
  induction u with
  | nil => rfl
  | cons c u ih =>
    obtain ⟨h1, h2⟩ := h c List.mem_cons_self
    rw [List.cons_append, closesQuote, if_neg h1, ih fun d hd => h d (List.mem_cons_of_mem _ hd)]
    simp [h2]

theorem isQuote_ne_hex {q c : Char} (hq : isQuote q = true) (hc : (Text.hexValue? c).isSome) :
    c ≠ '\\' ∧ c ≠ q := by
  rcases Token.isQuote_cases hq with rfl | rfl <;> constructor <;> rintro rfl <;>
    simp [Text.hexValue?] at hc

theorem isQuote_ne_space {q c : Char} (hq : isQuote q = true) (hc : isSpace c = true) :
    c ≠ '\\' ∧ c ≠ q := by
  rcases Token.isQuote_cases hq with rfl | rfl <;> constructor <;> rintro rfl <;>
    simp [isSpace, isNewline] at hc

theorem mem_take_breakLength {p : Char → Bool} (hr : p '\r' = true) (hn : p '\n' = true) {t : Text}
    {c : Char} (h : c ∈ t.take (breakLength p t)) : p c = true := by
  rcases t with _ | ⟨a, _ | ⟨b, t⟩⟩
  · simp at h
  · by_cases ha : p a = true
    · obtain rfl : c = a := by simpa using List.mem_of_mem_take h
      exact ha
    · simp [breakLength, ha] at h
  · rw [breakLength_cons_cons] at h
    split_ifs at h with hab ha
    · obtain ⟨rfl, rfl⟩ := hab
      obtain rfl | rfl : c = '\r' ∨ c = '\n' := by simpa using h
      · exact hr
      · exact hn
    · obtain rfl : c = a := by simpa using h
      exact ha
    · simp at h

theorem prefix_escapeDigits (t : Text) : escapeDigits t <+: t :=
  (List.takeWhile_prefix _).trans (List.take_prefix 6 t)

theorem mem_stringEscape {t : Text} {c : Char} (h : c ∈ (t.take (stringEscapeLength t)).tail) :
    isSpace c = true ∨ (Text.hexValue? c).isSome = true := by
  rw [stringEscapeLength] at h
  split_ifs at h with hn
  · have hnew := mem_take_breakLength (p := isNewline) rfl rfl (List.mem_of_mem_tail h)
    exact .inl (by simp [isSpace, hnew])
  · rw [escapeLength] at h
    split at h
    · cases t <;> simp at h
    · next hd =>
      have hp := List.prefix_iff_eq_take.mp (prefix_escapeDigits t)
      have hm := List.mem_of_mem_tail h
      rw [List.take_add, ← hp, List.mem_append] at hm
      rcases hm with hm | hm
      · exact .inr (List.all_eq_true.mp List.all_takeWhile c hm)
      · exact .inl (mem_take_breakLength rfl rfl hm)

theorem closesQuote_escape {q : Char} (hq : isQuote q = true) (r : Text) :
    closesQuote q true r = closesQuote q false (r.drop (stringEscapeLength r)) := by
  cases r with
  | nil => rfl
  | cons c r =>
    obtain ⟨m, hm⟩ := Nat.exists_eq_succ_of_ne_zero (Nat.ne_of_gt (stringEscapeLength_pos c r))
    rw [hm, List.drop_succ_cons, closesQuote]
    conv_lhs => rw [← List.take_append_drop m r]
    apply closesQuote_drop
    intro d hd
    have hmem := mem_stringEscape (t := c :: r) (c := d) (by rw [hm]; exact hd)
    rcases hmem with h | h
    · exact isQuote_ne_space hq h
    · exact isQuote_ne_hex hq h

theorem closesQuote_eq {q : Char} (hq : isQuote q = true) {r : Text}
    (h : ∀ n, quotedLength q 0 r = some n → r.length ≤ n) :
    closesQuote q false r = (quotedLength q 0 r).isSome := by
  induction hl : r.length using Nat.strongRecOn generalizing r with
  | ind n ih =>
    subst hl
    cases r with
    | nil => rfl
    | cons c r =>
      have hne : q ≠ '\\' := by rcases Token.isQuote_cases hq with rfl | rfl <;> decide
      rw [quotedLength] at h ⊢
      rw [closesQuote]
      by_cases hc : c = q
      · subst hc
        simp [hne]
      · simp only [if_neg hc] at h ⊢
        by_cases hn : isNewline c = true
        · simp [hn] at h
        · simp only [hn] at h ⊢
          by_cases hb : c = '\\'
          · subst hb
            simp only [if_true] at h ⊢
            rw [closesQuote_escape hq]
            rw [quotedLength_skip] at h ⊢
            rw [ih (r.drop (stringEscapeLength r)).length
              (by rw [List.length_drop, List.length_cons]; omega) _ rfl]
            · simp
            · intro n hn
              have hle := h (n + min (stringEscapeLength r) r.length + 1) (by simp [hn])
              simp only [List.length_cons, List.length_drop] at hle ⊢
              omega
          · simp only [if_neg hb] at h ⊢
            rw [ih r.length (by simp) _ rfl]
            · simp [hc]
            · intro n hn
              have hle := h (n + 1) (by simp [hn])
              simpa using hle

theorem isSome_quotedLength {q : Char} (hq : isQuote q = true) {r : Text}
    (h : stringIsClosed (q :: r) = true) : (quotedLength q 0 r).isSome := by
  cases hl : quotedLength q 0 r with
  | some n => rfl
  | none =>
    have hclosed := closesQuote_eq hq (r := r) (by simp [hl])
    rw [hl] at hclosed
    rw [stringIsClosed, hclosed] at h
    exact h

/-! ## The last token -/

variable {k : Token.Kind} {c : Char} {r : Text}

theorem first_of_tokens (h : tokens (c :: r) = [⟨k, c :: r⟩]) :
    k = (Token.first c r).1 ∧ r.length ≤ (Token.first c r).2 - 1 := by
  rw [tokens_cons] at h
  obtain ⟨ht, hd⟩ := List.cons.inj h
  have hj := join_tokens (r.drop ((Token.first c r).2 - 1))
  rw [hd, Token.join_nil, eq_comm, List.drop_eq_nil_iff] at hj
  exact ⟨(congrArg Token.kind ht).symm, hj⟩

theorem kind_of_last_comment (h : tokens ('/' :: '*' :: r) = [⟨k, '/' :: '*' :: r⟩]) :
    k = if commentIsClosed ('/' :: '*' :: r) then .comment else .unclosedComment := by
  obtain ⟨rfl, hn⟩ := first_of_tokens h
  rw [Token.first_comment] at hn ⊢
  cases hl : commentLength r with
  | some n =>
    have hs : ['*', '/'] <:+ r := suffix_of_commentLength hl (by simpa [hl] using hn)
    rw [if_pos ((commentIsClosed_iff r).mpr hs)]
  | none =>
    have hs : ¬ ['*', '/'] <:+ r := by
      rintro ⟨x, rfl⟩
      have hx := isSome_commentLength x []
      rw [hl] at hx
      simp at hx
    rw [if_neg fun hc => hs ((commentIsClosed_iff r).mp hc)]

theorem kind_of_last_string (hc : isQuote c = true) (h : tokens (c :: r) = [⟨k, c :: r⟩]) :
    k = if stringIsClosed (c :: r) then .string else .unclosedString := by
  obtain ⟨rfl, hn⟩ := first_of_tokens h
  rw [Token.first_quote hc] at hn ⊢
  rw [stringIsClosed, closesQuote_eq hc]
  · cases quotedLength c 0 r <;> rfl
  · intro n hl
    simpa [hl] using hn

theorem kind_eq_unclosedComment_iff {l : Token} (h : tokens l.text = [l]) :
    l.kind = .unclosedComment ↔
      (∃ r, l.text = '/' :: '*' :: r) ∧ commentIsClosed l.text = false := by
  obtain ⟨k, t⟩ := l
  have hs : k.Spells t := Token.spells_of_mem (h ▸ List.mem_cons_self)
  constructor
  · rintro rfl
    obtain ⟨r, rfl⟩ := hs
    have hk := kind_of_last_comment h
    split_ifs at hk with hc
    exact ⟨⟨r, rfl⟩, by simpa using hc⟩
  · rintro ⟨⟨r, rfl⟩, hc⟩
    rw [kind_of_last_comment h, if_neg (by simpa using hc)]

theorem kind_eq_unclosedString_iff {l : Token} (h : tokens l.text = [l]) :
    l.kind = .unclosedString ↔
      (∃ q r, isQuote q = true ∧ l.text = q :: r) ∧ stringIsClosed l.text = false := by
  obtain ⟨k, t⟩ := l
  have hs : k.Spells t := Token.spells_of_mem (h ▸ List.mem_cons_self)
  constructor
  · rintro rfl
    obtain ⟨q, r, hq, rfl⟩ := hs
    have hk := kind_of_last_string hq h
    split_ifs at hk with hc
    exact ⟨⟨q, r, hq, rfl⟩, by simpa using hc⟩
  · rintro ⟨⟨q, r, hq, rfl⟩, hc⟩
    rw [kind_of_last_string hq h, if_neg (by simpa using hc)]

end AnimationScope.Css
