import AnimationScope.Proofs.Closers
import AnimationScope.Proofs.FirstToken

/-!
# Cutting a text in front of another one

Tokens are cut off a text with all that follows them in view. The judgment here
says that some tokens are just what is cut off in front of a given rest, so that
cuts can be put side by side, and the rest can be replaced behind a barrier.
-/

namespace AnimationScope.Css.Token

@[simp] theorem join_append (ts us : List Token) : join (ts ++ us) = join ts ++ join us :=
  List.flatMap_append

/-- In front of `rest`, the text of the tokens is cut into just these tokens. -/
def Cut (ts : List Token) (rest : Text) : Prop := tokens (join ts ++ rest) = ts ++ tokens rest

@[simp] theorem cut_nil (rest : Text) : Cut [] rest := rfl

theorem cut_tokens (t : Text) : Cut (tokens t) [] := by
  rw [Cut, join_tokens, List.append_nil, tokens_nil, List.append_nil]

theorem tokens_eq_cons {t : Token} {ts : List Token} {s : Text} (h : tokens s = t :: ts) :
    s = t.text ++ join ts ∧ tokens (join ts) = ts := by
  cases s with
  | nil => simp at h
  | cons c r =>
    have hj := join_tokens (c :: r)
    rw [h, join_cons] at hj
    rw [tokens_cons] at h
    obtain ⟨-, rfl⟩ := List.cons.inj h
    exact ⟨hj.symm, by rw [join_tokens]⟩

theorem tokens_join_of_append {ts us : List Token} {s : Text} (h : tokens s = ts ++ us) :
    tokens (join us) = us := by
  induction ts generalizing s with
  | nil =>
    rw [List.nil_append] at h
    rw [← h, join_tokens]
  | cons t ts ih =>
    rw [List.cons_append] at h
    exact ih (tokens_eq_cons h).2

theorem cut_of_append {ts us : List Token} {s : Text} (h : tokens s = ts ++ us) :
    Cut ts (join us) := by
  have hj := join_tokens s
  rw [h, join_append] at hj
  rw [Cut, hj, h, tokens_join_of_append h]

theorem cut_append_iff {ts us : List Token} {rest : Text} :
    Cut (ts ++ us) rest ↔ Cut ts (join us ++ rest) ∧ Cut us rest := by
  constructor
  · intro h
    have hr : tokens (join us ++ rest) = us ++ tokens rest := by
      have hs := tokens_join_of_append (h.trans (List.append_assoc ..))
      rwa [join_append, join_tokens] at hs
    refine ⟨?_, hr⟩
    rw [Cut, hr, ← List.append_assoc, ← List.append_assoc, ← join_append]
    exact h
  · rintro ⟨h1, h2⟩
    rw [Cut, join_append, List.append_assoc, h1, h2, List.append_assoc]

theorem cut_append {ts us : List Token} {rest : Text} (h1 : Cut ts (join us ++ rest))
    (h2 : Cut us rest) : Cut (ts ++ us) rest := cut_append_iff.mpr ⟨h1, h2⟩

theorem cut_cons_iff {t : Token} {ts : List Token} {rest : Text} :
    Cut (t :: ts) rest ↔ Cut [t] (join ts ++ rest) ∧ Cut ts rest :=
  @cut_append_iff [t] ts rest

/-- The first token of a text, given by the rule for its start. -/
theorem cut_singleton {c : Char} {u rest : Text} {k : Kind}
    (hk : (first c (u ++ rest)).1 = k) (hn : (first c (u ++ rest)).2 - 1 = u.length) :
    Cut [⟨k, c :: u⟩] rest := by
  simp only [Cut, join_cons, join_nil, List.append_nil, List.cons_append, List.nil_append]
  rw [tokens_cons, hk, hn]
  simp

theorem Cut.mem_tokens {ts : List Token} {rest : Text} (h : Cut ts rest) {t : Token} (ht : t ∈ ts) :
    t ∈ tokens (join ts ++ rest) := by
  rw [h]
  exact List.mem_append_left _ ht

/-- The rule for the start of a token that is cut off. -/
theorem first_of_cut {k : Kind} {c : Char} {u rest : Text} (h : Cut [⟨k, c :: u⟩] rest) :
    k = (first c (u ++ rest)).1 ∧
      min ((first c (u ++ rest)).2 - 1) (u ++ rest).length = u.length := by
  simp only [Cut, join_cons, join_nil, List.append_nil, List.cons_append, List.nil_append] at h
  rw [tokens_cons] at h
  obtain ⟨ht, -⟩ := List.cons.inj h
  obtain ⟨hk, hu⟩ := Token.mk.inj ht
  have hlen := congrArg List.length (List.cons.inj hu).2
  rw [List.length_take] at hlen
  exact ⟨hk.symm, hlen⟩

theorem exists_first_of_cut {t : Token} {d : Char} {y : Text} (h : Cut [t] (d :: y)) :
    ∃ c u, t = ⟨(first c (u ++ d :: y)).1, c :: u⟩ ∧
      (first c (u ++ d :: y)).2 - 1 = u.length := by
  have hne := text_ne_nil_of_mem (h.mem_tokens List.mem_cons_self)
  obtain ⟨c, u, hu⟩ := List.exists_cons_of_ne_nil hne
  obtain ⟨k, s⟩ := t
  obtain rfl : s = c :: u := hu
  obtain ⟨rfl, hlen⟩ := first_of_cut h
  rw [List.length_append, List.length_cons] at hlen
  exact ⟨c, u, rfl, by omega⟩

theorem Cut.eq_nil {ts : List Token} {rest : Text} (h : Cut ts rest) (hj : join ts = []) :
    ts = [] := by
  cases ts with
  | nil => rfl
  | cons t ts =>
    have hne := text_ne_nil_of_mem (h.mem_tokens List.mem_cons_self)
    exact absurd (List.append_eq_nil_iff.mp hj).1 hne

/-! ## What comes in place of a barrier -/

variable {d : Char} {w x y : Text} {ts : List Token}

theorem endsSpaces_of_cut (h : Cut ts (w ++ d :: y)) (hts : ts ≠ []) :
    endsSpaces d (join ts ++ w) = true := by
  obtain ⟨t, ts, rfl⟩ := List.exists_cons_of_ne_nil hts
  cases he : endsSpaces d (join (t :: ts) ++ w) with
  | true => rfl
  | false =>
    exfalso
    have hne : join ts ++ (w ++ d :: y) ≠ [] := by simp
    obtain ⟨e, z, hz⟩ := List.exists_cons_of_ne_nil hne
    have h1 := (cut_cons_iff.mp h).1
    rw [hz] at h1
    obtain ⟨c, u, rfl, hn⟩ := exists_first_of_cut h1
    rw [← hz] at hn
    simp only [join_cons, List.cons_append, endsSpaces, List.any_cons, Bool.or_eq_false_iff,
      Bool.not_eq_false'] at he
    obtain ⟨hd, hc, hrun⟩ := he
    have hspaces : endsSpaces d (u ++ join ts ++ w) = false := by rw [endsSpaces, hd, hrun]; rfl
    have hl := lt_length_spaces hspaces y
    rw [first_space hc, ← List.append_assoc, ← List.append_assoc] at hn
    simp only [List.length_append] at hl
    omega

/-- A string that reaches the end of what is in front of the barrier is closed by its text. -/
theorem isSome_quotedLength_of_first {c : Char} {u : Text} (hc : isQuote c = true)
    (hn : (first c (u ++ d :: y)).2 = u.length + 1)
    (h : (first c (u ++ d :: y)).1 = .string → stringIsClosed (c :: u) = true) :
    (quotedLength c 0 u).isSome := by
  refine isSome_quotedLength hc (h ?_)
  rw [first_quote hc] at hn ⊢
  cases hl : quotedLength c 0 (u ++ d :: y) with
  | some n => rfl
  | none =>
    simp only [hl, List.length_append, List.length_cons] at hn
    omega

/-- The rest may change from a barrier on, unless a function's name is right in front of
spaces. If the barrier is a newline and the input ends there instead, none of the tokens may
have but a backslash behind it, and a string in front of the newline must be closed. -/
theorem Cut.resume (h : Cut ts (w ++ d :: y)) (hd : isBarrier d = true) (hx : Resumes d x)
    (hs : isSpace d = true → ∀ t ∈ ts.getLast?, t.kind ≠ .opening .round)
    (hb : LosesNewline d x → ∀ t us, t :: us <:+ ts → join us ++ w ≠ ['\\'])
    (hq : LosesNewline d x → w = [] → ∀ t ∈ ts.getLast?, t.kind = .string →
      stringIsClosed t.text = true) : Cut ts (w ++ x) := by
  induction ts with
  | nil => exact cut_nil _
  | cons t ts ih =>
    obtain ⟨h1, h2⟩ := cut_cons_iff.mp h
    have hlast : ∀ v ∈ ts.getLast?, v ∈ (t :: ts).getLast? := by
      intro v hv
      rw [List.getLast?_cons, Option.mem_def.mp hv]
      rfl
    refine cut_cons_iff.mpr ⟨?_, ih h2 (fun hsd v hv => hs hsd v (hlast v hv))
      (fun hlost v us hsuffix => hb hlost v us (hsuffix.trans (List.suffix_cons t ts)))
      fun hlost hw v hv => hq hlost hw v (hlast v hv)⟩
    obtain ⟨e, z, hz⟩ := List.exists_cons_of_ne_nil (l := join ts ++ (w ++ d :: y)) (by simp)
    rw [hz] at h1
    obtain ⟨c, u, rfl, hn⟩ := exists_first_of_cut h1
    have hrest : u ++ e :: z = (u ++ (join ts ++ w)) ++ d :: y := by rw [← hz]; simp
    rw [hrest] at hn hs hq ⊢
    have hf : first c ((u ++ (join ts ++ w)) ++ x) = first c ((u ++ (join ts ++ w)) ++ d :: y) := by
      refine first_resume hd hx ?_ ?_ ?_ ?_
      · simp only [List.length_append]
        omega
      · intro hk
        rw [hn, List.drop_left]
        by_cases hts : ts = []
        · subst hts
          have hsd : isSpace d = false := by
            rw [Bool.eq_false_iff]
            exact fun hsd => hs hsd _ rfl hk
          simp [endsSpaces, hsd]
        · exact endsSpaces_of_cut h2 hts
      · intro hlost
        rw [hn, List.drop_left]
        exact hb hlost _ ts List.suffix_rfl
      · intro hlost hquote hlen
        have hnil : join ts ++ w = [] := by
          rw [hlen, Nat.add_sub_cancel, List.length_append] at hn
          exact List.eq_nil_of_length_eq_zero (by omega)
        obtain ⟨hts, rfl⟩ := List.append_eq_nil_iff.mp hnil
        obtain rfl := h2.eq_nil hts
        rw [join_nil, List.append_nil, List.append_nil] at hlen hq ⊢
        exact isSome_quotedLength_of_first hquote hlen (hq hlost rfl _ rfl)
    have hnew : u ++ (join ts ++ (w ++ x)) = (u ++ (join ts ++ w)) ++ x := by simp
    apply cut_singleton <;> rw [hnew, hf]
    exact hn

theorem Cut.replace (h : Cut ts (d :: y)) (hd : isBarrier d = true) (y' : Text)
    (hs : isSpace d = true → ∀ t ∈ ts.getLast?, t.kind ≠ .opening .round) :
    Cut ts (d :: y') :=
  Cut.resume (w := []) h hd (.barrier y') hs
    (fun hlost => absurd hlost (not_losesNewline_cons d d y'))
    fun hlost => absurd hlost (not_losesNewline_cons d d y')

/-- The input may end in front of a barrier. -/
theorem Cut.atEnd (h : Cut ts (w ++ d :: y)) (hd : isBarrier d = true)
    (hs : ∀ t ∈ ts.getLast?, t.kind ≠ .opening .round)
    (hb : isNewline d = true → ∀ t us, t :: us <:+ ts → join us ++ w ≠ ['\\'])
    (hq : isNewline d = true → w = [] → ∀ t ∈ ts.getLast?, t.kind = .string →
      stringIsClosed t.text = true) : Cut ts w := by
  have hcut := h.resume hd .atEnd (fun _ => hs) (fun hlost => hb hlost.1) fun hlost => hq hlost.1
  rwa [List.append_nil] at hcut

end AnimationScope.Css.Token
