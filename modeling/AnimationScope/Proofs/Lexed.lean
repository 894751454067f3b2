import AnimationScope.Proofs.Blocks

/-!
# Lexemes in front of a rest

As with tokens, some lexemes may be just what a text is cut into in front of a
given rest. Behind a semicolon, a brace or a comment the rest does not matter.
-/

namespace AnimationScope.Css

variable {ts us : List Token} {ls ms : List Lexeme} {rest : Text}

/-! ## Groups side by side -/

theorem Grouped.eq_nil (h : Grouped ts) (hl : Token.lexemes ts = []) : ts = [] := by
  cases h with
  | nil => rfl
  | token hg _ => simp [Token.lexemes_cons hg] at hl
  | group b ho hb hi hc _ => simp [Token.lexemes_group ho hb hi hc] at hl

/-- Tokens whose groups are closed can be divided wherever their lexemes can. -/
theorem Grouped.exists_append (h : Grouped ts) (hl : Token.lexemes ts = ls ++ ms) :
    ∃ ts₁ ts₂, ts = ts₁ ++ ts₂ ∧ Grouped ts₁ ∧ Grouped ts₂ ∧ Token.lexemes ts₁ = ls ∧
      Token.lexemes ts₂ = ms := by
  induction h generalizing ls with
  | nil =>
    obtain ⟨rfl, rfl⟩ := List.append_eq_nil_iff.mp hl.symm
    exact ⟨[], [], rfl, .nil, .nil, rfl, rfl⟩
  | @token t ts hg hts ih =>
    cases ls with
    | nil => exact ⟨[], t :: ts, rfl, .nil, .token hg hts, rfl, hl⟩
    | cons l ls =>
      rw [Token.lexemes_cons hg, List.cons_append] at hl
      obtain ⟨rfl, hts'⟩ := List.cons.inj hl
      obtain ⟨ts₁, ts₂, rfl, h1, h2, rfl, rfl⟩ := ih hts'
      exact ⟨t :: ts₁, ts₂, rfl, .token hg h1, h2, Token.lexemes_cons hg ts₁, rfl⟩
  | @group o c inner ts b ho hb hi hc hts ih =>
    cases ls with
    | nil => exact ⟨[], _, rfl, .nil, .group b ho hb hi hc hts, rfl, hl⟩
    | cons l ls =>
      rw [Token.lexemes_group ho hb hi hc, List.cons_append] at hl
      obtain ⟨rfl, hts'⟩ := List.cons.inj hl
      obtain ⟨ts₁, ts₂, rfl, h1, h2, rfl, rfl⟩ := ih hts'
      exact ⟨o :: (inner ++ c :: ts₁), ts₂, by simp, .group b ho hb hi hc h1, h2,
        Token.lexemes_group ho hb hi hc ts₁, rfl⟩

theorem Grouped.kind_of_getLast (h : Grouped ts) :
    ∀ t ∈ ts.getLast?, t.kind ≠ .opening .round := by
  induction h with
  | nil => simp
  | @token t ts hg _ ih =>
    rcases List.eq_nil_or_concat ts with rfl | ⟨us, v, hv⟩
    · intro u hu hk
      obtain rfl : t = u := Option.some.inj hu
      rw [hk] at hg
      cases hg
    · rw [hv, List.concat_eq_append, List.getLast?_concat] at ih
      rw [hv, List.concat_eq_append, ← List.cons_append, List.getLast?_concat]
      exact ih
  | @group o c inner ts b _ _ _ hc _ ih =>
    rcases List.eq_nil_or_concat ts with rfl | ⟨us, v, hv⟩
    · intro u hu hk
      rw [← List.cons_append, List.getLast?_concat] at hu
      obtain rfl : c = u := Option.some.inj hu
      rw [hc] at hk
      cases hk
    · rw [hv, List.concat_eq_append, List.getLast?_concat] at ih
      rw [hv, List.concat_eq_append, ← List.cons_append, ← List.cons_append, ← List.append_assoc,
        List.getLast?_concat]
      exact ih

theorem Grouped.eq_singleton {l : Lexeme} (h : Grouped ts) (hl : Token.lexemes ts = [l])
    (hk : l.kind ≠ .other) : ∃ t, ts = [t] ∧ t.lexeme = l := by
  cases h with
  | nil => cases hl
  | @token t us hg hus =>
    rw [Token.lexemes_cons hg] at hl
    obtain ⟨ht, hus'⟩ := List.cons.inj hl
    obtain rfl := hus.eq_nil hus'
    exact ⟨t, rfl, ht⟩
  | group b ho hb hi hc _ =>
    rw [Token.lexemes_group ho hb hi hc] at hl
    obtain ⟨rfl, -⟩ := List.cons.inj hl
    exact absurd rfl hk

/-! ## Lexemes in front of a rest -/

def Token.Whole (t : Token) : Prop := t.kind ≠ .unclosedComment ∧ t.kind ≠ .unclosedString

/-- In front of `rest`, the text of the lexemes is cut into just these lexemes. -/
def Lexed (ls : List Lexeme) (rest : Text) : Prop :=
  ∃ ts, Token.Cut ts rest ∧ Grouped ts ∧ (∀ t ∈ ts, t.Whole) ∧ Token.lexemes ts = ls

@[simp] theorem lexed_nil (rest : Text) : Lexed [] rest :=
  ⟨[], Token.cut_nil rest, .nil, by simp, rfl⟩

theorem lexed_append_iff :
    Lexed (ls ++ ms) rest ↔ Lexed ls (Lexeme.join ms ++ rest) ∧ Lexed ms rest := by
  constructor
  · rintro ⟨ts, hcut, hg, hw, hl⟩
    obtain ⟨ts₁, ts₂, rfl, h1, h2, rfl, rfl⟩ := hg.exists_append hl
    obtain ⟨hc1, hc2⟩ := Token.cut_append_iff.mp hcut
    rw [← Token.join_lexemes] at hc1
    exact ⟨⟨ts₁, hc1, h1, fun t ht => hw t (List.mem_append_left _ ht), rfl⟩,
      ⟨ts₂, hc2, h2, fun t ht => hw t (List.mem_append_right _ ht), rfl⟩⟩
  · rintro ⟨⟨ts₁, hc1, h1, hw1, rfl⟩, ⟨ts₂, hc2, h2, hw2, rfl⟩⟩
    rw [Token.join_lexemes] at hc1
    refine ⟨ts₁ ++ ts₂, Token.cut_append hc1 hc2, h1.append h2, ?_, h1.lexemes_append ts₂⟩
    intro t ht
    rcases List.mem_append.mp ht with ht | ht
    · exact hw1 t ht
    · exact hw2 t ht

theorem lexed_cons_iff {l : Lexeme} :
    Lexed (l :: ls) rest ↔ Lexed [l] (Lexeme.join ls ++ rest) ∧ Lexed ls rest :=
  @lexed_append_iff [l] ls rest

theorem Lexed.replace {d : Char} {y : Text} (h : Lexed ls (d :: y)) (hd : isBarrier d = true)
    (y' : Text) : Lexed ls (d :: y') := by
  obtain ⟨ts, hc, hg, hw, rfl⟩ := h
  exact ⟨ts, hc.replace hd y' fun _ => hg.kind_of_getLast, hg, hw, rfl⟩

theorem lexed_mark {c : Char} {k : Token.Kind} (h : Token.punctuation? c = some k)
    (hg : k.group? = none) (rest : Text) : Lexed [⟨k.lexeme, [c]⟩] rest := by
  have hf := Token.first_mark h (r := rest)
  have hw : Token.Whole ⟨k, [c]⟩ := by
    have hm := Token.mem_marks h
    constructor <;> rintro rfl <;> simp at hm
  refine ⟨[⟨k, [c]⟩], Token.cut_singleton (u := []) ?_ ?_, .token hg .nil, ?_, ?_⟩
  · rw [List.nil_append, hf]
  · rw [List.nil_append, hf]
    rfl
  · simpa using hw
  · rw [Token.lexemes_cons hg]
    rfl

/-! ## Lexemes that stop -/

theorem Token.cut_comment {t : Text} (h : Cut [⟨.comment, t⟩] rest) (y : Text) :
    Cut [⟨.comment, t⟩] y := by
  obtain ⟨u, rfl⟩ : ∃ u, t = '/' :: '*' :: u := spells_of_mem (h.mem_tokens List.mem_cons_self)
  obtain ⟨hk, hn⟩ := first_of_cut h
  rw [List.cons_append, first_comment] at hk hn
  cases hc : commentLength (u ++ rest) with
  | none =>
    rw [hc] at hk
    cases hk
  | some n =>
    have hle := commentLength_le hc
    simp only [hc, List.length_cons, List.length_append] at hn hle
    have hy := commentLength_replace hc (by omega) y
    apply cut_singleton <;> rw [List.cons_append, first_comment, hy]
    simp only [List.length_cons]
    omega

theorem Lexed.spelled (h : Lexed ls rest) : ∀ l ∈ ls, l.Spelled := by
  obtain ⟨ts, hc, -, -, rfl⟩ := h
  exact spelled_of_mem_lexemes fun t ht => Token.spells_of_mem (hc.mem_tokens ht)

theorem Lexed.text_ne_nil (h : Lexed ls rest) : ∀ l ∈ ls, l.text ≠ [] := by
  obtain ⟨ts, hc, -, -, rfl⟩ := h
  exact Token.text_ne_nil_of_mem_lexemes fun t ht => Token.text_ne_nil_of_mem (hc.mem_tokens ht)

/-- Lexemes behind which the rest does not matter. -/
def Lexeme.Stops (l : Lexeme) : Prop :=
  l.kind = .comment ∨ l.kind = .semicolon ∨ l.kind = .closeBrace

theorem Token.kind_of_lexeme_comment {t : Token} (hw : t.Whole) (h : t.lexeme.kind = .comment) :
    t.kind = .comment := by
  obtain ⟨k, s⟩ := t
  rcases k with _ | _ | _ | _ | _ | _ | _ | _ | _ | _ | (_ | _ | _) | (_ | _ | _) | _ <;>
    simp_all [Token.lexeme, Token.Kind.lexeme, Token.Whole]

theorem Lexed.stop {l : Lexeme} (h : Lexed [l] rest) (hl : l.Stops) :
    (∀ y, Lexed [l] y) ∧ ∃ d u, l.text = d :: u ∧ isBarrier d = true := by
  have hs := h.spelled l List.mem_cons_self
  obtain ⟨k, t⟩ := l
  rcases hl with hk | hk | hk
  · obtain rfl : k = .comment := hk
    obtain ⟨ts, hc, hg, hw, hlx⟩ := h
    obtain ⟨⟨k', t'⟩, rfl, ht'⟩ := hg.eq_singleton hlx (by simp)
    obtain ⟨hkind, rfl⟩ := Lexeme.mk.inj ht'
    obtain rfl : k' = .comment :=
      Token.kind_of_lexeme_comment (hw _ List.mem_cons_self) hkind
    refine ⟨fun y => ⟨_, Token.cut_comment hc y, hg, hw, hlx⟩, ?_⟩
    obtain ⟨u, hu⟩ : ∃ u, t' = '/' :: '*' :: u := hs
    exact ⟨'/', '*' :: u, hu, rfl⟩
  · obtain rfl : k = .semicolon := hk
    obtain rfl : t = [';'] := hs
    exact ⟨lexed_mark (k := .semicolon) rfl rfl, ';', [], rfl, rfl⟩
  · obtain rfl : k = .closeBrace := hk
    obtain rfl : t = ['}'] := hs
    exact ⟨lexed_mark (k := .closing .curly) rfl rfl, '}', [], rfl, rfl⟩

theorem Lexed.replace_of_stops {l : Lexeme} (h : Lexed (ls ++ [l]) rest) (hl : l.Stops)
    (y : Text) : Lexed (ls ++ [l]) y := by
  obtain ⟨h1, h2⟩ := lexed_append_iff.mp h
  obtain ⟨hfree, d, u, htext, hd⟩ := h2.stop hl
  have hjoin : ∀ z, Lexeme.join [l] ++ z = d :: (u ++ z) := by
    intro z
    simp [htext]
  rw [hjoin] at h1
  refine lexed_append_iff.mpr ⟨?_, hfree y⟩
  rw [hjoin]
  exact h1.replace hd _

end AnimationScope.Css
