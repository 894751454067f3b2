import AnimationScope.Proofs.Tiling

/-!
# Lexemes on their own

Lexemes that a space, a semicolon or a closing brace follows are the lexemes of their text
taken out of its place. Only a newline may have kept apart what the end of the text does not.
-/

namespace AnimationScope.Css

/-- Lexemes that end otherwise in front of a newline than at the end of the text: a string
that is still open, or a backslash that the lexeme in front of it would take in. -/
inductive BreaksOff : List Lexeme → Prop
  | string (ls : List Lexeme) {l : Lexeme} (hk : l.kind = .string)
      (ho : stringIsClosed l.text = false) : BreaksOff (ls ++ [l])
  | backslash (ls : List Lexeme) {l b : Lexeme} (hb : b.text = ['\\'])
      (h : lexemes (l.text ++ b.text) ≠ .ok [l, b]) : BreaksOff (ls ++ [l, b])

variable {d : Char} {y w : Text} {l : Lexeme} {ls ms pre post : List Lexeme} {ts : List Token}

theorem BreaksOff.cons (h : BreaksOff ls) (l : Lexeme) : BreaksOff (l :: ls) := by
  cases h with
  | string ls' hk ho => exact .string (l :: ls') hk ho
  | backslash ls' hb h => exact .backslash (l :: ls') hb h

/-! ## Texts that are not empty -/

theorem Lexeme.eq_nil_of_join (hne : ∀ l ∈ ls, l.text ≠ []) (h : join ls = []) : ls = [] := by
  cases ls with
  | nil => rfl
  | cons l ls => exact absurd (List.append_eq_nil_iff.mp h).1 (hne l List.mem_cons_self)

theorem Lexeme.eq_singleton_of_join {c : Char} (hne : ∀ l ∈ ls, l.text ≠ [])
    (h : join ls = [c]) : ∃ b, ls = [b] ∧ b.text = [c] := by
  cases ls with
  | nil => cases h
  | cons b ls =>
    rw [List.forall_mem_cons] at hne
    obtain ⟨e, r, hr⟩ := List.exists_cons_of_ne_nil hne.1
    rw [join_cons, hr, List.cons_append] at h
    obtain ⟨rfl, hrest⟩ := List.cons.inj h
    obtain ⟨rfl, hls⟩ := List.append_eq_nil_iff.mp hrest
    obtain rfl := eq_nil_of_join hne.2 hls
    exact ⟨b, rfl, hr⟩

theorem Lexeme.append_inj_of_join {as bs cs ds : List Lexeme} (h : as ++ bs = cs ++ ds)
    (hne : ∀ l ∈ as ++ bs, l.text ≠ []) (hj : join as = join cs) : as = cs ∧ bs = ds := by
  rcases List.append_eq_append_iff.mp h with ⟨x, rfl, rfl⟩ | ⟨x, rfl, rfl⟩
  · have hx : ∀ l ∈ x, l.text ≠ [] := fun l hl => hne l (by simp [hl])
    rw [join_append, List.self_eq_append_right] at hj
    obtain rfl := eq_nil_of_join hx hj
    simp
  · have hx : ∀ l ∈ x, l.text ≠ [] := fun l hl => hne l (by simp [hl])
    rw [join_append, List.append_right_eq_self] at hj
    obtain rfl := eq_nil_of_join hx hj
    simp

/-! ## One lexeme -/

theorem Grouped.exists_closing (h : Grouped ts) (hl : Token.lexemes ts = [l]) {t : Token}
    {us : List Token} (hsuffix : t :: us <:+ ts) (hus : us ≠ []) :
    ∃ c ∈ us, ∃ b, c.kind = .closing b := by
  cases h with
  | nil => simp at hsuffix
  | @token v ts hg hts =>
    rw [Token.lexemes_cons hg] at hl
    obtain rfl := hts.eq_nil (List.cons.inj hl).2
    have hlen := hsuffix.length_le
    have hpos := List.length_pos_iff.mpr hus
    simp only [List.length_cons, List.length_nil] at hlen
    omega
  | @group o c inner ts b ho hb hi hc hts =>
    rw [Token.lexemes_group ho hb hi hc] at hl
    obtain rfl := hts.eq_nil (List.cons.inj hl).2
    refine ⟨c, ?_, b, hc⟩
    obtain ⟨front, hfront⟩ := hsuffix
    have hlast := congrArg List.getLast? hfront
    rw [List.getLast?_append_cons, ← List.cons_append, List.getLast?_concat,
      List.getLast?_cons_of_ne_nil hus] at hlast
    exact List.mem_of_getLast? hlast

theorem Grouped.string_of_getLast (h : Grouped ts) (hl : Token.lexemes ts = [l]) :
    ∀ t ∈ ts.getLast?, t.kind = .string → l = t.lexeme := by
  intro t ht hk
  cases h with
  | nil => cases ht
  | @token v ts hg hts =>
    rw [Token.lexemes_cons hg] at hl
    obtain ⟨rfl, htail⟩ := List.cons.inj hl
    obtain rfl := hts.eq_nil htail
    obtain rfl : v = t := Option.some.inj ht
    rfl
  | @group o c inner ts b ho hb hi hc hts =>
    rw [Token.lexemes_group ho hb hi hc] at hl
    obtain rfl := hts.eq_nil (List.cons.inj hl).2
    rw [← List.cons_append, List.getLast?_concat] at ht
    obtain rfl := Option.some.inj ht
    rw [hc] at hk
    cases hk

theorem Lexed.singleton_atEnd (h : Lexed [l] (w ++ d :: y)) (hd : isBarrier d = true)
    (hb : isNewline d = true → w ≠ ['\\'])
    (hq : isNewline d = true → w = [] → l.kind = .string → stringIsClosed l.text = true) :
    Lexed [l] w := by
  obtain ⟨ts, hc, hg, hw, hl⟩ := h
  refine ⟨ts, hc.atEnd hd hg.kind_of_getLast ?_ ?_, hg, hw, hl⟩
  · intro hn t us hsuffix hback
    by_cases hus : us = []
    · subst hus
      exact hb hn hback
    · obtain ⟨c, hcmem, b, hcb⟩ := hg.exists_closing hl hsuffix hus
      have hspells : c.kind.Spells c.text :=
        Token.spells_of_mem (hc.mem_tokens (hsuffix.subset (List.mem_cons_of_mem _ hcmem)))
      have hsub : ∀ a ∈ c.text, a = '\\' := by
        intro a ha
        have hmem : a ∈ Token.join us ++ w :=
          List.mem_append_left _ (List.mem_flatMap.mpr ⟨c, hcmem, ha⟩)
        rw [hback] at hmem
        exact List.mem_singleton.mp hmem
      rw [hcb] at hspells
      cases b <;> rw [show c.text = _ from hspells] at hsub <;> simp at hsub
  · intro hn hw t ht hk
    obtain rfl := hg.string_of_getLast hl t ht hk
    exact hq hn hw (by rw [Token.lexeme, hk]; rfl)

/-! ## Several lexemes -/

/-- The text may end in front of a barrier, unless a newline breaks the lexemes off. -/
theorem Lexed.atEnd (h : Lexed ls (d :: y)) (hd : isBarrier d = true)
    (hb : isNewline d = true → ¬ BreaksOff ls) : Lexed ls [] := by
  induction ls with
  | nil => exact lexed_nil []
  | cons l ls ih =>
    obtain ⟨h1, h2⟩ := lexed_cons_iff.mp h
    refine lexed_cons_iff.mpr ⟨?_, ih h2 fun hn hbreaks => hb hn (hbreaks.cons l)⟩
    rw [List.append_nil]
    by_cases hback : isNewline d = true ∧ Lexeme.join ls = ['\\']
    · -- The lexeme in front of the backslash has the newline in sight as well.
      obtain ⟨hn, hjoin⟩ := hback
      obtain ⟨b, rfl, hbtext⟩ := Lexeme.eq_singleton_of_join h2.text_ne_nil hjoin
      have htwo : lexemes (Lexeme.join ([l] ++ [b])) = .ok ([l] ++ [b]) := by
        by_contra hne
        refine hb hn (.backslash [] hbtext ?_)
        simpa using hne
      exact (Lexed.of_lexemes htwo (by simp)).1
    · refine h1.singleton_atEnd hd (fun hn hjoin => hback ⟨hn, hjoin⟩) ?_
      intro hn hjoin hk
      obtain rfl := Lexeme.eq_nil_of_join h2.text_ne_nil hjoin
      by_contra ho
      exact hb hn (.string [] hk (Bool.eq_false_iff.mpr ho))

theorem not_breaksOff_of_lexemes (h : lexemes (Lexeme.join ls) = .ok ls) : ¬ BreaksOff ls := by
  intro hb
  cases hb with
  | @string ls l hk ho =>
    have hl : lexemes (Lexeme.join ([l] ++ [])) = .ok ([l] ++ []) :=
      Ends.of_append (e := none) h
    obtain ⟨ts, hc, hg, hw, hlex⟩ := (Lexed.of_lexemes hl (by simp [hk])).1
    obtain ⟨t, rfl, rfl⟩ := hg.eq_singleton hlex (by simp [hk])
    have htokens : tokens t.text = [t] := by simpa [Token.Cut] using hc
    refine (hw t List.mem_cons_self).2 ((kind_eq_unclosedString_iff htokens).mpr ⟨?_, ho⟩)
    have hspelled := spelled_of_lexemes hl t.lexeme (by simp)
    rwa [Lexeme.Spelled, hk] at hspelled
  | @backslash ls l b hb hne =>
    have htwo : lexemes (Lexeme.join [l, b]) = .ok [l, b] := Ends.of_append (e := none) h
    exact hne (by simpa using htwo)

/-- Lexemes in front of a barrier or of the end are the lexemes of their text just if no
newline breaks them off. -/
theorem lexemes_join_iff {t : Text} (h : lexemes t = .ok (pre ++ ls ++ post))
    (hls : Balanced ls) (hpost : ∀ c ∈ (Lexeme.join post).head?, isBarrier c = true) :
    lexemes (Lexeme.join ls) = .ok ls ↔
      (headIs isNewline (Lexeme.join post) = true → ¬ BreaksOff ls) := by
  constructor
  · exact fun hok _ => not_breaksOff_of_lexemes hok
  · intro hb
    have hne := text_ne_nil_of_lexemes h
    rw [← join_lexemes h] at h
    cases hrest : Lexeme.join post with
    | nil =>
      obtain rfl := Lexeme.eq_nil_of_join (fun l hl => hne l (List.mem_append_right _ hl)) hrest
      rw [List.append_nil] at h
      exact Ends.of_append (e := none) h
    | cons d y =>
      rw [hrest] at hb hpost
      have hpost' : post ≠ [] := by
        rintro rfl
        cases hrest
      have hlexed := (Lexed.of_lexemes h fun hnil => absurd hnil hpost').1
      rw [hrest] at hlexed
      have hend := (lexed_append_iff.mp hlexed).2.atEnd (hpost d rfl) hb
      have hall : lexemes (Lexeme.join (ls ++ [])) = .ok (ls ++ []) :=
        lexemes_append_of_lexed hend hls rfl
      rwa [List.append_nil] at hall

end AnimationScope.Css
