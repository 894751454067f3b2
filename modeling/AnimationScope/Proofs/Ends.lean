import AnimationScope.Proofs.Lexed
import AnimationScope.Proofs.SyntaxErrors

/-!
# Lexemes up to an end

Lexemes may go on to a character that ends them, or to the end of the input. In
both cases they are divided and put together at a lexeme that stops.
-/

namespace AnimationScope.Css

variable {t : Text} {ts us : List Token} {ls ms : List Lexeme}

theorem find?_openBrackets_eq_none_iff (p : Position) :
    (openBrackets p [] ts).find? (·.1 = .curly) = none ↔ ¬ LeavesBlock ts := by
  constructor
  · intro h hl
    obtain ⟨pre, o, post, rfl, ho, hn, hlast⟩ := hl.exists_last
    rw [find?_openBrackets ho hn hlast] at h
    cases h
  · exact fun h => find?_openBrackets_eq_none h p

theorem syntaxError?_eq_none_iff :
    syntaxError? ts = none ↔ (∀ l ∈ ts.getLast?, l.Whole) ∧ ¬ LeavesBlock ts := by
  rw [← find?_openBrackets_eq_none_iff .start]
  rcases List.eq_nil_or_concat ts with rfl | ⟨us, l, rfl⟩
  · simp [syntaxError?]
  · rw [syntaxError?, List.concat_eq_append, List.getLast?_concat]
    simp only [Option.map_some, Option.mem_some_iff, forall_eq', Token.Whole]
    split
    · next h => simp_all
    · next h => simp_all
    · next h1 h2 =>
      have hw : l.kind ≠ .unclosedComment ∧ l.kind ≠ .unclosedString :=
        ⟨fun hk => h1 (congrArg some hk), fun hk => h2 (congrArg some hk)⟩
      simp [hw]

theorem leavesBlock_append (h : Inside none ts) (hu : ¬ LeavesBlock us) :
    ¬ LeavesBlock (ts ++ us) := by
  rw [← find?_openBrackets_eq_none_iff .start, openBrackets_append, openBrackets_of_inside h _ rfl]
  exact find?_openBrackets_eq_none hu _

theorem LeavesBlock.of_suffix (h : LeavesBlock us) : LeavesBlock (ts ++ us) := by
  obtain ⟨pre, o, post, rfl, ho, hn⟩ := h
  exact ⟨ts ++ pre, o, post, by simp, ho, hn⟩

theorem whole_of_cut {u : Token} {d : Char} {y : Text} (h : Token.Cut [u] (d :: y)) : u.Whole := by
  obtain ⟨c, v, rfl, hn⟩ := Token.exists_first_of_cut h
  have hs := Token.first_spells c (v ++ d :: y)
  constructor
  · intro hk
    simp only at hk
    rw [hk] at hs
    obtain ⟨r, hr⟩ := hs
    obtain ⟨rfl, htake⟩ := List.cons.inj hr
    rw [hn, List.take_left] at htake
    subst htake
    rw [List.cons_append, Token.first_comment] at hk hn
    cases hl : commentLength (r ++ d :: y) with
    | some n =>
      rw [hl] at hk
      cases hk
    | none =>
      simp only [hl, List.length_append, List.length_cons] at hn
      omega
  · intro hk
    simp only at hk
    rw [hk] at hs
    obtain ⟨q, r, hq, hr⟩ := hs
    obtain ⟨rfl, -⟩ := List.cons.inj hr
    rw [Token.first_quote hq] at hk hn
    cases hl : quotedLength c 0 (v ++ d :: y) with
    | some n =>
      rw [hl] at hk
      cases hk
    | none =>
      simp only [hl, List.length_append, List.length_cons] at hn
      omega

theorem whole_of_syntaxError? (h : syntaxError? (tokens t) = none) : ∀ u ∈ tokens t, u.Whole := by
  intro u hu
  obtain ⟨pre, post, hsplit⟩ := List.append_of_mem hu
  cases hpost : post with
  | nil =>
    subst hpost
    refine (syntaxError?_eq_none_iff.mp h).1 u ?_
    rw [hsplit, List.getLast?_concat]
    rfl
  | cons v post' =>
    have hall := Token.cut_tokens t
    rw [hsplit] at hall
    have hcut := (Token.cut_cons_iff.mp (Token.cut_append_iff.mp hall).2).1
    rw [List.append_nil] at hcut
    have hv : v.text ≠ [] := Token.text_ne_nil_of_mem (s := t) (by rw [hsplit, hpost]; simp)
    obtain ⟨d, y, hdy⟩ := List.exists_cons_of_ne_nil hv
    rw [hpost, Token.join_cons, hdy] at hcut
    exact whole_of_cut hcut

/-! ## The end of the input -/

theorem grouped_or_hangs (ts : List Token) :
    Grouped ts ∨ ∃ pre o post b, ts = pre ++ o :: post ∧ Grouped pre ∧ o.kind = .opening b ∧
      b ≠ .curly ∧ ¬ Closes b post := by
  induction hl : ts.length using Nat.strongRecOn generalizing ts with
  | ind n ih =>
    subst hl
    have behind : ∀ us rest : List Token, Grouped us → rest.length < ts.length → ts = us ++ rest →
        Grouped ts ∨ ∃ pre o post b, ts = pre ++ o :: post ∧ Grouped pre ∧ o.kind = .opening b ∧
          b ≠ .curly ∧ ¬ Closes b post := by
      rintro us rest hus hlt rfl
      rcases ih rest.length hlt rest rfl with h | ⟨pre, o, post, b, rfl, hp, h⟩
      · exact .inl (hus.append h)
      · exact .inr ⟨us ++ pre, o, post, b, by simp, hus.append hp, h⟩
    cases ts with
    | nil => exact .inl .nil
    | cons t ts =>
      cases hg : t.kind.group? with
      | none => exact behind [t] ts (.token hg .nil) (by simp) rfl
      | some b =>
        obtain ⟨ho, hb⟩ := opening_of_group? hg
        by_cases hc : Closes b ts
        · obtain ⟨inner, c, rest, rfl, hi, hc⟩ := hc
          exact behind (t :: (inner ++ [c])) rest (.group b ho hb hi hc .nil)
            (by simp; omega) (by simp)
        · exact .inr ⟨[], t, ts, b, rfl, .nil, ho, hb, hc⟩

theorem lexemes_eq_ok_iff :
    lexemes t = .ok ls ↔ syntaxError? (tokens t) = none ∧ Token.lexemes (tokens t) = ls := by
  rw [lexemes]
  cases syntaxError? (tokens t) with
  | some e => simp
  | none => simp [Token.lexemes]

/-- Lexemes up to the end of the input are divided where the group at the end, if
there is one, is not. -/
theorem Lexed.of_lexemes (h : lexemes (Lexeme.join (ls ++ ms)) = .ok (ls ++ ms))
    (hne : ms = [] → ∀ l ∈ ls.getLast?, l.kind ≠ .other) :
    Lexed ls (Lexeme.join ms) ∧ lexemes (Lexeme.join ms) = .ok ms := by
  obtain ⟨herr, hls⟩ := lexemes_eq_ok_iff.mp h
  have hw := whole_of_syntaxError? herr
  obtain ⟨ts, us, hts, hg, rfl, rfl⟩ : ∃ ts us, tokens (Lexeme.join (ls ++ ms)) = ts ++ us ∧
      Grouped ts ∧ Token.lexemes ts = ls ∧ Token.lexemes us = ms := by
    rcases grouped_or_hangs (tokens (Lexeme.join (ls ++ ms))) with
      hg | ⟨pre, o, post, b, hsplit, hp, ho, hb, hn⟩
    · obtain ⟨ts, us, hts, h1, h2, rfl, rfl⟩ := hg.exists_append hls
      exact ⟨ts, us, hts, h1, rfl, rfl⟩
    · rw [hsplit, hp.lexemes_append, Token.lexemes_hanging ho hb hn] at hls
      rcases List.eq_nil_or_concat ms with rfl | ⟨ms', l, rfl⟩
      · rw [List.append_nil] at hls
        exact absurd rfl (hne rfl ⟨.other, Token.join (o :: post)⟩ (by rw [← hls]; simp))
      · rw [List.concat_eq_append, ← List.append_assoc] at hls
        obtain ⟨hls', hl⟩ := List.append_inj' hls rfl
        obtain rfl := List.cons.inj hl |>.1
        obtain ⟨ts, us, rfl, h1, h2, rfl, rfl⟩ := hp.exists_append hls'
        refine ⟨ts, us ++ o :: post, by rw [hsplit, List.append_assoc], h1, rfl, ?_⟩
        rw [h2.lexemes_append, Token.lexemes_hanging ho hb hn, List.concat_eq_append]
  have hus := Token.tokens_join_of_append hts
  rw [hts] at hw herr
  rw [Token.join_lexemes]
  refine ⟨⟨ts, Token.cut_of_append hts, hg, fun u hu => hw u (List.mem_append_left _ hu), rfl⟩,
    lexemes_eq_ok_iff.mpr ⟨syntaxError?_eq_none_iff.mpr ⟨?_, ?_⟩, by rw [hus]⟩⟩
  · rw [hus]
    exact fun l hl => hw l (List.mem_append_right _ (List.mem_of_getLast? hl))
  · rw [hus]
    exact fun hl => (syntaxError?_eq_none_iff.mp herr).2 hl.of_suffix

/-- Lexemes of a sequence of blocks. -/
def Balanced (ls : List Lexeme) : Prop := ∃ n : Nest, n.Plain ∧ n.lexemes = ls

theorem balanced_of_plain {ls : List Lexeme}
    (h : ∀ l ∈ ls, l.kind ≠ .openBrace ∧ l.kind ≠ .closeBrace) : Balanced ls := by
  induction ls with
  | nil => exact ⟨.done, trivial, rfl⟩
  | cons l ls ih =>
    obtain ⟨n, hn, hl⟩ := ih fun m hm => h m (List.mem_cons_of_mem _ hm)
    obtain ⟨ho, hc⟩ := h l List.mem_cons_self
    exact ⟨.lexeme l n, ⟨ho, hc, hn⟩, by rw [Nest.lexemes, hl]⟩

theorem Grouped.inside {n : Nest} (hn : n.Plain) (h : Grouped ts)
    (hl : Token.lexemes ts = n.lexemes) : Inside (some .curly) ts := by
  induction n generalizing ts with
  | done =>
    obtain rfl := h.eq_nil hl
    exact .nil
  | lexeme l rest ih =>
    obtain ⟨ho, hc, hrest⟩ := hn
    cases h with
    | nil => cases hl
    | @token t ts hg hts =>
      rw [Token.lexemes_cons hg] at hl
      obtain ⟨rfl, hlts⟩ := List.cons.inj hl
      refine .plain ?_ ?_ (ih hrest hts hlts)
      · intro b hb
        cases b with
        | curly => exact ho (by rw [Token.lexeme, hb]; rfl)
        | round => rw [hb] at hg; cases hg
        | square => rw [hb] at hg; cases hg
      · rintro b ⟨⟩ hb
        exact hc (by rw [Token.lexeme, hb]; rfl)
    | group b hob hb hi hcb hts =>
      rw [Token.lexemes_group hob hb hi hcb] at hl
      exact .group b hob hi hcb (ih hrest hts (List.cons.inj hl).2)
  | block body rest ihb ihr =>
    have hsplit : Token.lexemes ts =
        [.openBrace] ++ (body.lexemes ++ ([.closeBrace] ++ rest.lexemes)) := by
      rw [hl]
      simp [Nest.lexemes]
    obtain ⟨os, ts', rfl, ho, hts', hol, htl'⟩ := h.exists_append hsplit
    obtain ⟨inner, ts'', rfl, hi, hts'', hil, htl''⟩ := hts'.exists_append htl'
    obtain ⟨cs, rest', rfl, hc, hr, hcl, hrl⟩ := hts''.exists_append htl''
    obtain ⟨o, rfl, hob⟩ := ho.eq_singleton hol (by simp [Lexeme.openBrace])
    obtain ⟨c, rfl, hcb⟩ := hc.eq_singleton hcl (by simp [Lexeme.closeBrace])
    exact .group .curly (Token.Kind.lexeme_eq_openBrace_iff.mp (congrArg Lexeme.kind hob))
      (ihb hn.1 hi hil) (Token.Kind.lexeme_eq_closeBrace_iff.mp (congrArg Lexeme.kind hcb))
      (ihr hn.2 hr hrl)

theorem lexemes_append_of_lexed (h : Lexed ls (Lexeme.join ms)) (hb : Balanced ls)
    (hms : lexemes (Lexeme.join ms) = .ok ms) :
    lexemes (Lexeme.join (ls ++ ms)) = .ok (ls ++ ms) := by
  obtain ⟨n, hn, hnl⟩ := hb
  obtain ⟨ts, hcut, hg, hw, rfl⟩ := h
  have hi := hg.inside hn hnl.symm
  obtain ⟨herr, hls⟩ := lexemes_eq_ok_iff.mp hms
  obtain ⟨hlast, hleaves⟩ := syntaxError?_eq_none_iff.mp herr
  rw [Lexeme.join_append, Token.join_lexemes, lexemes_eq_ok_iff, hcut, hg.lexemes_append, hls]
  refine ⟨syntaxError?_eq_none_iff.mpr ⟨?_, leavesBlock_append hi.outside hleaves⟩, rfl⟩
  rw [List.getLast?_append]
  intro l hl
  cases hus : (tokens (Lexeme.join ms)).getLast? with
  | some v =>
    rw [hus] at hl
    obtain rfl : v = l := by simpa using hl
    exact hlast v hus
  | none =>
    rw [hus] at hl
    exact hw l (List.mem_of_getLast? (by simpa using hl))

/-! ## Up to an end -/

/-- The text of the lexemes is cut into just these lexemes in front of whatever
begins with a character, or at the end of the input. -/
def Ends (e : Option Char) (ls : List Lexeme) : Prop :=
  match e with
  | some c => ∀ x, Lexed ls (c :: x)
  | none => lexemes (Lexeme.join ls) = .ok ls

variable {e : Option Char}

theorem ends_nil (e : Option Char) : Ends e [] := by
  cases e with
  | some c => exact fun x => lexed_nil _
  | none => rfl

theorem Ends.append (h : ∀ x, Lexed ls x) (hb : Balanced ls) (hms : Ends e ms) :
    Ends e (ls ++ ms) := by
  cases e with
  | some c => exact fun x => lexed_append_iff.mpr ⟨h _, hms x⟩
  | none => exact lexemes_append_of_lexed (h _) hb hms

theorem Ends.split {l : Lexeme} (h : Ends e (ls ++ [l] ++ ms)) (hl : l.Stops) :
    (∀ x, Lexed (ls ++ [l]) x) ∧ Ends e ms := by
  cases e with
  | some c =>
    have hsplit := fun x => lexed_append_iff.mp (h x)
    exact ⟨(hsplit []).1.replace_of_stops hl, fun x => (hsplit x).2⟩
  | none =>
    have hne : ms = [] → ∀ m ∈ (ls ++ [l]).getLast?, m.kind ≠ .other := by
      rintro - m hm hk
      rw [List.getLast?_concat, Option.mem_some_iff] at hm
      subst hm
      rcases hl with hl | hl | hl <;> simp [hl] at hk
    obtain ⟨h1, h2⟩ := Lexed.of_lexemes h hne
    exact ⟨h1.replace_of_stops hl, h2⟩

theorem Ends.of_append (h : Ends e (ls ++ ms)) : Ends e ms := by
  cases e with
  | some c => exact fun x => (lexed_append_iff.mp (h x)).2
  | none =>
    by_cases hms : ms = []
    · subst hms
      rfl
    · exact (Lexed.of_lexemes h fun hnil => absurd hnil hms).2

end AnimationScope.Css
