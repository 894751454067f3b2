import AnimationScope.Proofs.BreakingOff
import AnimationScope.Proofs.Substitution
import AnimationScope.Proofs.Words

/-!
# One name in the place of another

A name that is a word of a value is one lexeme of it. Another name may stand in its
place, and all other lexemes stay as they are.
-/

namespace AnimationScope

open Css Animation

namespace Css

variable {ts us : List Token} {t : Text} {rest : Text}

/-! ## Errors -/

/-- Which brackets are left open depends on the kinds of the tokens alone. -/
theorem openBrackets_congr (h : ts.map Token.kind = us.map Token.kind) (p q : Position)
    {stack stack' : List (Bracket × Position)}
    (hs : stack.map Prod.fst = stack'.map Prod.fst) :
    (openBrackets p stack ts).map Prod.fst = (openBrackets q stack' us).map Prod.fst := by
  induction ts generalizing us p q stack stack' with
  | nil =>
    obtain rfl := List.map_eq_nil_iff.mp h.symm
    exact hs
  | cons t ts ih =>
    obtain ⟨u, us, rfl, hk, hks⟩ := List.map_eq_cons_iff.mp h.symm
    rw [openBrackets, openBrackets]
    refine ih hks.symm _ _ ?_
    rw [hk]
    split
    · simp [hs]
    · rw [hs]
      split_ifs
      · rw [List.map_tail, hs, ← List.map_tail]
      · exact hs
    · exact hs

theorem syntaxError?_congr (h : ts.map Token.kind = us.map Token.kind)
    (hts : syntaxError? ts = none) : syntaxError? us = none := by
  rw [syntaxError?_eq_none_iff] at hts ⊢
  constructor
  · intro u hu
    have hlast := congrArg List.getLast? h
    rw [List.getLast?_map, List.getLast?_map, Option.mem_def.mp hu, Option.map_some] at hlast
    obtain ⟨v, hv, hk⟩ := Option.map_eq_some_iff.mp hlast
    have hwhole := hts.1 v hv
    rwa [Token.Whole, hk] at hwhole
  · rw [← find?_openBrackets_eq_none_iff .start, List.find?_eq_none] at hts ⊢
    rintro ⟨b, p⟩ hb hcurly
    have hmem : b ∈ (openBrackets .start [] us).map Prod.fst := List.mem_map_of_mem hb
    rw [← openBrackets_congr h .start .start rfl] at hmem
    obtain ⟨x, hx, rfl⟩ := List.mem_map.mp hmem
    exact hts.2 x hx hcurly

/-! ## Identifiers -/

theorem Token.first_ident {c : Char} {u : Text} (hs : startsIdent (c :: u) = true)
    (hop : operatorLength (c :: u) = 1) : first c u = identLike (c :: u) := by
  have hplain : isQuote c = false ∧ c ≠ '/' ∧ c ≠ '#' ∧ c ≠ '@' ∧ punctuation? c = none := by
    rcases startsIdent_head hs with hc | rfl | rfl
    · have hne : ∀ d : Char, isNameStart d = false → c ≠ d := by
        rintro d hd rfl
        rw [hd] at hc
        cases hc
      refine ⟨?_, hne '/' (by decide), hne '#' (by decide), hne '@' (by decide), ?_⟩
      · simp [isQuote, hne '\x22' (by decide), hne '\x27' (by decide)]
      · cases hm : punctuation? c with
        | none => rfl
        | some k =>
          have hmem := mem_marks hm
          simp only [List.mem_cons, Prod.mk.injEq, List.not_mem_nil, or_false] at hmem
          rcases hmem with h | h | h | h | h | h | h | h | h | h <;>
            exact absurd h.1 (hne _ (by decide))
    · decide
    · decide
  obtain ⟨hquote, hslash, hhash, hat, hmark⟩ := hplain
  rw [first_plain (isSpace_of_startsIdent hs) hquote (fun h => absurd h hslash) hhash hat hmark,
    startsNumber_of_startsIdent hs, hop, hs]
  rfl

theorem Token.identLike_eq (hlen : nameLength 0 (t ++ rest) = t.length)
    (hrest : rest.head? ≠ some '(') : identLike (t ++ rest) = (.other, t.length) := by
  rw [identLike, hlen, List.drop_left]
  split
  · exact absurd rfl hrest
  · rfl

/-- An identifier up to its end is a token, whatever follows it but a parenthesis. -/
theorem Token.cut_ident (hne : t ≠ []) (hs : startsIdent (t ++ rest) = true)
    (hop : operatorLength (t ++ rest) = 1) (hlen : nameLength 0 (t ++ rest) = t.length)
    (hrest : rest.head? ≠ some '(') : Cut [⟨.other, t⟩] rest := by
  obtain ⟨c, u, rfl⟩ := List.exists_cons_of_ne_nil hne
  have hfirst : first c (u ++ rest) = (.other, (c :: u).length) :=
    (first_ident hs hop).trans (identLike_eq hlen hrest)
  apply cut_singleton <;> rw [hfirst]
  rfl

theorem nameLength_le_length (k : Nat) (t : Text) : nameLength k t ≤ t.length := by
  induction t generalizing k with
  | nil => cases k <;> exact Nat.le_refl 0
  | cons c r ih =>
    cases k with
    | succ k => exact Nat.succ_le_succ (ih k)
    | zero =>
      rw [nameLength]
      split_ifs
      · exact Nat.succ_le_succ (ih 0)
      · exact Nat.succ_le_succ (ih _)
      · exact Nat.zero_le _

theorem Token.nameLength_le_first {c : Char} {u : Text} (hs : startsIdent (c :: u) = true)
    (hop : operatorLength (c :: u) = 1) :
    ∃ v ts, tokens (c :: u) = v :: ts ∧ nameLength 0 (c :: u) ≤ v.text.length := by
  refine ⟨_, _, tokens_cons c u, ?_⟩
  have hlike := nameLength_le_identLike (c :: u)
  have hlen := nameLength_le_length 0 (c :: u)
  rw [first_ident hs hop]
  simp only [List.length_cons, List.length_take] at hlen ⊢
  omega

theorem Token.exists_lexemes_cons (u : Token) (ts : List Token) :
    ∃ l ls, Token.lexemes (u :: ts) = l :: ls ∧ u.text <+: l.text ∧
      (u.kind.group? = none → l = u.lexeme) := by
  cases hg : u.kind.group? with
  | none => exact ⟨u.lexeme, _, lexemes_cons hg ts, List.prefix_rfl, fun _ => rfl⟩
  | some b =>
    refine ⟨⟨.other, u.text ++ (Lexeme.collapse [b] ts).1⟩, (Lexeme.collapse [b] ts).2, ?_,
      List.prefix_append _ _, by simp⟩
    rw [Token.lexemes, Lexeme.collapse, hg]

end Css

namespace Animation

variable {t w s rest : Text}

theorem le_nameLength_ident (h : isIdentTail t = true) (hnew : escapesNewline t = false)
    (rest : Text) : t.length ≤ nameLength 0 (t ++ rest) := by
  induction hl : t.length using Nat.strongRecOn generalizing t with
  | ind n ih =>
    subst hl
    cases t with
    | nil => exact Nat.zero_le _
    | cons c t =>
      rcases isIdentTail_cases h with ⟨hc, hname, ht⟩ | ⟨d, v, rfl, rfl, hv⟩
      · rw [escapesNewline, hasEscape_cons hc] at hnew
        have hnext := ih t.length (Nat.lt_succ_self _) ht hnew rfl
        rw [List.cons_append, nameLength, if_pos hname]
        exact Nat.succ_le_succ hnext
      · rw [escapesNewline, hasEscape, Bool.or_eq_false_iff] at hnew
        have hhead : headIs isNewline (d :: v ++ rest) = false := hnew.1
        rw [List.cons_append, nameLength, if_neg (by decide), hhead, if_pos (by decide)]
        refine Nat.succ_le_succ ?_
        -- What belongs to the escape has no backslash, so the rest of the name is a name.
        have hescape : stringEscapeLength (d :: v ++ rest) = escapeLength (d :: v ++ rest) := by
          rw [stringEscapeLength, hhead]
          rfl
        obtain ⟨j, hj⟩ := Nat.exists_eq_succ_of_ne_zero
          (Nat.ne_of_gt (stringEscapeLength_pos d (v ++ rest)))
        have hplain : ∀ x ∈ v.take j, x ≠ '\\' := by
          intro x hx
          have hmem : x ∈ ((d :: v ++ rest).take (stringEscapeLength (d :: v ++ rest))).tail := by
            rw [List.cons_append, hj, List.take_succ_cons, List.tail_cons, List.take_append]
            exact List.mem_append_left _ hx
          rcases mem_stringEscape hmem with hs | hh
          · rintro rfl
            exact absurd hs (by decide)
          · exact ne_backslash_of_isHex hh
        have hsplit := List.take_append_drop j v
        rw [← hsplit, hasEscape_append hplain] at hnew
        have htail : isIdentTail (v.drop j) = true := isIdentTail_of_append hplain (by rwa [hsplit])
        have hnext := ih (v.drop j).length (by simp; omega) htail hnew.2 rfl
        rw [← hescape, List.cons_append, hj, nameLength_skip, List.drop_succ_cons, List.drop_append]
        simp only [List.length_cons, List.length_append, List.length_drop] at hnext ⊢
        rcases Nat.lt_or_ge v.length j with hlt | hle
        · omega
        · rw [Nat.sub_eq_zero_of_le hle, List.drop_zero]
          omega

/-! ## Words that are names -/

/-- What may follow a word: nothing, a character that continues no name, or an exclamation
mark. -/
def BehindWord (rest : Text) : Prop := ∀ d ∈ rest.head?, isBarrier d = true ∨ d = '!'

theorem BehindWord.head_ne (h : BehindWord rest) {c : Char} (hc : isBarrier c = false)
    (hbang : c ≠ '!') : rest.head? ≠ some c := by
  intro hr
  rcases h c hr with hb | rfl
  · rw [hb] at hc
    cases hc
  · exact hbang rfl

theorem BehindWord.nameLength_eq (h : BehindWord rest) : nameLength 0 rest = 0 := by
  cases rest with
  | nil => rfl
  | cons d y =>
    have hchar : isNameChar d = false ∧ d ≠ '\\' := by
      rcases h d rfl with hb | rfl
      · have hbarrier := Barrier.of_isBarrier hb
        exact ⟨hbarrier.nameChar, hbarrier.unlike '\\' (by simp)⟩
      · decide
    simp [nameLength, hchar]

theorem operatorLength_ident (h : isCustomIdent w = true) (hrest : rest.head? ≠ some '>') :
    Token.operatorLength (w ++ rest) = 1 := by
  obtain ⟨hu, hne⟩ := unmarked_of_isCustomIdent h
  obtain ⟨c, u, rfl⟩ := List.exists_cons_of_ne_nil hne
  have hop : ∀ d, isMark d = true → c ≠ d := fun d hd => hu.head_ne hd
  have harrow : ¬ (c = '-' ∧ (u ++ rest).take 2 = ['-', '>']) := by
    rintro ⟨rfl, htake⟩
    rcases u with _ | ⟨a, _ | ⟨b, u⟩⟩
    · cases h
    · cases rest with
      | nil => cases htake
      | cons d y =>
        obtain ⟨rfl, hd⟩ : a = '-' ∧ d = '>' := by simpa using htake
        exact hrest (congrArg some hd)
    · obtain ⟨rfl, rfl⟩ : a = '-' ∧ b = '>' := by simpa using htake
      have htail : isIdentTail ('>' :: u) = true := h
      rw [isIdentTail_cons (by decide)] at htail
      cases htail
  rw [List.cons_append, Token.operatorLength_cons, if_neg fun hc => hop '<' (by decide) hc.1,
    if_neg harrow]
  split_ifs with heq hmem
  · simp only [List.mem_cons, List.not_mem_nil, or_false] at hmem
    rcases hmem with hc | hc | hc | hc | hc <;> exact absurd hc (hop _ (by decide))
  · rfl
  · rfl

/-- In front of what may follow a word, a name that is at least a token is just one. -/
theorem cut_name (h : isCustomIdent w = true) (hnew : escapesNewline w = false)
    (hlen : nameLength 0 (w ++ rest) = w.length) (hrest : BehindWord rest) :
    Token.Cut [⟨.other, w⟩] rest :=
  Token.cut_ident (unmarked_of_isCustomIdent h).2
    (startsIdent_of_isCustomIdent h (isNewline_of_escapesNewline hnew) rest)
    (operatorLength_ident h (hrest.head_ne (by decide) (by decide))) hlen
    (hrest.head_ne (by decide) (by decide))

theorem isNameChar_of_isIdentTail {t : Text} (h : isIdentTail t = true)
    (hplain : ∀ c ∈ t, c ≠ '\\') : ∀ c ∈ t, isNameChar c = true := by
  induction t with
  | nil => simp
  | cons c t ih =>
    rw [List.forall_mem_cons] at hplain ⊢
    rcases isIdentTail_cases h with ⟨-, hc, ht⟩ | ⟨d, r, hc, -, -⟩
    · exact ⟨hc, ih ht hplain.2⟩
    · exact absurd hc hplain.1

theorem cut_plain_name {name rest : Text} (h : isCustomIdent name = true) (hback : '\\' ∉ name)
    (hrest : BehindWord rest) : Token.Cut [⟨.other, name⟩] rest := by
  have hplain : ∀ c ∈ name, c ≠ '\\' := by
    rintro c hc rfl
    exact hback hc
  have hnew : escapesNewline name = false := by
    have hnone := hasEscape_append hplain (fun c _ => isNewline c) []
    rwa [List.append_nil] at hnone
  have hchars := isNameChar_of_isIdentTail (isIdentTail_of_isCustomIdent h) hplain
  refine cut_name h hnew ?_ hrest
  rw [nameLength_append hchars, hrest.nameLength_eq, Nat.add_zero]

section

variable {word post : List Lexeme}

/-- A name without an escaped newline that lexemes make is one lexeme. -/
theorem eq_name (h : lexemes (Lexeme.join (word ++ post)) = .ok (word ++ post))
    (hname : isCustomIdent (Lexeme.join word) = true)
    (hnew : escapesNewline (Lexeme.join word) = false) (hpost : BehindWord (Lexeme.join post)) :
    word = [⟨.other, Lexeme.join word⟩] ∧
      Token.Cut [⟨.other, Lexeme.join word⟩] (Lexeme.join post) := by
  have hne := text_ne_nil_of_lexemes h
  obtain ⟨-, hls⟩ := lexemes_eq_ok_iff.mp h
  obtain ⟨w, hw⟩ : ∃ w, w = Lexeme.join word := ⟨_, rfl⟩
  obtain ⟨rest, hr⟩ : ∃ rest, rest = Lexeme.join post := ⟨_, rfl⟩
  rw [Lexeme.join_append, ← hw, ← hr] at hls
  rw [← hw] at hname hnew ⊢
  rw [← hr] at hpost ⊢
  -- The name goes on at least up to its end, but not behind the first lexeme.
  have hlow := le_nameLength_ident (isIdentTail_of_isCustomIdent hname) hnew rest
  have hhigh : nameLength 0 (w ++ rest) ≤ w.length := by
    have hstart := startsIdent_of_isCustomIdent hname (isNewline_of_escapesNewline hnew) rest
    have hop := operatorLength_ident hname (hpost.head_ne (by decide) (by decide))
    obtain ⟨c, u, hcu⟩ := List.exists_cons_of_ne_nil (unmarked_of_isCustomIdent hname).2
    rw [hcu, List.cons_append] at hstart hop hls ⊢
    obtain ⟨v, ts, htokens, hv⟩ := Token.nameLength_le_first hstart hop
    obtain ⟨l, ms, hlexemes, hprefix, -⟩ := Token.exists_lexemes_cons v ts
    rw [htokens, hlexemes] at hls
    cases word with
    | nil => cases hw.symm.trans hcu
    | cons m word =>
      obtain ⟨rfl, -⟩ := List.cons.inj hls
      have hjoin := congrArg List.length (hcu.symm.trans hw)
      rw [Lexeme.join_cons, List.length_append] at hjoin
      have hlength := hprefix.length_le
      omega
  have hcut := cut_name hname hnew (Nat.le_antisymm hhigh hlow) hpost
  refine ⟨?_, hcut⟩
  have htokens : tokens (w ++ rest) = ⟨.other, w⟩ :: tokens rest := by simpa [Token.Cut] using hcut
  rw [htokens, Token.lexemes_cons rfl] at hls
  cases word with
  | nil => exact absurd hw (unmarked_of_isCustomIdent hname).2
  | cons m word =>
    obtain ⟨rfl, -⟩ := List.cons.inj hls
    have hnil : Lexeme.join word = [] := by
      rw [Lexeme.join_cons] at hw
      exact List.self_eq_append_right.mp hw
    rw [Lexeme.eq_nil_of_join (fun l hl => hne l (by simp [hl])) hnil]
    rfl

theorem tokens_backslash {c : Char} (hc : isNewline c = true) (y : Text) :
    ∃ s ts, tokens ('\\' :: c :: y) = ⟨.other, ['\\']⟩ :: ⟨.whitespace, s⟩ :: ts := by
  have hident : startsIdent ('\\' :: c :: y) = false := by
    rw [startsIdent, headIs, hc]
    rfl
  have hop : Token.operatorLength ('\\' :: c :: y) = 1 := by
    have heq : c ≠ '=' := by
      rintro rfl
      cases hc
    simp [Token.operatorLength_cons, heq]
  have hfirst : Token.first '\\' (c :: y) = (.other, 1) := by
    have hslash : '\\' ≠ '/' := by decide
    rw [Token.first_plain (by decide) (by decide) (fun h => absurd h hslash) (by decide)
      (by decide) (by decide), hident, hop]
    rfl
  have hspace : Token.first c y = (.whitespace, (y.takeWhile isSpace).length + 1) :=
    Token.first_space (by rw [isSpace, hc, Bool.or_true])
  refine ⟨c :: y.take (y.takeWhile isSpace).length,
    tokens (y.drop (y.takeWhile isSpace).length), ?_⟩
  rw [tokens_cons, hfirst, Nat.sub_self, List.take_zero, List.drop_zero, tokens_cons c y, hspace]
  rfl

/-- A name with an escaped newline is no word, as there are spaces in it. -/
theorem not_escapesNewline (h : lexemes (Lexeme.join (word ++ post)) = .ok (word ++ post))
    (hword : IsWord word) (hname : isCustomIdent (Lexeme.join word) = true)
    (hpost : BehindWord (Lexeme.join post)) : escapesNewline (Lexeme.join word) = false := by
  rw [Bool.eq_false_iff]
  intro hnew
  obtain ⟨-, hls⟩ := lexemes_eq_ok_iff.mp h
  obtain ⟨u, c, r, hw, hu, hr, hc, hfirst⟩ :=
    exists_of_hasEscape (isIdentTail_of_isCustomIdent hname) hnew
  obtain ⟨s, ts, hback⟩ := tokens_backslash hc (r ++ Lexeme.join post)
  have htext : Lexeme.join (word ++ post) = u ++ '\\' :: c :: (r ++ Lexeme.join post) := by
    simp [hw]
  -- The first part of the name, if there is one, is a token as well.
  have hhead : ∃ us, Token.lexemes (tokens (Lexeme.join (word ++ post))) =
      us ++ ⟨.whitespace, s⟩ :: Token.lexemes ts ∧ (Lexeme.join us).length = u.length + 1 := by
    by_cases hnil : u = []
    · refine ⟨[⟨.other, ['\\']⟩], ?_, by rw [hnil]; rfl⟩
      rw [htext, hnil, List.nil_append, hback, Token.lexemes_cons rfl, Token.lexemes_cons rfl]
      rfl
    · have hstart : startsIdent (u ++ '\\' :: c :: (r ++ Lexeme.join post)) = true := by
        rw [← htext, Lexeme.join_append]
        refine startsIdent_of_isCustomIdent hname (fun d v heq => ?_) _
        exact isNewline_of_append hu hfirst hnil (hw.symm.trans heq)
      have hop : Token.operatorLength (u ++ '\\' :: c :: (r ++ Lexeme.join post)) = 1 := by
        rw [← htext, Lexeme.join_append]
        exact operatorLength_ident hname (hpost.head_ne (by decide) (by decide))
      have hlen : nameLength 0 (u ++ '\\' :: c :: (r ++ Lexeme.join post)) = u.length := by
        have hend : nameLength 0 ('\\' :: c :: (r ++ Lexeme.join post)) = 0 := by
          rw [nameLength, if_neg (by decide), headIs, hc]
          rfl
        rw [nameLength_ident hu hfirst (by simp; decide) (fun _ => by simp; decide), hend,
          Nat.add_zero]
      have hcut := Token.cut_ident hnil hstart hop hlen (by simp)
      rw [Token.Cut, hback, Token.join_cons, Token.join_nil, List.append_nil] at hcut
      refine ⟨[⟨.other, u⟩, ⟨.other, ['\\']⟩], ?_, by simp⟩
      rw [htext, hcut, List.singleton_append, Token.lexemes_cons rfl, Token.lexemes_cons rfl,
        Token.lexemes_cons rfl]
      rfl
  obtain ⟨us, hlexemes, hshort⟩ := hhead
  have hlonger : (Lexeme.join us).length < (Lexeme.join word).length := by
    rw [hshort, hw]
    simp
  rw [hlexemes] at hls
  rcases List.append_eq_append_iff.mp hls with ⟨x, rfl, hx⟩ | ⟨x, rfl, hx⟩
  · cases x with
    | nil => simp at hlonger
    | cons l x =>
      obtain ⟨rfl, -⟩ := List.cons.inj hx
      exact hword.solid _ (List.mem_append_right us List.mem_cons_self) (.inl rfl)
  · rw [Lexeme.join_append, List.length_append] at hlonger
    omega

/-- A name that is a word is one lexeme. -/
theorem IsWord.eq_name (h : lexemes (Lexeme.join (word ++ post)) = .ok (word ++ post))
    (hword : IsWord word) (hname : isCustomIdent (Lexeme.join word) = true)
    (hpost : BehindWord (Lexeme.join post)) :
    word = [⟨.other, Lexeme.join word⟩] ∧
      Token.Cut [⟨.other, Lexeme.join word⟩] (Lexeme.join post) :=
  Animation.eq_name h hname (not_escapesNewline h hword hname hpost) hpost

end

end Animation

/-! ## Another name -/

namespace Css.Token

/-- Spaces, a comma or a comment. -/
def Separates (u : Token) : Prop := u.kind = .whitespace ∨ u.kind = .comma ∨ u.kind = .comment

/-- A token that separates words is the same in front of anything but spaces, and so are
the tokens in front of it. -/
theorem Cut.behind_separator {ts : List Token} {u : Token} {x y : Text} (h : Cut (ts ++ [u]) x)
    (hu : u.Separates) (hlast : ∀ v ∈ ts.getLast?, v.kind ≠ .opening .round)
    (hy : ∀ d ∈ y.head?, isSpace d = false) : Cut (ts ++ [u]) y := by
  obtain ⟨hts, hone⟩ := cut_append_iff.mp h
  have hmem := hone.mem_tokens List.mem_cons_self
  have hne := text_ne_nil_of_mem hmem
  have hspells := spells_of_mem hmem
  obtain ⟨k, t⟩ := u
  have hsep : (∃ c r, t = c :: r ∧ isBarrier c = true) ∧ Cut [⟨k, t⟩] y := by
    rcases hu with rfl | rfl | rfl
    · obtain ⟨c, r, rfl⟩ := List.exists_cons_of_ne_nil hne
      have hc : isSpace c = true := hspells c List.mem_cons_self
      exact ⟨⟨c, r, rfl, by rw [isBarrier, hc]; rfl⟩, cut_whitespace hne hspells hy⟩
    · obtain rfl : t = [','] := hspells
      have hfirst : first ',' ([] ++ y) = (.comma, 1) := first_mark rfl
      refine ⟨⟨',', [], rfl, rfl⟩, ?_⟩
      apply cut_singleton
      · rw [hfirst]
      · rw [hfirst]
        rfl
    · obtain ⟨r, rfl⟩ : ∃ r, t = '/' :: '*' :: r := hspells
      exact ⟨⟨'/', '*' :: r, rfl, rfl⟩, cut_comment hone y⟩
  obtain ⟨⟨c, r, rfl, hc⟩, hcut⟩ := hsep
  refine cut_append_iff.mpr ⟨?_, hcut⟩
  simp only [join_cons, join_nil, List.append_nil, List.cons_append] at hts ⊢
  exact hts.replace hc _ fun _ => hlast

theorem separates_of_lexeme {u : Token} (hw : u.Whole)
    (h : Animation.Piece.separates u.lexeme.kind = true) : u.Separates := by
  obtain ⟨k, t⟩ := u
  rcases k with _ | _ | _ | _ | _ | _ | _ | _ | _ | _ | (_ | _ | _) | (_ | _ | _) | _ <;>
    simp_all [Separates, Whole, Token.lexeme, Token.Kind.lexeme, Animation.Piece.separates]

end Css.Token

namespace Animation

/-- Another token in the place of one that is a word of its own leaves all other lexemes
as they are. -/
theorem lexemes_exchange {pre post : List Lexeme} {w s : Text}
    (h : lexemes (Lexeme.join (pre ++ ⟨.other, w⟩ :: post)) = .ok (pre ++ ⟨.other, w⟩ :: post))
    (hpre : ∀ l ∈ pre.getLast?, Piece.separates l.kind = true)
    (hw : Token.Cut [⟨.other, w⟩] (Lexeme.join post))
    (hs : Token.Cut [⟨.other, s⟩] (Lexeme.join post))
    (hspace : ∀ d ∈ (s ++ Lexeme.join post).head?, isSpace d = false) :
    lexemes (Lexeme.join (pre ++ ⟨.other, s⟩ :: post)) = .ok (pre ++ ⟨.other, s⟩ :: post) := by
  obtain ⟨⟨ts, hcut, hg, hwhole, hts⟩, hms⟩ := Lexed.of_lexemes h (by simp)
  obtain ⟨herr, -⟩ := lexemes_eq_ok_iff.mp h
  obtain ⟨-, hpost⟩ := lexemes_eq_ok_iff.mp hms
  have htokens : ∀ x, Token.Cut [⟨.other, x⟩] (Lexeme.join post) →
      tokens (Lexeme.join (⟨.other, x⟩ :: post)) = ⟨.other, x⟩ :: tokens (Lexeme.join post) := by
    intro x hx
    simpa [Token.Cut] using hx
  rw [htokens w hw, Token.lexemes_cons rfl] at hpost
  have hcut' : Token.Cut ts (Lexeme.join (⟨.other, s⟩ :: post)) := by
    rcases List.eq_nil_or_concat pre with rfl | ⟨pre, l, rfl⟩
    · obtain rfl := hg.eq_nil hts
      exact Token.cut_nil _
    · rw [List.concat_eq_append] at hts hpre
      obtain ⟨ts, us, rfl, hg1, hg2, -, hus⟩ := hg.exists_append hts
      have hsep : Piece.separates l.kind = true := hpre l (by simp)
      have hother : l.kind ≠ .other := by
        intro hk
        rw [hk] at hsep
        cases hsep
      obtain ⟨u, rfl, rfl⟩ := hg2.eq_singleton hus hother
      apply hcut.behind_separator
      · exact Token.separates_of_lexeme (hwhole u (by simp)) hsep
      · exact hg1.kind_of_getLast
      · exact hspace
  have hold : tokens (Lexeme.join (pre ++ ⟨.other, w⟩ :: post)) =
      ts ++ ⟨.other, w⟩ :: tokens (Lexeme.join post) := by
    rw [Lexeme.join_append, ← hts, Token.join_lexemes, hcut, htokens w hw]
  have hnew : tokens (Lexeme.join (pre ++ ⟨.other, s⟩ :: post)) =
      ts ++ ⟨.other, s⟩ :: tokens (Lexeme.join post) := by
    rw [Lexeme.join_append, ← hts, Token.join_lexemes, hcut', htokens s hs]
  rw [lexemes_eq_ok_iff, hnew]
  constructor
  · rw [hold] at herr
    apply syntaxError?_congr _ herr
    simp
  · rw [hg.lexemes_append, Token.lexemes_cons rfl, hts, (List.cons.inj hpost).2]
    rfl

end Animation

end AnimationScope
