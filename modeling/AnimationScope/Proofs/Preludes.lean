import AnimationScope.Proofs.Exchange
import AnimationScope.Proofs.Shape
import AnimationScope.Proofs.Trimming

/-!
# Preludes of keyframes rules

The name in a prelude may stand among spaces and comments and may be a string. What is
found is the same name: the spaces and comments are lexemes of their own, and behind them
as well as behind the name nothing goes on.
-/

namespace AnimationScope

open Css Animation

/-! ## Comments and strings -/

namespace Css

variable {quote : Char} {t u : Text}

theorem commentLength_closed (hu : ¬ "*/".toList <:+: u) (rest : Text) :
    commentLength (u ++ "*/".toList ++ rest) = some (u.length + 2) := by
  induction u with
  | nil => rfl
  | cons c u ih =>
    have hmark : ¬ (c = '*' ∧ headIs (· == '/') (u ++ "*/".toList ++ rest) = true) := by
      rintro ⟨rfl, hhead⟩
      cases u with
      | nil => cases hhead
      | cons d u =>
        obtain rfl : d = '/' := by simpa [headIs] using hhead
        exact hu ⟨[], u, rfl⟩
    have htail := ih fun h => hu (h.trans (List.suffix_cons c u).isInfix)
    rw [List.cons_append, List.cons_append, commentLength, htail]
    simp only [Bool.and_eq_true, decide_eq_true_eq, if_neg hmark, Option.map_some]
    rfl

theorem lexed_comment (hu : ¬ "*/".toList <:+: u) (rest : Text) :
    Lexed [⟨.comment, "/*".toList ++ u ++ "*/".toList⟩] rest := by
  have hfirst : Token.first '/' ('*' :: (u ++ "*/".toList) ++ rest) = (.comment, u.length + 4) := by
    rw [List.cons_append, Token.first_comment, commentLength_closed hu]
  have hcut : Token.Cut [⟨.comment, '/' :: '*' :: (u ++ "*/".toList)⟩] rest := by
    apply Token.cut_singleton <;> rw [hfirst]
    simp
  exact ⟨_, hcut, .token rfl .nil, by simp [Token.Whole], rfl⟩

theorem quotedLength_plain (ht : ∀ c ∈ t, c ≠ quote ∧ isNewline c = false ∧ c ≠ '\\')
    (rest : Text) : quotedLength quote 0 (t ++ quote :: rest) = some (t.length + 1) := by
  induction t with
  | nil => simp [quotedLength]
  | cons c t ih =>
    obtain ⟨⟨hq, hn, hb⟩, ht⟩ := List.forall_mem_cons.mp ht
    rw [List.cons_append, quotedLength, if_neg hq, hn, if_neg Bool.false_ne_true, if_neg hb, ih ht]
    rfl

theorem lexed_string (hquote : isQuote quote = true)
    (ht : ∀ c ∈ t, c ≠ quote ∧ isNewline c = false ∧ c ≠ '\\') (rest : Text) :
    Lexed [⟨.string, quote :: t ++ [quote]⟩] rest := by
  have hfirst : Token.first quote (t ++ [quote] ++ rest) = (.string, t.length + 2) := by
    rw [Token.first_quote hquote, List.append_assoc, List.singleton_append, quotedLength_plain ht]
  have hcut : Token.Cut [⟨.string, quote :: (t ++ [quote])⟩] rest := by
    apply Token.cut_singleton <;> rw [hfirst]
    simp
  exact ⟨_, hcut, .token rfl .nil, by simp [Token.Whole], rfl⟩

def Lexeme.IsPadding (l : Lexeme) : Prop := l.kind = .whitespace ∨ l.kind = .comment

theorem Lexeme.IsPadding.kind_ne {l : Lexeme} (h : l.IsPadding) :
    l.kind ≠ .openBrace ∧ l.kind ≠ .closeBrace := by
  rcases h with h | h <;> simp [h]

end Css

/-! ## Texts without blanks at their ends -/

theorem Trimmed.of_hasBlankEnd {t : Text} (hne : t ≠ []) (h : t.hasBlankEnd = false) :
    Trimmed t := by
  obtain ⟨hhead, hlast⟩ := Bool.or_eq_false_iff.mp h
  have hfirst := List.head?_eq_some_head hne
  have hend := List.getLast?_eq_some_getLast hne
  rw [hfirst] at hhead
  rw [hend] at hlast
  exact ⟨⟨_, hfirst, hhead⟩, ⟨_, hend, hlast⟩⟩

theorem Trimmed.quoted {quote : Char} (hquote : isQuote quote = true) (t : Text) :
    Trimmed (quote :: t ++ [quote]) := by
  have hblank : Text.isBlank quote = false := by
    rcases Token.isQuote_cases hquote with rfl | rfl <;> decide
  exact ⟨⟨quote, rfl, hblank⟩, ⟨quote, List.getLast?_concat, hblank⟩⟩

theorem Trimmed.trim_append {a b t : Text} (ht : Trimmed t) (ha : a.IsBlank) (hb : b.IsBlank) :
    (a ++ t ++ b).trim = t := by
  rw [Text.trim, List.append_assoc, Text.trimStart_append ha (ht.head b),
    Text.trimEnd_append hb ht.last]

namespace Animation

variable {p q t : Text} {l : Lexeme}

/-! ## Padding -/

/-- Spaces and closed comments. -/
inductive IsPadding : Text → Prop
  | nil : IsPadding []
  | space {c : Char} {p : Text} (hc : isSpace c = true) (hp : IsPadding p) : IsPadding (c :: p)
  | comment {u p : Text} (hu : ¬ "*/".toList <:+: u) (hp : IsPadding p) :
      IsPadding ("/*".toList ++ u ++ "*/".toList ++ p)

theorem IsPadding.dropSpaces (h : IsPadding p) : IsPadding (p.dropWhile isSpace) := by
  induction h with
  | nil => exact .nil
  | space hc _ ih => rwa [List.dropWhile_cons_of_pos hc]
  | comment hu hp _ => exact .comment hu hp

theorem IsPadding.behindWord (h : IsPadding p) : BehindWord p := by
  cases h with
  | nil => simp [BehindWord]
  | @space c p hc hp =>
    intro d hd
    obtain rfl : c = d := Option.some.inj hd
    exact .inl (by rw [isBarrier, hc]; rfl)
  | comment hu hp =>
    intro d hd
    obtain rfl : '/' = d := Option.some.inj hd
    exact .inl rfl

theorem IsPadding.exists_lexed (h : IsPadding p) (rest : Text)
    (hrest : ∀ d ∈ rest.head?, isSpace d = false) :
    ∃ ls, (∀ l ∈ ls, l.IsPadding) ∧ Lexeme.join ls = p ∧ Lexed ls rest := by
  -- All spaces at the front are one lexeme, so that more than one constructor is used up.
  induction hl : p.length using Nat.strongRecOn generalizing p with
  | ind n ih =>
    subst hl
    cases h with
    | nil => exact ⟨[], by simp, rfl, lexed_nil rest⟩
    | @space c p hc hp =>
      have hsplit := List.takeWhile_append_dropWhile (p := isSpace) (l := p)
      have hshort := (List.dropWhile_suffix isSpace (l := p)).length_le
      obtain ⟨ls, hkind, hjoin, hlexed⟩ := ih (p.dropWhile isSpace).length (by simp; omega)
        hp.dropSpaces rfl
      refine ⟨⟨.whitespace, c :: p.takeWhile isSpace⟩ :: ls, ?_, ?_, ?_⟩
      · exact List.forall_mem_cons.mpr ⟨.inl rfl, hkind⟩
      · rw [Lexeme.join_cons, hjoin, List.cons_append, hsplit]
      · rw [lexed_cons_iff, hjoin]
        exact ⟨lexed_front_spaces hc hrest, hlexed⟩
    | @comment u p hu hp =>
      obtain ⟨ls, hkind, hjoin, hlexed⟩ := ih p.length (by simp; omega) hp rfl
      refine ⟨⟨.comment, "/*".toList ++ u ++ "*/".toList⟩ :: ls, ?_, ?_, ?_⟩
      · exact List.forall_mem_cons.mpr ⟨.inr rfl, hkind⟩
      · rw [Lexeme.join_cons, hjoin]
      · exact lexed_cons_iff.mpr ⟨lexed_comment hu _, hlexed⟩

/-! ## What the prelude declares -/

theorem isBlank_join_filter {ls : List Lexeme}
    (hls : ∀ l ∈ ls, l.IsPadding) (hs : ∀ l ∈ ls, l.Spelled) :
    (Lexeme.join (ls.filter (·.kind ≠ .comment))).IsBlank := by
  intro c hc
  obtain ⟨⟨k, s⟩, hl, hc⟩ := List.mem_flatMap.mp hc
  obtain ⟨hmem, hne⟩ := List.mem_filter.mp hl
  have hspelled := hs _ hmem
  rcases hls _ hmem with hk | hk
  · obtain rfl : k = .whitespace := hk
    exact isSpace_blank (hspelled c hc)
  · exact absurd hk (by simpa using hne)

/-- Of a lexeme among padding, only blanks stay around it. -/
theorem withoutComments_padded (hp : IsPadding p) (hq : IsPadding q) (hl : Lexed [l] q)
    (hkind : l.kind ≠ .comment ∧ l.kind ≠ .openBrace ∧ l.kind ≠ .closeBrace)
    (hhead : ∀ d ∈ (l.text ++ q).head?, isSpace d = false) :
    ∃ a b : Text, a.IsBlank ∧ b.IsBlank ∧
      withoutComments (p ++ l.text ++ q) = a ++ l.text ++ b := by
  obtain ⟨ps, hpkind, hpjoin, hps⟩ := hp.exists_lexed _ hhead
  obtain ⟨qs, hqkind, hqjoin, hqs⟩ := hq.exists_lexed [] (by simp)
  have hall : Lexed (ps ++ l :: qs) [] := by
    rw [lexed_append_iff, lexed_cons_iff, Lexeme.join_cons, hqjoin, List.append_nil,
      List.append_nil]
    exact ⟨hps, hl, hqs⟩
  have hplain : ∀ m ∈ ps ++ l :: qs, m.kind ≠ .openBrace ∧ m.kind ≠ .closeBrace := by
    intro m hm
    rcases List.mem_append.mp hm with hm | hm
    · exact (hpkind m hm).kind_ne
    · rcases List.mem_cons.mp hm with rfl | hm
      · exact hkind.2
      · exact (hqkind m hm).kind_ne
  have hlex := lexemes_of_lexed hall hplain
  rw [Lexeme.join_append, Lexeme.join_cons, hpjoin, hqjoin, ← List.append_assoc] at hlex
  refine ⟨_, _, isBlank_join_filter hpkind hps.spelled, isBlank_join_filter hqkind hqs.spelled, ?_⟩
  rw [withoutComments, hlex]
  simp [hkind.1]

theorem declaredName?_padding (hp : IsPadding p) : declaredName? p = none := by
  obtain ⟨ls, hkind, rfl, hls⟩ := hp.exists_lexed [] (by simp)
  have hlex := lexemes_of_lexed hls fun l hl => (hkind l hl).kind_ne
  have hblank := isBlank_join_filter hkind hls.spelled
  have htrim := Text.trimStart_append (t := []) hblank (by simp)
  rw [List.append_nil] at htrim
  rw [declaredName?_eq_none_iff, withoutComments, hlex, Text.trim, htrim]
  rfl

/-- A lexeme without blanks at its ends is what a padded prelude declares, without quotes. -/
theorem declaredName?_padded (hp : IsPadding p) (hq : IsPadding q) (hl : Lexed [l] q)
    (hkind : l.kind ≠ .comment ∧ l.kind ≠ .openBrace ∧ l.kind ≠ .closeBrace)
    (ht : Trimmed l.text) : declaredName? (p ++ l.text ++ q) = some (unquote l.text) := by
  obtain ⟨a, b, ha, hb, hcomments⟩ :=
    withoutComments_padded hp hq hl hkind (ht.isSpace_head q)
  rw [declaredName?, hcomments, ht.trim_append ha hb]
  split
  · next hnil =>
    obtain ⟨⟨c, hc, -⟩, -⟩ := ht
    rw [hnil] at hc
    cases hc
  · rfl

theorem unquote_quoted {quote : Char} (hquote : isQuote quote = true) (t : Text) :
    unquote (quote :: t ++ [quote]) = t := by
  have hlast : (t ++ [quote]).getLast? = some quote := List.getLast?_concat
  rcases Token.isQuote_cases hquote with rfl | rfl <;> simp [unquote, hlast]

theorem plain_of_isCustomIdent {quote : Char} (h : isCustomIdent t = true) (hback : '\\' ∉ t)
    (hquote : isQuote quote = true) : ∀ c ∈ t, c ≠ quote ∧ isNewline c = false ∧ c ≠ '\\' := by
  have hplain : ∀ c ∈ t, c ≠ '\\' := by
    rintro c hc rfl
    exact hback hc
  intro c hc
  have hchar := isNameChar_of_isIdentTail (isIdentTail_of_isCustomIdent h) hplain c hc
  refine ⟨?_, ?_, hplain c hc⟩
  · rintro rfl
    rcases Token.isQuote_cases hquote with rfl | rfl <;> exact absurd hchar (by decide)
  · rw [Bool.eq_false_iff]
    intro hnew
    simp only [isNewline, Bool.or_eq_true, beq_iff_eq] at hnew
    rcases hnew with (rfl | rfl) | rfl <;> exact absurd hchar (by decide)

/-- The name that a prelude declares is the same in any padding and in quotes. -/
theorem declaredName?_padding_quotes (p q : Text) (hp : IsPadding p) (hq : IsPadding q) :
    declaredName? p = none ∧
    ∀ t, (classify t = .valid ∨ classify t = .reserved) → '\\' ∉ t → t.hasBlankEnd = false →
      declaredName? (p ++ t ++ q) = some t ∧
      ∀ quote ∈ ['\x22', '\x27'], declaredName? (p ++ (quote :: t ++ [quote]) ++ q) = some t := by
  refine ⟨declaredName?_padding hp, fun t ht hback hends => ?_⟩
  have hident : isCustomIdent t = true := by
    have hvalid : classify t ≠ .invalid := by rcases ht with h | h <;> simp [h]
    rwa [Ne, classify_eq_invalid_iff, Bool.not_eq_false] at hvalid
  obtain ⟨hu, hne⟩ := unmarked_of_isCustomIdent hident
  constructor
  · have hl : Lexed [⟨.other, t⟩] q :=
      ⟨_, cut_plain_name hident hback hq.behindWord, .token rfl .nil, by simp [Token.Whole], rfl⟩
    rw [declaredName?_padded hp hq hl (by simp) (.of_hasBlankEnd hne hends),
      unquote_of_unmarked hu]
  · intro quote hquote
    have hmark : isQuote quote = true := by
      rcases List.mem_pair.mp hquote with rfl | rfl <;> rfl
    have hplain := plain_of_isCustomIdent hident hback hmark
    rw [declaredName?_padded hp hq (lexed_string hmark hplain q) (by simp) (.quoted hmark t),
      unquote_quoted hmark]

/-- Quotes in a comment begin no string. -/
theorem declaredName?_behind_comment :
    (IsPadding "/* ' */ ".toList ∧ IsPadding "\t/**/".toList ∧
      classify "spin".toList = .valid ∧ Text.hasBlankEnd "spin".toList = false) ∧
    declaredName? "/* ' */ ".toList = none ∧
    declaredName? "/* ' */ spin\t/**/".toList = some "spin".toList ∧
    declaredName? "/* ' */ 'spin'\t/**/".toList = some "spin".toList := by
  have hp : IsPadding "/* ' */ ".toList :=
    .comment (u := " ' ".toList) (by decide) (.space rfl .nil)
  have hq : IsPadding "\t/**/".toList := .space rfl (.comment (u := []) (by decide) .nil)
  have hvalid : classify "spin".toList = .valid := by decide
  obtain ⟨hnone, hname⟩ := declaredName?_padding_quotes _ _ hp hq
  obtain ⟨hbare, hquoted⟩ := hname "spin".toList (.inl hvalid) (by decide) (by decide)
  exact ⟨⟨hp, hq, hvalid, by decide⟩, hnone, hbare, hquoted '\x27' (by decide)⟩

end Animation

end AnimationScope
