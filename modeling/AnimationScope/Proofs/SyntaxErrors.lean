import AnimationScope.Proofs.Blocks
import AnimationScope.Proofs.Closers
import AnimationScope.Proofs.Positions
import AnimationScope.Stylesheet.Parse
import Mathlib.Data.Nat.Find

/-!
# Where reading fails

A text is refused for a comment or a string that its end cuts off, or else for
the last block left open, or else for the first closing brace outside of all
brackets. Nothing else is an error.
-/

namespace AnimationScope.Css

variable {t : Text} {ts pre post : List Token}

/-- Behind `pre` the text ends with a comment that has no end mark. -/
def OpenComment (t : Text) (pre : List Token) : Prop :=
  ∃ l r, tokens t = pre ++ [l] ∧ l.text = '/' :: '*' :: r ∧ commentIsClosed l.text = false

/-- Behind `pre` the text ends with a string that has no closing quote. -/
def OpenString (t : Text) (pre : List Token) : Prop :=
  ∃ l q r, tokens t = pre ++ [l] ∧ isQuote q = true ∧ l.text = q :: r ∧
    stringIsClosed l.text = false

/-- Behind `pre` there is an opening brace without its closer. -/
def OpenBlock (t : Text) (pre : List Token) : Prop :=
  ∃ o post, tokens t = pre ++ o :: post ∧ o.kind = .opening .curly ∧ ¬ Closes .curly post

/-- Behind `pre` there is a closing brace outside of all brackets. -/
def StrayBrace (t : Text) (pre : List Token) : Prop :=
  ∃ c post, tokens t = pre ++ c :: post ∧ c.kind = .closing .curly ∧ Inside none pre

/-- The text is refused, and the position says how the token behind `pre` is reached. -/
def FailsBehind (t : Text) (pre : List Token) (fault : Fault) : Prop :=
  ∃ lines columns, Position.Reaches t lines columns (Text.utf8Length (Token.join pre)) ∧
    Stylesheet.parse t = .error ⟨fault, .behind lines columns⟩

def IsLast (P : List Token → Prop) (pre : List Token) : Prop :=
  P pre ∧ ∀ pre', P pre' → pre'.length ≤ pre.length

def IsFirst (P : List Token → Prop) (pre : List Token) : Prop :=
  P pre ∧ ∀ pre', P pre' → pre.length ≤ pre'.length

theorem exists_eq_append_cons {α : Type} {pre pre' post post' : List α} {o o' : α}
    (h : pre ++ o :: post = pre' ++ o' :: post') (hl : pre.length < pre'.length) :
    ∃ x, pre' = pre ++ o :: x ∧ post = x ++ o' :: post' := by
  rcases List.append_eq_append_iff.mp h with ⟨x, rfl, hx⟩ | ⟨x, rfl, hx⟩
  · cases x with
    | nil => simp at hl
    | cons a x =>
      obtain ⟨rfl, rfl⟩ := List.cons.inj hx
      exact ⟨x, rfl, rfl⟩
  · rw [List.length_append] at hl
    omega

/-! ## Blocks left open -/

theorem LeavesBlock.exists_last (h : LeavesBlock ts) :
    ∃ pre o post, ts = pre ++ o :: post ∧ o.kind = .opening .curly ∧ ¬ Closes .curly post ∧
      ¬ LeavesBlock post := by
  induction hl : ts.length using Nat.strongRecOn generalizing ts with
  | ind n ih =>
    subst hl
    obtain ⟨pre, o, post, rfl, ho, hn⟩ := h
    by_cases hp : LeavesBlock post
    · obtain ⟨pre', o', post', rfl, h'⟩ := ih post.length (by simp; omega) hp rfl
      exact ⟨pre ++ o :: pre', o', post', by simp, h'⟩
    · exact ⟨pre, o, post, rfl, ho, hn, hp⟩

theorem isLast_openBlock {o : Token} (ht : tokens t = pre ++ o :: post)
    (ho : o.kind = .opening .curly) (hn : ¬ Closes .curly post) (hl : ¬ LeavesBlock post) :
    IsLast (OpenBlock t) pre := by
  refine ⟨⟨o, post, ht, ho, hn⟩, ?_⟩
  rintro pre' ⟨o', post', ht', ho', hn'⟩
  by_contra hlt
  obtain ⟨x, -, rfl⟩ := exists_eq_append_cons (ht.symm.trans ht') (Nat.not_le.mp hlt)
  exact hl ⟨x, o', post', rfl, ho', hn'⟩

/-! ## The first stray brace -/

/-- Without a stray brace, tokens that close all brackets could stand in braces. -/
theorem Inside.of_not_stray (h : Inside none pre)
    (hf : ∀ pre' c' post', pre = pre' ++ c' :: post' → Inside none pre' →
      c'.kind ≠ .closing .curly) : Inside (some .curly) pre := by
  generalize hown : none = own at h
  induction h with
  | nil => exact .nil
  | @plain own t ts ho hc hts ih =>
    subst hown
    refine .plain ho ?_ (ih ?_ rfl)
    · rintro b ⟨⟩
      exact hf [] t ts rfl .nil
    · intro pre' c' post' hp hi
      exact hf (t :: pre') c' post' (by rw [hp]; rfl) (.plain ho (by simp) hi)
  | @group own o c inner ts b ho hi hc hts _ ih =>
    subst hown
    refine .group b ho hi hc (ih ?_ rfl)
    intro pre' c' post' hp hi'
    exact hf (o :: (inner ++ c :: pre')) c' post' (by rw [hp]; simp) (.group b ho hi hc hi')

theorem exists_isFirst {P : List Token → Prop} (h : ∃ pre, P pre) : ∃ pre, IsFirst P pre := by
  classical
  have hlen : ∃ n, ∃ pre, P pre ∧ pre.length = n := by
    obtain ⟨pre, hp⟩ := h
    exact ⟨pre.length, pre, hp, rfl⟩
  obtain ⟨pre, hp, hn⟩ := Nat.find_spec hlen
  refine ⟨pre, hp, ?_⟩
  intro pre' hp'
  rw [hn]
  exact Nat.find_min' hlen ⟨pre', hp', rfl⟩

theorem IsFirst.inside {pre : List Token} (h : IsFirst (StrayBrace t) pre) :
    Inside (some .curly) pre := by
  obtain ⟨⟨c, post, ht, -, hi⟩, hmin⟩ := h
  refine Inside.of_not_stray hi ?_
  rintro pre' c' post' rfl hi' hc'
  have hle := hmin pre' ⟨c', post' ++ c :: post, by simpa using ht, hc', hi'⟩
  simp only [List.length_append, List.length_cons] at hle
  omega

/-! ## The verdict -/

theorem tokens_spelled (t : Text) : ∀ u ∈ tokens t, u.Spelled := fun _ h => Token.spells_of_mem h

theorem parse_of_syntaxError? {e : SyntaxError} (h : syntaxError? (tokens t) = some e) :
    Stylesheet.parse t = .error e := by
  rw [Stylesheet.parse, nest, lexemes, h]
  rfl

theorem FailsBehind.of_parse {fault : Fault} (ht : tokens t = pre ++ post)
    (h : Stylesheet.parse t = .error ⟨fault, .after (Token.join pre)⟩) :
    FailsBehind t pre fault := by
  have hjoin : Token.join pre ++ Token.join post = t := by
    rw [← Token.join_append, ← ht, join_tokens]
  have hpre : Token.join pre <+: t := ⟨Token.join post, hjoin⟩
  obtain ⟨lines, columns, hreaches, hafter⟩ := Position.exists_reaches hpre
  exact ⟨lines, columns, hreaches, hafter ▸ h⟩

theorem lexemes_of_syntaxError? (h : syntaxError? (tokens t) = none) :
    lexemes t = .ok (Token.lexemes (tokens t)) := by
  rw [lexemes, h]
  rfl

/-- The end of the text cuts off a comment or a string. -/
def CutOff (t : Text) : Prop := ∃ pre, OpenComment t pre ∨ OpenString t pre

theorem syntaxError?_openComment (h : OpenComment t pre) :
    syntaxError? (tokens t) = some ⟨.unclosedComment, .after (Token.join pre)⟩ := by
  obtain ⟨l, r, ht, hl, hc⟩ := h
  have hk : l.kind = .unclosedComment :=
    (kind_eq_unclosedComment_iff (by simpa using Token.tokens_join_of_append ht)).mpr ⟨⟨r, hl⟩, hc⟩
  simp [syntaxError?, ht, hk]

theorem syntaxError?_openString (h : OpenString t pre) :
    syntaxError? (tokens t) = some ⟨.unclosedString, .after (Token.join pre)⟩ := by
  obtain ⟨l, q, r, ht, hq, hl, hc⟩ := h
  have hk : l.kind = .unclosedString :=
    (kind_eq_unclosedString_iff (by simpa using Token.tokens_join_of_append ht)).mpr
      ⟨⟨q, r, hq, hl⟩, hc⟩
  simp [syntaxError?, ht, hk]

theorem syntaxError?_of_not_cutOff (h : ¬ CutOff t) :
    syntaxError? (tokens t) =
      ((openBrackets .start [] (tokens t)).find? (·.1 = .curly)).map
        fun b => ⟨.unclosedBlock, b.2⟩ := by
  rcases List.eq_nil_or_concat (tokens t) with ht | ⟨pre, l, ht⟩
  · rw [ht]
    rfl
  · rw [List.concat_eq_append] at ht
    have hl : tokens l.text = [l] := by simpa using Token.tokens_join_of_append ht
    have h1 : l.kind ≠ .unclosedComment := by
      intro hk
      obtain ⟨⟨r, hr⟩, hc⟩ := (kind_eq_unclosedComment_iff hl).mp hk
      exact h ⟨pre, .inl ⟨l, r, ht, hr, hc⟩⟩
    have h2 : l.kind ≠ .unclosedString := by
      intro hk
      obtain ⟨⟨q, r, hq, hr⟩, hc⟩ := (kind_eq_unclosedString_iff hl).mp hk
      exact h ⟨pre, .inr ⟨l, q, r, ht, hq, hr, hc⟩⟩
    rw [syntaxError?, ht]
    simp only [List.getLast?_concat, Option.map_some]
    split <;> simp_all

theorem parse_openBlock (hc : ¬ CutOff t) {o : Token} (ht : tokens t = pre ++ o :: post)
    (ho : o.kind = .opening .curly) (hn : ¬ Closes .curly post) (hl : ¬ LeavesBlock post) :
    Stylesheet.parse t = .error ⟨.unclosedBlock, .after (Token.join pre)⟩ := by
  apply parse_of_syntaxError?
  rw [syntaxError?_of_not_cutOff hc, ht, find?_openBrackets ho hn hl]
  rfl

theorem lexemes_of_closed (hc : ¬ CutOff t) (hb : ∀ pre, ¬ OpenBlock t pre) :
    lexemes t = .ok (Token.lexemes (tokens t)) := by
  have hl : ¬ LeavesBlock (tokens t) := fun ⟨pre, h⟩ => hb pre h
  apply lexemes_of_syntaxError?
  rw [syntaxError?_of_not_cutOff hc, find?_openBrackets_eq_none hl]
  rfl

theorem parse_strayBrace (hl : lexemes t = .ok (Token.lexemes (tokens t)))
    (h : IsFirst (StrayBrace t) pre) :
    Stylesheet.parse t = .error ⟨.unexpectedCloseBrace, .after (Token.join pre)⟩ := by
  have hi := h.inside
  obtain ⟨⟨c, post, ht, hc, -⟩, -⟩ := h
  have hs : ∀ u ∈ pre ++ c :: post, u.Spelled := ht ▸ tokens_spelled t
  obtain ⟨n, hn, hpre⟩ := hi.exists_nest fun u hu => hs u (List.mem_append_left _ hu)
  have hg : c.kind.group? = none := by rw [hc]; rfl
  rw [ht, hi.grouped.lexemes_append, Token.lexemes_cons hg, hpre,
    (hs c (by simp)).closeBrace hc] at hl
  have hj : Lexeme.join n.lexemes = Token.join pre := by rw [← hpre, Token.join_lexemes]
  rw [Stylesheet.parse, nest, hl, Except.map, Nest.ofLexemes_append hn, Nest.ofLexemes_closeBrace,
    Nest.append_done]
  simp only
  rw [hj]
  rfl

theorem exists_nest_of_closed (hb : ∀ pre, ¬ OpenBlock t pre) (hs : ∀ pre, ¬ StrayBrace t pre) :
    ∃ n : Nest, n.Plain ∧ Token.lexemes (tokens t) = n.lexemes := by
  have hsp := tokens_spelled t
  rcases fate (some .curly) (tokens t) with h | ⟨b, hb', inner, c, post, ht, hi, hc⟩ |
    ⟨pre, o, post, b, ht, hi, ho, hn⟩
  · exact h.exists_nest hsp
  · obtain rfl := Option.mem_some_iff.mp hb'
    exact absurd ⟨c, post, ht, hc, hi.outside⟩ (hs inner)
  · have hcurly : b ≠ .curly := by
      rintro rfl
      exact hb pre ⟨o, post, ht, ho, hn⟩
    rw [ht] at hsp ⊢
    obtain ⟨n, hp, hl⟩ := hi.exists_nest fun u hu => hsp u (List.mem_append_left _ hu)
    refine ⟨n.append (.lexeme ⟨.other, Token.join (o :: post)⟩ .done), ?_, ?_⟩
    · exact hp.append ⟨by simp, by simp, trivial⟩
    · rw [hi.grouped.lexemes_append, Token.lexemes_hanging ho hcurly hn, hl, Nest.lexemes_append]
      rfl

theorem nest_of_closed (hc : ¬ CutOff t) (hb : ∀ pre, ¬ OpenBlock t pre)
    (hs : ∀ pre, ¬ StrayBrace t pre) :
    ∃ n : Nest, n.Plain ∧ lexemes t = .ok n.lexemes ∧ nest t = .ok n := by
  obtain ⟨n, hn, hl⟩ := exists_nest_of_closed hb hs
  have ht := lexemes_of_closed hc hb
  rw [hl] at ht
  refine ⟨n, hn, ht, ?_⟩
  rw [nest, ht, Except.map, Nest.ofLexemes_lexemes hn]

/-- Which texts are refused, for what and where. What comes first is decided
first, and a text with none of the four faults is read. -/
theorem parse_outcome (t : Text) :
    (∀ pre, OpenComment t pre → FailsBehind t pre .unclosedComment) ∧
    (∀ pre, OpenString t pre → FailsBehind t pre .unclosedString) ∧
    (¬ CutOff t → (∃ pre, OpenBlock t pre) →
      ∃ pre, IsLast (OpenBlock t) pre ∧ FailsBehind t pre .unclosedBlock) ∧
    (¬ CutOff t → (¬ ∃ pre, OpenBlock t pre) → (∃ pre, StrayBrace t pre) →
      ∃ pre, IsFirst (StrayBrace t) pre ∧ FailsBehind t pre .unexpectedCloseBrace) ∧
    (¬ CutOff t → (¬ ∃ pre, OpenBlock t pre) → (¬ ∃ pre, StrayBrace t pre) →
      ∃ s, Stylesheet.parse t = .ok s) := by
  refine ⟨fun pre h => ?_, fun pre h => ?_, fun hc hb => ?_, fun hc hb hs => ?_,
    fun hc hb hs => ?_⟩
  · have hparse := parse_of_syntaxError? (syntaxError?_openComment h)
    obtain ⟨l, r, ht, -⟩ := h
    exact .of_parse ht hparse
  · have hparse := parse_of_syntaxError? (syntaxError?_openString h)
    obtain ⟨l, q, r, ht, -⟩ := h
    exact .of_parse ht hparse
  · have hleaves : LeavesBlock (tokens t) := hb
    obtain ⟨pre, o, post, ht, ho, hn, hl⟩ := hleaves.exists_last
    exact ⟨pre, isLast_openBlock ht ho hn hl, .of_parse ht (parse_openBlock hc ht ho hn hl)⟩
  · obtain ⟨pre, hp⟩ := exists_isFirst hs
    have hl := lexemes_of_closed hc fun pre h => hb ⟨pre, h⟩
    obtain ⟨c, post, ht, -⟩ := hp.1
    exact ⟨pre, hp, .of_parse ht (parse_strayBrace hl hp)⟩
  · obtain ⟨n, -, -, hn⟩ := nest_of_closed hc (fun pre h => hb ⟨pre, h⟩) fun pre h => hs ⟨pre, h⟩
    exact ⟨.ofNest n, by rw [Stylesheet.parse, hn]; rfl⟩

end AnimationScope.Css
