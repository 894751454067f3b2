import AnimationScope.Proofs.Brackets

/-!
# Groups as lexemes

Tokens whose groups are closed become lexemes on their own, whatever follows
them. A group that hangs open takes everything to the end.
-/

namespace AnimationScope.Css

open Lexeme (collapse)

variable {b : Bracket} {bs : List Bracket} {ts us : List Token} {t : Token}

theorem nesting_opening (h : t.kind = .opening b) (bs : List Bracket) :
    t.kind.nesting bs = b :: bs := by rw [h]; rfl

theorem nesting_closing (h : t.kind = .closing b) (bs : List Bracket) :
    t.kind.nesting (b :: bs) = bs := by
  rw [h]
  simp [Token.Kind.nesting]

theorem nesting_plain (ho : ∀ b, t.kind ≠ .opening b) (hc : ∀ b ∈ bs.head?, t.kind ≠ .closing b) :
    t.kind.nesting bs = bs := by
  unfold Token.Kind.nesting
  split
  · next b h => exact absurd h (ho b)
  · next b h =>
    have hb : bs.head? ≠ some b := fun hs => hc b (Option.mem_def.mpr hs) h
    rw [if_neg hb]
  · rfl

theorem collapse_of_inside {own : Option Bracket} (h : Inside own ts) (hbs : bs.head? = own)
    (hne : bs ≠ []) (us : List Token) :
    collapse bs (ts ++ us) = (Token.join ts ++ (collapse bs us).1, (collapse bs us).2) := by
  induction h generalizing bs us with
  | nil => rfl
  | plain ho hc _ ih =>
    obtain ⟨b, bs, rfl⟩ := List.exists_cons_of_ne_nil hne
    rw [List.cons_append, collapse, nesting_plain ho (by rw [hbs]; exact hc), ih hbs hne]
    simp
  | group b ho _ hc _ ihi iht =>
    obtain ⟨b', bs, rfl⟩ := List.exists_cons_of_ne_nil hne
    rw [List.cons_append, collapse, nesting_opening ho, List.append_assoc, ihi rfl (by simp),
      List.cons_append, collapse, nesting_closing hc, iht hbs hne]
    simp

theorem collapse_of_not_closes (h : ¬ Closes b ts) :
    collapse (b :: bs) ts = (Token.join ts, []) := by
  induction hl : ts.length using Nat.strongRecOn generalizing b bs ts with
  | ind n ih =>
    subst hl
    rcases fate (some b) ts with hi | ⟨b', hb', hc⟩ | ⟨pre, o, post, b', rfl, hp, ho, hn⟩
    · have hc : collapse (b :: bs) (ts ++ []) = _ := collapse_of_inside hi rfl (by simp) []
      simpa [collapse] using hc
    · obtain rfl := Option.mem_some_iff.mp hb'
      exact absurd hc h
    · rw [collapse_of_inside hp rfl (by simp), collapse, nesting_opening ho,
        ih post.length (by simp; omega) hn rfl]
      simp

/-- The lexemes of tokens outside of groups. -/
def Token.lexemes (ts : List Token) : List Lexeme := (collapse [] ts).2

@[simp] theorem Token.lexemes_nil : Token.lexemes [] = [] := rfl

theorem Token.join_lexemes (ts : List Token) : Lexeme.join (Token.lexemes ts) = Token.join ts := by
  have h := Lexeme.collapse_text [] ts
  rwa [Lexeme.collapse_nil_fst] at h

def Token.lexeme (t : Token) : Lexeme := ⟨t.kind.lexeme, t.text⟩

theorem Token.lexemes_cons (h : t.kind.group? = none) (ts : List Token) :
    Token.lexemes (t :: ts) = t.lexeme :: Token.lexemes ts := by
  rw [Token.lexemes, collapse, h]
  rfl

theorem group?_opening (h : t.kind = .opening b) (hb : b ≠ .curly) : t.kind.group? = some b := by
  rw [h]
  cases b <;> first | rfl | exact absurd rfl hb

theorem opening_of_group? (h : t.kind.group? = some b) : t.kind = .opening b ∧ b ≠ .curly := by
  unfold Token.Kind.group? at h
  split at h
  · next hk =>
    obtain rfl := Option.some.inj h
    exact ⟨hk, by simp⟩
  · next hk =>
    obtain rfl := Option.some.inj h
    exact ⟨hk, by simp⟩
  · simp at h

theorem Token.lexemes_group {o c : Token} {inner : List Token} (ho : o.kind = .opening b)
    (hb : b ≠ .curly) (hi : Inside (some b) inner) (hc : c.kind = .closing b) (ts : List Token) :
    Token.lexemes (o :: (inner ++ c :: ts)) =
      ⟨.other, Token.join (o :: (inner ++ [c]))⟩ :: Token.lexemes ts := by
  rw [Token.lexemes, collapse, group?_opening ho hb]
  simp only
  rw [collapse_of_inside hi rfl (by simp), collapse, nesting_closing hc]
  simp [Token.lexemes, Lexeme.collapse_nil_fst]

theorem Token.lexemes_hanging {o : Token} {post : List Token} (ho : o.kind = .opening b)
    (hb : b ≠ .curly) (hn : ¬ Closes b post) :
    Token.lexemes (o :: post) = [⟨.other, Token.join (o :: post)⟩] := by
  rw [Token.lexemes, collapse, group?_opening ho hb]
  simp only
  rw [collapse_of_not_closes hn]
  rfl

/-- The tokens are lexemes on their own, or groups with their closers. Braces
outside of groups need no partner. -/
inductive Grouped : List Token → Prop
  | nil : Grouped []
  | token {t : Token} {ts : List Token} (h : t.kind.group? = none) (hts : Grouped ts) :
      Grouped (t :: ts)
  | group {o c : Token} {inner ts : List Token} (b : Bracket) (ho : o.kind = .opening b)
      (hb : b ≠ .curly) (hi : Inside (some b) inner) (hc : c.kind = .closing b)
      (hts : Grouped ts) : Grouped (o :: (inner ++ c :: ts))

theorem Grouped.append (ht : Grouped ts) (hu : Grouped us) : Grouped (ts ++ us) := by
  induction ht with
  | nil => exact hu
  | token h _ ih => exact .token h ih
  | group b ho hb hi hc _ ih =>
    rw [List.cons_append, List.append_assoc, List.cons_append]
    exact .group b ho hb hi hc ih

theorem group?_eq_none (ho : ∀ b, t.kind ≠ .opening b) : t.kind.group? = none := by
  cases hk : t.kind with
  | opening b => exact absurd hk (ho b)
  | _ => rfl

theorem Inside.grouped {own : Option Bracket} (h : Inside own ts) : Grouped ts := by
  induction h with
  | nil => exact .nil
  | plain ho _ _ ih => exact .token (group?_eq_none ho) ih
  | @group own o c inner ts b ho hi hc _ ihi iht =>
    by_cases hb : b = .curly
    · subst hb
      have h1 : o.kind.group? = none := by rw [ho]; rfl
      have h2 : c.kind.group? = none := by rw [hc]; rfl
      exact .token h1 (ihi.append (.token h2 iht))
    · exact .group b ho hb hi hc iht

theorem Grouped.lexemes_append (h : Grouped ts) (us : List Token) :
    Token.lexemes (ts ++ us) = Token.lexemes ts ++ Token.lexemes us := by
  induction h with
  | nil => rfl
  | token h _ ih => rw [List.cons_append, Token.lexemes_cons h, Token.lexemes_cons h, ih]; rfl
  | group b ho hb hi hc _ ih =>
    rw [List.cons_append, List.append_assoc, List.cons_append, Token.lexemes_group ho hb hi hc,
      Token.lexemes_group ho hb hi hc, ih]
    rfl

end AnimationScope.Css
