import AnimationScope.Proofs.Cut
import AnimationScope.Css.Lexeme

/-!
# Matching brackets

Behind an opening bracket there is its own closer, or a bracket that hangs open
to the end, or neither. The open brackets and the text of a group are both
computed along this case distinction.
-/

namespace AnimationScope.Css

/-- The tokens close every bracket that they open, and none of them closes the
bracket around them. Without a bracket around them, closers are plain tokens. -/
inductive Inside : Option Bracket → List Token → Prop
  | nil {own : Option Bracket} : Inside own []
  | plain {own : Option Bracket} {t : Token} {ts : List Token} (ho : ∀ b, t.kind ≠ .opening b)
      (hc : ∀ b ∈ own, t.kind ≠ .closing b) (hts : Inside own ts) : Inside own (t :: ts)
  | group {own : Option Bracket} {o c : Token} {inner ts : List Token} (b : Bracket)
      (ho : o.kind = .opening b) (hi : Inside (some b) inner) (hc : c.kind = .closing b)
      (hts : Inside own ts) : Inside own (o :: (inner ++ c :: ts))

/-- The closer of a bracket is among the tokens behind it. -/
def Closes (b : Bracket) (ts : List Token) : Prop :=
  ∃ inner c rest, ts = inner ++ c :: rest ∧ Inside (some b) inner ∧ c.kind = .closing b

def Hangs (own : Option Bracket) (ts : List Token) : Prop :=
  ∃ pre o post b, ts = pre ++ o :: post ∧ Inside own pre ∧ o.kind = .opening b ∧ ¬ Closes b post

variable {own : Option Bracket} {b : Bracket} {ts us : List Token}

theorem Inside.append (ht : Inside own ts) (hu : Inside own us) : Inside own (ts ++ us) := by
  induction ht with
  | nil => exact hu
  | plain ho hc _ ih => exact .plain ho hc (ih hu)
  | group b ho hi hc _ _ ih =>
    rw [List.cons_append, List.append_assoc, List.cons_append]
    exact .group b ho hi hc (ih hu)

theorem Inside.outside (h : Inside own ts) : Inside none ts := by
  induction h with
  | nil => exact .nil
  | plain ho _ _ ih => exact .plain ho (by simp) ih
  | group b ho hi hc _ _ ih => exact .group b ho hi hc ih

theorem Closes.append (ht : Inside (some b) ts) (h : Closes b us) : Closes b (ts ++ us) := by
  obtain ⟨inner, c, rest, rfl, hi, hc⟩ := h
  exact ⟨ts ++ inner, c, rest, by simp, ht.append hi, hc⟩

theorem Hangs.append (ht : Inside own ts) (h : Hangs own us) : Hangs own (ts ++ us) := by
  obtain ⟨pre, o, post, b, rfl, hp, ho, hn⟩ := h
  exact ⟨ts ++ pre, o, post, b, by simp, ht.append hp, ho, hn⟩

inductive Fate (own : Option Bracket) (ts : List Token) : Prop
  | inside (h : Inside own ts)
  | closes (b : Bracket) (hb : b ∈ own) (h : Closes b ts)
  | hangs (h : Hangs own ts)

theorem Fate.append (ht : Inside own ts) (h : Fate own us) : Fate own (ts ++ us) := by
  cases h with
  | inside h => exact .inside (ht.append h)
  | closes b hb h =>
    obtain rfl := Option.mem_def.mp hb
    exact .closes b hb (h.append ht)
  | hangs h => exact .hangs (h.append ht)

theorem fate (own : Option Bracket) (ts : List Token) : Fate own ts := by
  induction hn : ts.length using Nat.strongRecOn generalizing own ts with
  | ind n ih =>
    subst hn
    cases ts with
    | nil => exact .inside .nil
    | cons t ts =>
      by_cases ho : ∃ b, t.kind = .opening b
      · obtain ⟨b, ho⟩ := ho
        by_cases hb : Closes b ts
        · obtain ⟨inner, c, rest, rfl, hi, hc⟩ := hb
          have hr := ih rest.length (by simp; omega) own rest rfl
          have hg : Inside own (t :: (inner ++ [c])) := .group b ho hi hc .nil
          simpa using hr.append hg
        · exact .hangs ⟨[], t, ts, b, rfl, .nil, ho, hb⟩
      · by_cases hc : ∃ b ∈ own, t.kind = .closing b
        · obtain ⟨b, hb, hc⟩ := hc
          exact .closes b hb ⟨[], t, ts, rfl, .nil, hc⟩
        · have hr := ih ts.length (by simp) own ts rfl
          have hp : Inside own [t] :=
            .plain (fun b h => ho ⟨b, h⟩) (fun b hb h => hc ⟨b, hb, h⟩) .nil
          exact hr.append hp

/-! ## Open brackets -/

section

variable (p : Position) (stack : List (Bracket × Position)) {t : Token}

theorem openBrackets_append (ts us : List Token) :
    openBrackets p stack (ts ++ us) =
      openBrackets (p.advance (Token.join ts)) (openBrackets p stack ts) us := by
  induction ts generalizing p stack with
  | nil => rfl
  | cons t ts ih =>
    rw [List.cons_append, openBrackets, ih, Token.join_cons, Position.advance_append]
    rfl

theorem openBrackets_opening (h : t.kind = .opening b) :
    openBrackets p stack (t :: ts) = openBrackets (p.advance t.text) ((b, p) :: stack) ts := by
  rw [openBrackets, h]

theorem openBrackets_closing (h : t.kind = .closing b) (q : Position) :
    openBrackets p ((b, q) :: stack) (t :: ts) = openBrackets (p.advance t.text) stack ts := by
  rw [openBrackets, h]
  simp

theorem openBrackets_plain (ho : ∀ b, t.kind ≠ .opening b)
    (hc : ∀ b ∈ (stack.map Prod.fst).head?, t.kind ≠ .closing b) :
    openBrackets p stack (t :: ts) = openBrackets (p.advance t.text) stack ts := by
  rw [openBrackets]
  split
  · next b h => exact absurd h (ho b)
  · next b h =>
    have hb : (stack.map Prod.fst).head? ≠ some b := fun hs => hc b (Option.mem_def.mpr hs) h
    rw [if_neg hb]
  · rfl

end

theorem openBrackets_of_inside (h : Inside own ts) (p : Position)
    {stack : List (Bracket × Position)} (hs : (stack.map Prod.fst).head? = own) :
    openBrackets p stack ts = stack := by
  induction h generalizing p stack with
  | nil => rfl
  | plain ho hc _ ih =>
    rw [openBrackets_plain p stack ho (by rw [hs]; exact hc)]
    exact ih _ hs
  | group b ho _ hc _ ihi iht =>
    rw [openBrackets_opening p stack ho, openBrackets_append, ihi _ rfl,
      openBrackets_closing _ _ hc]
    exact iht _ hs

/-- A brace among the tokens has no closer. -/
def LeavesBlock (ts : List Token) : Prop :=
  ∃ pre o post, ts = pre ++ o :: post ∧ o.kind = .opening .curly ∧ ¬ Closes .curly post

/-- As long as the innermost bracket is not closed, brackets are only added. A
block among them has no closer. -/
theorem exists_openBrackets (own : Option Bracket) (ts : List Token)
    (hn : ∀ b ∈ own, ¬ Closes b ts) (p : Position) (stack : List (Bracket × Position))
    (hs : (stack.map Prod.fst).head? = own) :
    ∃ added, openBrackets p stack ts = added ++ stack ∧
      ((∃ q, (Bracket.curly, q) ∈ added) → LeavesBlock ts) := by
  induction hl : ts.length using Nat.strongRecOn generalizing own ts p stack with
  | ind n ih =>
    subst hl
    rcases fate own ts with h | ⟨b, hb, h⟩ | ⟨pre, o, post, b, rfl, hp, ho, hb⟩
    · exact ⟨[], openBrackets_of_inside h p hs, by simp⟩
    · exact absurd h (hn b hb)
    · have hnb : ∀ b' ∈ some b, ¬ Closes b' post := by
        intro b' hb'
        obtain rfl := Option.mem_some_iff.mp hb'
        exact hb
      rw [openBrackets_append, openBrackets_of_inside hp p hs, openBrackets_opening _ _ ho]
      obtain ⟨added, ha, hc⟩ := ih post.length (by simp; omega) (some b) post hnb
        ((p.advance (Token.join pre)).advance o.text)
        ((b, p.advance (Token.join pre)) :: stack) rfl rfl
      refine ⟨added ++ [(b, p.advance (Token.join pre))], by simpa using ha, ?_⟩
      rintro ⟨q, hq⟩
      rcases List.mem_append.mp hq with hq | hq
      · obtain ⟨pre', o', post', rfl, ho', hb'⟩ := hc ⟨q, hq⟩
        exact ⟨pre ++ o :: pre', o', post', by simp, ho', hb'⟩
      · obtain ⟨rfl, -⟩ := Prod.mk.inj (List.mem_singleton.mp hq)
        exact ⟨pre, o, post, rfl, ho, hb⟩

theorem find?_openBrackets_eq_none (h : ¬ LeavesBlock ts) (p : Position) :
    (openBrackets p [] ts).find? (·.1 = .curly) = none := by
  obtain ⟨added, ha, hc⟩ := exists_openBrackets none ts (by simp) p [] rfl
  rw [ha, List.append_nil, List.find?_eq_none]
  rintro ⟨b, q⟩ hq hb
  obtain rfl : b = .curly := by simpa using hb
  exact h (hc ⟨q, hq⟩)

/-- The last block left open is the first brace among the open brackets. -/
theorem find?_openBrackets {pre post : List Token} {o : Token} (ho : o.kind = .opening .curly)
    (hn : ¬ Closes .curly post) (hl : ¬ LeavesBlock post) (p : Position) :
    (openBrackets p [] (pre ++ o :: post)).find? (·.1 = .curly) =
      some (.curly, p.advance (Token.join pre)) := by
  rw [openBrackets_append, openBrackets_opening _ _ ho]
  obtain ⟨added, ha, hc⟩ := exists_openBrackets (some .curly) post
    (by rintro b ⟨⟩; exact hn) ((p.advance (Token.join pre)).advance o.text)
    ((.curly, p.advance (Token.join pre)) :: openBrackets p [] pre) rfl
  have hadded : added.find? (·.1 = .curly) = none := by
    rw [List.find?_eq_none]
    rintro ⟨b, q⟩ hq hb
    obtain rfl : b = .curly := by simpa using hb
    exact hl (hc ⟨q, hq⟩)
  rw [ha, List.find?_append, hadded]
  rfl

end AnimationScope.Css
