import AnimationScope.Proofs.Groups
import AnimationScope.Css.Nest

/-!
# Nested blocks and their lexemes

Blocks are read back from their lexemes, and lexemes that hold no closing brace
without a partner are the lexemes of the blocks that are read from them.
-/

namespace AnimationScope.Css

def Lexeme.Kind.Spells : Lexeme.Kind → Text → Prop
  | .whitespace, t => ∀ c ∈ t, isSpace c = true
  | .comment, t => ∃ r, t = '/' :: '*' :: r
  | .string, t => ∃ q r, isQuote q = true ∧ t = q :: r
  | .atKeyword, t => ∃ r, t = '@' :: r
  | .colon, t => t = [':']
  | .semicolon, t => t = [';']
  | .comma, t => t = [',']
  | .bang, t => t = ['!']
  | .openBrace, t => t = ['{']
  | .closeBrace, t => t = ['}']
  | .other, _ => True

def Lexeme.Spelled (l : Lexeme) : Prop := l.kind.Spells l.text

def Token.Spelled (t : Token) : Prop := t.kind.Spells t.text

theorem Token.Spelled.lexeme {t : Token} (h : t.Spelled) : t.lexeme.Spelled := by
  rcases t with ⟨_ | _ | _ | _ | _ | _ | _ | _ | _ | _ | b | b | _, s⟩ <;>
    first | exact h | (cases b <;> first | exact h | exact trivial) | exact trivial

/-- A lexeme begins with a token. It is this token, unless the token opens a group. -/
theorem Token.exists_first_of_mem_lexemes {ts : List Token} {l : Lexeme}
    (h : l ∈ Token.lexemes ts) :
    ∃ u ∈ ts, u.text <+: l.text ∧ (l = u.lexeme ∨ l.kind = .other ∧ u.kind.group? ≠ none) := by
  induction hl : ts.length using Nat.strongRecOn generalizing ts with
  | ind n ih =>
    subst hl
    cases ts with
    | nil => cases h
    | cons t ts =>
      have later : ∀ rest : List Token, l ∈ Token.lexemes rest → rest <:+ ts →
          ∃ u ∈ t :: ts, u.text <+: l.text ∧
            (l = u.lexeme ∨ l.kind = .other ∧ u.kind.group? ≠ none) := by
        intro rest hmem hsuffix
        have hlt : rest.length < (t :: ts).length := Nat.lt_succ_of_le hsuffix.length_le
        obtain ⟨u, hu, hfirst⟩ := ih rest.length hlt hmem rfl
        exact ⟨u, List.mem_cons_of_mem _ (hsuffix.subset hu), hfirst⟩
      cases hg : t.kind.group? with
      | none =>
        rw [Token.lexemes_cons hg] at h
        rcases List.mem_cons.mp h with rfl | h
        · exact ⟨t, List.mem_cons_self, List.prefix_rfl, .inl rfl⟩
        · exact later ts h List.suffix_rfl
      | some b =>
        have hgroup : t.kind.group? ≠ none := by simp [hg]
        obtain ⟨ho, hb⟩ := opening_of_group? hg
        by_cases hc : Closes b ts
        · obtain ⟨inner, c, rest, rfl, hi, hc⟩ := hc
          rw [Token.lexemes_group ho hb hi hc] at h
          rcases List.mem_cons.mp h with rfl | h
          · exact ⟨t, List.mem_cons_self, List.prefix_append _ _, .inr ⟨rfl, hgroup⟩⟩
          · exact later rest h ⟨inner ++ [c], by simp⟩
        · rw [Token.lexemes_hanging ho hb hc, List.mem_singleton] at h
          subst h
          exact ⟨t, List.mem_cons_self, List.prefix_append _ _, .inr ⟨rfl, hgroup⟩⟩

theorem spelled_of_mem_lexemes {ts : List Token} (hs : ∀ t ∈ ts, t.Spelled) :
    ∀ l ∈ Token.lexemes ts, l.Spelled := by
  intro l hl
  obtain ⟨u, hu, -, rfl | ⟨hk, -⟩⟩ := Token.exists_first_of_mem_lexemes hl
  · exact (hs u hu).lexeme
  · rw [Lexeme.Spelled, hk]
    trivial

theorem Token.text_ne_nil_of_mem_lexemes {ts : List Token} (hts : ∀ u ∈ ts, u.text ≠ []) :
    ∀ l ∈ Token.lexemes ts, l.text ≠ [] := by
  intro l hl hnil
  obtain ⟨u, hu, hprefix, -⟩ := Token.exists_first_of_mem_lexemes hl
  rw [hnil, List.prefix_nil] at hprefix
  exact hts u hu hprefix

namespace Nest

def append : Nest → Nest → Nest
  | .done, m => m
  | .lexeme l rest, m => .lexeme l (rest.append m)
  | .block body rest, m => .block body (rest.append m)

def Plain : Nest → Prop
  | .done => True
  | .lexeme l rest => l.kind ≠ .openBrace ∧ l.kind ≠ .closeBrace ∧ rest.Plain
  | .block body rest => body.Plain ∧ rest.Plain

@[simp] theorem append_done (n : Nest) : n.append .done = n := by
  induction n with
  | done => rfl
  | lexeme l rest ih => rw [append, ih]
  | block body rest _ ih => rw [append, ih]

@[simp] theorem lexemes_append (n m : Nest) : (n.append m).lexemes = n.lexemes ++ m.lexemes := by
  induction n with
  | done => rfl
  | lexeme l rest ih => simp [append, lexemes, ih]
  | block body rest _ ih => simp [append, lexemes, ih]

theorem Plain.append {n m : Nest} (hn : n.Plain) (hm : m.Plain) : (n.append m).Plain := by
  induction n with
  | done => exact hm
  | lexeme l rest ih => exact ⟨hn.1, hn.2.1, ih hn.2.2⟩
  | block body rest _ ih => exact ⟨hn.1, ih hn.2⟩

theorem ofLexemes_openBrace (ls : List Lexeme) (n m : Nest) (behind : List Nest)
    (h : ofLexemes ls = (n, m :: behind)) :
    ofLexemes (.openBrace :: ls) = (.block n m, behind) := by
  rw [ofLexemes, h]
  rfl

theorem ofLexemes_closeBrace (ls : List Lexeme) :
    ofLexemes (.closeBrace :: ls) = (.done, (ofLexemes ls).1 :: (ofLexemes ls).2) := rfl

theorem ofLexemes_plain {l : Lexeme} (ho : l.kind ≠ .openBrace) (hc : l.kind ≠ .closeBrace)
    (ls : List Lexeme) :
    ofLexemes (l :: ls) = (.lexeme l (ofLexemes ls).1, (ofLexemes ls).2) := by
  rw [ofLexemes]
  split
  split <;> simp_all

theorem ofLexemes_append {n : Nest} (h : n.Plain) (ls : List Lexeme) :
    ofLexemes (n.lexemes ++ ls) = (n.append (ofLexemes ls).1, (ofLexemes ls).2) := by
  induction n generalizing ls with
  | done => rfl
  | lexeme l rest ih =>
    rw [lexemes, List.cons_append, ofLexemes_plain h.1 h.2.1, ih h.2.2]
    rfl
  | block body rest ihb ihr =>
    have hb := ihb h.1 (.closeBrace :: (rest.lexemes ++ ls))
    rw [ofLexemes_closeBrace, append_done, ihr h.2 ls] at hb
    simp only [lexemes, List.cons_append, List.append_assoc]
    exact ofLexemes_openBrace _ _ _ _ hb

theorem ofLexemes_lexemes {n : Nest} (h : n.Plain) : ofLexemes n.lexemes = (n, []) := by
  have ha := ofLexemes_append h []
  simpa [ofLexemes] using ha

end Nest

theorem Token.Spelled.openBrace {t : Token} (h : t.Spelled) (hk : t.kind = .opening .curly) :
    t.lexeme = .openBrace := by
  rw [Token.Spelled, hk] at h
  rw [Token.lexeme, hk, h]
  rfl

theorem Token.Spelled.closeBrace {t : Token} (h : t.Spelled) (hk : t.kind = .closing .curly) :
    t.lexeme = .closeBrace := by
  rw [Token.Spelled, hk] at h
  rw [Token.lexeme, hk, h]
  rfl

theorem Token.Kind.lexeme_eq_openBrace_iff {k : Token.Kind} :
    k.lexeme = .openBrace ↔ k = .opening .curly := by
  rcases k with _ | _ | _ | _ | _ | _ | _ | _ | _ | _ | (_ | _ | _) | (_ | _ | _) | _ <;>
    simp [Token.Kind.lexeme]

theorem Token.Kind.lexeme_eq_closeBrace_iff {k : Token.Kind} :
    k.lexeme = .closeBrace ↔ k = .closing .curly := by
  rcases k with _ | _ | _ | _ | _ | _ | _ | _ | _ | _ | (_ | _ | _) | (_ | _ | _) | _ <;>
    simp [Token.Kind.lexeme]

theorem Inside.exists_nest {ts : List Token} (h : Inside (some .curly) ts)
    (hs : ∀ t ∈ ts, t.Spelled) : ∃ n : Nest, n.Plain ∧ Token.lexemes ts = n.lexemes := by
  generalize hown : some Bracket.curly = own at h
  induction h with
  | nil => exact ⟨.done, trivial, rfl⟩
  | @plain own t ts ho hc _ ih =>
    obtain ⟨n, hn, hl⟩ := ih (fun t ht => hs t (List.mem_cons_of_mem _ ht)) hown
    refine ⟨.lexeme t.lexeme n, ⟨?_, ?_, hn⟩, ?_⟩
    · exact fun hk => ho _ (Token.Kind.lexeme_eq_openBrace_iff.mp hk)
    · exact fun hk => hc _ (hown ▸ rfl) (Token.Kind.lexeme_eq_closeBrace_iff.mp hk)
    · rw [Token.lexemes_cons (group?_eq_none ho), hl]
      rfl
  | @group own o c inner ts b ho hi hc _ ihi iht =>
    obtain ⟨n, hn, hl⟩ := iht (fun t ht => hs t (by simp [ht])) hown
    by_cases hb : b = .curly
    · subst hb
      obtain ⟨m, hm, hml⟩ := ihi (fun t ht => hs t (by simp [ht])) rfl
      have hog : o.kind.group? = none := by rw [ho]; rfl
      have hcg : c.kind.group? = none := by rw [hc]; rfl
      refine ⟨.block m n, ⟨hm, hn⟩, ?_⟩
      rw [Token.lexemes_cons hog, hi.grouped.lexemes_append, Token.lexemes_cons hcg,
        (hs o (by simp)).openBrace ho, (hs c (by simp)).closeBrace hc, hml, hl]
      rfl
    · refine ⟨.lexeme ⟨.other, Token.join (o :: (inner ++ [c]))⟩ n, ⟨by simp, by simp, hn⟩, ?_⟩
      rw [Token.lexemes_group ho hb hi hc, hl]
      rfl

end AnimationScope.Css
