import AnimationScope.Proofs.BreakingOff
import AnimationScope.Proofs.Shape

/-!
# The first node of a text

What a text is read as begins with every node that stands at its front and needs nothing
behind it. The head of a rule is found in one way only.
-/

namespace AnimationScope

open Css

/-! ## Lexemes and statements in front -/

namespace Css

variable {ls ms : List Lexeme} {x y : Text}

/-- A text is cut into lexemes in one way, so lexemes of its front are the first ones. -/
theorem Lexed.exists_append (hl : Lexed ls x) (hm : Lexed ms y)
    (ht : Lexeme.join ls ++ x = Lexeme.join ms ++ y)
    (hlen : (Lexeme.join ls).length ≤ (Lexeme.join ms).length) : ∃ ns, ms = ls ++ ns := by
  obtain ⟨ts, hts, hg, -, rfl⟩ := hl
  obtain ⟨us, hus, -, -, rfl⟩ := hm
  rw [Token.join_lexemes, Token.join_lexemes] at ht hlen
  have hsame : ts ++ tokens x = us ++ tokens y := by rw [← hts, ← hus, ht]
  rcases List.append_eq_append_iff.mp hsame with ⟨vs, rfl, -⟩ | ⟨vs, rfl, hvs⟩
  · exact ⟨Token.lexemes vs, hg.lexemes_append vs⟩
  · -- What the longer list has more is empty, as all tokens have characters.
    have hnil : vs = [] := by
      cases vs with
      | nil => rfl
      | cons v vs =>
        have hv : v.text ≠ [] := Token.text_ne_nil_of_mem (s := y) (by simp [hvs])
        have hpos := List.length_pos_iff.mpr hv
        simp only [Token.join_append, Token.join_cons, List.length_append] at hlen
        omega
    exact ⟨[], by simp [hnil]⟩

theorem Nest.Plain.of_append {n m : Nest} (h : (n.append m).Plain) : m.Plain := by
  induction n with
  | done => exact h
  | lexeme l rest ih => exact ih h.2.2
  | block body rest _ ih => exact ih h.2

namespace Statement

variable {s : Statement} {ss ss' : List Statement} {after after' : List Lexeme}

theorem Formed.unique (h : Formed ss after) (h' : Formed ss' after')
    (hl : lexemesOf ss ++ after = lexemesOf ss' ++ after') : ss = ss' ∧ after = after' := by
  obtain ⟨n, hn, hnl, hread⟩ := h.exists_nest
  obtain ⟨n', hn', hnl', hread'⟩ := h'.exists_nest
  have hnest := Nest.ofLexemes_lexemes hn
  rw [hnl, hl, ← hnl', Nest.ofLexemes_lexemes hn', Prod.mk.injEq] at hnest
  obtain ⟨rfl, -⟩ := hnest
  rw [hread, Run.mk.injEq] at hread'
  exact hread'

theorem Formed.exists_cons (h : Formed ss after) (hs : Formed [s] []) (hopen : s.isOpen = false)
    {ms : List Lexeme} (hl : lexemesOf ss ++ after = s.lexemes ++ ms) :
    ∃ ss', ss = s :: ss' := by
  obtain ⟨n, hn, hnl, -⟩ := h.exists_nest
  obtain ⟨m, hm, hml, -⟩ := hs.exists_nest
  have hmlexemes : m.lexemes = s.lexemes := by simpa [lexemesOf] using hml
  have hnest := Nest.ofLexemes_lexemes hn
  rw [hnl, hl, ← hmlexemes, Nest.ofLexemes_append hm, Prod.mk.injEq] at hnest
  obtain ⟨hsplit, -⟩ := hnest
  -- The statements behind the first one are those of the lexemes that are left.
  have hrest : (Nest.ofLexemes ms).1.Plain := Nest.Plain.of_append (hsplit ▸ hn)
  have hformed : Formed (s :: (ofNest (Nest.ofLexemes ms).1).statements)
      (ofNest (Nest.ofLexemes ms).1).after :=
    (formed_cons_iff hopen).mpr ⟨hs, (ofNest_formed hrest).1⟩
  refine ⟨_, (h.unique hformed ?_).1⟩
  have hlexemes := (lexemes_ofNest (Nest.ofLexemes ms).1).1
  rw [Run.lexemes] at hlexemes
  rw [lexemesOf, List.append_assoc, hlexemes, ← hnl, ← hsplit, Nest.lexemes_append, hmlexemes]

end Statement

end Css

/-! ## Nodes in front -/

variable {n : Node} {ns ms : List Node} {after t : Text} {c : Char}

theorem Node.Reads.isOpen (h : n.Reads) : n.isOpen = false := by
  obtain ⟨s, hs, -, rfl, -⟩ := h
  rw [isOpen_ofStatement, hs]

/-- The text of a level that is read back is that of its lexemes. -/
theorem ReadsAt.exists_lexed (h : ReadsAt (some c) ns after) :
    ∃ ss ls, Statement.Formed ss ls ∧ Node.ofStatements ss = ns ∧ Lexeme.join ls = after ∧
      Lexeme.join (Statement.lexemesOf ss ++ ls) = Node.renderAll ns ++ after ∧
      ∀ x, Lexed (Statement.lexemesOf ss ++ ls) (c :: x) := by
  obtain ⟨ss, ls, hf, rfl, rfl, hl⟩ := h
  have hspelled : ∀ l ∈ Statement.lexemesOf ss, l.Spelled :=
    fun l hmem => (hl []).spelled l (List.mem_append_left _ hmem)
  exact ⟨ss, ls, hf, rfl, rfl,
    by rw [Lexeme.join_append, Node.renderAll_ofStatements hf hspelled], hl⟩

theorem ReadsAt.shaped (h : ReadsAt (some c) ns after) : (⟨true, ns, after⟩ : Level).Shaped := by
  obtain ⟨ss, ls, hf, rfl, rfl, -, hl⟩ := h.exists_lexed
  exact (hf.shaped true (hl []).sound).1

theorem ReadsAt.exists_cons (h : ReadsAt (some c) ns after) (hn : n.Reads)
    (ht : Node.renderAll ns ++ after = n.render ++ t) : ∃ ns', ns = n :: ns' := by
  obtain ⟨ss, ls, hf, rfl, -, hjoin, hl⟩ := h.exists_lexed
  obtain ⟨s, hopen, hs, rfl, hfree⟩ := hn
  rw [Node.render_ofStatement hs (hfree []).spelled] at ht
  obtain ⟨ms, hms⟩ := (hfree (t ++ [c])).exists_append (hl [])
    (by rw [hjoin, ht, List.append_assoc]) (by simp [hjoin, ht])
  obtain ⟨ss', rfl⟩ := hf.exists_cons hs hopen hms
  exact ⟨_, rfl⟩

theorem ReadsAt.exists_append (h : ReadsAt (some c) ns after) (hms : ∀ n ∈ ms, n.Reads)
    (ht : Node.renderAll ns ++ after = Node.renderAll ms ++ t) :
    ∃ ns', ns = ms ++ ns' ∧ ReadsAt (some c) ns' after ∧ Node.renderAll ns' ++ after = t := by
  induction ms generalizing ns with
  | nil => exact ⟨ns, rfl, h, ht⟩
  | cons n ms ih =>
    obtain ⟨hn, hms⟩ := List.forall_mem_cons.mp hms
    rw [Node.renderAll, List.append_assoc] at ht
    obtain ⟨ns, rfl⟩ := h.exists_cons hn ht
    rw [Node.renderAll, List.append_assoc] at ht
    obtain ⟨ns', rfl, hns', ht'⟩ :=
      ih ((readsAt_cons_iff hn.isOpen).mp h).2 hms (List.append_cancel_left ht)
    exact ⟨ns', rfl, hns', ht'⟩

/-! ## The head of a rule -/

def Rule.head (r : Rule) : Text := r.before ++ r.selector ++ r.between

theorem Rule.HeadReads.exists_lexed {r : Rule} (h : r.HeadReads) :
    ∃ ls, Lexeme.join ls = r.head ∧ (∀ l ∈ ls, l.kind ≠ .openBrace) ∧
      ∀ x, Lexed (ls ++ [.openBrace]) x := by
  obtain ⟨⟨gap, keyword, prelude⟩, hh, -, hr, hl⟩ := h
  refine ⟨gap ++ prelude, ?_, ?_, ?_⟩
  · have hparts := Rule.parts_ofPrelude (Lexeme.join gap) (Lexeme.join prelude) r.after
    rw [hr] at hparts
    rw [Lexeme.join_append, head, hparts]
  · intro l hmem
    rcases List.mem_append.mp hmem with hmem | hmem
    · exact (hh.gap l hmem).ne_brace.1
    · exact (hh.prelude l hmem).2.1
  · intro x
    exact lexed_append_iff.mpr ⟨hl x, lexed_mark (k := .opening .curly) rfl rfl x⟩

theorem Rule.HeadReads.unique {r r' : Rule} {x y : Text} (h : r.HeadReads) (h' : r'.HeadReads)
    (ht : r.head ++ '{' :: x = r'.head ++ '{' :: y) : r.head = r'.head ∧ x = y := by
  obtain ⟨ls, hjoin, hbrace, hl⟩ := h.exists_lexed
  obtain ⟨ms, hjoin', hbrace', hl'⟩ := h'.exists_lexed
  have hopen : ∀ ks, Lexeme.join (ks ++ [.openBrace]) = Lexeme.join ks ++ ['{'] := by
    intro ks
    simp [Lexeme.openBrace]
  have hsame : Lexeme.join (ls ++ [.openBrace]) ++ x = Lexeme.join (ms ++ [.openBrace]) ++ y := by
    simpa [hopen, hjoin, hjoin'] using ht
  -- Neither head goes on behind the brace of the other one.
  have heq : ∀ {ks js ns : List Lexeme}, (∀ l ∈ ks, l.kind ≠ .openBrace) →
      (∀ l ∈ js, l.kind ≠ .openBrace) →
      js ++ [Lexeme.openBrace] = ks ++ [Lexeme.openBrace] ++ ns → js = ks := by
    intro ks js ns hks hjs hsplit
    rw [List.append_assoc, List.singleton_append] at hsplit
    exact (eq_of_first hsplit (fun hmem => hjs _ hmem rfl) (fun hmem => hks _ hmem rfl)).1
  have hheads : ls = ms := by
    rcases Nat.le_total (Lexeme.join (ls ++ [.openBrace])).length
        (Lexeme.join (ms ++ [.openBrace])).length with hle | hle
    · obtain ⟨ns, hns⟩ := (hl x).exists_append (hl' y) hsame hle
      exact (heq hbrace hbrace' hns).symm
    · obtain ⟨ns, hns⟩ := (hl' y).exists_append (hl x) hsame.symm hle
      exact heq hbrace' hbrace hns
  rw [← hjoin, ← hjoin', hheads] at ht ⊢
  exact ⟨rfl, (List.cons.inj (List.append_cancel_left ht)).2⟩

end AnimationScope
