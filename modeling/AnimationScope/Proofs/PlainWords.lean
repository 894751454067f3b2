import AnimationScope.Proofs.Contents

/-!
# Declarations of plain words

A declaration whose property and value are plain words is read back wherever it stands,
behind any gap of spaces and semicolons.
-/

namespace AnimationScope

open Css Animation

/-! ## Plain words -/

/-- A word of letters, digits, underscores and hyphens that begins with a letter. -/
def Text.IsPlainWord (t : Text) : Prop :=
  (∃ c ∈ t.head?, c.isAlpha = true) ∧ ∀ c ∈ t, c.isAlphanum = true ∨ c = '_' ∨ c = '-'

section

variable {c : Char} {w : Text}

theorem isFiller_of_plain (h : c.isAlphanum = true ∨ c = '_' ∨ c = '-') :
    Text.isFiller c = false := by
  rcases h with h | rfl | rfl
  · have hmark : c ≠ ':' ∧ c ≠ ';' := by
      constructor <;> rintro rfl <;> cases h
    have hrange : ((65 ≤ c.toNat ∧ c.toNat ≤ 90) ∨ (97 ≤ c.toNat ∧ c.toNat ≤ 122)) ∨
        (48 ≤ c.toNat ∧ c.toNat ≤ 57) := by
      have hends {p q : Prop} [Decidable p] [Decidable q] (h : (decide p && decide q) = true) :
          p ∧ q := (Bool.and_eq_true_iff.mp h).imp of_decide_eq_true of_decide_eq_true
      rcases Bool.or_eq_true_iff.mp h with halpha | hdigit
      · rcases Bool.or_eq_true_iff.mp halpha with hupper | hlower
        · exact .inl (.inl (of_decide_eq_true hupper))
        · exact .inl (.inr (hends hlower))
      · exact .inr (hends hdigit)
    have hblank : Text.isBlank c = false := by
      rw [Bool.eq_false_iff]
      simp only [Text.isBlank, Bool.or_eq_true, Bool.and_eq_true, decide_eq_true_eq, beq_iff_eq,
        ne_eq]
      omega
    simp [Text.isFiller, hblank, hmark]
  · rfl
  · rfl

theorem not_isSign_of_plain (h : c.isAlphanum = true ∨ c = '_' ∨ c = '-') : ¬ Node.isSign c := by
  rintro (rfl | rfl | rfl) <;> revert h <;> decide

namespace Text.IsPlainWord

theorem isCustomIdent (h : w.IsPlainWord) : isCustomIdent w = true := by
  obtain ⟨⟨c, hc, halpha⟩, hall⟩ := h
  obtain ⟨u, rfl⟩ := List.head?_eq_some_iff.mp hc
  have hhyphen : c ≠ '-' := by
    rintro rfl
    cases halpha
  have hdigit : c.isDigit = false := isDigit_of_isNameStart (by simp [isNameStart, halpha])
  rw [isCustomIdent_iff_of_isIdentTail (isIdentTail_of_plain hall), beginsWithDigit_cons hhyphen]
  simp [hhyphen, hdigit]

theorem ne_nil (h : w.IsPlainWord) : w ≠ [] := by
  rintro rfl
  obtain ⟨⟨c, hc, -⟩, -⟩ := h
  cases hc

theorem weight_pos (h : w.IsPlainWord) : 0 < w.weight := by
  obtain ⟨c, u, rfl⟩ := List.exists_cons_of_ne_nil h.ne_nil
  exact Text.weight_pos List.mem_cons_self (isFiller_of_plain (h.2 c List.mem_cons_self))

theorem isBlank (h : w.IsPlainWord) : ∀ c ∈ w, Text.isBlank c = false := by
  intro c hc
  have hfiller := isFiller_of_plain (h.2 c hc)
  simp only [Text.isFiller, Bool.or_eq_false_iff] at hfiller
  exact hfiller.1.1

theorem trimmed (h : w.IsPlainWord) : Trimmed w := by
  obtain ⟨c, u, rfl⟩ := List.exists_cons_of_ne_nil h.ne_nil
  have hlast := List.getLast?_eq_some_getLast (List.cons_ne_nil c u)
  exact ⟨⟨c, rfl, h.isBlank c List.mem_cons_self⟩, _, hlast,
    h.isBlank _ (List.mem_of_getLast? hlast)⟩

theorem lexed (h : w.IsPlainWord) (hc : isBarrier c = true) (y : Text) :
    Lexed [⟨.other, w⟩] (c :: y) := by
  have hback : '\\' ∉ w := by
    intro hmem
    have hplain := h.2 _ hmem
    revert hplain
    decide
  refine ⟨_, cut_plain_name h.isCustomIdent hback ?_, .token rfl .nil, by simp [Token.Whole], rfl⟩
  intro d hd
  obtain rfl : c = d := Option.some.inj hd
  exact .inl hc

end Text.IsPlainWord

end

/-! ## A declaration of plain words -/

theorem Text.IsGap.exists_lexed {g rest : Text} (h : g.IsGap)
    (hrest : ∀ d ∈ rest.head?, isSpace d = false) :
    ∃ ls, (∀ l ∈ ls, l.IsGap) ∧ Lexeme.join ls = g ∧ Lexed ls rest := by
  induction hl : g.length using Nat.strongRecOn generalizing g with
  | ind n ih =>
    subst hl
    cases g with
    | nil => exact ⟨[], by simp, rfl, lexed_nil rest⟩
    | cons c g =>
      rw [IsGap, List.forall_mem_cons] at h
      obtain ⟨hc, hg⟩ := h
      rcases hc with hc | rfl
      · have hsplit := List.takeWhile_append_dropWhile (p := isSpace) (l := g)
        have hshort := (List.dropWhile_suffix isSpace (l := g)).length_le
        obtain ⟨ls, hgap, hjoin, hlexed⟩ := ih (g.dropWhile isSpace).length (by simp; omega)
          (fun d hd => hg d ((List.dropWhile_suffix _).subset hd)) rfl
        refine ⟨⟨.whitespace, c :: g.takeWhile isSpace⟩ :: ls, ?_, ?_, ?_⟩
        · exact List.forall_mem_cons.mpr ⟨.inl rfl, hgap⟩
        · rw [Lexeme.join_cons, hjoin, List.cons_append, hsplit]
        · rw [lexed_cons_iff, hjoin]
          exact ⟨lexed_front_spaces hc hrest, hlexed⟩
      · obtain ⟨ls, hgap, hjoin, hlexed⟩ := ih g.length (Nat.lt_succ_self _) hg rfl
        refine ⟨⟨.semicolon, [';']⟩ :: ls, List.forall_mem_cons.mpr ⟨.inr rfl, hgap⟩, ?_, ?_⟩
        · rw [Lexeme.join_cons, hjoin]
          rfl
        · exact lexed_cons_iff.mpr ⟨lexed_mark (k := .semicolon) rfl rfl _, hlexed⟩

def Declaration.added (gap prop value : Text) : Declaration := ⟨gap, prop, ": ".toList, value, true⟩

section

variable {gap prop value : Text}

theorem Declaration.added_reads (hg : gap.IsGap) (hp : prop.IsPlainWord) (hv : value.IsPlainWord) :
    (Node.declaration (.added gap prop value)).Reads := by
  have hcolon : ∀ x, Lexed [⟨Lexeme.Kind.colon, [':']⟩] x := lexed_mark (k := .colon) rfl rfl
  have hsemicolon : ∀ x, Lexed [⟨Lexeme.Kind.semicolon, [';']⟩] x :=
    lexed_mark (k := .semicolon) rfl rfl
  obtain ⟨ls, hls, hjoin, hlexed⟩ := hg.exists_lexed (hp.trimmed.isSpace_head [])
  refine ⟨.simple
    ⟨ls, none, [⟨.other, prop⟩, ⟨.colon, [':']⟩, ⟨.whitespace, [' ']⟩, ⟨.other, value⟩]⟩
    (some ⟨.semicolon, [';']⟩), rfl, .simple ⟨hls, by simp, ?_, ?_⟩ (by simp) rfl (.done (by simp)),
    ?_, ?_⟩
  · simp [Lexeme.InPrelude]
  · simp [Lexeme.StartsPrelude]
  · have hvalue : ∀ c ∈ value.head?, Text.isBlank c = false := by
      simpa using hv.trimmed.head []
    have hblank : ∀ c ∈ [' '], Text.isBlank c = true := List.forall_mem_singleton.mpr rfl
    have hlead := Text.leading_append hblank hvalue
    have hrest := Text.trimStart_append hblank hvalue
    simp only [List.singleton_append] at hlead hrest
    simp [Node.ofStatement, ofPrelude, added, hjoin, hp.trimmed.trimEnd_eq, hp.trimmed.trailing_eq,
      hlead, hrest]
  · intro x
    have hbody : Lexed [⟨.other, prop⟩, ⟨.colon, [':']⟩, ⟨.whitespace, [' ']⟩, ⟨.other, value⟩,
        ⟨.semicolon, [';']⟩] x := by
      refine lexed_cons_iff.mpr ⟨hp.lexed rfl _, lexed_cons_iff.mpr ⟨hcolon _, ?_⟩⟩
      refine lexed_cons_iff.mpr ⟨lexed_space ?_, lexed_cons_iff.mpr ⟨hv.lexed rfl _, hsemicolon x⟩⟩
      simpa using hv.trimmed.isSpace_head (';' :: x)
    have hgap := hlexed.replace_gap (y := prop ++ ':' :: ' ' :: (value ++ ';' :: x)) hls
      (hp.trimmed.isSpace_head _)
    simpa [Statement.lexemes] using lexed_append_iff.mpr ⟨by simpa using hgap, hbody⟩

end

end AnimationScope
