import AnimationScope.Proofs.Identifiers
import AnimationScope.Proofs.Unmarked

/-!
# Default names

The scoped name that is used by default is an unmarked text whenever the local name
is usable. Only the local name may put an escaped blank at its end.
-/

namespace AnimationScope

open Css Animation Naming

theorem Naming.isNameChar_of_isWordChar {c : Char} (h : isWordChar c = true) :
    isNameChar c = true := by
  rw [isWordChar, Bool.or_eq_true] at h
  rcases h with h | h
  · have halpha : c.isAlpha = true := Bool.or_eq_true_iff.mpr (.inr h)
    simp [isNameChar, isNameStart, halpha]
  · simp [isNameChar, h]

theorem Naming.unmarked_joinedWords (t : Text) : Unmarked (joinedWords t) := by
  apply unmarked_of_nameChar
  intro c hc
  rcases mem_joinedWords hc with hword | rfl
  · exact isNameChar_of_isWordChar hword
  · decide

theorem Animation.isNameChar_of_ident {c : Char}
    (h : (c.isAlphanum || c == '_' || c == '-' || isNonAscii c) = true) : isNameChar c = true := by
  simp only [Bool.or_eq_true, beq_iff_eq] at h
  rcases h with ((h | rfl) | rfl) | h
  · rcases Bool.or_eq_true_iff.mp h with h | h
    · simp [isNameChar, isNameStart, h]
    · simp [isNameChar, h]
  · decide
  · decide
  · simp [isNameChar, isNameStart, h]

theorem Animation.unmarked_of_isIdentTail {t : Text} (h : isIdentTail t = true) : Unmarked t := by
  fun_induction isIdentTail t with
  | case1 => exact .nil
  | case2 c r ih => exact .escape c (ih h)
  | case3 c r hc ih =>
    rw [Bool.and_eq_true] at h
    exact .char (.inl (isNameChar_of_ident h.1)) (ih h.2)

theorem Animation.unmarked_of_isCustomIdent {t : Text} (h : isCustomIdent t = true) :
    Unmarked t ∧ t ≠ [] := by
  unfold isCustomIdent at h
  split at h
  · next r =>
    have hr := unmarked_of_isIdentTail h
    exact ⟨.char (.inl (by decide)) (.char (.inl (by decide)) hr), by simp⟩
  · next r _ =>
    have hr := unmarked_of_isIdentTail (Bool.and_eq_true_iff.mp h).2
    exact ⟨.char (.inl (by decide)) hr, by simp⟩
  · obtain ⟨hstart, htail⟩ := Bool.and_eq_true_iff.mp h
    refine ⟨unmarked_of_isIdentTail htail, ?_⟩
    rintro rfl
    cases hstart

/-- The default name of a usable name is unmarked, and it ends like the name. -/
theorem Naming.defaultName_unmarked {name : Text} (h : classify name = .valid) (path : Text) :
    Unmarked (defaultName name path) ∧ (defaultName name path).head? = some '_' ∧
      (defaultName name path).getLast? = name.getLast? := by
  obtain ⟨hname, hne⟩ := unmarked_of_isCustomIdent (isCustomIdent_of_classify h)
  have hmark : Unmarked "__".toList := .char (.inl (by decide)) (.char (.inl (by decide)) .nil)
  refine ⟨((hmark.append (unmarked_joinedWords _)).append hmark).append hname, rfl, ?_⟩
  rw [defaultName, List.getLast?_append]
  cases hl : name.getLast? with
  | none => exact absurd (List.getLast?_eq_none_iff.mp hl) hne
  | some c => rfl

end AnimationScope
