import AnimationScope.Text.Blank
import Mathlib.Data.List.DropRight

/-!
# Texts without blanks at their ends

Trimming leaves just the texts alone that neither begin nor end with a blank, and it
gives such a text.
-/

namespace AnimationScope.Text

def hasBlankEnd (t : Text) : Bool := t.head?.any isBlank || t.getLast?.any isBlank

variable {t : Text}

theorem trimEnd_prefix (t : Text) : t.trimEnd <+: t := List.rdropWhile_prefix _ t

theorem any_head?_trimStart (t : Text) : t.trimStart.head?.any isBlank = false := by
  have hnot := List.head?_dropWhile_not isBlank t
  rw [trimStart]
  cases h : (t.dropWhile isBlank).head? with
  | none => rfl
  | some c =>
    rw [h] at hnot
    exact hnot

theorem any_getLast?_trimEnd (t : Text) : t.trimEnd.getLast?.any isBlank = false := by
  rw [trimEnd, List.getLast?_reverse]
  exact any_head?_trimStart t.reverse

theorem trimStart_eq_self (h : t.head?.any isBlank = false) : t.trimStart = t := by
  cases t with
  | nil => rfl
  | cons c r => exact List.dropWhile_cons_of_neg (by simpa using h)

theorem trimEnd_eq_self (h : t.getLast?.any isBlank = false) : t.trimEnd = t := by
  rw [← List.head?_reverse] at h
  rw [trimEnd, ← trimStart, trimStart_eq_self h, List.reverse_reverse]

theorem hasBlankEnd_trim (t : Text) : t.trim.hasBlankEnd = false := by
  rw [hasBlankEnd, trim, any_getLast?_trimEnd, Bool.or_false]
  obtain ⟨r, hr⟩ := trimEnd_prefix t.trimStart
  cases hu : t.trimStart.trimEnd with
  | nil => rfl
  | cons c u =>
    have hhead := any_head?_trimStart t
    rw [← hr, hu] at hhead
    exact hhead

theorem trim_eq_self_iff : t.trim = t ↔ t.hasBlankEnd = false := by
  constructor
  · intro h
    rw [← h]
    exact hasBlankEnd_trim t
  · intro h
    obtain ⟨hhead, hlast⟩ := Bool.or_eq_false_iff.mp h
    rw [trim, trimStart_eq_self hhead, trimEnd_eq_self hlast]

@[simp] theorem trim_trim (t : Text) : t.trim.trim = t.trim :=
  trim_eq_self_iff.mpr (hasBlankEnd_trim t)

end AnimationScope.Text
