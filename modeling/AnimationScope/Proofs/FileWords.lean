import AnimationScope.Naming.Generator
import Mathlib.Data.List.Chain
import Mathlib.Tactic.SplitIfs

/-!
# Words of a file name

The words of a text are runs of small letters and digits, and single underscores join
them. A default name has two underscores side by side in front of the local name and none
before, so that the words and the local name can be read off it.
-/

namespace AnimationScope.Naming

/-! ## Words -/

/-- A character is put in front of the first word, or else is a word itself. -/
theorem words_cons {c : Char} (hc : isWordChar c = true) (t : Text) :
    words (c :: t) = [c] :: words t ∨
      ∃ w ws, words t = w :: ws ∧ words (c :: t) = (c :: w) :: ws := by
  rw [words.eq_def]
  simp only [hc, if_true]
  split
  · next hw =>
    split_ifs
    · exact .inr ⟨_, _, hw, rfl⟩
    · exact .inl (by rw [hw])
  · exact .inl rfl

/-- A run of small letters and digits. -/
def IsWord (w : Text) : Prop := w ≠ [] ∧ ∀ c ∈ w, isWordChar c = true

theorem isWord_of_mem_words {t w : Text} (hw : w ∈ words t) : IsWord w := by
  induction t generalizing w with
  | nil => simp [words] at hw
  | cons a t ih =>
    by_cases ha : isWordChar a = true
    · rcases words_cons ha t with h | ⟨v, vs, hv, h⟩
      · rw [h, List.mem_cons] at hw
        rcases hw with rfl | hw
        · exact ⟨by simp, by simpa using ha⟩
        · exact ih hw
      · rw [hv] at ih
        rw [h, List.mem_cons] at hw
        rcases hw with rfl | hw
        · exact ⟨by simp, List.forall_mem_cons.mpr ⟨ha, (ih List.mem_cons_self).2⟩⟩
        · exact ih (List.mem_cons_of_mem _ hw)
    · rw [words.eq_def] at hw
      simp only [if_neg ha] at hw
      exact ih hw

theorem mem_joinedWords {t : Text} {c : Char} (hc : c ∈ joinedWords t) :
    isWordChar c = true ∨ c = '_' := by
  have hwords : ∀ w ∈ words (t.flatMap lowerCase), IsWord w := fun _ => isWord_of_mem_words
  rw [joinedWords] at hc
  generalize words (t.flatMap lowerCase) = ws at hc hwords
  induction ws with
  | nil => cases hc
  | cons w ws ih =>
    obtain ⟨hw, hws⟩ := List.forall_mem_cons.mp hwords
    cases ws with
    | nil => exact .inl (hw.2 c (by simpa using hc))
    | cons v ws =>
      rw [List.intercalate_cons_cons, List.mem_append, List.mem_append, List.mem_singleton] at hc
      rcases hc with (hc | hc) | hc
      · exact .inl (hw.2 c hc)
      · exact .inr hc
      · exact ih hc hws

/-! ## Underscores -/

/-- Underscores stand at no end of the text, and no two of them side by side. -/
structure Sparse (t : Text) : Prop where
  head : ∀ c ∈ t.head?, c ≠ '_'
  last : ∀ c ∈ t.getLast?, c ≠ '_'
  chain : t.IsChain fun a b => ¬ (a = '_' ∧ b = '_')

theorem Sparse.join {t u : Text} (ht : Sparse t) (hu : Sparse u) (htne : t ≠ []) (hune : u ≠ []) :
    Sparse (t ++ '_' :: u) where
  head c hc := by
    rw [List.head?_append_of_ne_nil _ htne] at hc
    exact ht.head c hc
  last c hc := by
    rw [List.getLast?_append_of_ne_nil _ (List.cons_ne_nil _ _),
      List.getLast?_cons_of_ne_nil hune] at hc
    exact hu.last c hc
  chain := by
    rw [List.isChain_append, List.isChain_cons]
    refine ⟨ht.chain, ⟨fun c hc hboth => hu.head c hc hboth.2, hu.chain⟩, ?_⟩
    intro c hc _ _ hboth
    exact ht.last c hc hboth.1

theorem Sparse.eq_nil_of_append {t u x y : Text} (h : Sparse (t ++ u))
    (hu : '_' :: '_' :: x = u ++ '_' :: '_' :: y) : u = [] := by
  rcases u with _ | ⟨c, _ | ⟨d, u⟩⟩
  · rfl
  · obtain rfl : '_' = c := (List.cons.inj hu).1
    exact absurd rfl (h.last '_' (by simp))
  · obtain ⟨rfl, hd⟩ := List.cons.inj hu
    obtain rfl : '_' = d := (List.cons.inj hd).1
    have hchain := (List.isChain_append.mp h.chain).2.1
    exact absurd ⟨rfl, rfl⟩ (List.isChain_cons_cons.mp hchain).1

theorem Sparse.eq_of_append {t u x y : Text} (ht : Sparse t) (hu : Sparse u)
    (h : t ++ '_' :: '_' :: x = u ++ '_' :: '_' :: y) : t = u ∧ x = y := by
  have htu : t = u := by
    -- What one of the texts has more than the other would begin with the two underscores.
    rcases List.append_eq_append_iff.mp h with ⟨v, rfl, hv⟩ | ⟨v, rfl, hv⟩
    · rw [hu.eq_nil_of_append hv, List.append_nil]
    · rw [ht.eq_nil_of_append hv, List.append_nil]
  subst htu
  simpa using h

/-- Underscores at the front of the local name belong to no word. -/
example : defaultName "_a".toList "b.css".toList ≠ defaultName "a".toList "b_.css".toList := by
  decide

end AnimationScope.Naming
