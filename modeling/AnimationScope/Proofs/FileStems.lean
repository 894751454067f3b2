import AnimationScope.Proofs.FileWords
import Mathlib.Data.List.Basic
import Mathlib.Data.List.Flatten
import Mathlib.Data.List.Forall2
import Mathlib.Data.List.TakeWhile

/-!
# File stems

What a file name brings to a scoped name, told without the way it is computed: the part of
the path behind its last separator, in front of its last dot, with underscores in the place
of all that is no letter and no digit.
-/

namespace AnimationScope.Naming

variable {path name stem t u x y value : Text} {c : Char} {ws : List Text}

def IsBaseName (path name : Text) : Prop :=
  ∃ front, path = front ++ name ∧ (front = [] ∨ front.getLast? = some '/' ∨
    front.getLast? = some '\\') ∧ '/' ∉ name ∧ '\\' ∉ name

/-- A last dot ends the stem, unless it is the first character of the name. -/
inductive IsStem : (name stem : Text) → Prop
  | cut {stem extension : Text} : stem ≠ [] → '.' ∉ extension →
      IsStem (stem ++ '.' :: extension) stem
  | whole {name : Text} : '.' ∉ name.tail → IsStem name name

/-- A small letter of ASCII or a digit. -/
def IsPlainChar (c : Char) : Prop := 'a' ≤ c ∧ c ≤ 'z' ∨ '0' ≤ c ∧ c ≤ '9'

instance (c : Char) : Decidable (IsPlainChar c) :=
  inferInstanceAs (Decidable ('a' ≤ c ∧ c ≤ 'z' ∨ '0' ≤ c ∧ c ≤ '9'))

/-- The lower case of a character. Of the characters outside of ASCII it matters only which have
an ASCII letter in it. -/
inductive Lowers : Char → Text → Prop
  | plain {c : Char} : IsPlainChar c → Lowers c [c]
  | capital {c : Char} : 'A' ≤ c → c ≤ 'Z' → Lowers c [Char.ofNat (c.toNat + 32)]
  | kelvinSign : Lowers '\u212A' ['k']
  | dottedI : Lowers '\u0130' ['i', '\u0307']
  | other {c : Char} {u : Text} : ¬ IsPlainChar c → ¬ ('A' ≤ c ∧ c ≤ 'Z') → c ≠ '\u212A' →
      c ≠ '\u0130' → u ≠ [] → (∀ d ∈ u, ¬ IsPlainChar d) → Lowers c u

/-- The longest runs of small letters and digits, from left to right. -/
inductive Runs : Text → List Text → Prop
  | nil : Runs [] []
  | skip {c : Char} {t : Text} {ws : List Text} : ¬ IsPlainChar c → Runs t ws → Runs (c :: t) ws
  | word {w t : Text} {ws : List Text} : w ≠ [] → (∀ c ∈ w, IsPlainChar c) →
      (∀ c ∈ t.head?, ¬ IsPlainChar c) → Runs t ws → Runs (w ++ t) (w :: ws)

/-- The runs of the lower case, with an underscore between any two. -/
def Sanitizes (t value : Text) : Prop :=
  ∃ lower words, List.Forall₂ Lowers t lower ∧ Runs lower.flatten words ∧
    value = List.intercalate ['_'] words

/-! ## The stem -/

theorem isSeparator_iff : isSeparator c = true ↔ c = '/' ∨ c = '\\' := by
  simp [isSeparator]

theorem isBaseName_iff : IsBaseName path name ↔ name = baseName path := by
  constructor
  · rintro ⟨front, rfl, hfront, hslash, hback⟩
    have hname : ∀ c ∈ name.reverse, (!isSeparator c) = true := by
      intro c hc
      rw [Bool.not_eq_true', ← Bool.not_eq_true, isSeparator_iff]
      rintro (rfl | rfl)
      · exact hslash (List.mem_reverse.mp hc)
      · exact hback (List.mem_reverse.mp hc)
    have hstop : front.reverse.takeWhile (!isSeparator ·) = [] := by
      rcases hfront with rfl | hlast | hlast
      · rfl
      · obtain ⟨r, rfl⟩ := List.getLast?_eq_some_iff.mp hlast
        simp [isSeparator]
      · obtain ⟨r, rfl⟩ := List.getLast?_eq_some_iff.mp hlast
        simp [isSeparator]
    rw [baseName, List.reverse_append, List.takeWhile_append_of_pos hname, hstop, List.append_nil,
      List.reverse_reverse]
  · rintro rfl
    have hnone : ∀ c ∈ baseName path, isSeparator c = false := fun c hc => by
      simpa using List.mem_takeWhile_imp (List.mem_reverse.mp hc)
    refine ⟨(path.reverse.dropWhile (!isSeparator ·)).reverse, ?_, ?_, ?_, ?_⟩
    · rw [baseName, ← List.reverse_append, List.takeWhile_append_dropWhile, List.reverse_reverse]
    · rw [List.reverse_eq_nil_iff, List.getLast?_reverse]
      cases hdrop : path.reverse.dropWhile (!isSeparator ·) with
      | nil => exact .inl rfl
      | cons d r =>
        have hd := List.head?_dropWhile_not (!isSeparator ·) path.reverse
        rw [hdrop] at hd
        have hsep : isSeparator d = true := by simpa using hd
        rcases isSeparator_iff.mp hsep with rfl | rfl
        · exact .inr (.inl rfl)
        · exact .inr (.inr rfl)
    · exact fun h => absurd (hnone _ h) (by decide)
    · exact fun h => absurd (hnone _ h) (by decide)

theorem fileStem_of_not_mem (h : '.' ∉ baseName path) : fileStem path = baseName path := by
  have hdrop : (baseName path).reverse.dropWhile (· ≠ '.') = [] := by
    rw [List.dropWhile_eq_nil_iff]
    intro c hc
    rw [decide_eq_true_eq]
    rintro rfl
    exact h (List.mem_reverse.mp hc)
  simp only [fileStem, hdrop]

theorem fileStem_of_dot (h : baseName path = x ++ '.' :: y) (hy : '.' ∉ y) :
    fileStem path = if x = [] then baseName path else x := by
  have hdrop : (baseName path).reverse.dropWhile (· ≠ '.') = '.' :: x.reverse := by
    rw [h, List.reverse_append, List.reverse_cons, List.append_assoc, List.dropWhile_append_of_pos]
    · rfl
    · intro c hc
      rw [decide_eq_true_eq]
      rintro rfl
      exact hy (List.mem_reverse.mp hc)
  simp only [fileStem, hdrop]
  split
  · next d r hr =>
    obtain ⟨-, hr⟩ := List.cons.inj hr
    have hx : x = (d :: r).reverse := by rw [← hr, List.reverse_reverse]
    rw [if_neg (by simp [hx]), hx]
  · next hnil =>
    rw [if_pos]
    by_contra hx
    obtain ⟨d, r, hr⟩ := List.exists_cons_of_ne_nil (List.reverse_ne_nil_iff.mpr hx)
    exact hnil _ d r (by rw [hr])

theorem isStem_iff : IsStem (baseName path) stem ↔ stem = fileStem path := by
  constructor
  · generalize hname : baseName path = name
    intro h
    cases h with
    | cut hne hextension => rw [fileStem_of_dot hname hextension, if_neg hne]
    | whole htail =>
      cases stem with
      | nil => rw [fileStem_of_not_mem (by simp [hname]), hname]
      | cons c r =>
        by_cases hc : c = '.'
        · subst hc
          rw [fileStem_of_dot (x := []) hname htail, if_pos rfl, hname]
        · rw [fileStem_of_not_mem, hname]
          rw [hname, List.mem_cons, not_or]
          exact ⟨Ne.symm hc, htail⟩
  · rintro rfl
    by_cases hdot : '.' ∈ baseName path
    · obtain ⟨u, v, huv, hu⟩ := List.eq_append_cons_of_mem (List.mem_reverse.mpr hdot)
      have hname : baseName path = v.reverse ++ '.' :: u.reverse := by
        rw [← List.reverse_reverse (baseName path), huv]
        simp
      have hlast : '.' ∉ u.reverse := fun h => hu (List.mem_reverse.mp h)
      rw [fileStem_of_dot hname hlast]
      split_ifs with hv
      · refine .whole ?_
        rw [hname, hv]
        exact hlast
      · rw [hname]
        exact .cut hv hlast
    · rw [fileStem_of_not_mem hdot]
      exact .whole fun h => hdot (List.mem_of_mem_tail h)

/-! ## Runs -/

theorem isWordChar_iff : isWordChar c = true ↔ IsPlainChar c := by
  change (decide ('a' ≤ c) && decide (c ≤ 'z') || decide ('0' ≤ c) && decide (c ≤ '9')) = true ↔ _
  rw [Bool.or_eq_true, Bool.and_eq_true, Bool.and_eq_true, decide_eq_true_eq, decide_eq_true_eq,
    decide_eq_true_eq, decide_eq_true_eq]
  rfl

theorem words_cons_of_not (hc : isWordChar c = false) (t : Text) : words (c :: t) = words t := by
  rw [words.eq_def]
  simp [hc]

theorem words_cons_apart (hc : isWordChar c = true) (ht : ∀ d ∈ t.head?, isWordChar d = false) :
    words (c :: t) = [c] :: words t := by
  rw [words.eq_def]
  simp only [hc, if_true]
  split
  · next d r w ws hw =>
    rw [if_neg (by simp [ht d rfl]), hw]
  · rfl

theorem words_cons_joined {d : Char} (hc : isWordChar c = true) (hd : isWordChar d = true)
    (t : Text) : ∃ w ws, words (d :: t) = w :: ws ∧ words (c :: d :: t) = (c :: w) :: ws := by
  have hne : words (d :: t) ≠ [] := by
    rcases words_cons hd t with h | ⟨w, ws, -, h⟩ <;> simp [h]
  obtain ⟨w, ws, hw⟩ := List.exists_cons_of_ne_nil hne
  refine ⟨w, ws, hw, ?_⟩
  rw [words.eq_def]
  simp [hc, hd, hw]

theorem words_gap (hx : ∀ c ∈ x, isWordChar c = false) (y : Text) : words (x ++ y) = words y := by
  induction x with
  | nil => rfl
  | cons c x ih =>
    obtain ⟨hc, hx⟩ := List.forall_mem_cons.mp hx
    rw [List.cons_append, words_cons_of_not hc, ih hx]

theorem words_append (x : Text) (hy : ∀ c ∈ y.head?, isWordChar c = false) :
    words (x ++ y) = words x ++ words y := by
  induction x with
  | nil => rfl
  | cons c x ih =>
    by_cases hc : isWordChar c = true
    · cases x with
      | nil =>
        rw [List.singleton_append, words_cons_apart hc hy, words_cons_apart hc (by simp)]
        rfl
      | cons d r =>
        by_cases hd : isWordChar d = true
        · obtain ⟨w, ws, hw, hcw⟩ := words_cons_joined hc hd r
          obtain ⟨w', ws', hw', hcw'⟩ := words_cons_joined hc hd (r ++ y)
          rw [List.cons_append, hw', hw] at ih
          obtain ⟨rfl, rfl⟩ := List.cons.inj ih
          exact hcw'.trans (by rw [hcw]; rfl)
        · rw [Bool.not_eq_true] at hd
          have hr : ∀ e ∈ (d :: r).head?, isWordChar e = false := by simpa using hd
          rw [words_cons_apart hc hr, List.cons_append, words_cons_apart hc (by simpa using hd), ih]
          rfl
    · rw [Bool.not_eq_true] at hc
      rw [List.cons_append, words_cons_of_not hc, words_cons_of_not hc, ih]

theorem words_of_isWord (h : IsWord x) : words x = [x] := by
  obtain ⟨hne, hx⟩ := h
  induction x with
  | nil => exact absurd rfl hne
  | cons c x ih =>
    obtain ⟨hc, hx⟩ := List.forall_mem_cons.mp hx
    cases x with
    | nil => exact words_cons_apart hc (by simp)
    | cons d r =>
      obtain ⟨w, ws, hw, hcw⟩ := words_cons_joined hc (hx d List.mem_cons_self) r
      rw [ih (List.cons_ne_nil d r) hx] at hw
      obtain ⟨rfl, rfl⟩ := List.cons.inj hw
      exact hcw

theorem isWordChar_eq_false_iff : isWordChar c = false ↔ ¬ IsPlainChar c := by
  rw [← isWordChar_iff, Bool.not_eq_true]

theorem Runs.words_eq (h : Runs t ws) : words t = ws := by
  induction h with
  | nil => rfl
  | skip hc _ ih => rw [words_cons_of_not (isWordChar_eq_false_iff.mpr hc), ih]
  | word hne hw ht _ ih =>
    rw [words_append _ fun c hc => isWordChar_eq_false_iff.mpr (ht c hc),
      words_of_isWord ⟨hne, fun c hc => isWordChar_iff.mpr (hw c hc)⟩, ih]
    rfl

theorem Runs.cons {d : Char} {w : Text} (hc : IsPlainChar c) (hd : IsPlainChar d)
    (h : Runs (d :: t) (w :: ws)) : Runs (c :: d :: t) ((c :: w) :: ws) := by
  generalize hx : d :: t = x at h
  cases h with
  | skip hd' => exact absurd ((List.cons.inj hx).1 ▸ hd) hd'
  | word hne hw ht hruns =>
    rw [← List.cons_append]
    exact .word (List.cons_ne_nil c w) (List.forall_mem_cons.mpr ⟨hc, hw⟩) ht hruns

theorem runs_words (t : Text) : Runs t (words t) := by
  induction t with
  | nil => exact .nil
  | cons c t ih =>
    by_cases hc : isWordChar c = true
    · by_cases ht : ∀ d ∈ t.head?, isWordChar d = false
      · rw [words_cons_apart hc ht]
        change Runs ([c] ++ t) _
        exact .word (List.cons_ne_nil c []) (by simpa using isWordChar_iff.mp hc)
          (fun d hd => isWordChar_eq_false_iff.mp (ht d hd)) ih
      · cases t with
        | nil => simp at ht
        | cons d r =>
          have hd : isWordChar d = true := by simpa using ht
          obtain ⟨w, ws, hw, hcw⟩ := words_cons_joined hc hd r
          rw [hw] at ih
          rw [hcw]
          exact ih.cons (isWordChar_iff.mp hc) (isWordChar_iff.mp hd)
    · rw [Bool.not_eq_true] at hc
      rw [words_cons_of_not hc]
      exact .skip (isWordChar_eq_false_iff.mp hc) ih

/-! ## Sanitized texts -/

theorem toLower_of_capital (h : 'A' ≤ c ∧ c ≤ 'Z') : c.toLower = Char.ofNat (c.toNat + 32) := by
  have hletters : ∀ n : Fin 26,
      (Char.ofNat (65 + n.val)).toLower = Char.ofNat (65 + n.val + 32) := by decide
  have hlow : 65 ≤ c.toNat := h.1
  have hhigh : c.toNat ≤ 90 := h.2
  have hc := hletters ⟨c.toNat - 65, by omega⟩
  rwa [Nat.add_sub_cancel' hlow, Char.ofNat_toNat] at hc

theorem toLower_of_not_capital (h : ¬ ('A' ≤ c ∧ c ≤ 'Z')) : c.toLower = c := dif_neg h

theorem not_capital_of_plain (hc : IsPlainChar c) : ¬ ('A' ≤ c ∧ c ≤ 'Z') := by
  rintro ⟨hlow, hhigh⟩
  have hlow : 65 ≤ c.toNat := hlow
  have hhigh : c.toNat ≤ 90 := hhigh
  rcases hc with ⟨h, -⟩ | ⟨-, h⟩
  · have h : 97 ≤ c.toNat := h
    omega
  · have h : c.toNat ≤ 57 := h
    omega

theorem lowerCase_of_not_capital (hkelvin : c ≠ '\u212A') (hdotted : c ≠ '\u0130')
    (h : ¬ ('A' ≤ c ∧ c ≤ 'Z')) : lowerCase c = [c] := by
  rw [lowerCase, if_neg hkelvin, if_neg hdotted, toLower_of_not_capital h]

theorem lowerCase_of_plain (h : IsPlainChar c) : lowerCase c = [c] := by
  refine lowerCase_of_not_capital ?_ ?_ (not_capital_of_plain h)
  · rintro rfl
    exact absurd h (by decide)
  · rintro rfl
    exact absurd h (by decide)

theorem lowerCase_of_capital (h : 'A' ≤ c ∧ c ≤ 'Z') :
    lowerCase c = [Char.ofNat (c.toNat + 32)] := by
  rw [lowerCase, if_neg, if_neg, toLower_of_capital h]
  · rintro rfl
    exact absurd h (by decide)
  · rintro rfl
    exact absurd h (by decide)

theorem lowers_lowerCase (c : Char) : Lowers c (lowerCase c) := by
  by_cases hkelvin : c = '\u212A'
  · exact hkelvin ▸ .kelvinSign
  by_cases hdotted : c = '\u0130'
  · exact hdotted ▸ .dottedI
  by_cases hcapital : 'A' ≤ c ∧ c ≤ 'Z'
  · rw [lowerCase_of_capital hcapital]
    exact .capital hcapital.1 hcapital.2
  rw [lowerCase_of_not_capital hkelvin hdotted hcapital]
  by_cases hplain : IsPlainChar c
  · exact .plain hplain
  · exact .other hplain hcapital hkelvin hdotted (List.cons_ne_nil c []) (by simpa using hplain)

/-- A lower case is the computed one, or else both of them are gaps. -/
theorem Lowers.eq_or_gap (h : Lowers c u) : u = lowerCase c ∨
    (u ≠ [] ∧ ∀ d ∈ u, isWordChar d = false) ∧
      lowerCase c ≠ [] ∧ ∀ d ∈ lowerCase c, isWordChar d = false := by
  cases h with
  | plain hc => exact .inl (lowerCase_of_plain hc).symm
  | capital hlow hhigh => exact .inl (lowerCase_of_capital ⟨hlow, hhigh⟩).symm
  | kelvinSign => exact .inl rfl
  | dottedI => exact .inl rfl
  | other hplain hcapital hkelvin hdotted hne hgap =>
    right
    rw [lowerCase_of_not_capital hkelvin hdotted hcapital]
    exact ⟨⟨hne, fun d hd => isWordChar_eq_false_iff.mpr (hgap d hd)⟩, List.cons_ne_nil c [],
      by simpa using isWordChar_eq_false_iff.mpr hplain⟩

theorem words_across_gap (hne : u ≠ []) (hu : ∀ d ∈ u, isWordChar d = false) (x y : Text) :
    words (x ++ (u ++ y)) = words x ++ words y := by
  rw [words_append, words_gap hu]
  rw [List.head?_append_of_ne_nil _ hne]
  exact fun d hd => hu d (List.mem_of_mem_head? hd)

/-- The words are those of any lower case, in front of which there may be more text. -/
theorem words_flatten {lower : List Text} (h : List.Forall₂ Lowers t lower) (x : Text) :
    words (x ++ lower.flatten) = words (x ++ t.flatMap lowerCase) := by
  induction h generalizing x with
  | nil => rfl
  | cons hc _ ih =>
    rw [List.flatten_cons, List.flatMap_cons]
    rcases hc.eq_or_gap with rfl | ⟨⟨hne, hgap⟩, hne', hgap'⟩
    · rw [← List.append_assoc, ih, List.append_assoc]
    · rw [words_across_gap hne hgap, words_across_gap hne' hgap',
        ← List.nil_append (List.flatten _), ih]
      rfl

theorem sanitizes_iff : Sanitizes t value ↔ value = joinedWords t := by
  constructor
  · rintro ⟨lower, words, hlower, hruns, rfl⟩
    rw [joinedWords, ← List.nil_append (t.flatMap lowerCase), ← words_flatten hlower,
      List.nil_append, hruns.words_eq]
  · rintro rfl
    refine ⟨t.map lowerCase, _, ?_, runs_words _, ?_⟩
    · rw [List.forall₂_map_right_iff, List.forall₂_same]
      exact fun c _ => lowers_lowerCase c
    · rw [joinedWords, List.flatMap_def]

end AnimationScope.Naming
