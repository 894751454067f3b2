import AnimationScope.Animation.Name
import AnimationScope.Proofs.FileWords

/-!
# The grammar of usable names

An identifier is a head with any number of items behind it. The names that are found to be
custom identifiers are just those of this grammar, so that a name may go on with any items
as long as it does not come to spell a keyword.
-/

namespace AnimationScope

open Css Animation Naming

theorem Css.isDigit_of_isNameStart {c : Char} (h : isNameStart c = true) : c.isDigit = false := by
  rw [Bool.eq_false_iff]
  intro hd
  obtain ⟨hzero, hnine⟩ := Bool.and_eq_true_iff.mp hd
  have hzero : 48 ≤ c.val := of_decide_eq_true hzero
  have hnine : c.val ≤ 57 := of_decide_eq_true hnine
  simp only [isNameStart, Bool.or_eq_true, beq_iff_eq] at h
  rcases h with ((h | rfl) | rfl) | h
  · rcases Bool.or_eq_true_iff.mp h with h | h
    · have hupper : 65 ≤ c.val := (of_decide_eq_true h).1
      exact absurd (UInt32.le_trans hupper hnine) (by decide)
    · have hlower : 97 ≤ c.val := of_decide_eq_true (Bool.and_eq_true_iff.mp h).1
      exact absurd (UInt32.le_trans hlower hnine) (by decide)
  · exact absurd hnine (by decide)
  · exact absurd hzero (by decide)
  · have hnonAscii : 0x80 ≤ c.val.toNat := of_decide_eq_true h
    have hle : c.val.toNat ≤ 57 := UInt32.le_iff_toNat_le.mp hnine
    omega

namespace Animation

/-! ## Items -/

/-- An identifier character, or a backslash with any one character behind it. -/
inductive IsItem : Text → Prop
  | char {c : Char} (hc : c.isAlphanum = true ∨ c = '_' ∨ c = '-' ∨ 0x80 ≤ c.toNat) : IsItem [c]
  | escape (c : Char) : IsItem ['\\', c]

/-- An item that is neither a digit nor a hyphen. -/
def IsStart (i : Text) : Prop := IsItem i ∧ ∀ c, i = [c] → c.isDigit = false ∧ c ≠ '-'

/-- Two hyphens, or an item to start with behind at most one hyphen. -/
inductive IsHead : Text → Prop
  | hyphens : IsHead "--".toList
  | bare {i : Text} (hi : IsStart i) : IsHead i
  | hyphen {i : Text} (hi : IsStart i) : IsHead ('-' :: i)

/-- A head with any number of items behind it. -/
def IsIdentifier (t : Text) : Prop :=
  ∃ (head : Text) (items : List Text),
    IsHead head ∧ (∀ i ∈ items, IsItem i) ∧ t = head ++ items.flatten

variable {c : Char} {i t u : Text} {items : List Text}

theorem identChar_iff :
    (c.isAlphanum || c == '_' || c == '-' || isNonAscii c) = true ↔
      c.isAlphanum = true ∨ c = '_' ∨ c = '-' ∨ 0x80 ≤ c.toNat := by
  simp [isNonAscii, or_assoc]

theorem ne_backslash_of_ident
    (h : (c.isAlphanum || c == '_' || c == '-' || isNonAscii c) = true) : c ≠ '\\' := by
  rintro rfl
  exact absurd h (by decide)

theorem isIdentTail_cons (hc : c ≠ '\\') :
    isIdentTail (c :: t) =
      ((c.isAlphanum || c == '_' || c == '-' || isNonAscii c) && isIdentTail t) := by
  rw [isIdentTail]
  rintro d r rfl
  exact absurd rfl hc

theorem IsItem.isIdentTail_append (h : IsItem i) (t : Text) :
    isIdentTail (i ++ t) = isIdentTail t := by
  cases h with
  | char hc =>
    have hident := identChar_iff.mpr hc
    rw [List.singleton_append, isIdentTail_cons (ne_backslash_of_ident hident), hident,
      Bool.true_and]
  | escape c => rfl

theorem isIdentTail_flatten_append (h : ∀ i ∈ items, IsItem i) (t : Text) :
    isIdentTail (items.flatten ++ t) = isIdentTail t := by
  induction items with
  | nil => rfl
  | cons i items ih =>
    obtain ⟨hi, hitems⟩ := List.forall_mem_cons.mp h
    rw [List.flatten_cons, List.append_assoc, hi.isIdentTail_append, ih hitems]

theorem exists_items (h : isIdentTail t = true) :
    ∃ items : List Text, (∀ i ∈ items, IsItem i) ∧ t = items.flatten := by
  fun_induction isIdentTail t with
  | case1 => exact ⟨[], by simp, rfl⟩
  | case2 c t ih =>
    obtain ⟨items, hitems, rfl⟩ := ih h
    exact ⟨['\\', c] :: items, List.forall_mem_cons.mpr ⟨.escape c, hitems⟩, rfl⟩
  | case3 c t _ ih =>
    obtain ⟨hc, ht⟩ := Bool.and_eq_true_iff.mp h
    obtain ⟨items, hitems, rfl⟩ := ih ht
    exact ⟨[c] :: items, List.forall_mem_cons.mpr ⟨.char (identChar_iff.mp hc), hitems⟩, rfl⟩

theorem isIdentTail_iff :
    isIdentTail t = true ↔ ∃ items : List Text, (∀ i ∈ items, IsItem i) ∧ t = items.flatten := by
  refine ⟨exists_items, ?_⟩
  rintro ⟨items, hitems, rfl⟩
  have htail := isIdentTail_flatten_append hitems []
  rwa [List.append_nil] at htail

theorem isIdentTail_append (hu : isIdentTail u = true) (t : Text) :
    isIdentTail (u ++ t) = isIdentTail t := by
  obtain ⟨items, hitems, rfl⟩ := exists_items hu
  exact isIdentTail_flatten_append hitems t

theorem isIdentTail_of_plain (h : ∀ c ∈ t, c.isAlphanum = true ∨ c = '_' ∨ c = '-') :
    isIdentTail t = true := by
  refine isIdentTail_iff.mpr ⟨t.map ([·]), ?_, by simp [← List.flatMap_def]⟩
  intro i hi
  obtain ⟨c, hc, rfl⟩ := List.mem_map.mp hi
  rcases h c hc with h | h | h
  · exact .char (.inl h)
  · exact .char (.inr (.inl h))
  · exact .char (.inr (.inr (.inl h)))

/-! ## Heads -/

theorem hasIdentStart_cons (hc : c ≠ '\\') :
    hasIdentStart (c :: t) = (c.isAlpha || c == '_' || isNonAscii c) := by
  rw [hasIdentStart]
  rintro d r rfl
  exact absurd rfl hc

theorem hasIdentStart_head (h : hasIdentStart t = true) :
    ∃ c r, t = c :: r ∧ (isNameStart c = true ∨ c = '\\' ∧ r ≠ []) := by
  unfold hasIdentStart at h
  split at h
  · exact ⟨_, _, rfl, .inr ⟨rfl, by simp⟩⟩
  · next c r _ =>
    simp only [Bool.or_eq_true, beq_iff_eq] at h
    refine ⟨c, r, rfl, .inl ?_⟩
    rcases h with (h | rfl) | h
    · simp [isNameStart, h]
    · decide
    · simp [isNameStart, h]
  · cases h

/-- A character that goes on an identifier begins one, unless it is a digit or a hyphen. -/
theorem hasIdentStart_of_isIdentTail (h : isIdentTail (c :: t) = true) (hc : c ≠ '-') :
    hasIdentStart (c :: t) = !c.isDigit := by
  by_cases hback : c = '\\'
  · subst hback
    cases t with
    | nil => cases h
    | cons d t => rfl
  cases hd : c.isDigit with
  | true =>
    rw [Bool.not_true, Bool.eq_false_iff]
    intro hstart
    obtain ⟨d, r, heq, hname | ⟨rfl, -⟩⟩ := hasIdentStart_head hstart
    · obtain ⟨rfl, -⟩ := List.cons.inj heq
      rw [isDigit_of_isNameStart hname] at hd
      cases hd
    · exact hback (List.cons.inj heq).1
  | false =>
    have halphanum : c.isAlphanum = (c.isAlpha || c.isDigit) := rfl
    rw [isIdentTail_cons hback, Bool.and_eq_true, identChar_iff, halphanum, hd, Bool.or_false] at h
    rw [hasIdentStart_cons hback]
    simpa [isNonAscii, hc, or_assoc] using h.1

theorem IsStart.hasIdentStart_append (h : IsStart i) (t : Text) :
    hasIdentStart (i ++ t) = true ∧ (i ++ t).head? ≠ some '-' := by
  obtain ⟨hi, hstart⟩ := h
  cases hi with
  | @char c hc =>
    obtain ⟨hdigit, hhyphen⟩ := hstart c rfl
    have htail : isIdentTail (c :: []) = true := (IsItem.char hc).isIdentTail_append []
    have hback := ne_backslash_of_ident (identChar_iff.mpr hc)
    have hone := hasIdentStart_of_isIdentTail htail hhyphen
    rw [hdigit] at hone
    rw [hasIdentStart_cons hback] at hone
    exact ⟨(hasIdentStart_cons hback).trans hone, fun hhead => hhyphen (Option.some.inj hhead)⟩
  | escape c => exact ⟨rfl, by simp⟩

theorem exists_start (hstart : hasIdentStart t = true) (htail : isIdentTail t = true) :
    ∃ (i : Text) (items : List Text),
      IsStart i ∧ (∀ j ∈ items, IsItem j) ∧ t = i ++ items.flatten := by
  obtain ⟨items, hitems, rfl⟩ := exists_items htail
  cases items with
  | nil => cases hstart
  | cons i items =>
    obtain ⟨hi, hitems⟩ := List.forall_mem_cons.mp hitems
    refine ⟨i, items, ⟨hi, ?_⟩, hitems, rfl⟩
    rintro c rfl
    have hhyphen : c ≠ '-' := by
      rintro rfl
      cases hstart
    have hdigit := hasIdentStart_of_isIdentTail htail hhyphen
    exact ⟨by simpa using hdigit.symm.trans hstart, hhyphen⟩

theorem isCustomIdent_bare (h : t.head? ≠ some '-') :
    isCustomIdent t = (hasIdentStart t && isIdentTail t) := by
  rw [isCustomIdent]
  · rintro r rfl
    exact h rfl
  · rintro r rfl
    exact h rfl

theorem isCustomIdent_hyphen (h : t.head? ≠ some '-') :
    isCustomIdent ('-' :: t) = (hasIdentStart t && isIdentTail t) := by
  rw [isCustomIdent]
  rintro r rfl
  exact h rfl

theorem isIdentTail_of_isCustomIdent (h : isCustomIdent t = true) : isIdentTail t = true := by
  unfold isCustomIdent at h
  split at h
  · exact h
  · exact (Bool.and_eq_true_iff.mp h).2
  · exact (Bool.and_eq_true_iff.mp h).2

/-- A digit comes first, or second behind a hyphen. -/
inductive BeginsWithDigit : Text → Prop
  | first {d : Char} (r : Text) (hd : d.isDigit = true) : BeginsWithDigit (d :: r)
  | second {d : Char} (r : Text) (hd : d.isDigit = true) : BeginsWithDigit ('-' :: d :: r)

theorem beginsWithDigit_cons (hc : c ≠ '-') : BeginsWithDigit (c :: t) ↔ c.isDigit = true := by
  constructor
  · rintro (⟨-, hd⟩ | -)
    · exact hd
    · exact absurd rfl hc
  · exact .first t

theorem beginsWithDigit_hyphen : BeginsWithDigit ('-' :: c :: t) ↔ c.isDigit = true := by
  constructor
  · rintro (⟨-, hd⟩ | ⟨-, hd⟩)
    · cases hd
    · exact hd
  · exact .second t

/-- Items make an identifier unless there is no more than a hyphen or a digit begins them. -/
theorem isCustomIdent_iff_of_isIdentTail (h : isIdentTail t = true) :
    isCustomIdent t = true ↔ t ≠ [] ∧ t ≠ ['-'] ∧ ¬ BeginsWithDigit t := by
  rcases t with _ | ⟨c, t⟩
  · simp [isCustomIdent, hasIdentStart]
  by_cases hc : c = '-'
  · subst hc
    have htail : isIdentTail t = true := by rwa [isIdentTail_cons (by decide)] at h
    rcases t with _ | ⟨d, t⟩
    · simp [isCustomIdent, hasIdentStart]
    rw [beginsWithDigit_hyphen]
    by_cases hd : d = '-'
    · subst hd
      have hident : isCustomIdent ('-' :: '-' :: t) = true := by
        rwa [isIdentTail_cons (by decide)] at htail
      exact iff_of_true hident ⟨by simp, by simp, by decide⟩
    · rw [isCustomIdent_hyphen (by simpa using hd), hasIdentStart_of_isIdentTail htail hd, htail]
      simp
  · rw [isCustomIdent_bare (by simpa using hc), hasIdentStart_of_isIdentTail h hc, h,
      beginsWithDigit_cons hc]
    simp [hc]

theorem isCustomIdent_iff : isCustomIdent t = true ↔ IsIdentifier t := by
  constructor
  · intro h
    unfold isCustomIdent at h
    -- Each branch of the check is a kind of head.
    split at h
    · obtain ⟨items, hitems, rfl⟩ := exists_items h
      exact ⟨_, items, .hyphens, hitems, rfl⟩
    · obtain ⟨hstart, htail⟩ := Bool.and_eq_true_iff.mp h
      obtain ⟨i, items, hi, hitems, rfl⟩ := exists_start hstart htail
      exact ⟨_, items, .hyphen hi, hitems, rfl⟩
    · obtain ⟨hstart, htail⟩ := Bool.and_eq_true_iff.mp h
      obtain ⟨i, items, hi, hitems, rfl⟩ := exists_start hstart htail
      exact ⟨i, items, .bare hi, hitems, rfl⟩
  · rintro ⟨head, items, hhead, hitems, rfl⟩
    have htail := isIdentTail_iff.mpr ⟨items, hitems, rfl⟩
    have hbehind : ∀ i, IsStart i → isIdentTail (i ++ items.flatten) = true := fun i hi =>
      (hi.1.isIdentTail_append _).trans htail
    cases hhead with
    | hyphens => exact htail
    | bare hi =>
      obtain ⟨hstart, hhead⟩ := hi.hasIdentStart_append items.flatten
      rw [isCustomIdent_bare hhead, hstart, hbehind _ hi]
      rfl
    | hyphen hi =>
      obtain ⟨hstart, hhead⟩ := hi.hasIdentStart_append items.flatten
      rw [List.cons_append, isCustomIdent_hyphen hhead, hstart, hbehind _ hi]
      rfl

theorem IsIdentifier.append (h : IsIdentifier t) (hu : isIdentTail u = true) :
    IsIdentifier (t ++ u) := by
  obtain ⟨head, items, hhead, hitems, rfl⟩ := h
  obtain ⟨more, hmore, rfl⟩ := exists_items hu
  refine ⟨head, items ++ more, hhead, List.forall_mem_append.mpr ⟨hitems, hmore⟩, ?_⟩
  rw [List.append_assoc, List.flatten_append]

/-! ## Usable names -/

theorem classify_of_isIdentifier (h : IsIdentifier t) :
    classify t = if t ∈ reservedNames then .reserved else .valid := by
  rw [classify, isCustomIdent_iff.mpr h, if_pos rfl]

theorem classify_eq_reserved_iff : classify t = .reserved ↔ t ∈ reservedNames := by
  rw [classify]
  split_ifs <;> simp_all

theorem classify_eq_valid_iff :
    classify t = .valid ↔ t ∉ reservedNames ∧ isCustomIdent t = true := by
  rw [classify]
  split_ifs <;> simp_all

theorem isCustomIdent_of_classify (h : classify t = .valid) : isCustomIdent t = true :=
  (classify_eq_valid_iff.mp h).2

/-- The keywords are identifiers, so that the names at fault are those that are none. -/
theorem classify_eq_invalid_iff : classify t = .invalid ↔ isCustomIdent t = false := by
  have hkeywords : ∀ w ∈ reservedNames, isCustomIdent w = true := by decide
  rw [classify]
  split_ifs with hmem hident
  · simp [hkeywords t hmem]
  · simp [hident]
  · simp [hident]

theorem not_mem_reservedNames_of_underscore (h : t.head? = some '_') : t ∉ reservedNames := by
  have hall : ∀ w ∈ reservedNames, w.head? ≠ some '_' := by decide
  exact fun hmem => hall t hmem h

theorem isIdentTail_joinedWords (t : Text) : isIdentTail (joinedWords t) = true := by
  apply isIdentTail_of_plain
  intro c hc
  rcases mem_joinedWords hc with hword | rfl
  · rcases Bool.or_eq_true_iff.mp hword with hlower | hdigit
    · have halpha : c.isAlpha = true := Bool.or_eq_true_iff.mpr (.inr hlower)
      exact .inl (by simp [Char.isAlphanum, halpha])
    · exact .inl (by simp [Char.isAlphanum, hdigit])
  · exact .inr (.inl rfl)

theorem classify_defaultName (h : classify t = .valid) (path : Text) :
    classify (defaultName t path) = .valid := by
  have hmark : IsIdentifier "__".toList := isCustomIdent_iff.mp (by decide)
  have hname : isIdentTail t = true := isIdentTail_of_isCustomIdent (isCustomIdent_of_classify h)
  have hident : IsIdentifier (defaultName t path) :=
    ((hmark.append (isIdentTail_joinedWords _)).append (by decide)).append hname
  rw [classify_of_isIdentifier hident, if_neg (not_mem_reservedNames_of_underscore rfl)]

/-- The grammar decides which names are usable. A usable name that goes on with items is
usable again unless it comes to spell a keyword, and its default name always is. -/
theorem classify_grammar {σ : Type} (t : Text) :
    (classify t = .reserved ↔ t ∈ reservedNames) ∧
    (classify t = .valid ↔ t ∉ reservedNames ∧ IsIdentifier t) ∧
    (classify t = .invalid ↔ t ∉ reservedNames ∧ ¬ IsIdentifier t) ∧
    (classify t = .valid → ∀ items : List Text, (∀ i ∈ items, IsItem i) →
      classify (t ++ items.flatten) =
        if t ++ items.flatten ∈ reservedNames then .reserved else .valid) ∧
    (classify t = .valid → ∀ (path source : Text) (s : σ),
      classify (Generator.default.generate t path source s).1 = .valid) := by
  refine ⟨classify_eq_reserved_iff, ?_, ?_, fun h items hitems => ?_,
    fun h path _ _ => classify_defaultName h path⟩
  · rw [classify_eq_valid_iff, isCustomIdent_iff]
  · rw [classify, ← isCustomIdent_iff]
    split_ifs <;> simp_all
  · have htail := isIdentTail_iff.mpr ⟨items, hitems, rfl⟩
    have hident := isCustomIdent_iff.mp (isCustomIdent_of_classify h)
    exact classify_of_isIdentifier (hident.append htail)

/-- A usable name may come to spell a keyword. -/
theorem item_completes_keyword :
    ¬ ∀ t i : Text, classify t = .valid → IsItem i → classify (t ++ i) = .valid := by
  intro h
  have hease := h "eas".toList ['e'] (by decide) (.char (.inl rfl))
  exact absurd hease (by decide)

end Animation

end AnimationScope
