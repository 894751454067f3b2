import AnimationScope.Proofs.Identifiers
import AnimationScope.Proofs.Placeholders

/-!
# Usable names from patterns

Every part of a pattern brings items of an identifier, so that a name from a pattern with
a local name in it is usable unless it spells a keyword or a digit comes to its front.
Only a file name or a hash brings such a digit.
-/

namespace AnimationScope.Naming

open Animation

/-- The characters outside of the placeholders are letters, underscores and hyphens. -/
def Pattern.IsPlain (p : Pattern) : Prop :=
  ∀ c, .literal c ∈ p → c.isAlpha = true ∨ c = '_' ∨ c = '-'

/-- A file name or a hash comes first or behind a single hyphen, and a digit begins it. -/
def Pattern.DigitInFront (p : Pattern) (name path : Text) : Prop :=
  ∃ (front rest : Pattern) (s : Segment) (d : Char) (r : Text),
    p = front ++ s :: rest ∧ (s = .fileName ∨ ∃ n, s = .hash n) ∧
    (front.fill name path = [] ∨ front.fill name path = ['-']) ∧
    s.fill name path = d :: r ∧ d.isDigit = true

variable {p : Pattern} {s : Segment} {name path t : Text} {c : Char}

/-! ## Segments -/

theorem isAlphanum_of_mem_hash {n : HashLength} (hc : c ∈ (Segment.hash n).fill name path) :
    c.isAlphanum = true := by
  have hdigits : ∀ d ∈ Text.hexDigits, d.isAlphanum = true := List.all_eq_true.mp (by decide)
  exact hdigits c (Digest.mem_hexDigits_of_mem_hexDigest (List.mem_of_mem_take hc))

theorem isIdentTail_segment (hp : p.IsPlain) (hname : isCustomIdent name = true) (hs : s ∈ p)
    (path : Text) : isIdentTail (s.fill name path) = true := by
  cases s with
  | literal c =>
    apply isIdentTail_of_plain
    intro d hd
    obtain rfl := List.mem_singleton.mp hd
    rcases hp d hs with h | h
    · exact .inl (by simp [Char.isAlphanum, h])
    · exact .inr h
  | fileName => exact isIdentTail_joinedWords _
  | localName => exact isIdentTail_of_isCustomIdent hname
  | hash n => exact isIdentTail_of_plain fun c hc => .inl (isAlphanum_of_mem_hash hc)

theorem eq_fileName_or_hash (hp : p.IsPlain) (hname : isCustomIdent name = true) (hs : s ∈ p)
    (hfill : s.fill name path = c :: t) (hc : c.isDigit = true) :
    s = .fileName ∨ ∃ n, s = .hash n := by
  cases s with
  | literal d =>
    obtain rfl : d = c := (List.cons.inj hfill).1
    have hstart : Css.isNameStart d = false := by
      rw [Bool.eq_false_iff]
      intro h
      rw [Css.isDigit_of_isNameStart h] at hc
      cases hc
    rcases hp d hs with h | rfl | rfl
    · simp [Css.isNameStart, h] at hstart
    · cases hc
    · cases hc
  | fileName => exact .inl rfl
  | localName =>
    have hfill : name = c :: t := hfill
    have htail := isIdentTail_of_isCustomIdent hname
    have hdigit : BeginsWithDigit name := hfill ▸ .first t hc
    exact absurd hdigit ((isCustomIdent_iff_of_isIdentTail htail).mp hname).2.2
  | hash n => exact .inr ⟨n, rfl⟩

theorem exists_behind_hyphen (hname : isCustomIdent name = true)
    (hfill : s.fill name path = '-' :: t) :
    t = [] ∨ ∃ d r, t = d :: r ∧ d.isDigit = false := by
  cases s with
  | literal d => exact .inl (List.cons.inj hfill).2.symm
  | fileName =>
    have hmem : '-' ∈ Segment.fileName.fill name path := hfill ▸ List.mem_cons_self
    rcases mem_joinedWords hmem with h | h <;> cases h
  | localName =>
    have hfill : name = '-' :: t := hfill
    have htail := isIdentTail_of_isCustomIdent hname
    obtain ⟨-, hne, hdigit⟩ := (isCustomIdent_iff_of_isIdentTail htail).mp hname
    rcases t with _ | ⟨d, r⟩
    · exact .inl rfl
    · rw [hfill, beginsWithDigit_hyphen] at hdigit
      exact .inr ⟨d, r, rfl, by simpa using hdigit⟩
  | hash n =>
    have hmem : '-' ∈ (Segment.hash n).fill name path := hfill ▸ List.mem_cons_self
    exact absurd (isAlphanum_of_mem_hash hmem) (by decide)

/-! ## Whole names -/

namespace Pattern

theorem fill_cons (s : Segment) (p : Pattern) (name path : Text) :
    fill (s :: p) name path = s.fill name path ++ p.fill name path := rfl

theorem isIdentTail_fill (hp : p.IsPlain) (hname : isCustomIdent name = true) (path : Text) :
    isIdentTail (p.fill name path) = true := by
  induction p with
  | nil => rfl
  | cons s p ih =>
    have hs := isIdentTail_segment hp hname List.mem_cons_self path
    rw [fill_cons, isIdentTail_append hs]
    exact ih fun c hc => hp c (List.mem_cons_of_mem _ hc)

theorem exists_of_fill_eq_cons (h : p.fill name path = c :: t) :
    ∃ (front rest : Pattern) (s : Segment) (r : Text), p = front ++ s :: rest ∧
      front.fill name path = [] ∧ s.fill name path = c :: r ∧ t = r ++ rest.fill name path := by
  induction p with
  | nil => cases h
  | cons s p ih =>
    rw [fill_cons] at h
    cases hs : s.fill name path with
    | nil =>
      rw [hs, List.nil_append] at h
      obtain ⟨front, rest, s', r, rfl, hfront, hfill, ht⟩ := ih h
      exact ⟨s :: front, rest, s', r, rfl, by rw [fill_cons, hs, hfront]; rfl, hfill, ht⟩
    | cons d r =>
      rw [hs, List.cons_append] at h
      obtain ⟨rfl, rfl⟩ := List.cons.inj h
      exact ⟨[], p, s, r, rfl, rfl, hs, rfl⟩

theorem beginsWithDigit_fill_iff (hp : p.IsPlain) (hname : isCustomIdent name = true) :
    BeginsWithDigit (p.fill name path) ↔ p.DigitInFront name path := by
  constructor
  · intro h
    generalize hfill : p.fill name path = t at h
    cases h with
    | @first d r hd =>
      obtain ⟨front, rest, s, r, rfl, hfront, hs, -⟩ := exists_of_fill_eq_cons hfill
      have hkind := eq_fileName_or_hash hp hname (by simp) hs hd
      exact ⟨front, rest, s, d, r, rfl, hkind, .inl hfront, hs, hd⟩
    | @second d r hd =>
      obtain ⟨front, rest, s, u, rfl, hfront, hs, hrest⟩ := exists_of_fill_eq_cons hfill
      -- The digit belongs to another segment, as none has it right behind its own hyphen.
      rcases exists_behind_hyphen hname hs with rfl | ⟨e, v, rfl, he⟩
      · obtain ⟨front', rest', s', v, rfl, hfront', hs', -⟩ := exists_of_fill_eq_cons hrest.symm
        refine ⟨front ++ s :: front', rest', s', d, v, by simp,
          eq_fileName_or_hash hp hname (by simp) hs' hd, .inr ?_, hs', hd⟩
        rw [fill_append, fill_cons, hfront, hfront', hs]
        rfl
      · obtain ⟨rfl, -⟩ := List.cons.inj hrest
        rw [hd] at he
        cases he
  · rintro ⟨front, rest, s, d, r, rfl, -, hfront, hs, hd⟩
    rw [fill_append, fill_cons, hs, List.cons_append]
    rcases hfront with hfront | hfront
    · rw [hfront]
      exact .first _ hd
    · rw [hfront]
      exact .second _ hd

theorem isCustomIdent_fill_iff (hp : p.IsPlain) (hlocal : .localName ∈ p)
    (hname : isCustomIdent name = true) (path : Text) :
    isCustomIdent (p.fill name path) = true ↔ ¬ p.DigitInFront name path := by
  obtain ⟨front, rest, rfl⟩ := List.append_of_mem hlocal
  have htail := isIdentTail_of_isCustomIdent hname
  obtain ⟨hnil, hhyphen, -⟩ := (isCustomIdent_iff_of_isIdentTail htail).mp hname
  have hfill : fill (front ++ .localName :: rest) name path =
      fill front name path ++ (name ++ fill rest name path) := by
    rw [fill_append, fill_cons]
    rfl
  rw [isCustomIdent_iff_of_isIdentTail (isIdentTail_fill hp hname path),
    beginsWithDigit_fill_iff hp hname]
  refine ⟨fun h => h.2.2, fun h => ⟨?_, ?_, h⟩⟩
  · simp [hfill, hnil]
  · rw [hfill]
    simp [List.append_eq_singleton_iff, hnil, hhyphen]

/-- A name from a plain pattern with a local name in it is usable unless it spells a keyword
or a file name or a hash brings a digit to its front. -/
theorem classify_generate {σ : Type} (p : Pattern) (name path source : Text) (state : σ)
    (hplain : p.IsPlain) (hlocal : .localName ∈ p) (hname : classify name = .valid) :
    let fresh := ((Generator.ofPattern p).generate name path source state).1
    (classify fresh = .valid ↔ fresh ∉ reservedNames ∧ ¬ p.DigitInFront name path) ∧
    (classify fresh = .invalid ↔ p.DigitInFront name path) := by
  have hident := isCustomIdent_fill_iff hplain hlocal (isCustomIdent_of_classify hname) path
  intro fresh
  constructor
  · rw [classify_eq_valid_iff, ← hident]
    rfl
  · rw [classify_eq_invalid_iff, ← not_not (a := p.DigitInFront name path), ← hident,
      Bool.not_eq_true]
    rfl

/-- The file name of an ordinary path brings no digit to the front, and that of a path with a
number does. -/
theorem digit_of_numbered_path :
    let p : Pattern := [.fileName, .literal '_', .literal '_', .localName]
    (Pattern.read "[name]__[local]".toList = .ok p ∧ p.IsPlain ∧ .localName ∈ p ∧
      classify "fade".toList = .valid) ∧
    ¬ p.DigitInFront "fade".toList "src/Button.module.css".toList ∧
    p.DigitInFront "fade".toList "src/404.css".toList := by
  intro p
  have hplain : p.IsPlain := by
    intro c hc
    have hc : c = '_' := by simpa [p] using hc
    exact .inr (.inl hc)
  have hvalid : classify "fade".toList = .valid := by decide
  have hclass (path : Text) :=
    (classify_generate p "fade".toList path [] () hplain (by decide) hvalid).2
  refine ⟨⟨by decide, hplain, by decide, hvalid⟩, ?_, ?_⟩
  · exact (hclass "src/Button.module.css".toList).not.mp (by decide)
  · exact (hclass "src/404.css".toList).mp (by decide)

/-- A pattern may make a keyword of a usable name, and a file name may bring a digit to
the front. -/
theorem unusable_from_plain :
    (Pattern.read "e[local]".toList = .ok [.literal 'e', .localName] ∧
      IsPlain [.literal 'e', .localName] ∧ classify "ase".toList = .valid ∧
      classify ((Generator.ofPattern [.literal 'e', .localName]).generate
        "ase".toList "a.css".toList [] ()).1 = .reserved) ∧
    (Pattern.read "[name][local]".toList = .ok [.fileName, .localName] ∧
      IsPlain [.fileName, .localName] ∧ classify "a".toList = .valid ∧
      classify ((Generator.ofPattern [.fileName, .localName]).generate
        "a".toList "1.css".toList [] ()).1 = .invalid) := by
  refine ⟨⟨by decide, ?_, by decide, by decide⟩, by decide, ?_, by decide, by decide⟩
  · intro c hc
    obtain rfl : c = 'e' := by simpa using hc
    exact .inl rfl
  · intro c hc
    simp at hc

end Pattern

end AnimationScope.Naming
