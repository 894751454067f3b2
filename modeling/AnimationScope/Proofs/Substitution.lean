import AnimationScope.Proofs.References
import Mathlib.Data.List.Chain

/-!
# Substitution of names in a value

The lexemes of a value are divided into words and gaps in one way only: a word is a
longest run of lexemes that are no separators, and an exclamation mark begins a word.
Renaming puts the scoped names in the place of all words that are local names at once,
and keeps all the rest of the value.
-/

namespace AnimationScope.Animation

open Css

/-! ## Words and gaps -/

def IsGap (ls : List Lexeme) : Prop :=
  ∀ l ∈ ls, l.kind = .whitespace ∨ l.kind = .comma ∨ l.kind = .comment

structure IsWord (ls : List Lexeme) : Prop where
  ne_nil : ls ≠ []
  solid : ∀ l ∈ ls, ¬ (l.kind = .whitespace ∨ l.kind = .comma ∨ l.kind = .comment)
  /-- An exclamation mark stands at the beginning only. -/
  bang : ∀ l ∈ ls.tail, l.kind ≠ .bang

/-- A gap, and words with the gap behind each of them. -/
structure Division where
  lead : List Lexeme
  words : List (List Lexeme × List Lexeme)

namespace Division

def lexemes (d : Division) : List Lexeme := d.lead ++ d.words.flatMap fun p => p.1 ++ p.2

structure Divides (d : Division) (ls : List Lexeme) : Prop where
  lexemes : d.lexemes = ls
  lead : IsGap d.lead
  words : ∀ p ∈ d.words, IsWord p.1 ∧ IsGap p.2
  /-- Words that touch are two because of an exclamation mark. -/
  longest : d.words.IsChain fun p q => p.2 = [] → q.1.head?.map Lexeme.kind = some .bang

/-- The text with scoped names in place of the words that are local names. -/
def substitute (names : NameMap) (d : Division) : Text :=
  Lexeme.join d.lead ++ d.words.flatMap fun p =>
    (names.get? (Lexeme.join p.1)).getD (Lexeme.join p.1) ++ Lexeme.join p.2

def pieces (d : Division) : List Piece :=
  d.lead.map (Piece.gap ·.text) ++ d.words.flatMap fun p =>
    .word (Lexeme.join p.1) :: p.2.map (Piece.gap ·.text)

end Division

theorem separates_iff (l : Lexeme) :
    Piece.separates l.kind = true ↔
      l.kind = .whitespace ∨ l.kind = .comma ∨ l.kind = .comment := by
  cases l.kind <;> simp [Piece.separates]

theorem startsWord_iff (ls : List Lexeme) :
    Piece.startsWord ls = true ↔ ls.head?.map Lexeme.kind = some .bang := by
  cases ls <;> simp [Piece.startsWord]

theorem isGap_cons {l : Lexeme} {ls : List Lexeme} :
    IsGap (l :: ls) ↔ Piece.separates l.kind = true ∧ IsGap ls := by
  rw [separates_iff, IsGap, List.forall_mem_cons, IsGap]

theorem isWord_singleton {l : Lexeme} (h : ¬ Piece.separates l.kind = true) : IsWord [l] where
  ne_nil := List.cons_ne_nil _ _
  solid := by
    rw [separates_iff] at h
    simpa using h
  bang := by simp

theorem isWord_cons {l m : Lexeme} {ls : List Lexeme} :
    IsWord (l :: m :: ls) ↔
      ¬ Piece.separates l.kind = true ∧ m.kind ≠ .bang ∧ IsWord (m :: ls) := by
  rw [separates_iff]
  constructor
  · rintro ⟨-, hsolid, hbang⟩
    rw [List.forall_mem_cons] at hsolid
    rw [List.tail_cons, List.forall_mem_cons] at hbang
    exact ⟨hsolid.1, hbang.1, List.cons_ne_nil _ _, hsolid.2, hbang.2⟩
  · rintro ⟨hl, hm, -, hsolid, hbang⟩
    exact ⟨List.cons_ne_nil _ _, List.forall_mem_cons.mpr ⟨hl, hsolid⟩,
      List.forall_mem_cons.mpr ⟨hm, hbang⟩⟩

namespace Division

/-! ## One lexeme more -/

section

variable {l m : Lexeme} {ls lead w g : List Lexeme} {ps : List (List Lexeme × List Lexeme)}

theorem divides_nil_iff : (⟨[], []⟩ : Division).Divides ls ↔ ls = [] := by
  constructor
  · intro h
    exact h.lexemes.symm
  · rintro rfl
    exact ⟨rfl, by simp [IsGap], by simp, .nil⟩

theorem divides_gap_iff :
    (⟨m :: lead, ps⟩ : Division).Divides (l :: ls) ↔
      m = l ∧ Piece.separates l.kind = true ∧ (⟨lead, ps⟩ : Division).Divides ls := by
  constructor
  · rintro ⟨hlexemes, hlead, hwords, hlongest⟩
    obtain ⟨rfl, hrest⟩ := List.cons.inj hlexemes
    obtain ⟨hm, hlead⟩ := isGap_cons.mp hlead
    exact ⟨rfl, hm, hrest, hlead, hwords, hlongest⟩
  · rintro ⟨rfl, hm, hlexemes, hlead, hwords, hlongest⟩
    exact ⟨congrArg (m :: ·) hlexemes, isGap_cons.mpr ⟨hm, hlead⟩, hwords, hlongest⟩

theorem divides_single_iff :
    (⟨[], ([m], g) :: ps⟩ : Division).Divides (l :: ls) ↔
      m = l ∧ ¬ Piece.separates l.kind = true ∧
        (∀ q ∈ ps.head?, g = [] → Piece.startsWord q.1 = true) ∧
        (⟨g, ps⟩ : Division).Divides ls := by
  constructor
  · rintro ⟨hlexemes, -, hwords, hlongest⟩
    obtain ⟨rfl, hrest⟩ := List.cons.inj hlexemes
    rw [List.forall_mem_cons] at hwords
    obtain ⟨⟨hword, hgap⟩, hwords⟩ := hwords
    obtain ⟨htouch, hlongest⟩ := List.isChain_cons.mp hlongest
    have hm := hword.solid m List.mem_cons_self
    rw [← separates_iff] at hm
    exact ⟨rfl, hm, fun q hq hg => (startsWord_iff _).mpr (htouch q hq hg), hrest, hgap,
      hwords, hlongest⟩
  · rintro ⟨rfl, hm, htouch, hlexemes, hgap, hwords, hlongest⟩
    exact ⟨congrArg (m :: ·) hlexemes, by simp [IsGap],
      List.forall_mem_cons.mpr ⟨⟨isWord_singleton hm, hgap⟩, hwords⟩,
      List.isChain_cons.mpr
        ⟨fun q hq hg => (startsWord_iff _).mp (htouch q hq hg), hlongest⟩⟩

theorem divides_longer_iff {k : Lexeme} :
    (⟨[], (k :: m :: w, g) :: ps⟩ : Division).Divides (l :: ls) ↔
      k = l ∧ ¬ Piece.separates l.kind = true ∧ ¬ Piece.startsWord (m :: w) = true ∧
        (⟨[], (m :: w, g) :: ps⟩ : Division).Divides ls := by
  rw [startsWord_iff]
  constructor
  · rintro ⟨hlexemes, -, hwords, hlongest⟩
    obtain ⟨rfl, hrest⟩ := List.cons.inj hlexemes
    rw [List.forall_mem_cons] at hwords
    obtain ⟨⟨hword, hgap⟩, hwords⟩ := hwords
    obtain ⟨hk, hm, hword⟩ := isWord_cons.mp hword
    exact ⟨rfl, hk, by simpa using hm, hrest, by simp [IsGap],
      List.forall_mem_cons.mpr ⟨⟨hword, hgap⟩, hwords⟩, List.isChain_cons.mpr
        (List.isChain_cons.mp hlongest)⟩
  · rintro ⟨rfl, hk, hm, hlexemes, -, hwords, hlongest⟩
    rw [List.forall_mem_cons] at hwords
    obtain ⟨⟨hword, hgap⟩, hwords⟩ := hwords
    exact ⟨congrArg (k :: ·) hlexemes, by simp [IsGap],
      List.forall_mem_cons.mpr
        ⟨⟨isWord_cons.mpr ⟨hk, by simpa using hm, hword⟩, hgap⟩, hwords⟩,
      List.isChain_cons.mpr (List.isChain_cons.mp hlongest)⟩

/-- The division with a lexeme in front, which lengthens the first gap or the first word,
or is a word of its own. -/
def cons (l : Lexeme) (d : Division) : Division :=
  if Piece.separates l.kind then ⟨l :: d.lead, d.words⟩
  else match d with
    | ⟨[], (w, g) :: ps⟩ =>
      if Piece.startsWord w then ⟨[], ([l], []) :: (w, g) :: ps⟩ else ⟨[], (l :: w, g) :: ps⟩
    | ⟨lead, ps⟩ => ⟨[], ([l], lead) :: ps⟩

theorem cons_gap (hl : Piece.separates l.kind = true) (d : Division) :
    d.cons l = ⟨l :: d.lead, d.words⟩ := if_pos hl

theorem cons_single (hl : ¬ Piece.separates l.kind = true)
    (htouch : ∀ q ∈ ps.head?, g = [] → Piece.startsWord q.1 = true) :
    cons l ⟨g, ps⟩ = ⟨[], ([l], g) :: ps⟩ := by
  unfold cons
  rw [if_neg hl]
  cases g with
  | cons m g => rfl
  | nil =>
    cases ps with
    | nil => rfl
    | cons q ps => exact if_pos (htouch q rfl rfl)

theorem cons_longer (hl : ¬ Piece.separates l.kind = true)
    (hw : ¬ Piece.startsWord w = true) :
    cons l ⟨[], (w, g) :: ps⟩ = ⟨[], (l :: w, g) :: ps⟩ := by
  unfold cons
  rw [if_neg hl]
  exact if_neg hw

end

theorem single_or_longer (d : Division) :
    (∀ q ∈ d.words.head?, d.lead = [] → Piece.startsWord q.1 = true) ∨
      ∃ w g ps, d = ⟨[], (w, g) :: ps⟩ ∧ ¬ Piece.startsWord w = true := by
  obtain ⟨lead, words⟩ := d
  cases lead with
  | cons l lead => exact .inl fun _ _ h => absurd h (List.cons_ne_nil _ _)
  | nil =>
    cases words with
    | nil => exact .inl fun _ h => by cases h
    | cons p ps =>
      by_cases hp : Piece.startsWord p.1 = true
      · left
        rintro q hq -
        obtain rfl := Option.some.inj hq
        exact hp
      · exact .inr ⟨p.1, p.2, ps, rfl, hp⟩

theorem Divides.cons {d : Division} {ls : List Lexeme} (h : d.Divides ls) (l : Lexeme) :
    (d.cons l).Divides (l :: ls) := by
  by_cases hl : Piece.separates l.kind = true
  · rw [cons_gap hl]
    exact divides_gap_iff.mpr ⟨rfl, hl, h⟩
  · obtain htouch | ⟨w, g, ps, rfl, hw⟩ := d.single_or_longer
    · rw [cons_single hl htouch]
      exact divides_single_iff.mpr ⟨rfl, hl, htouch, h⟩
    · rw [cons_longer hl hw]
      cases w with
      | nil => exact absurd rfl (h.words _ List.mem_cons_self).1.ne_nil
      | cons m w => exact divides_longer_iff.mpr ⟨rfl, hl, hw, h⟩

/-- Every division arises in this way. -/
theorem Divides.exists_cons {d : Division} {l : Lexeme} {ls : List Lexeme}
    (h : d.Divides (l :: ls)) : ∃ d₀ : Division, d₀.Divides ls ∧ d = d₀.cons l := by
  match d, h with
  | ⟨m :: lead, ps⟩, h =>
    obtain ⟨rfl, hl, hd₀⟩ := divides_gap_iff.mp h
    exact ⟨_, hd₀, (cons_gap hl ⟨lead, ps⟩).symm⟩
  | ⟨[], []⟩, h => cases divides_nil_iff.mp h
  | ⟨[], ([], g) :: ps⟩, h => exact absurd rfl (h.words _ List.mem_cons_self).1.ne_nil
  | ⟨[], ([m], g) :: ps⟩, h =>
    obtain ⟨rfl, hl, htouch, hd₀⟩ := divides_single_iff.mp h
    exact ⟨_, hd₀, (cons_single hl htouch).symm⟩
  | ⟨[], (k :: m :: w, g) :: ps⟩, h =>
    obtain ⟨rfl, hl, hm, hd₀⟩ := divides_longer_iff.mp h
    exact ⟨_, hd₀, (cons_longer hl hm).symm⟩

theorem startsWord_of_divides {w g ls : List Lexeme} {ps : List (List Lexeme × List Lexeme)}
    (h : (⟨[], (w, g) :: ps⟩ : Division).Divides ls) :
    Piece.startsWord ls = Piece.startsWord w := by
  obtain rfl := h.lexemes
  cases w with
  | nil => exact absurd rfl (h.words _ List.mem_cons_self).1.ne_nil
  | cons m w => rfl

theorem Divides.pieces_cons {d : Division} {ls : List Lexeme} (h : d.Divides ls) (l : Lexeme)
    (hpieces : Piece.ofLexemes ls = d.pieces) :
    Piece.ofLexemes (l :: ls) = (d.cons l).pieces := by
  rw [Piece.ofLexemes, hpieces]
  by_cases hl : Piece.separates l.kind = true
  · rw [if_pos hl, cons_gap hl]
    rfl
  · rw [if_neg hl]
    obtain htouch | ⟨w, g, ps, rfl, hw⟩ := d.single_or_longer
    · have hsingle : (⟨[], ([l], d.lead) :: d.words⟩ : Division).pieces =
          .word l.text :: d.pieces := by
        simp [pieces]
      rw [cons_single hl htouch, hsingle]
      obtain ⟨lead, words⟩ := d
      cases lead with
      | cons m lead => exact ite_self _
      | nil =>
        cases words with
        | nil => exact ite_self _
        | cons w ps => exact if_pos ((startsWord_of_divides h).trans (htouch _ rfl rfl))
    · rw [cons_longer hl hw, startsWord_of_divides h, if_neg hw]
      simp [pieces]

/-- There is one way to divide lexemes into words, and it is the one by which the pieces
are made. -/
theorem exists_unique (ls : List Lexeme) :
    ∃ d : Division, d.Divides ls ∧ (∀ d' : Division, d'.Divides ls → d' = d) ∧
      Piece.ofLexemes ls = d.pieces := by
  induction ls with
  | nil =>
    refine ⟨⟨[], []⟩, divides_nil_iff.mpr rfl, ?_, rfl⟩
    intro d' hd'
    match d', hd' with
    | ⟨m :: lead, ps⟩, h => cases h.lexemes
    | ⟨[], ([], g) :: ps⟩, h => exact absurd rfl (h.words _ List.mem_cons_self).1.ne_nil
    | ⟨[], (m :: w, g) :: ps⟩, h => cases h.lexemes
    | ⟨[], []⟩, _ => rfl
  | cons l ls ih =>
    obtain ⟨d, hd, hunique, hpieces⟩ := ih
    refine ⟨d.cons l, hd.cons l, ?_, hd.pieces_cons l hpieces⟩
    intro d' hd'
    obtain ⟨d₀, hd₀, rfl⟩ := hd'.exists_cons
    rw [hunique d₀ hd₀]

theorem flatMap_rename_pieces (names : NameMap) (d : Division) :
    d.pieces.flatMap (Piece.rename names) = d.substitute names := by
  have hgap : ∀ g : List Lexeme,
      (g.map (Piece.gap ·.text)).flatMap (Piece.rename names) = Lexeme.join g := by
    intro g
    rw [List.flatMap_map]
    rfl
  rw [pieces, substitute, List.flatMap_append, hgap, List.flatMap_assoc]
  simp [hgap, Piece.rename]

theorem any_isKey_pieces (names : NameMap) (d : Division) :
    d.pieces.any (Piece.isKey names) = true ↔
      ∃ p ∈ d.words, Lexeme.join p.1 ∈ names.keys := by
  simp [pieces, Piece.isKey, NameMap.contains_iff]

end Division

/-- Renaming substitutes all words of a value that are local names. A value that is not cut
into lexemes stays as it is, and so does a value without such words. -/
theorem renameValue?_eq_substitute (names : NameMap) (value : Text) :
    (∀ e, lexemes value = .error e → renameValue? names value = none) ∧
      ∀ ls, lexemes value = .ok ls → ∃ d : Division, d.Divides ls ∧
        (∀ d' : Division, d'.Divides ls → d' = d) ∧ Lexeme.join d.lexemes = value ∧
        renameValue? names value =
          if ∀ p ∈ d.words, Lexeme.join p.1 ∉ names.keys then none
          else some (d.substitute names) := by
  constructor
  · intro e he
    rw [renameValue?, he]
  · intro ls hls
    obtain ⟨d, hd, hunique, hpieces⟩ := Division.exists_unique ls
    refine ⟨d, hd, hunique, by rw [hd.lexemes, join_lexemes hls], ?_⟩
    rw [renameValue?, hls]
    simp only
    rw [hpieces, d.flatMap_rename_pieces, ← ite_not]
    refine if_congr ?_ rfl rfl
    rw [d.any_isKey_pieces]
    push Not
    rfl

end AnimationScope.Animation
