import AnimationScope.Proofs.FileStems
import Mathlib.Data.List.Basic
import Mathlib.Data.List.Forall2
import Mathlib.Data.List.Induction
import Mathlib.Tactic.SplitIfs

/-!
# The language of patterns

A pattern is groups in brackets with other text around them, in one way only. It is
read if every group is a placeholder, and it makes names by putting what the
placeholders stand for in the place of the groups.
-/

namespace AnimationScope

/-! ## Decimal numerals -/

namespace Text

theorem ofDecimal_append_singleton (t : Text) (c : Char) :
    ofDecimal (t ++ [c]) = 10 * ofDecimal t + (c.toNat - 48) := by
  rw [ofDecimal, List.foldl_append]
  rfl

theorem digitChar_sub_of_isDigit {c : Char} (h : c.isDigit = true) :
    c.toNat - 48 < 10 ∧ Nat.digitChar (c.toNat - 48) = c := by
  have hdigits : ∀ n : Fin 10, Nat.digitChar n.val = Char.ofNat (48 + n.val) := by decide
  simp only [Char.isDigit, Bool.and_eq_true, decide_eq_true_eq, UInt32.le_iff_toNat_le] at h
  have hlow : 48 ≤ c.toNat := h.1
  have hhigh : c.toNat ≤ 57 := h.2
  refine ⟨by omega, ?_⟩
  rw [hdigits ⟨c.toNat - 48, by omega⟩, Nat.add_sub_cancel' hlow, Char.ofNat_toNat]

theorem eq_replicate_of_ofDecimal_eq_zero {t : Text} (hdigits : ∀ c ∈ t, c.isDigit = true)
    (h : ofDecimal t = 0) : t = List.replicate t.length '0' := by
  induction t using List.reverseRecOn with
  | nil => rfl
  | append_singleton t c ih =>
    rw [List.forall_mem_append] at hdigits
    rw [ofDecimal_append_singleton] at h
    have ht := ih hdigits.1 (by omega)
    obtain ⟨-, hc⟩ := digitChar_sub_of_isDigit (hdigits.2 c List.mem_cons_self)
    rw [show c.toNat - 48 = 0 by omega] at hc
    rw [List.length_append, List.length_singleton, List.replicate_add, ← ht, ← hc]
    rfl

theorem eq_decimal_of_ofDecimal_pos {t : Text} (hdigits : ∀ c ∈ t, c.isDigit = true)
    (h : 0 < ofDecimal t) : ∃ k, t = List.replicate k '0' ++ decimal (ofDecimal t) := by
  induction t using List.reverseRecOn with
  | nil => exact absurd h (Nat.lt_irrefl 0)
  | append_singleton t c ih =>
    rw [List.forall_mem_append] at hdigits
    obtain ⟨hlt, hc⟩ := digitChar_sub_of_isDigit (hdigits.2 c List.mem_cons_self)
    have hlast : Nat.toDigits 10 (c.toNat - 48) = [c] := by rw [Nat.toDigits_of_lt_base hlt, hc]
    rw [ofDecimal_append_singleton, decimal]
    rcases Nat.eq_zero_or_pos (ofDecimal t) with hzero | hpos
    · refine ⟨t.length, ?_⟩
      rw [hzero, Nat.mul_zero, Nat.zero_add, hlast,
        ← eq_replicate_of_ofDecimal_eq_zero hdigits.1 hzero]
    · obtain ⟨k, hk⟩ := ih hdigits.1 hpos
      refine ⟨k, ?_⟩
      rw [← Nat.toDigits_append_toDigits (by decide) hpos hlt, hlast, ← List.append_assoc,
        ← decimal, ← hk]

theorem ofDecimal_replicate_append_decimal (k n : Nat) :
    ofDecimal (List.replicate k '0' ++ decimal n) = n := by
  have hzeros : ofDecimal (List.replicate k '0') = 0 := by
    induction k with
    | zero => rfl
    | succ k ih => rw [List.replicate_succ', ofDecimal_append_singleton, ih]; rfl
  calc
    _ = (decimal n).foldl (fun n c => 10 * n + (c.toNat - 48))
          (ofDecimal (List.replicate k '0')) := List.foldl_append
    _ = Nat.ofDigitChars 10 (Nat.toDigits 10 n) 0 := by rw [hzeros]; rfl
    _ = n := Nat.ofDigitChars_toDigits (by decide) (by decide)

theorem isNumeral_iff {t : Text} : t.isNumeral = true ↔ t ≠ [] ∧ ∀ c ∈ t, c.isDigit = true := by
  simp [isNumeral]

theorem isDigit_of_mem_replicate_append_decimal {k n : Nat} {c : Char}
    (hc : c ∈ List.replicate k '0' ++ decimal n) : c.isDigit = true := by
  rcases List.mem_append.mp hc with hc | hc
  · rw [List.eq_of_mem_replicate hc]
    rfl
  · exact Nat.isDigit_of_mem_toDigits (by decide) (by decide) hc

theorem isNumeral_and_ofDecimal_eq_iff {t : Text} {n : Nat} (hn : 0 < n) :
    (t.isNumeral = true ∧ ofDecimal t = n) ↔ ∃ k, t = List.replicate k '0' ++ decimal n := by
  rw [isNumeral_iff]
  constructor
  · rintro ⟨⟨-, hdigits⟩, rfl⟩
    exact eq_decimal_of_ofDecimal_pos hdigits hn
  · rintro ⟨k, rfl⟩
    have hvalue := ofDecimal_replicate_append_decimal k n
    refine ⟨⟨?_, fun c => isDigit_of_mem_replicate_append_decimal⟩, hvalue⟩
    intro hnil
    rw [hnil] at hvalue
    exact Nat.ne_of_lt hn hvalue

end Text

namespace Naming

/-! ## Placeholders -/

/-- The inner texts of placeholders, and what a placeholder stands for. -/
inductive StandsFor (name path : Text) : (inner value : Text) → Prop
  | fileName {file stem value : Text} : IsBaseName path file → IsStem file stem →
      Sanitizes stem value → StandsFor name path "name".toList value
  | localName : StandsFor name path "local".toList name
  | hash : StandsFor name path "hash".toList
      ((Digest.hexDigest (path.utf8Bytes ++ 0 :: name.utf8Bytes)).take 8)
  | hashLength {n : Nat} (plus : Bool) (zeros : Nat) : 1 ≤ n → n ≤ 64 →
      StandsFor name path
        ("hash:".toList ++ ((if plus then ['+'] else []) ++
          (List.replicate zeros '0' ++ Text.decimal n)))
        ((Digest.hexDigest (path.utf8Bytes ++ 0 :: name.utf8Bytes)).take n)

inductive Faults : (inner : Text) → PatternError → Prop
  | hashLength (length : Text) : Faults ("hash:".toList ++ length) (.invalidHashLength length)
  | unknown {inner : Text} : (¬ "hash:".toList <+: inner) →
      Faults inner (.unknownPlaceholder inner)

/-- A numeral from 1 to 64 is read as a number of digits. -/
theorem HashLength.ofDecimal_eq_iff {t : Text} {n : HashLength} :
    (∃ h : t.isNumeral ∧ 0 < t.ofDecimal ∧ t.ofDecimal ≤ 64,
        (⟨t.ofDecimal, h.2.1, h.2.2⟩ : HashLength) = n) ↔
      ∃ zeros, t = List.replicate zeros '0' ++ Text.decimal n.count := by
  rw [← Text.isNumeral_and_ofDecimal_eq_iff n.pos]
  constructor
  · rintro ⟨h, rfl⟩
    exact ⟨h.1, rfl⟩
  · rintro ⟨hnumeral, hcount⟩
    refine ⟨⟨hnumeral, hcount ▸ n.pos, hcount ▸ n.le⟩, ?_⟩
    cases n
    cases hcount
    rfl

theorem HashLength.read?_eq_some_iff {t : Text} {n : HashLength} :
    HashLength.read? t = some n ↔ ∃ (plus : Bool) (zeros : Nat),
      t = (if plus then ['+'] else []) ++ (List.replicate zeros '0' ++ Text.decimal n.count) := by
  have hread : HashLength.read? t = some n ↔ ∃ zeros,
      (t.stripStart? ['+']).getD t = List.replicate zeros '0' ++ Text.decimal n.count := by
    rw [← ofDecimal_eq_iff, HashLength.read?]
    split_ifs with h
    · simp [h]
    · simp [h]
  rw [hread]
  cases hplus : t.stripStart? ['+'] with
  | some digits =>
    rw [Text.stripStart?_eq_some_iff] at hplus
    subst hplus
    constructor
    · rintro ⟨zeros, h⟩
      exact ⟨true, zeros, congrArg (['+'] ++ ·) h⟩
    · rintro ⟨plus | plus, zeros, h⟩
      · -- A plus sign is no digit.
        have hdigits : ['+'] ++ digits = List.replicate zeros '0' ++ Text.decimal n.count := h
        have hmem : '+' ∈ List.replicate zeros '0' ++ Text.decimal n.count :=
          hdigits ▸ List.mem_cons_self
        cases Text.isDigit_of_mem_replicate_append_decimal hmem
      · exact ⟨zeros, List.append_cancel_left h⟩
  | none =>
    constructor
    · rintro ⟨zeros, h⟩
      exact ⟨false, zeros, h⟩
    · rintro ⟨plus | plus, zeros, h⟩
      · exact ⟨zeros, h⟩
      · rw [Text.stripStart?_eq_some_iff.mpr (by simpa using h)] at hplus
        cases hplus

theorem Segment.read_hash (length : Text) :
    Segment.read ("hash:".toList ++ length) =
      match HashLength.read? length with
      | some n => .ok (.hash n)
      | none => .error (.invalidHashLength length) := by
  have hstrip : Text.stripStart? ("hash:".toList ++ length) "hash:".toList = some length :=
    Text.stripStart?_eq_some_iff.mpr rfl
  unfold Segment.read
  rw [hstrip]
  cases hread : HashLength.read? length with
  | none => simp [hread]
  | some n => simp [hread]

/-- The placeholders are what is read, and they stand for what they are filled with. -/
theorem standsFor_iff {name path t v : Text} :
    StandsFor name path t v ↔ ∃ s, Segment.read t = .ok s ∧ s.fill name path = v := by
  constructor
  · rintro (⟨hfile, hstem, hvalue⟩ | _ | _ | @⟨n, plus, zeros, hpos, hle⟩)
    · refine ⟨.fileName, by decide, ?_⟩
      rw [isBaseName_iff.mp hfile] at hstem
      rw [sanitizes_iff.mp hvalue, isStem_iff.mp hstem]
      rfl
    · exact ⟨.localName, by decide, rfl⟩
    · exact ⟨.hash ⟨8, by decide, by decide⟩, by decide, rfl⟩
    · refine ⟨.hash ⟨n, hpos, hle⟩, ?_, rfl⟩
      rw [Segment.read_hash,
        (HashLength.read?_eq_some_iff (n := ⟨n, hpos, hle⟩)).mpr ⟨plus, zeros, rfl⟩]
  · rintro ⟨s, hs, rfl⟩
    unfold Segment.read at hs
    split_ifs at hs with hname hlocal hhash
    · cases hs
      exact hname ▸ .fileName (isBaseName_iff.mpr rfl) (isStem_iff.mpr rfl) (sanitizes_iff.mpr rfl)
    · cases hs
      exact hlocal ▸ .localName
    · cases hs
      exact hhash ▸ .hash
    · split at hs
      · cases hs
      · next length hlength =>
        rw [Text.stripStart?_eq_some_iff] at hlength
        split at hs
        · next n hn =>
          cases hs
          obtain ⟨plus, zeros, rfl⟩ := HashLength.read?_eq_some_iff.mp hn
          rw [hlength]
          exact .hashLength plus zeros n.pos n.le
        · cases hs

theorem faults_of_read {t : Text} {e : PatternError} (h : Segment.read t = .error e) :
    Faults t e := by
  unfold Segment.read at h
  split_ifs at h
  split at h
  · next hnone =>
    cases h
    refine .unknown ?_
    rintro ⟨length, hlength⟩
    rw [Text.stripStart?_eq_some_iff.mpr hlength.symm] at hnone
    cases hnone
  · next length hlength =>
    rw [Text.stripStart?_eq_some_iff] at hlength
    split at h
    · cases h
    · cases h
      exact hlength ▸ .hashLength length

namespace Pattern

/-! ## Groups -/

structure Group where
  before : Text
  inner : Text

/-- Groups from left to right, and the text behind the last of them. -/
structure Layout where
  groups : List Group
  rest : Text

namespace Layout

def text (l : Layout) : Text :=
  (l.groups.flatMap fun g => g.before ++ '[' :: (g.inner ++ [']'])) ++ l.rest

def replace (l : Layout) (values : List Text) : Text :=
  ((l.groups.zip values).flatMap fun p => p.1.before ++ p.2) ++ l.rest

/-- How a pattern is scanned: each group begins at the first bracket that opens and ends
at the next one that closes, and no group is left behind the last one. -/
structure Scans (l : Layout) (t : Text) : Prop where
  text : l.text = t
  before : ∀ g ∈ l.groups, '[' ∉ g.before
  inner : ∀ g ∈ l.groups, ']' ∉ g.inner
  rest : ∀ u v, l.rest = u ++ '[' :: v → ']' ∉ v

variable {g : Group} {gs : List Group} {rest t : Text}

theorem text_cons :
    (⟨g :: gs, rest⟩ : Layout).text =
      g.before ++ '[' :: (g.inner ++ ']' :: (⟨gs, rest⟩ : Layout).text) := by
  simp [text]

theorem Scans.tail (h : (⟨g :: gs, rest⟩ : Layout).Scans t) :
    (⟨gs, rest⟩ : Layout).Scans (⟨gs, rest⟩ : Layout).text where
  text := rfl
  before := (List.forall_mem_cons.mp h.before).2
  inner := (List.forall_mem_cons.mp h.inner).2
  rest := h.rest

theorem Scans.cons (hbefore : '[' ∉ g.before) (hinner : ']' ∉ g.inner)
    (h : (⟨gs, rest⟩ : Layout).Scans t) :
    (⟨g :: gs, rest⟩ : Layout).Scans (g.before ++ '[' :: (g.inner ++ ']' :: t)) where
  text := by rw [text_cons, h.text]
  before := List.forall_mem_cons.mpr ⟨hbefore, h.before⟩
  inner := List.forall_mem_cons.mpr ⟨hinner, h.inner⟩
  rest := h.rest

theorem scans_nil_iff : (⟨[], rest⟩ : Layout).Scans t ↔
    rest = t ∧ ∀ u v, t = u ++ '[' :: v → ']' ∉ v := by
  constructor
  · rintro ⟨rfl, -, -, hrest⟩
    exact ⟨rfl, hrest⟩
  · rintro ⟨rfl, hrest⟩
    exact ⟨rfl, by simp, by simp, hrest⟩

theorem mem_of_first {before r u v : Text} {c d : Char} (hbefore : c ∉ before)
    (h : before ++ c :: r = u ++ c :: v) (hd : d ∈ v) : d ∈ r := by
  rcases List.append_eq_append_iff.mp h with ⟨a, rfl, ha⟩ | ⟨a, rfl, ha⟩
  · cases a with
    | nil => exact (List.cons.inj ha).2 ▸ hd
    | cons b a =>
      rw [(List.cons.inj ha).2]
      exact List.mem_append_right a (List.mem_cons_of_mem c hd)
  · cases a with
    | nil => exact (List.cons.inj ha).2 ▸ hd
    | cons b a =>
      rw [List.mem_append, not_or] at hbefore
      exact absurd ((List.cons.inj ha).1 ▸ List.mem_cons_self) hbefore.2

theorem exists_scans (t : Text) : ∃ l : Layout, l.Scans t := by
  induction hn : t.length using Nat.strongRecOn generalizing t with
  | ind n ih =>
    by_cases hgroup : ∃ u v, t = u ++ '[' :: v ∧ ']' ∈ v
    · obtain ⟨u, v, ht, hclose⟩ := hgroup
      obtain ⟨before, r, hr, hbefore⟩ := List.eq_append_cons_of_mem
        (show '[' ∈ t from ht ▸ List.mem_append_right u List.mem_cons_self)
      obtain ⟨inner, t', rfl, hinner⟩ :=
        List.eq_append_cons_of_mem (mem_of_first hbefore (hr.symm.trans ht) hclose)
      have hlt : t'.length < n := by
        rw [← hn, hr]
        simp only [List.length_append, List.length_cons]
        omega
      obtain ⟨⟨gs, rest⟩, hl⟩ := ih t'.length hlt t' rfl
      rw [hr]
      exact ⟨⟨⟨before, inner⟩ :: gs, rest⟩, hl.cons hbefore hinner⟩
    · refine ⟨⟨[], t⟩, scans_nil_iff.mpr ⟨rfl, ?_⟩⟩
      rintro u v rfl hv
      exact hgroup ⟨u, v, rfl, hv⟩

theorem not_scans_nil_cons (hnil : (⟨[], rest⟩ : Layout).Scans t) {l : Layout}
    (hcons : (⟨g :: gs, l.rest⟩ : Layout).Scans t) : False := by
  refine (scans_nil_iff.mp hnil).2 g.before (g.inner ++ ']' :: (⟨gs, l.rest⟩ : Layout).text) ?_ ?_
  · rw [← text_cons, hcons.text]
  · exact List.mem_append_right _ List.mem_cons_self

theorem Scans.eq {l m : Layout} (hl : l.Scans t) (hm : m.Scans t) : m = l := by
  obtain ⟨gs, rest⟩ := l
  induction gs generalizing m t with
  | nil =>
    obtain ⟨_ | ⟨h, hs⟩, rest'⟩ := m
    · rw [(scans_nil_iff.mp hl).1, (scans_nil_iff.mp hm).1]
    · exact (not_scans_nil_cons hl (l := ⟨[], rest'⟩) hm).elim
  | cons g gs ih =>
    obtain ⟨_ | ⟨h, hs⟩, rest'⟩ := m
    · exact (not_scans_nil_cons hm (l := ⟨[], rest⟩) hl).elim
    · have htext := hm.text.trans hl.text.symm
      rw [text_cons, text_cons] at htext
      obtain ⟨hbefore, htext⟩ :=
        eq_of_first htext (hm.before h List.mem_cons_self) (hl.before g List.mem_cons_self)
      obtain ⟨hinner, htext⟩ :=
        eq_of_first htext (hm.inner h List.mem_cons_self) (hl.inner g List.mem_cons_self)
      have htail := ih (htext ▸ hm.tail) hl.tail
      obtain ⟨hgs, hrest⟩ := Layout.mk.inj htail
      cases g
      cases h
      cases hbefore
      cases hinner
      rw [hgs, hrest]

/-! ## Reading a layout -/

def parts (l : Layout) : List Part :=
  (l.groups.flatMap fun g => g.before.map .plain ++ [.bracketed g.inner]) ++ l.rest.map .plain

end Layout

theorem parts_drop (k : Nat) (t : Text) : parts k t = parts 0 (t.drop k) := by
  induction k generalizing t with
  | zero => rfl
  | succ k ih =>
    cases t with
    | nil => rfl
    | cons c r => exact ih r

theorem parts_plain {c : Char} {t : Text} (h : ¬ (c = '[' ∧ ']' ∈ t)) :
    parts 0 (c :: t) = .plain c :: parts 0 t := by
  rw [parts, if_neg h]

theorem parts_group {inner t : Text} (h : ']' ∉ inner) :
    parts 0 ('[' :: (inner ++ ']' :: t)) = .bracketed inner :: parts 0 t := by
  have hinner : (inner ++ ']' :: t).takeWhile (· ≠ ']') = inner := by
    rw [List.takeWhile_append_of_pos]
    · simp
    · intro c hc
      have hne : c ≠ ']' := fun he => h (he ▸ hc)
      simpa using hne
  rw [parts, if_pos ⟨rfl, List.mem_append_right _ List.mem_cons_self⟩]
  simp only [hinner]
  rw [parts_drop]
  simp

theorem parts_append {u t : Text} (h : ∀ v w, u = v ++ '[' :: w → ']' ∉ w ++ t) :
    parts 0 (u ++ t) = u.map .plain ++ parts 0 t := by
  induction u with
  | nil => rfl
  | cons c u ih =>
    rw [List.cons_append, parts_plain, ih, List.map_cons, List.cons_append]
    · exact fun v w hu => h (c :: v) w (congrArg (c :: ·) hu)
    · rintro ⟨rfl, hclose⟩
      exact h [] u rfl hclose

theorem Layout.Scans.parts {l : Layout} {t : Text} (h : l.Scans t) :
    Pattern.parts 0 t = l.parts := by
  obtain ⟨gs, rest⟩ := l
  induction gs generalizing t with
  | nil =>
    obtain ⟨rfl, hrest⟩ := Layout.scans_nil_iff.mp h
    have hparts := parts_append (t := []) (u := rest) (by simpa using hrest)
    simpa [Pattern.parts, Layout.parts] using hparts
  | cons g gs ih =>
    have hplain : ∀ v w, g.before = v ++ '[' :: w → False := fun v w hg =>
      h.before g List.mem_cons_self (hg ▸ List.mem_append_right v List.mem_cons_self)
    rw [← h.text, Layout.text_cons, parts_append fun v w hg => (hplain v w hg).elim,
      parts_group (h.inner g List.mem_cons_self), ih h.tail]
    simp [Layout.parts]

theorem mapM_plain (t : Text) (ps : List Part) :
    (t.map Part.plain ++ ps).mapM Part.segment =
      (t.map Segment.literal ++ ·) <$> ps.mapM Part.segment := by
  induction t with
  | nil =>
    cases h : ps.mapM Part.segment <;> simp [h, Functor.map, Except.map]
  | cons c t ih =>
    rw [List.map_cons, List.cons_append, List.mapM_cons, ih]
    cases h : ps.mapM Part.segment <;> rfl

theorem fill_literal (t name path : Text) : Pattern.fill (t.map .literal) name path = t := by
  induction t with
  | nil => rfl
  | cons c t ih => exact congrArg (c :: ·) ih

theorem fill_append (p q : Pattern) (name path : Text) :
    fill (p ++ q) name path = fill p name path ++ fill q name path :=
  List.flatMap_append

namespace Layout

/-- A layout is read when each of its groups is a placeholder. Else what is wrong with the
first other group is the error. -/
theorem read_parts (l : Layout) (name path : Text) :
    (∃ p values, l.parts.mapM Part.segment = .ok p ∧
      List.Forall₂ (fun g v => StandsFor name path g.inner v) l.groups values ∧
      fill p name path = l.replace values) ∨
    ∃ gs g gs' e, l.parts.mapM Part.segment = .error e ∧ l.groups = gs ++ g :: gs' ∧
      (∀ h ∈ gs, ∃ v, StandsFor name path h.inner v) ∧
      (¬ ∃ v, StandsFor name path g.inner v) ∧ Faults g.inner e := by
  obtain ⟨gs, rest⟩ := l
  induction gs with
  | nil =>
    refine .inl ⟨rest.map .literal, [], ?_, .nil, ?_⟩
    · have hplain := mapM_plain rest []
      simpa [parts, Functor.map, Except.map, pure, Except.pure] using hplain
    · rw [fill_literal]
      rfl
  | cons g gs ih =>
    have hparts : (⟨g :: gs, rest⟩ : Layout).parts.mapM Part.segment =
        (g.before.map Segment.literal ++ ·) <$>
          (.bracketed g.inner :: (⟨gs, rest⟩ : Layout).parts).mapM Part.segment := by
      rw [← mapM_plain]
      simp [parts]
    rw [hparts, List.mapM_cons, Part.segment]
    cases hs : Segment.read g.inner with
    | error e =>
      refine .inr ⟨[], g, gs, e, rfl, rfl, by simp, ?_, faults_of_read hs⟩
      rintro ⟨v, hv⟩
      obtain ⟨s, hread, -⟩ := standsFor_iff.mp hv
      rw [hs] at hread
      cases hread
    | ok s =>
      have hv : StandsFor name path g.inner (s.fill name path) := standsFor_iff.mpr ⟨s, hs, rfl⟩
      rcases ih with ⟨p, values, hp, hvalues, hfill⟩ | ⟨hs', h, hs'', e, he, rfl, hvalid, hbad⟩
      · refine .inl ⟨g.before.map .literal ++ s :: p, s.fill name path :: values, ?_,
          .cons hv hvalues, ?_⟩
        · rw [hp]
          rfl
        · rw [fill_append, fill_literal, ← List.singleton_append, fill_append, hfill]
          simp [replace, fill]
      · refine .inr ⟨g :: hs', h, hs'', e, ?_, rfl, ?_, hbad⟩
        · rw [he]
          rfl
        · rintro k hk
          rcases List.mem_cons.mp hk with rfl | hk
          · exact ⟨_, hv⟩
          · exact hvalid k hk

end Layout

theorem exists_standsFor {name path : Text} {gs : List Group} {values : List Text}
    (h : List.Forall₂ (fun g v => StandsFor name path g.inner v) gs values) :
    ∀ g ∈ gs, ∃ v, StandsFor name path g.inner v := by
  induction h with
  | nil => simp
  | cons hv _ ih => exact List.forall_mem_cons.mpr ⟨⟨_, hv⟩, ih⟩

/-- The language of patterns. A pattern has one layout. It is read if all groups are
placeholders, and else the first other group is reported. A generator made from it puts
what the placeholders stand for in the place of the groups and keeps all other text. -/
theorem language {σ : Type} (t name path : Text) :
    ∃ l : Layout, l.Scans t ∧ (∀ m : Layout, m.Scans t → m = l) ∧
      ((∃ p, Pattern.read t = .ok p) ↔
        ∀ g ∈ l.groups, ∃ v, StandsFor name path g.inner v) ∧
      (∀ e, Pattern.read t = .error e → ∃ gs g gs', l.groups = gs ++ g :: gs' ∧
        (∀ h ∈ gs, ∃ v, StandsFor name path h.inner v) ∧
        (¬ ∃ v, StandsFor name path g.inner v) ∧ Faults g.inner e) ∧
      (∀ p, Pattern.read t = .ok p → ∃ values,
        List.Forall₂ (fun g v => StandsFor name path g.inner v) l.groups values ∧
        ∀ (source : Text) (state : σ),
          (Generator.ofPattern p).generate name path source state =
            (l.replace values, state)) ∧
      ∀ bytes, (Digest.hexDigest bytes).length = 64 ∧
        ∀ c ∈ Digest.hexDigest bytes, c ∈ Text.hexDigits := by
  obtain ⟨l, hl⟩ := Layout.exists_scans t
  have hread : Pattern.read t = l.parts.mapM Part.segment := by rw [Pattern.read, hl.parts]
  refine ⟨l, hl, fun m hm => hl.eq hm, ?_⟩
  simp only [hread]
  rcases l.read_parts name path with
    ⟨p, values, hp, hvalues, hfill⟩ | ⟨gs, g, gs', e, he, hgroups, hvalid, hbad, hfault⟩
  · refine ⟨iff_of_true ⟨p, hp⟩ fun g hg => ?_, fun e he => ?_, fun q hq => ⟨values, hvalues, ?_⟩,
      fun bytes => ⟨Digest.length_hexDigest bytes, fun c => Digest.mem_hexDigits_of_mem_hexDigest⟩⟩
    · exact exists_standsFor hvalues g hg
    · rw [hp] at he
      cases he
    · rw [hp] at hq
      cases hq
      exact fun source state => congrArg (·, state) hfill
  · refine ⟨iff_of_false ?_ fun hall => hbad (hall g ?_), fun e' he' => ?_, fun p hp => ?_,
      fun bytes => ⟨Digest.length_hexDigest bytes, fun c => Digest.mem_hexDigits_of_mem_hexDigest⟩⟩
    · rintro ⟨p, hp⟩
      rw [he] at hp
      cases hp
    · rw [hgroups]
      exact List.mem_append_right gs List.mem_cons_self
    · rw [he] at he'
      cases he'
      exact ⟨gs, g, gs', hgroups, hvalid, hbad, hfault⟩
    · rw [he] at hp
      cases hp

/-- A group ends at the first bracket that closes. -/
example : Pattern.read "[hash:+007]]".toList =
    .ok [.hash ⟨7, by decide, by decide⟩, .literal ']'] := by decide

/-- A bracket that opens within a group is part of its inner text. -/
example : Pattern.read "x[a[local]]".toList = .error (.unknownPlaceholder "a[local".toList) := by
  decide

end Pattern

end Naming
end AnimationScope
