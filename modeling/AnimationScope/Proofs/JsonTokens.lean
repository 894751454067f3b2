import AnimationScope.Json.Token
import AnimationScope.Json.Write
import Mathlib.Data.List.Basic

/-!
# Tokens of written JSON

The text that is written for a value is cut into the tokens of the value, whatever stands
behind it, as long as this cannot go on with a number or a word.
-/

namespace AnimationScope.Json

/-! ## The tokens of a value -/

mutual

def Value.tokens : Value → List Token
  | .null => [.null]
  | .bool b => [.bool b]
  | .number literal => [.number literal]
  | .string t => [.string t]
  | .array items => .openBracket :: Value.itemTokens items ++ [.closeBracket]
  | .object members => .openBrace :: Value.memberTokens members ++ [.closeBrace]

def Value.itemTokens : List Value → List Token
  | [] => []
  | [v] => v.tokens
  | v :: vs => v.tokens ++ .comma :: Value.itemTokens vs

def Value.memberTokens : List (Option Text × Value) → List Token
  | [] => []
  | [(k, v)] => .string k :: .colon :: v.tokens
  | (k, v) :: ms => .string k :: .colon :: v.tokens ++ .comma :: Value.memberTokens ms

end

/-- All numbers in the value are spelled as numbers. -/
inductive Value.Legible : Value → Prop
  | null : Legible .null
  | bool (b : Bool) : Legible (.bool b)
  | number {literal : Text} (h : Token.isNumber literal = true) : Legible (.number literal)
  | string (t : Option Text) : Legible (.string t)
  | array {items : List Value} (h : ∀ v ∈ items, Legible v) : Legible (.array items)
  | object {members : List (Option Text × Value)} (h : ∀ m ∈ members, Legible m.2) :
    Legible (.object members)

namespace Token

variable {m m' m'' : Mode} {t t' : Text} {ts ts' : List Token} {c : Char}

/-! ## Runs of the scanner -/

/-- The text leads from one mode to another and gives the tokens, whatever follows. -/
def Scans (m : Mode) (t : Text) (ts : List Token) (m' : Mode) : Prop :=
  ∀ r, scan m (t ++ r) = (scan m' r).map (ts ++ ·)

theorem map_append_map (o : Option (List Token)) :
    (o.map (ts' ++ ·)).map (ts ++ ·) = o.map (ts ++ ts' ++ ·) := by
  simp [Option.map_map, Function.comp_def]

theorem Scans.nil : Scans m [] [] m := by
  intro r
  simp

theorem Scans.append (h : Scans m t ts m') (h' : Scans m' t' ts' m'') :
    Scans m (t ++ t') (ts ++ ts') m'' := by
  intro r
  rw [List.append_assoc, h, h', map_append_map]

theorem scan_cons (hc : step m c = some (ts, m')) (r : Text) :
    scan m (c :: r) = (scan m' r).map (ts ++ ·) := by
  rw [scan, hc]
  simp only [Option.bind_eq_bind, Option.bind_some, Option.pure_def]
  exact Option.map_eq_bind.symm

theorem Scans.single (hc : step m c = some (ts, m')) : Scans m [c] ts m' :=
  scan_cons hc

theorem Scans.cons (hc : step m c = some ([], m')) (h : Scans m' t ts m'') :
    Scans m (c :: t) ts m'' :=
  (Scans.single hc).append h

theorem scan_finish {r : Text} (hm : finish m = some ts)
    (hr : ∀ c ∈ r.head?, step m c = finishThen m c) :
    scan m r = (scan .between r).map (ts ++ ·) := by
  cases r with
  | nil => simpa [scan, finish] using hm
  | cons c r =>
    have hc : step m c = finishThen m c := hr c rfl
    cases hs : start c with
    | none =>
      rw [scan, scan, hc, finishThen, hm, show step .between c = none from hs]
      simp [hs]
    | some p =>
      have hstep : step m c = some (ts ++ p.1, p.2) := by
        rw [hc, finishThen, hm]
        simp [hs]
      rw [scan_cons hstep, scan_cons (show step .between c = some (p.1, p.2) from hs),
        map_append_map]

end Token

/-! ## Strings -/

namespace StringUnit

/-- The unit stands for the character wherever it occurs. -/
def Spells (u : StringUnit) (c : Char) : Prop :=
  ∀ us, decode (u :: us) = (decode us).map (c :: ·)

theorem Spells.plain (c : Char) : Spells (.plain c) c := by
  intro us
  rw [decode]

/-- No surrogate is below the space. -/
theorem Spells.escaped {c : Char} (h : c < ' ') : Spells (.escaped c.toNat) c := by
  have hc : c.toNat < 32 := h
  have hhigh : isHigh c.toNat = false := by simp [isHigh]; omega
  have hlow : isLow c.toNat = false := by simp [isLow]; omega
  intro us
  rw [decode.eq_def]
  simp [hhigh, hlow]

end StringUnit

namespace Token

variable {us : List StringUnit}

theorem scans_mark {e d : Char} (hu : e ≠ 'u') (h : unescape? e = some d) :
    Scans (.string us) ['\\', e] [] (.string (.plain d :: us)) := by
  have he : step (.escape us) e = some ([], .string (.plain d :: us)) := by
    rw [step, if_neg hu, h]
    rfl
  exact .cons rfl (.single he)

theorem scans_unit {c : Char} (h : c < ' ') :
    Scans (.string us)
      ['\\', 'u', '0', '0', Text.hexDigit (c.toNat / 16), Text.hexDigit c.toNat] []
      (.string (.escaped c.toNat :: us)) := by
  have hc : c.toNat < 32 := h
  have hdigit (value more n : Nat) : step (.hex us value (more + 1)) (Text.hexDigit n) =
      some ([], .hex us (16 * value + n % 16) more) := by
    rw [step, Text.hexValue?_hexDigit]
    rfl
  have hvalue : 16 * (16 * 0 + c.toNat / 16 % 16) + c.toNat % 16 = c.toNat := by omega
  have hlast : step (.hex us (16 * 0 + c.toNat / 16 % 16) 0) (Text.hexDigit c.toNat) =
      some ([], .string (.escaped c.toNat :: us)) := by
    rw [step, Text.hexValue?_hexDigit, Option.map_some, hvalue]
  exact .cons rfl (.cons rfl (.cons (hdigit 0 2 0) (.cons (hdigit 0 1 0)
    (.cons (hdigit 0 0 (c.toNat / 16)) (.single hlast)))))

theorem scans_escape (us : List StringUnit) (c : Char) :
    ∃ u : StringUnit, u.Spells c ∧ Scans (.string us) (escape c) [] (.string (u :: us)) := by
  rw [escape]
  -- Eight kinds of escapes, and the characters that stand for themselves.
  split_ifs with hquote hslash hb hf hn hr ht hlow
  · exact ⟨.plain c, .plain c, scans_mark (by decide) (by rw [hquote]; rfl)⟩
  · exact ⟨.plain c, .plain c, scans_mark (by decide) (by rw [hslash]; rfl)⟩
  · exact ⟨.plain c, .plain c, scans_mark (by decide) (by rw [hb]; rfl)⟩
  · exact ⟨.plain c, .plain c, scans_mark (by decide) (by rw [hf]; rfl)⟩
  · exact ⟨.plain c, .plain c, scans_mark (by decide) (by rw [hn]; rfl)⟩
  · exact ⟨.plain c, .plain c, scans_mark (by decide) (by rw [hr]; rfl)⟩
  · exact ⟨.plain c, .plain c, scans_mark (by decide) (by rw [ht]; rfl)⟩
  · exact ⟨.escaped c.toNat, .escaped hlow, scans_unit hlow⟩
  · have hc : step (.string us) c = some ([], .string (.plain c :: us)) := by
      rw [step, if_neg hquote, if_neg hslash, if_neg hlow]
    exact ⟨.plain c, .plain c, .single hc⟩

/-- The units of a string in reverse, behind those that were read before. -/
theorem scans_escapes (t : Text) (us : List StringUnit) : ∃ units : List StringUnit,
    StringUnit.decode units = some t ∧
      Scans (.string us) (t.flatMap escape) [] (.string (units.reverse ++ us)) := by
  induction t generalizing us with
  | nil => exact ⟨[], rfl, .nil⟩
  | cons c t ih =>
    obtain ⟨u, hu, hc⟩ := scans_escape us c
    obtain ⟨units, hdecode, ht⟩ := ih (u :: us)
    refine ⟨u :: units, ?_, ?_⟩
    · rw [hu, hdecode]
      rfl
    · rw [List.flatMap_cons, List.reverse_cons, List.append_assoc]
      exact hc.append ht

theorem scans_writeText (t : Text) : Scans .between (writeText t) [.string (some t)] .between := by
  obtain ⟨units, hdecode, ht⟩ := scans_escapes t []
  have hend : step (.string (units.reverse ++ [])) '\x22' =
      some ([.string (some t)], .between) := by
    rw [step, if_pos rfl, List.append_nil, List.reverse_reverse, hdecode]
  exact .cons rfl (ht.append (.single hend))

theorem scans_writeString (t : Option Text) :
    Scans .between (writeString t) [.string t] .between := by
  cases t with
  | some t => exact scans_writeText t
  | none =>
    have hdecode : StringUnit.decode [.escaped 0xD800] = none := by decide
    have hend : step (.string [.escaped 0xD800]) '\x22' = some ([.string none], .between) := by
      rw [step, if_pos rfl, List.reverse_singleton, hdecode]
    exact .cons rfl (.cons rfl (.cons rfl (.cons rfl (.cons rfl (.cons rfl (.cons rfl
      (.single hend)))))))

/-! ## Numbers -/

theorem isNumberChar_of_isDigit (h : c.isDigit = true) : isNumberChar c = true := by
  simp [isNumberChar, h]

theorem isNumberChar_of_isNumeral (h : Text.isNumeral t = true) :
    ∀ c ∈ t, isNumberChar c = true := by
  rw [Text.isNumeral, Bool.and_eq_true, List.all_eq_true] at h
  exact fun c hc => isNumberChar_of_isDigit (h.2 c hc)

theorem isNumberChar_of_isExponent (h : isExponent t = true) : ∀ c ∈ t, isNumberChar c = true := by
  match t with
  | [] => simp
  | [_] => cases h
  | e :: s :: r =>
    rw [isExponent, Bool.and_eq_true] at h
    have he : isNumberChar e = true := by
      have := h.1
      simp only [isNumberChar, Bool.or_eq_true] at this ⊢
      tauto
    split_ifs at h with hs
    · have hs' : isNumberChar s = true := by
        simp only [isNumberChar, Bool.or_eq_true] at hs ⊢
        tauto
      exact List.forall_mem_cons.mpr ⟨he, List.forall_mem_cons.mpr
        ⟨hs', isNumberChar_of_isNumeral h.2⟩⟩
    · exact List.forall_mem_cons.mpr ⟨he, isNumberChar_of_isNumeral h.2⟩

theorem isNumberChar_of_isFraction (h : isFraction t = true) : ∀ c ∈ t, isNumberChar c = true := by
  rw [isFraction.eq_def] at h
  split at h
  · next r =>
    rw [Bool.and_eq_true] at h
    intro c hc
    rw [List.mem_cons, ← List.takeWhile_append_dropWhile (p := Char.isDigit) (l := r),
      List.mem_append] at hc
    obtain rfl | hc | hc := hc
    · rfl
    · exact isNumberChar_of_isNumeral h.1 c hc
    · exact isNumberChar_of_isExponent h.2 c hc
  · exact isNumberChar_of_isExponent h

theorem exists_of_isNumber (h : isNumber t = true) :
    ∃ c r, t = c :: r ∧ (c = '-' ∨ c.isDigit = true) ∧ ∀ d ∈ r, isNumberChar d = true := by
  have hpart (u : Text) (hu : Text.isNumeral (u.takeWhile Char.isDigit) = true)
      (hf : isFraction (u.dropWhile Char.isDigit) = true) :
      ∃ c r, u = c :: r ∧ c.isDigit = true ∧ ∀ d ∈ u, isNumberChar d = true := by
    have hall : ∀ d ∈ u, isNumberChar d = true := by
      intro d hd
      rw [← List.takeWhile_append_dropWhile (p := Char.isDigit) (l := u), List.mem_append] at hd
      exact hd.elim (isNumberChar_of_isNumeral hu d) (isNumberChar_of_isFraction hf d)
    cases u with
    | nil => cases hu
    | cons c r =>
      refine ⟨c, r, rfl, ?_, hall⟩
      by_contra hc
      rw [List.takeWhile_cons, if_neg hc] at hu
      cases hu
  simp only [isNumber, Bool.and_eq_true] at h
  cases hs : t.stripStart? ['-'] with
  | none =>
    rw [hs, Option.getD_none] at h
    obtain ⟨c, r, rfl, hc, hall⟩ := hpart t h.1.1 h.2
    exact ⟨c, r, rfl, .inr hc, fun d hd => hall d (List.mem_cons_of_mem _ hd)⟩
  | some u =>
    rw [hs, Option.getD_some] at h
    obtain ⟨c, r, rfl, hc, hall⟩ := hpart u h.1.1 h.2
    exact ⟨'-', c :: r, Text.stripStart?_eq_some_iff.mp hs, .inl rfl, hall⟩

theorem start_number (h : c = '-' ∨ c.isDigit = true) : start c = some ([], .number [c]) := by
  obtain rfl | h := h
  · rfl
  · have hne (d : Char) (hd : d.isDigit = false) : c ≠ d := by
      rintro rfl
      rw [h] at hd
      cases hd
    have hpunctuation : punctuation? c = none := by
      simp [punctuation?, hne]
    have hspace : isSpace c = false := by
      simp [isSpace, hne]
    rw [start, hpunctuation]
    simp [hspace, hne, h]

theorem scans_digits (r : Text) (literal : Text) (h : ∀ d ∈ r, isNumberChar d = true) :
    Scans (.number literal) r [] (.number (r.reverse ++ literal)) := by
  induction r generalizing literal with
  | nil => exact .nil
  | cons d r ih =>
    obtain ⟨hd, hr⟩ := List.forall_mem_cons.mp h
    have hstep : step (.number literal) d = some ([], .number (d :: literal)) := by
      rw [step, if_pos hd]
    rw [List.reverse_cons, List.append_assoc]
    exact .cons hstep (ih (d :: literal) hr)

theorem scans_number (h : isNumber t = true) : Scans .between t [] (.number t.reverse) := by
  obtain ⟨c, r, rfl, hc, hr⟩ := exists_of_isNumber h
  rw [List.reverse_cons]
  exact .cons (start_number hc) (scans_digits r [c] hr)

/-! ## Values -/

def Behind (r : Text) : Prop := ∀ c ∈ r.head?, c = ',' ∨ c = ']' ∨ c = '}'

theorem behind_cons {r : Text} (h : c = ',' ∨ c = ']' ∨ c = '}') : Behind (c :: r) := by
  intro d hd
  rwa [← Option.some.inj hd]

/-- The text gives the tokens, whatever may stand behind a value. -/
def Yields (t : Text) (ts : List Token) : Prop :=
  ∀ r, Behind r → scan .between (t ++ r) = (scan .between r).map (ts ++ ·)

theorem Scans.yields (h : Scans .between t ts .between) : Yields t ts := fun r _ => h r

theorem Scans.append_yields (h : Scans .between t ts .between) (h' : Yields t' ts') :
    Yields (t ++ t') (ts ++ ts') := by
  intro r hr
  rw [List.append_assoc, h, h' r hr, map_append_map]

theorem Yields.followed (h : Yields t ts) (hc : c = ',' ∨ c = ']' ∨ c = '}')
    (h' : Scans .between (c :: t') ts' .between) :
    Scans .between (t ++ c :: t') (ts ++ ts') .between := by
  intro r
  rw [List.append_assoc, h (c :: t' ++ r) (behind_cons hc), h', map_append_map]

theorem Yields.separated (h : Yields t ts) (h' : Yields t' ts') :
    Yields (t ++ ',' :: t') (ts ++ .comma :: ts') := by
  have hcomma : Scans .between (t ++ [',']) (ts ++ [.comma]) .between :=
    h.followed (.inl rfl) (.single rfl)
  simpa using hcomma.append_yields h'

/-- A number or a word, which ends in front of what may stand behind a value. -/
theorem yields_of_finish (h : Scans .between t [] m) (hm : finish m = some ts)
    (hstop : ∀ c, c = ',' ∨ c = ']' ∨ c = '}' → step m c = finishThen m c) : Yields t ts := by
  intro r hr
  rw [h, scan_finish hm fun c hc => hstop c (hr c hc), map_append_map]
  rfl

theorem yields_number (h : isNumber t = true) : Yields t [.number t] := by
  have hend : finish (.number t.reverse) = some [.number t] := by
    rw [finish, List.reverse_reverse, if_pos h]
  refine yields_of_finish (scans_number h) hend ?_
  rintro c (rfl | rfl | rfl) <;> rfl

theorem yields_word {w : Token} (h : Scans .between t [] (.word t.reverse))
    (hw : keyword? t = some w) : Yields t [w] := by
  have hend : finish (.word t.reverse) = some [w] := by
    rw [finish, List.reverse_reverse, hw]
    rfl
  refine yields_of_finish h hend ?_
  rintro c (rfl | rfl | rfl) <;> rfl

theorem yields_writeItems {items : List Value} (h : ∀ v ∈ items, Yields v.write v.tokens) :
    Yields (Value.writeItems items) (Value.itemTokens items) := by
  induction items with
  | nil => exact Scans.nil.yields
  | cons v vs ih =>
    obtain ⟨hv, hvs⟩ := List.forall_mem_cons.mp h
    cases vs with
    | nil => exact hv
    | cons w ws => exact hv.separated (ih hvs)

theorem yields_writeMembers {members : List (Option Text × Value)}
    (h : ∀ m ∈ members, Yields m.2.write m.2.tokens) :
    Yields (Value.writeMembers members) (Value.memberTokens members) := by
  have hmember (m : Option Text × Value) (hm : Yields m.2.write m.2.tokens) :
      Yields (writeString m.1 ++ ':' :: m.2.write) (.string m.1 :: .colon :: m.2.tokens) := by
    have hkey : Scans .between (writeString m.1 ++ [':']) [.string m.1, .colon] .between :=
      (scans_writeString m.1).append (.single rfl)
    simpa using hkey.append_yields hm
  induction members with
  | nil => exact Scans.nil.yields
  | cons m ms ih =>
    obtain ⟨hm, hms⟩ := List.forall_mem_cons.mp h
    cases ms with
    | nil => exact hmember m hm
    | cons n ns => exact (hmember m hm).separated (ih hms)

theorem yields_write {v : Value} (h : v.Legible) : Yields v.write v.tokens := by
  induction h with
  | null => exact yields_word (.cons rfl (.cons rfl (.cons rfl (.single rfl)))) rfl
  | bool b =>
    cases b with
    | true => exact yields_word (.cons rfl (.cons rfl (.cons rfl (.single rfl)))) rfl
    | false => exact yields_word (.cons rfl (.cons rfl (.cons rfl (.cons rfl (.single rfl))))) rfl
  | number h => exact yields_number h
  | string t => exact (scans_writeString t).yields
  | @array items _ ih =>
    have hopen : Scans .between ['['] [.openBracket] .between := .single rfl
    exact (hopen.append ((yields_writeItems ih).followed (.inr (.inl rfl)) (.single rfl))).yields
  | @object members _ ih =>
    have hopen : Scans .between ['{'] [.openBrace] .between := .single rfl
    exact (hopen.append ((yields_writeMembers ih).followed (.inr (.inr rfl)) (.single rfl))).yields

theorem scan_write {v : Value} (h : v.Legible) : scan .between v.write = some v.tokens := by
  have hall := yields_write h [] (by simp [Behind])
  simpa [scan, finish] using hall

end Token
end AnimationScope.Json
