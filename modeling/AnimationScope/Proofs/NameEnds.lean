import AnimationScope.Proofs.DefaultNames
import AnimationScope.Proofs.Identifiers
import AnimationScope.Proofs.Renaming

/-!
# Where a name ends

A usable name is a token of its own up to whatever does not go on with it, unless one of
its escapes ends elsewhere. A backslash in front of a newline ends the token, and a short
hexadecimal escape at the end of the name takes a space behind the name into the token.
-/

namespace AnimationScope

open Css Animation

theorem Css.Barrier.of_isSpace {c : Char} (h : isSpace c = true) : Barrier c :=
  .of_isBarrier (by rw [isBarrier, h]; rfl)

namespace Animation

/-- Whether the name has an escape of some kind, which is told from the escaped character
and from all that is behind it. -/
def hasEscape (p : Char → Text → Bool) : Text → Bool
  | '\\' :: c :: r => p c r || hasEscape p r
  | _ :: r => hasEscape p r
  | [] => false

def isHex (c : Char) : Bool := (Text.hexValue? c).isSome

/-- Whether a backslash in the name stands in front of a newline. -/
def escapesNewline (t : Text) : Bool := hasEscape (fun c _ => isNewline c) t

/-- Whether the name ends in an escape of at most six hexadecimal digits. -/
def endsInHex (t : Text) : Bool := hasEscape (fun c r => r.length < 6 && (c :: r).all isHex) t

variable {t u v rest : Text} {c : Char} {p : Char → Text → Bool}

/-! ## Names character by character -/

theorem hasEscape_cons (hc : c ≠ '\\') : hasEscape p (c :: t) = hasEscape p t := by
  rw [hasEscape]
  rintro d r rfl
  exact absurd rfl hc

theorem isIdentTail_cases (h : isIdentTail (c :: t) = true) :
    (c ≠ '\\' ∧ isNameChar c = true ∧ isIdentTail t = true) ∨
      ∃ d r, c = '\\' ∧ t = d :: r ∧ isIdentTail r = true := by
  by_cases hc : c = '\\'
  · subst hc
    cases t with
    | nil => exact absurd h (by decide)
    | cons d r => exact .inr ⟨d, r, rfl, rfl, h⟩
  · rw [isIdentTail_cons hc, Bool.and_eq_true] at h
    exact .inl ⟨hc, isNameChar_of_ident h.1, h.2⟩

theorem hasEscape_append (hu : ∀ x ∈ u, x ≠ '\\') (p : Char → Text → Bool) (v : Text) :
    hasEscape p (u ++ v) = hasEscape p v := by
  induction u with
  | nil => rfl
  | cons c u ih =>
    rw [List.cons_append, hasEscape_cons (hu c List.mem_cons_self)]
    exact ih fun x hx => hu x (List.mem_cons_of_mem _ hx)

theorem isIdentTail_of_append (hu : ∀ x ∈ u, x ≠ '\\') (h : isIdentTail (u ++ v) = true) :
    isIdentTail v = true := by
  induction u with
  | nil => exact h
  | cons c u ih =>
    rw [List.cons_append, isIdentTail_cons (hu c List.mem_cons_self), Bool.and_eq_true] at h
    exact ih (fun x hx => hu x (List.mem_cons_of_mem _ hx)) h.2

/-- The name is divided in front of its first escape of a kind. -/
theorem exists_of_hasEscape (h : isIdentTail t = true) (hp : hasEscape p t = true) :
    ∃ u c r, t = u ++ '\\' :: c :: r ∧ isIdentTail u = true ∧ isIdentTail r = true ∧
      p c r = true ∧ hasEscape (fun d s => p d (s ++ '\\' :: c :: r)) u = false := by
  fun_induction isIdentTail t with
  | case1 => cases hp
  | case2 d t ih =>
    cases hd : p d t with
    | true => exact ⟨[], d, t, rfl, rfl, h, hd, rfl⟩
    | false =>
      obtain ⟨u, c, r, rfl, hu, hr, hc, hfirst⟩ := ih h (by simpa [hasEscape, hd] using hp)
      exact ⟨'\\' :: d :: u, c, r, rfl, hu, hr, hc, by rw [hasEscape, hd, hfirst]; rfl⟩
  | case3 d t _ ih =>
    obtain ⟨hclass, ht⟩ := Bool.and_eq_true_iff.mp h
    have hd := ne_backslash_of_ident hclass
    rw [hasEscape_cons hd] at hp
    obtain ⟨u, c, r, rfl, hu, hr, hc, hfirst⟩ := ih ht hp
    refine ⟨d :: u, c, r, rfl, ?_, hr, hc, by rw [hasEscape_cons hd, hfirst]⟩
    rw [isIdentTail_cons hd, hclass, hu]
    rfl

theorem escapesNewline_of_append (hu : isIdentTail u = true)
    (h : escapesNewline (u ++ v) = false) : escapesNewline u = false := by
  rw [escapesNewline] at h ⊢
  fun_induction isIdentTail u with
  | case1 => rfl
  | case2 d u ih =>
    simp only [List.cons_append, hasEscape, Bool.or_eq_false_iff] at h ⊢
    exact ⟨h.1, ih hu h.2⟩
  | case3 d u _ ih =>
    obtain ⟨hclass, hu⟩ := Bool.and_eq_true_iff.mp hu
    have hd := ne_backslash_of_ident hclass
    rw [List.cons_append, hasEscape_cons hd] at h
    rw [hasEscape_cons hd]
    exact ih hu h

/-! ## Escapes -/

theorem ne_backslash_of_isHex (h : isHex c = true) : c ≠ '\\' := by
  rintro rfl
  exact absurd h (by decide)

theorem isSpace_of_isIdentTail (h : isIdentTail (c :: t) = true) : isSpace c = false := by
  rcases isIdentTail_cases h with ⟨-, hc, -⟩ | ⟨d, r, rfl, -, -⟩
  · rw [Bool.eq_false_iff]
    intro hs
    rw [(Barrier.of_isSpace hs).nameChar] at hc
    cases hc
  · decide

theorem escapeEndLength_of_not_space (h : ∀ d ∈ t.head?, isSpace d = false) :
    escapeEndLength t = 0 := by
  cases t with
  | nil => rfl
  | cons d r => exact (breakLength_eq_zero rfl r).mpr (h d rfl)

theorem escapeDigits_of_head (hrest : ∀ d ∈ rest.head?, isHex d = false) (t : Text) :
    escapeDigits (t ++ rest) = escapeDigits t := by
  cases rest with
  | nil => rw [List.append_nil]
  | cons d y => exact escapeDigits_append (Option.not_isSome_iff_eq_none.mp (by
      rw [Bool.not_eq_true]
      exact hrest d rfl)) t y

theorem escapeDigits_prefix (t : Text) :
    escapeDigits t <+: t ∧ (escapeDigits t).length ≤ 6 ∧ ∀ x ∈ escapeDigits t, isHex x = true := by
  have hpre : escapeDigits t <+: t.take 6 := List.takeWhile_prefix _
  refine ⟨hpre.trans (List.take_prefix 6 t), ?_, List.all_eq_true.mp List.all_takeWhile⟩
  exact hpre.length_le.trans (List.length_take_le 6 t)

/-- What a backslash escapes is at the head of the name, and there is no other backslash
in it. -/
theorem exists_escape (h : isIdentTail t = true) (hrest : ∀ d ∈ rest.head?, isHex d = false)
    (hend : endsInHex ('\\' :: c :: t) = true → ∀ d ∈ rest.head?, isSpace d = false) :
    ∃ e v, t = e ++ v ∧ (∀ x ∈ e, x ≠ '\\') ∧ escapeLength (c :: t ++ rest) = e.length + 1 := by
  rw [escapeLength, escapeDigits_of_head hrest]
  obtain ⟨hpre, hlen, hhex⟩ := escapeDigits_prefix (c :: t)
  cases hdigits : escapeDigits (c :: t) with
  | nil => exact ⟨[], t, rfl, by simp, by simp⟩
  | cons x e =>
    rw [hdigits] at hpre hlen hhex
    obtain ⟨v, hv⟩ := hpre
    rw [List.cons_append] at hv
    obtain ⟨rfl, rfl⟩ := List.cons.inj hv
    have hplain : ∀ y ∈ e, y ≠ '\\' := fun y hy =>
      ne_backslash_of_isHex (hhex y (List.mem_cons_of_mem _ hy))
    refine ⟨e, v, rfl, hplain, ?_⟩
    -- The digits are followed by more of the name, or else they are all that is left of it.
    have hspace : ∀ d ∈ (v ++ rest).head?, isSpace d = false := by
      cases v with
      | cons y v =>
        intro d hd
        obtain rfl : y = d := by simpa using hd
        exact isSpace_of_isIdentTail (isIdentTail_of_append hplain h)
      | nil =>
        apply hend
        have hall : (x :: e).all isHex = true := List.all_eq_true.mpr hhex
        have hshort : e.length < 6 := Nat.lt_of_succ_le hlen
        rw [List.append_nil, endsInHex, hasEscape, hall, decide_eq_true hshort]
        rfl
    have hdrop : (x :: (e ++ v) ++ rest).drop (x :: e).length = v ++ rest := by simp
    simp only [hdrop, escapeEndLength_of_not_space hspace]
    rfl

/-! ## The length of a name -/

/-- A name goes on up to its end, unless a hexadecimal escape goes on with a space. -/
theorem nameLength_ident (h : isIdentTail t = true) (hnew : escapesNewline t = false)
    (hrest : ∀ d ∈ rest.head?, isHex d = false)
    (hend : endsInHex t = true → ∀ d ∈ rest.head?, isSpace d = false) :
    nameLength 0 (t ++ rest) = t.length + nameLength 0 rest := by
  induction hl : t.length using Nat.strongRecOn generalizing t with
  | ind n ih =>
    subst hl
    cases t with
    | nil => simp
    | cons c t =>
      rcases isIdentTail_cases h with ⟨hc, hname, ht⟩ | ⟨d, t, rfl, rfl, ht⟩
      · rw [escapesNewline, hasEscape_cons hc] at hnew
        rw [endsInHex, hasEscape_cons hc] at hend
        rw [List.cons_append, nameLength, if_pos hname, ih _ (by simp) ht hnew hend rfl,
          List.length_cons]
        omega
      · obtain ⟨e, v, rfl, he, hlen⟩ := exists_escape ht hrest hend
        simp only [escapesNewline, hasEscape, Bool.or_eq_false_iff, hasEscape_append he] at hnew
        have hvrest : endsInHex v = true → ∀ x ∈ rest.head?, isSpace x = false := by
          intro hx
          apply hend
          rw [endsInHex, hasEscape, hasEscape_append he, ← endsInHex, hx, Bool.or_true]
        have hnext := ih v.length (by simp; omega) (isIdentTail_of_append he ht) hnew.2 hvrest rfl
        have hdrop : (d :: (e ++ v) ++ rest).drop (e.length + 1) = v ++ rest := by simp
        have hhead : headIs isNewline (d :: (e ++ v) ++ rest) = false := hnew.1
        rw [List.cons_append, nameLength, if_neg (by decide), hhead, if_pos (by decide), hlen,
          nameLength_skip, hdrop, hnext]
        simp only [List.length_cons, List.length_append]
        omega

theorem nameLength_endsInHex (h : isIdentTail t = true) (hnew : escapesNewline t = false)
    (hend : endsInHex t = true) (rest : Text) :
    nameLength 0 (t ++ ' ' :: rest) = t.length + 1 + nameLength 0 rest := by
  obtain ⟨u, d, ds, rfl, hu, -, hhex, -⟩ := exists_of_hasEscape h hend
  rw [Bool.and_eq_true, decide_eq_true_eq] at hhex
  obtain ⟨hlen, hhex⟩ := hhex
  have hdigits : escapeDigits (d :: ds ++ ' ' :: rest) = d :: ds := by
    have htake : (d :: ds).take 6 = d :: ds := List.take_of_length_le hlen
    rw [escapeDigits_append (by decide), escapeDigits, htake]
    exact List.takeWhile_eq_self_iff.mpr (List.all_eq_true.mp hhex)
  have hescape : escapeLength (d :: ds ++ ' ' :: rest) = ds.length + 2 := by
    have hdrop : (d :: ds ++ ' ' :: rest).drop (d :: ds).length = ' ' :: rest := List.drop_left
    simp only [escapeLength, hdigits, hdrop]
    rfl
  have hd : isNewline d = false := by
    have hx : isHex d = true := (Bool.and_eq_true_iff.mp hhex).1
    rw [Bool.eq_false_iff]
    intro hb
    rw [isHex, (Barrier.of_isSpace (by simp [isSpace, hb])).hex] at hx
    cases hx
  have hhead : headIs isNewline (d :: ds ++ ' ' :: rest) = false := hd
  have hdrop : (d :: ds ++ ' ' :: rest).drop (ds.length + 2) = rest := by simp
  have hname : nameLength 0 ('\\' :: (d :: ds ++ ' ' :: rest)) =
      ds.length + 3 + nameLength 0 rest := by
    rw [nameLength, if_neg (by decide), hhead, if_pos (by decide), hescape, nameLength_skip, hdrop]
    simp only [List.length_append, List.length_cons]
    omega
  rw [List.append_assoc, List.cons_append, nameLength_ident hu (escapesNewline_of_append hu hnew)
    (by simp; decide) (fun _ => by simp; decide), hname]
  simp only [List.length_append, List.length_cons]
  omega

end Animation

/-! ## Names as tokens -/

namespace Css

variable {t x rest : Text} {c : Char}

theorem startsIdent_head (h : startsIdent (c :: t) = true) :
    isNameStart c = true ∨ c = '-' ∨ c = '\\' := by
  unfold startsIdent at h
  split at h
  · next heq => cases heq
  · next heq => exact .inr (.inl (List.cons.inj heq).1)
  · next heq => exact .inr (.inr (List.cons.inj heq).1)
  · next heq =>
    obtain ⟨rfl, -⟩ := List.cons.inj heq
    exact .inl h

theorem isSpace_of_startsIdent (h : startsIdent (c :: t) = true) : isSpace c = false := by
  rcases startsIdent_head h with hc | rfl | rfl
  · rw [Bool.eq_false_iff]
    intro hs
    rw [(Barrier.of_isSpace hs).nameStart] at hc
    cases hc
  · decide
  · decide

theorem startsUnsigned_of_isNameStart (h : isNameStart c = true) (t : Text) :
    startsUnsigned (c :: t) = false := by
  have hdot : c ≠ '.' := by
    rintro rfl
    exact absurd h (by decide)
  unfold startsUnsigned
  split
  · next heq => exact absurd (List.cons.inj heq).1 hdot
  · exact isDigit_of_isNameStart h

theorem startsNumber_of_startsIdent (h : startsIdent t = true) : startsNumber t = false := by
  cases t with
  | nil => rfl
  | cons c t =>
    rcases startsIdent_head h with hc | rfl | rfl
    · have hsign : isSign c = false := by
        rw [Bool.eq_false_iff]
        intro hs
        obtain rfl | rfl : c = '+' ∨ c = '-' := by simpa [isSign] using hs
        all_goals exact absurd hc (by decide)
      rw [startsNumber, hsign]
      exact startsUnsigned_of_isNameStart hc t
    · show startsUnsigned t = false
      cases t with
      | nil => rfl
      | cons d t =>
        have hd : (isNameStart d || d == '-' || d == '\\') = true := h
        simp only [Bool.or_eq_true, beq_iff_eq] at hd
        rcases hd with (hd | rfl) | rfl
        · exact startsUnsigned_of_isNameStart hd t
        · rfl
        · rfl
    · rfl

theorem atMark_nil : AtMark [] := by
  intro d hd
  cases hd

theorem atMark_closeBrace (y : Text) : AtMark ('}' :: y) := by
  intro d hd
  obtain rfl : '}' = d := by simpa using hd
  decide

theorem unmarked_space : Unmarked [' '] := .char (.inr (by decide)) .nil

theorem lexed_space (h : ∀ d ∈ rest.head?, isSpace d = false) :
    Lexed [⟨.whitespace, [' ']⟩] rest :=
  lexed_spaces (by simp) (by simp; decide) h

theorem lexed_ident (hs : startsIdent (t ++ (x ++ rest)) = true) (hu : Unmarked (t ++ x))
    (hr : AtMark rest) (hne : t ≠ []) (hlen : nameLength 0 (t ++ (x ++ rest)) = t.length) :
    Lexed [⟨.other, t⟩] (x ++ rest) := by
  obtain ⟨c, u, rfl⟩ := List.exists_cons_of_ne_nil hne
  rw [List.cons_append] at hs hu hlen
  have hfirst : Token.first c (u ++ (x ++ rest)) = (.other, u.length + 1) := by
    have hop := hu.operatorLength hr
    have hlike := hu.identLike hr
    rw [List.append_assoc] at hop
    rw [List.cons_append, List.append_assoc] at hlike
    rw [hu.first_plain (isSpace_of_startsIdent hs), startsNumber_of_startsIdent hs, hop, hs, hlike,
      hlen]
    rfl
  refine ⟨[⟨.other, c :: u⟩], ?_, .token rfl .nil, by simp [Token.Whole], rfl⟩
  apply Token.cut_singleton <;> rw [hfirst]
  rfl

theorem lexed_backslash (hc : isNewline c = true) (hu : Unmarked (c :: t)) (hr : AtMark rest) :
    Lexed [⟨.other, ['\\']⟩] (c :: t ++ rest) := by
  have hne : c ≠ '\\' := by
    rintro rfl
    exact absurd hc (by decide)
  have hu' : Unmarked ('\\' :: c :: t) := .escape c (hu.of_cons hne)
  have hnum : startsNumber ('\\' :: (c :: t ++ rest)) = false := rfl
  have hident : startsIdent ('\\' :: (c :: t ++ rest)) = false := by
    rw [startsIdent, List.cons_append, headIs, hc]
    rfl
  have hfirst : Token.first '\\' (c :: t ++ rest) = (.other, 1) := by
    rw [hu'.first_plain (by decide), hnum, hident, hu'.operatorLength hr]
    rfl
  refine ⟨[⟨.other, ['\\']⟩], ?_, .token rfl .nil, by simp [Token.Whole], rfl⟩
  apply Token.cut_singleton (u := []) <;> rw [List.nil_append, hfirst]
  rfl

end Css

namespace Animation

variable {t u x rest : Text} {c : Char}

/-- A custom identifier begins a token that is an identifier, unless it begins with an
escaped newline. -/
theorem startsIdent_of_isCustomIdent (h : isCustomIdent t = true)
    (hnew : ∀ c r, t = '\\' :: c :: r → isNewline c = false) (y : Text) :
    startsIdent (t ++ y) = true := by
  unfold isCustomIdent at h
  split at h
  · rfl
  · next r _ =>
    obtain ⟨c, r, rfl, hc⟩ := hasIdentStart_head (Bool.and_eq_true_iff.mp h).1
    show (isNameStart c || c == '-' || c == '\\') = true
    rcases hc with hc | ⟨rfl, -⟩
    · simp [hc]
    · rfl
  · obtain ⟨c, r, rfl, hc | ⟨rfl, hr⟩⟩ := hasIdentStart_head (Bool.and_eq_true_iff.mp h).1
    · exact startsIdent_of_isNameStart hc _
    · obtain ⟨d, r, rfl⟩ := List.exists_cons_of_ne_nil hr
      have hd : isNewline d = false := hnew d r rfl
      show (!isNewline d) = true
      rw [hd]
      rfl

theorem isNewline_of_escapesNewline (hnew : escapesNewline t = false) (c : Char) (r : Text)
    (h : t = '\\' :: c :: r) : isNewline c = false := by
  rw [h, escapesNewline, hasEscape, Bool.or_eq_false_iff] at hnew
  exact hnew.1

/-- A usable name without an escaped newline is one lexeme in front of what does not go on
with it. -/
theorem lexed_name (h : isCustomIdent t = true) (hnew : escapesNewline t = false)
    (hx : Unmarked x) (hr : AtMark rest) (hend : nameLength 0 (x ++ rest) = 0)
    (hhead : ∀ d ∈ (x ++ rest).head?, isHex d = false ∧ (endsInHex t = true → isSpace d = false)) :
    Lexed [⟨.other, t⟩] (x ++ rest) := by
  obtain ⟨hu, hne⟩ := unmarked_of_isCustomIdent h
  refine lexed_ident ?_ (hu.append hx) hr hne ?_
  · exact startsIdent_of_isCustomIdent h (isNewline_of_escapesNewline hnew) _
  · rw [nameLength_ident (isIdentTail_of_isCustomIdent h) hnew (fun d hd => (hhead d hd).1)
      (fun hhex d hd => (hhead d hd).2 hhex), hend, Nat.add_zero]

theorem lexed_name_space (h : isCustomIdent t = true) (hnew : escapesNewline t = false)
    (hhex : endsInHex t = true) (hr : AtMark rest) : Lexed [⟨.other, t ++ [' ']⟩] rest := by
  obtain ⟨hu, hne⟩ := unmarked_of_isCustomIdent h
  refine lexed_ident (x := []) ?_ ?_ hr (by simp) ?_
  · rw [List.append_assoc]
    exact startsIdent_of_isCustomIdent h (isNewline_of_escapesNewline hnew) _
  · rw [List.append_nil]
    exact hu.append unmarked_space
  · rw [List.nil_append, List.append_assoc, List.singleton_append,
      nameLength_endsInHex (isIdentTail_of_isCustomIdent h) hnew hhex, hr.nameLength_eq]
    simp

/-- An unmarked text that begins with a space begins with a lexeme of spaces. -/
theorem exists_lexed_space (hu : Unmarked (c :: t)) (hc : isSpace c = true) (hr : AtMark rest) :
    ∃ s ls, s ≠ [] ∧ Lexeme.join (⟨.whitespace, s⟩ :: ls) = c :: t ∧
      (∀ l ∈ ls, l.kind = .whitespace ∨ l.kind = .other) ∧
      Lexed (⟨.whitespace, s⟩ :: ls) rest := by
  obtain ⟨s, hs⟩ : ∃ s, s = (c :: t).takeWhile isSpace := ⟨_, rfl⟩
  obtain ⟨v, hv⟩ : ∃ v, v = (c :: t).dropWhile isSpace := ⟨_, rfl⟩
  have hsplit : s ++ v = c :: t := by
    rw [hs, hv]
    exact List.takeWhile_append_dropWhile
  have hall : ∀ x ∈ s, isSpace x = true := by
    rw [hs]
    exact List.all_eq_true.mp List.all_takeWhile
  have hne : s ≠ [] := by
    rw [hs, List.takeWhile_cons_of_pos hc]
    exact List.cons_ne_nil _ _
  have huv : Unmarked v := by
    have hdrop : (c :: t).drop s.length = v := by rw [← hsplit, List.drop_left]
    rw [← hdrop]
    apply hu.drop
    rintro x hx rfl
    rw [← hsplit, List.take_left] at hx
    exact absurd (hall _ hx) (by decide)
  have hend : ∀ d ∈ (v ++ rest).head?, isSpace d = false := by
    intro d hd
    rw [List.head?_append] at hd
    cases hvh : v.head? with
    | some x =>
      rw [hvh] at hd
      obtain rfl : x = d := by simpa using hd
      have hnot := List.head?_dropWhile_not isSpace (c :: t)
      rw [← hv, hvh] at hnot
      simpa using hnot
    | none =>
      rw [hvh] at hd
      exact (hr d (by simpa using hd)).2
  obtain ⟨ls, hls, rfl, hkinds⟩ := huv.exists_lexed hr
  refine ⟨s, ls, hne, by rw [Lexeme.join_cons, hsplit], hkinds, ?_⟩
  exact lexed_append_iff.mpr ⟨lexed_spaces hne hall hend, hls⟩

theorem isNewline_of_append {d : Char} {v : Text} (hu : isIdentTail u = true)
    (hnew : escapesNewline u = false) (hne : u ≠ []) (h : u ++ x = '\\' :: d :: v) :
    isNewline d = false := by
  obtain ⟨a, w, rfl⟩ := List.exists_cons_of_ne_nil hne
  rw [List.cons_append, List.cons.injEq] at h
  obtain ⟨hback, -⟩ | ⟨e, w, rfl, rfl, -⟩ := isIdentTail_cases hu
  · exact absurd h.1 hback
  · rw [List.cons_append, List.cons.injEq] at h
    rw [← h.2.1]
    exact isNewline_of_escapesNewline hnew _ _ rfl

/-- The part of a name in front of its first escaped newline is a lexeme. -/
theorem lexed_before_newline {c : Char} {r : Text} (h : isCustomIdent (u ++ '\\' :: c :: r) = true)
    (hu : isIdentTail u = true) (hfirst : escapesNewline u = false) (hc : isNewline c = true)
    (hne : u ≠ []) (hrx : Unmarked (r ++ x)) (hr : AtMark rest) :
    Lexed [⟨.other, u⟩] ('\\' :: c :: (r ++ x) ++ rest) := by
  have hstart := fun d v =>
    isNewline_of_append (d := d) (v := v) (x := '\\' :: c :: r) hu hfirst hne
  have hend : nameLength 0 ('\\' :: (c :: (r ++ x) ++ rest)) = 0 := by
    rw [nameLength, if_neg (by decide), List.cons_append, headIs, hc]
    rfl
  apply lexed_ident (x := '\\' :: c :: (r ++ x))
  · have htext : u ++ ('\\' :: c :: (r ++ x) ++ rest) = u ++ '\\' :: c :: r ++ (x ++ rest) := by
      simp
    rw [htext]
    exact startsIdent_of_isCustomIdent h hstart _
  · exact (unmarked_of_isIdentTail hu).append (.escape c hrx)
  · exact hr
  · exact hne
  · rw [nameLength_ident hu hfirst (by simp; decide) (fun _ => by simp; decide),
      List.cons_append, hend, Nat.add_zero]

/-- The part of a name in front of its first escaped newline is a lexeme, if it is not empty,
and the backslash is another one. -/
theorem exists_lexed_escapesNewline (h : isCustomIdent t = true) (hnew : escapesNewline t = true)
    (hx : Unmarked x) (hr : AtMark rest) :
    ∃ us s ls, (us = [] ∨ ∃ u, us = [⟨.other, u⟩]) ∧ (Lexeme.join us).length + 1 < t.length ∧
      s ≠ [] ∧ (∀ l ∈ ls, l.kind = .whitespace ∨ l.kind = .other) ∧
      Lexeme.join (us ++ ⟨.other, ['\\']⟩ :: ⟨.whitespace, s⟩ :: ls) = t ++ x ∧
      Lexed (us ++ ⟨.other, ['\\']⟩ :: ⟨.whitespace, s⟩ :: ls) rest := by
  obtain ⟨u, c, r, rfl, hu, hr', hc, hfirst⟩ :=
    exists_of_hasEscape (isIdentTail_of_isCustomIdent h) hnew
  have hrx : Unmarked (r ++ x) := (unmarked_of_isIdentTail hr').append hx
  have hbehind : Unmarked (c :: (r ++ x)) := .char (.inr (isNewline_blank hc)) hrx
  obtain ⟨s, ls, hs, hjoin, hkinds, hls⟩ := exists_lexed_space hbehind (by simp [isSpace, hc]) hr
  have hback : Lexed [⟨.other, ['\\']⟩] (Lexeme.join (⟨.whitespace, s⟩ :: ls) ++ rest) := by
    rw [hjoin]
    exact lexed_backslash hc hbehind hr
  have htail : Lexed (⟨.other, ['\\']⟩ :: ⟨.whitespace, s⟩ :: ls) rest :=
    lexed_append_iff.mpr ⟨hback, hls⟩
  by_cases hnil : u = []
  · subst hnil
    refine ⟨[], s, ls, .inl rfl, by simp, hs, hkinds, ?_, htail⟩
    rw [List.nil_append, Lexeme.join_cons, hjoin]
    rfl
  · refine ⟨[⟨.other, u⟩], s, ls, .inr ⟨u, rfl⟩, by simp, hs, hkinds, ?_,
      lexed_append_iff.mpr ⟨?_, htail⟩⟩
    · rw [Lexeme.join_append, Lexeme.join_cons ⟨.other, ['\\']⟩, hjoin]
      simp
    · rw [Lexeme.join_cons, hjoin]
      exact lexed_before_newline h hu hfirst hc hnil hrx hr

end Animation

end AnimationScope
