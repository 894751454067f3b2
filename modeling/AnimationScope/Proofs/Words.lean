import AnimationScope.Proofs.NameEnds
import AnimationScope.Proofs.References
import Mathlib.Data.List.Flatten

/-!
# Names as words and as preludes

A usable name that escapes no newline is a word of its own and declares itself, if there
are no blanks at its ends. A name that does is never a word of its own text.
-/

namespace AnimationScope

open Css Animation

/-! ## Words of a value -/

namespace Animation

variable {t w x value : Text} {names : NameMap}

theorem Piece.length_le_of_mem {ps : List Piece} (h : w ∈ ps.filterMap word?) :
    w.length ≤ (join ps).length := by
  obtain ⟨p, hp, hw⟩ := List.mem_filterMap.mp h
  have htext : p.text = w := by
    cases p with
    | gap s => cases hw
    | word s => exact Option.some.inj hw
  rw [← htext, join]
  exact (List.sublist_flatten_of_mem (List.mem_map_of_mem hp)).length_le

theorem length_le_of_mem_wordsOf (h : w ∈ wordsOf value) : w.length ≤ value.length := by
  rw [wordsOf] at h
  cases hl : lexemes value with
  | error e =>
    rw [hl] at h
    cases h
  | ok ls =>
    rw [hl] at h
    rw [← join_lexemes hl, ← Piece.join_ofLexemes]
    exact Piece.length_le_of_mem h

theorem lexemes_of_lexed {ls : List Lexeme} (h : Lexed ls [])
    (hk : ∀ l ∈ ls, l.kind ≠ .openBrace ∧ l.kind ≠ .closeBrace) :
    lexemes (Lexeme.join ls) = .ok ls :=
  Ends.of_lexed (e := none) (by simp) h (balanced_of_plain hk)

theorem wordsOf_of_lexeme (h : lexemes t = .ok [⟨.other, t⟩]) : wordsOf t = [t] := by
  rw [wordsOf, h]
  rfl

theorem renameValue?_of_lexeme (h : lexemes t = .ok [⟨.other, t⟩])
    (hget : names.get? t = some value) : renameValue? names t = some value := by
  have hkey : names.contains t = true := by
    rw [NameMap.contains]
    cases hp : names.position? t with
    | some i => rfl
    | none =>
      rw [NameMap.get?, hp] at hget
      cases hget
  have hpieces : Piece.ofLexemes [⟨.other, t⟩] = [.word t] := rfl
  rw [renameValue?, h]
  simp [hpieces, Piece.isKey, Piece.rename, hkey, hget]

theorem lexemes_name (h : isCustomIdent t = true) (hnew : escapesNewline t = false) :
    lexemes t = .ok [⟨.other, t⟩] := by
  have hl : Lexed [⟨.other, t⟩] [] := lexed_name (x := []) h hnew .nil atMark_nil rfl (by simp)
  simpa using lexemes_of_lexed hl (by simp)

theorem lexemes_name_space (h : isCustomIdent t = true) (hnew : escapesNewline t = false)
    (hhex : endsInHex t = true) : lexemes (t ++ [' ']) = .ok [⟨.other, t ++ [' ']⟩] := by
  simpa using lexemes_of_lexed (lexed_name_space h hnew hhex atMark_nil) (by simp)

theorem not_mem_wordsOf (h : isCustomIdent t = true) (hnew : escapesNewline t = true)
    (hx : x <+: t ++ [' ']) : t ∉ wordsOf x := by
  intro hmem
  have hlen := length_le_of_mem_wordsOf hmem
  obtain ⟨e, rfl⟩ : t <+: x := List.prefix_of_prefix_length_le (List.prefix_append _ _) hx hlen
  rw [List.prefix_append_right_inj] at hx
  have he : Unmarked e := by
    apply unmarked_of_blank
    intro c hc
    obtain rfl := List.mem_singleton.mp (hx.subset hc)
    decide
  have helen : e.length ≤ 1 := hx.length_le
  obtain ⟨us, s, ls, hus, hshort, hs, hkinds, hjoin, hlexed⟩ :=
    exists_lexed_escapesNewline h hnew he atMark_nil
  have hplain : ∀ l ∈ us ++ ⟨.other, ['\\']⟩ :: ⟨.whitespace, s⟩ :: ls,
      l.kind ≠ .openBrace ∧ l.kind ≠ .closeBrace := by
    have hls : ∀ l ∈ ls, l.kind ≠ .openBrace ∧ l.kind ≠ .closeBrace := by
      intro l hl
      rcases hkinds l hl with hk | hk <;> simp [hk]
    rcases hus with rfl | ⟨u, rfl⟩ <;> simpa using hls
  have hlex := lexemes_of_lexed hlexed hplain
  have hpieces : Piece.ofLexemes (us ++ ⟨.other, ['\\']⟩ :: ⟨.whitespace, s⟩ :: ls) =
      .word (Lexeme.join us ++ ['\\']) :: .gap s :: Piece.ofLexemes ls := by
    rcases hus with rfl | ⟨u, rfl⟩ <;> simp [Piece.ofLexemes, Piece.separates, Piece.startsWord]
  have hjoinlen := congrArg List.length hjoin
  have hspos := List.length_pos_iff.mpr hs
  simp only [Lexeme.join_append, Lexeme.join_cons, List.length_append, List.length_cons,
    List.length_nil] at hjoinlen
  rw [hjoin] at hlex
  rw [wordsOf, hlex] at hmem
  simp only [hpieces, List.filterMap_cons, Piece.word?, List.mem_cons] at hmem
  -- The first word is too short, and too little is left behind it for another one.
  rcases hmem with hfirst | hmem
  · have hfirstlen := congrArg List.length hfirst
    simp only [List.length_append, List.length_cons, List.length_nil] at hfirstlen
    omega
  · have hrestlen := Piece.length_le_of_mem hmem
    rw [Piece.join_ofLexemes] at hrestlen
    omega

/-! ## Declared names -/

theorem Text.trim_sublist (t : Text) : t.trim.Sublist t := by
  have hend : t.trimStart.trimEnd.Sublist t.trimStart.reverse.reverse :=
    (List.dropWhile_sublist _).reverse
  rw [List.reverse_reverse] at hend
  exact hend.trans (List.dropWhile_sublist _)

theorem length_withoutComments_le (t : Text) : (withoutComments t).length ≤ t.length := by
  rw [withoutComments]
  cases hl : lexemes t with
  | error e => exact Nat.le_refl _
  | ok ls =>
    rw [← join_lexemes hl]
    exact (List.filter_sublist.flatMap _).length_le

theorem length_unquote_le (t : Text) : (unquote t).length ≤ t.length := by
  cases t with
  | nil => exact Nat.le_refl _
  | cons c r =>
    rw [unquote]
    split_ifs
    · exact (List.dropLast_sublist r).length_le.trans (Nat.le_succ _)
    · exact Nat.le_refl _

theorem length_le_of_declaredName? {params name : Text} (h : declaredName? params = some name) :
    name.length ≤ params.length := by
  rw [declaredName?] at h
  split at h
  · cases h
  · obtain rfl := Option.some.inj h
    calc (unquote _).length ≤ (Text.trim (withoutComments params)).length := length_unquote_le _
      _ ≤ (withoutComments params).length := (Text.trim_sublist _).length_le
      _ ≤ params.length := length_withoutComments_le params

theorem unquote_of_unmarked (h : Unmarked t) : unquote t = t := by
  cases t with
  | nil => rfl
  | cons c r =>
    have h1 := h.head_ne (d := '\x22') (by decide)
    have h2 := h.head_ne (d := '\x27') (by decide)
    simp [unquote, h1, h2]

theorem declaredName?_name (h : isCustomIdent t = true) (hnew : escapesNewline t = false)
    (htrim : t.trim = t) : declaredName? t = some t := by
  obtain ⟨hu, hne⟩ := unmarked_of_isCustomIdent h
  obtain ⟨c, r, rfl⟩ := List.exists_cons_of_ne_nil hne
  have hcomments : withoutComments (c :: r) = c :: r := by
    rw [withoutComments, lexemes_name h hnew]
    simp
  rw [declaredName?, hcomments, htrim]
  exact congrArg some (unquote_of_unmarked hu)

end Animation

end AnimationScope
