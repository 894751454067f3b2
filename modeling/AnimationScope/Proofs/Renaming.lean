import AnimationScope.Proofs.Collecting
import AnimationScope.Proofs.DefaultNames
import AnimationScope.Proofs.Reads

/-!
# Keyframes rules with another name

The head of a keyframes rule is read back with another name in it, if the name is
an unmarked text without blanks at its ends. So collecting leaves nodes that are read
back unless a name ends in an escaped blank.
-/

namespace AnimationScope

open Css Animation Naming

/-! ## Blanks around a text -/

namespace Text

variable {b t : Text}

theorem isBlank_of_mem_leading {c : Char} (h : c ∈ leading t) : isBlank c = true :=
  List.all_eq_true.mp List.all_takeWhile c h

theorem isBlank_of_mem_trailing {c : Char} (h : c ∈ trailing t) : isBlank c = true :=
  List.all_eq_true.mp List.all_takeWhile c (List.mem_reverse.mp h)

theorem leading_append (hb : ∀ c ∈ b, isBlank c = true)
    (ht : ∀ c ∈ t.head?, isBlank c = false) : leading (b ++ t) = b := by
  rw [leading, List.takeWhile_append_of_pos hb]
  cases t with
  | nil => simp
  | cons c t => simp [ht c rfl]

theorem trimStart_append (hb : ∀ c ∈ b, isBlank c = true)
    (ht : ∀ c ∈ t.head?, isBlank c = false) : trimStart (b ++ t) = t := by
  rw [trimStart, List.dropWhile_append_of_pos hb]
  cases t with
  | nil => simp
  | cons c t => simp [ht c rfl]

theorem trailing_append (hb : ∀ c ∈ b, isBlank c = true)
    (ht : ∀ c ∈ t.getLast?, isBlank c = false) : trailing (t ++ b) = b := by
  have h := leading_append (b := b.reverse) (t := t.reverse) (by simpa using hb)
    (by simpa using ht)
  rw [leading] at h
  rw [trailing, List.reverse_append, h, List.reverse_reverse]

theorem trimEnd_append (hb : ∀ c ∈ b, isBlank c = true)
    (ht : ∀ c ∈ t.getLast?, isBlank c = false) : trimEnd (t ++ b) = t := by
  have h := trimStart_append (b := b.reverse) (t := t.reverse) (by simpa using hb)
    (by simpa using ht)
  rw [trimStart] at h
  rw [trimEnd, List.reverse_append, h, List.reverse_reverse]

end Text

/-! ## Keywords -/

theorem Css.nameLength_append {name : Text} (h : ∀ c ∈ name, isNameChar c = true) (t : Text) :
    nameLength 0 (name ++ t) = name.length + nameLength 0 t := by
  induction name with
  | nil => simp
  | cons c name ih =>
    rw [List.cons_append, nameLength, if_pos (h c List.mem_cons_self),
      ih fun d hd => h d (List.mem_cons_of_mem _ hd), List.length_cons]
    omega

theorem Css.isNameStart_or_toLower_eq (c : Char) : isNameStart c = true ∨ c.toLower = c := by
  by_cases hc : c.val ≥ 'A'.val ∧ c.val ≤ 'Z'.val
  · have hupper : c.isUpper = true := decide_eq_true hc
    have halpha : c.isAlpha = true := Bool.or_eq_true_iff.mpr (.inl hupper)
    exact .inl (by simp [isNameStart, halpha])
  · exact .inr (dif_neg hc)

theorem Css.startsIdent_of_isNameStart {c : Char} (h : isNameStart c = true) (t : Text) :
    startsIdent (c :: t) = true := by
  unfold startsIdent
  split
  · next heq => cases heq
  · next heq =>
    obtain ⟨rfl, rfl⟩ := List.cons.inj heq
    exact absurd h (by decide)
  · next heq =>
    obtain ⟨rfl, rfl⟩ := List.cons.inj heq
    exact absurd h (by decide)
  · next heq =>
    obtain ⟨rfl, -⟩ := List.cons.inj heq
    exact h

theorem NamesKeyframes.isKeyword {name : Text} (h : NamesKeyframes name) :
    (∀ c ∈ name, isNameChar c = true) ∧ ∀ t, startsIdent (name ++ t) = true := by
  obtain ⟨p, hp, hname⟩ := h
  have hchars : ∀ p ∈ [] :: vendorPrefixes, ∀ c ∈ p ++ "keyframes".toList,
      isNameChar c = true := by
    simp only [vendorPrefixes, List.forall_mem_cons, List.not_mem_nil, false_implies, implies_true]
    exact ⟨List.all_eq_true.mp (by decide), List.all_eq_true.mp (by decide),
      List.all_eq_true.mp (by decide), List.all_eq_true.mp (by decide),
      List.all_eq_true.mp (by decide), trivial⟩
  have hheads : ∀ p ∈ [] :: vendorPrefixes, ∃ a b r, p ++ "keyframes".toList = a :: b :: r ∧
      (isNameStart a = true ∨ a = '-' ∧ isNameStart b = true) := by
    intro p hp
    simp only [vendorPrefixes, List.mem_cons, List.not_mem_nil, or_false] at hp
    rcases hp with rfl | rfl | rfl | rfl | rfl <;> exact ⟨_, _, _, rfl, by decide⟩
  constructor
  · intro c hc
    rcases isNameStart_or_toLower_eq c with hs | hl
    · rw [isNameChar, hs]
      rfl
    · have hmem : c.toLower ∈ name.map Char.toLower := List.mem_map_of_mem hc
      rw [hname, hl] at hmem
      exact hchars p hp c hmem
  · intro t
    obtain ⟨a, b, r, heq, hstart⟩ := hheads p hp
    rw [heq] at hname
    obtain ⟨c, name, rfl, rfl, hrest⟩ := List.map_eq_cons_iff.mp hname
    obtain ⟨d, name, rfl, rfl, -⟩ := List.map_eq_cons_iff.mp hrest
    rcases isNameStart_or_toLower_eq c with hc | hc
    · exact startsIdent_of_isNameStart hc _
    · rw [hc] at hstart
      rcases hstart with hstart | ⟨rfl, hstart⟩
      · exact startsIdent_of_isNameStart hstart _
      · have hd : isNameStart d = true := by
          rcases isNameStart_or_toLower_eq d with hd | hd
          · exact hd
          · rwa [hd] at hstart
        simp [startsIdent, headIs, hd]

variable {name rest : Text} {c : Char}

theorem Css.lexed_keyword (hchars : ∀ c ∈ name, isNameChar c = true)
    (hstart : ∀ t, startsIdent (name ++ t) = true) (hrest : nameLength 0 rest = 0) :
    Lexed [⟨.atKeyword, '@' :: name⟩] rest := by
  have hfirst : Token.first '@' (name ++ rest) = (.atKeyword, name.length + 1) := by
    rw [Token.first_at, if_pos (hstart rest), nameLength_append hchars, hrest,
      Nat.add_zero]
  refine ⟨[⟨.atKeyword, '@' :: name⟩], ?_, .token rfl .nil, by simp [Token.Whole], rfl⟩
  apply Token.cut_singleton
  · rw [hfirst]
  · rw [hfirst]
    rfl

theorem Css.nameLength_of_lexed_keyword (hchars : ∀ c ∈ name, isNameChar c = true)
    (hstart : ∀ t, startsIdent (name ++ t) = true) {k : Lexeme} (hk : k.kind = .atKeyword)
    (htext : k.text = '@' :: name) (h : Lexed [k] rest) : nameLength 0 rest = 0 := by
  obtain ⟨ts, hcut, hg, hw, hl⟩ := h
  obtain ⟨⟨kind, text⟩, rfl, rfl⟩ := hg.eq_singleton hl (by rw [hk]; decide)
  obtain rfl : text = '@' :: name := htext
  obtain ⟨-, hlen⟩ := Token.first_of_cut hcut
  rw [Token.first_at, if_pos (hstart rest), nameLength_append hchars] at hlen
  cases rest with
  | nil => rfl
  | cons d y =>
    simp only [List.length_append, List.length_cons] at hlen
    omega

/-! ## Gaps -/

theorem Css.Token.cut_whitespace {s : Text} (hs : s ≠ []) (hall : ∀ x ∈ s, isSpace x = true)
    (hrest : ∀ d ∈ rest.head?, isSpace d = false) : Cut [⟨.whitespace, s⟩] rest := by
  obtain ⟨a, u, rfl⟩ := List.exists_cons_of_ne_nil hs
  have htake : (u ++ rest).takeWhile isSpace = u := by
    rw [List.takeWhile_append_of_pos fun x hx => hall x (List.mem_cons_of_mem _ hx)]
    cases rest with
    | nil => simp
    | cons d y => simp [hrest d rfl]
  have hfirst : first a (u ++ rest) = (.whitespace, u.length + 1) := by
    rw [first_space (hall a List.mem_cons_self), htake]
  apply cut_singleton <;> rw [hfirst]
  rfl

theorem Css.lexed_spaces {s : Text} (hs : s ≠ []) (hall : ∀ x ∈ s, isSpace x = true)
    (hrest : ∀ d ∈ rest.head?, isSpace d = false) : Lexed [⟨.whitespace, s⟩] rest :=
  ⟨_, Token.cut_whitespace hs hall hrest, .token rfl .nil, by simp [Token.Whole], rfl⟩

theorem Css.lexed_front_spaces {s : Text} (hc : isSpace c = true)
    (hrest : ∀ d ∈ rest.head?, isSpace d = false) :
    Lexed [⟨.whitespace, c :: s.takeWhile isSpace⟩] (s.dropWhile isSpace ++ rest) := by
  refine lexed_spaces (List.cons_ne_nil _ _) ?_ ?_
  · exact List.forall_mem_cons.mpr ⟨hc, fun d hd => List.all_eq_true.mp List.all_takeWhile d hd⟩
  · intro d hd
    cases hdrop : s.dropWhile isSpace with
    | nil =>
      rw [hdrop] at hd
      exact hrest d hd
    | cons e z =>
      have hnot := List.head?_dropWhile_not isSpace s
      rw [hdrop] at hd hnot
      obtain rfl : e = d := by simpa using hd
      exact hnot

/-- A gap in front of something else than a space is the same whatever follows. -/
theorem Css.Lexed.replace_gap {ls : List Lexeme} {x y : Text} (h : Lexed ls x)
    (hls : ∀ l ∈ ls, l.IsGap) (hy : ∀ d ∈ y.head?, isSpace d = false) : Lexed ls y := by
  rcases List.eq_nil_or_concat ls with rfl | ⟨ms, l, rfl⟩
  · exact lexed_nil _
  rw [List.concat_eq_append] at h hls ⊢
  rcases hls l (by simp) with hk | hk
  · obtain ⟨h1, h2⟩ := lexed_append_iff.mp h
    have hspelled := h2.spelled l List.mem_cons_self
    obtain ⟨kind, text⟩ := l
    obtain rfl : kind = .whitespace := hk
    have hne : text ≠ [] := h2.text_ne_nil _ List.mem_cons_self
    obtain ⟨a, u, rfl⟩ := List.exists_cons_of_ne_nil hne
    have ha : isBarrier a = true := by
      rw [isBarrier, hspelled a List.mem_cons_self]
      rfl
    refine lexed_append_iff.mpr ⟨?_, lexed_spaces hne hspelled hy⟩
    exact Lexed.replace (y := u ++ x) (by simpa using h1) ha _
  · exact h.replace_of_stops (.inr (.inl hk)) _

/-! ## Heads of keyframes rules -/

/-- What stands in front of the prelude, up to the end of the prelude. -/
theorem Css.Ends.keyword {e : Option Char} {gap prelude : List Lexeme} {k : Lexeme}
    (h : Ends e (gap ++ k :: prelude)) (hk : k.kind = .atKeyword) :
    Lexed (gap ++ [k]) (Lexeme.join prelude ++ e.toList) := by
  have hsplit : gap ++ k :: prelude = gap ++ [k] ++ prelude := by simp
  rw [hsplit] at h
  cases e with
  | some c => exact (lexed_append_iff.mp (h [])).1
  | none =>
    rw [Option.toList_none, List.append_nil]
    refine (Lexed.of_lexemes h ?_).1
    rintro - l hl hother
    rw [List.getLast?_concat, Option.mem_some_iff] at hl
    rw [hl, hother] at hk
    cases hk

theorem Css.not_isNameChar_of_nameLength (h : nameLength 0 (c :: rest) = 0) :
    isNameChar c = false := by
  rw [nameLength] at h
  split_ifs at h with hc
  all_goals exact Bool.eq_false_iff.mpr hc

theorem Css.nameLength_of_blank (hb : Text.isBlank c = true) (hc : isNameChar c = false) :
    nameLength 0 (c :: rest) = 0 := by
  have hne : c ≠ '\\' := by
    rintro rfl
    exact absurd hb (by decide)
  simp [nameLength, hc, hne]

def Trimmed (t : Text) : Prop :=
  (∃ c ∈ t.head?, Text.isBlank c = false) ∧ ∃ c ∈ t.getLast?, Text.isBlank c = false

namespace Trimmed

variable {t : Text}

theorem head (h : Trimmed t) (u : Text) : ∀ c ∈ (t ++ u).head?, Text.isBlank c = false := by
  obtain ⟨⟨d, hd, hfirst⟩, -⟩ := h
  intro c hc
  rw [List.head?_append, Option.mem_def.mp hd] at hc
  obtain rfl : d = c := by simpa using hc
  exact hfirst

theorem isSpace_head (h : Trimmed t) (u : Text) : ∀ c ∈ (t ++ u).head?, isSpace c = false := by
  intro c hc
  have hblank := h.head u c hc
  rw [Bool.eq_false_iff]
  intro hs
  rw [isSpace_blank hs] at hblank
  cases hblank

theorem last (h : Trimmed t) : ∀ c ∈ t.getLast?, Text.isBlank c = false := by
  obtain ⟨-, d, hd, hlast⟩ := h
  intro c hc
  obtain rfl : d = c := Option.mem_unique hd hc
  exact hlast

theorem trimEnd_eq (h : Trimmed t) : t.trimEnd = t := by
  simpa using Text.trimEnd_append (b := []) (by simp) h.last

theorem trailing_eq (h : Trimmed t) : t.trailing = [] := by
  simpa using Text.trailing_append (b := []) (by simp) h.last

end Trimmed

/-- The parts of a prelude are told apart by the blanks between them. -/
theorem AtRule.ofPrelude_append {afterName value between : Text} (before keyword : Text)
    (ha : ∀ c ∈ afterName, Text.isBlank c = true) (hb : ∀ c ∈ between, Text.isBlank c = true)
    (hv : Trimmed value) :
    AtRule.ofPrelude before keyword (afterName ++ (value ++ between)) =
      ⟨before, keyword.tail, afterName, value, between, [], false⟩ := by
  rw [AtRule.ofPrelude, Text.leading_append ha (hv.head _), Text.trimStart_append ha (hv.head _),
    Text.trimEnd_append hb hv.last, Text.trailing_append hb hv.last]

variable {e : Option Char} {a : AtRule} {value : Text}

/-- A keyframes rule is read back if its prelude is unmarked and is no part of the keyword. -/
theorem AtRule.headReads_of_unmarked {gap : List Lexeme} {prelude x : Text}
    (hgap : ∀ l ∈ gap, l.IsGap) (hlexed : Lexed gap x) (hk : NamesKeyframes name) (he : IsEnd e)
    (hu : Unmarked prelude) (hsep : nameLength 0 (prelude ++ e.toList) = 0)
    (ha : { AtRule.ofPrelude (Lexeme.join gap) ('@' :: name) prelude with
      after := a.after, semicolon := a.semicolon } = a) : a.HeadReads e := by
  obtain ⟨hchars, hstart⟩ := hk.isKeyword
  obtain ⟨ls, hls, rfl, hkinds⟩ := hu.exists_lexed he.atMark
  have hplain : ∀ l ∈ ls, l.InPrelude := by
    intro l hl
    rcases hkinds l hl with h | h <;> simp [Lexeme.InPrelude, h]
  refine ⟨⟨gap, some ⟨.atKeyword, '@' :: name⟩, ls⟩, _, ⟨hgap, by simp, hplain, by simp⟩,
    rfl, ha, ?_⟩
  refine Ends.of_lexed ?_ ?_ ?_
  · intro d hd
    rcases he d hd with rfl | rfl | rfl <;> rfl
  · have hsplit : gap ++ ⟨.atKeyword, '@' :: name⟩ :: ls =
        gap ++ ([⟨.atKeyword, '@' :: name⟩] ++ ls) := by simp
    rw [hsplit, lexed_append_iff, lexed_append_iff]
    refine ⟨hlexed.replace_gap hgap ?_, lexed_keyword hchars hstart hsep, hls⟩
    intro d hd
    obtain rfl : '@' = d := by simpa using hd
    decide
  · apply balanced_of_plain
    intro l hl
    rcases List.mem_append.mp hl with hl | hl
    · rcases hgap l hl with h | h <;> simp [h]
    · rcases List.mem_cons.mp hl with rfl | hl
      · simp
      · exact (hplain l hl).2

theorem AtRule.HeadReads.withParams (h : a.HeadReads e) (he : IsEnd e)
    (hk : NamesKeyframes a.name) (hv : Unmarked value) (htrim : Trimmed value) :
    (a.withParams value).HeadReads e := by
  obtain ⟨⟨gap, keyword, prelude⟩, ⟨kind, text⟩, hf, hkw, ha, hends⟩ := h
  obtain rfl : keyword = some ⟨kind, text⟩ := hkw
  obtain rfl : kind = .atKeyword := hf.keyword _ rfl
  obtain ⟨hgap, hkey⟩ := lexed_append_iff.mp (hends.keyword rfl)
  obtain ⟨name, rfl⟩ : ∃ r, text = '@' :: r := hkey.spelled _ List.mem_cons_self
  have hname : a.name = name := (congrArg AtRule.name ha).symm
  have hafter : a.afterName = Text.leading (Lexeme.join prelude) :=
    (congrArg AtRule.afterName ha).symm
  have hbetween : ∀ c ∈ a.between, Text.isBlank c = true := by
    rw [← congrArg AtRule.between ha]
    exact fun c => Text.isBlank_of_mem_trailing
  rw [hname] at hk
  obtain ⟨hchars, hstart⟩ := hk.isKeyword
  have hlen := nameLength_of_lexed_keyword hchars hstart rfl rfl hkey
  -- What follows the keyword is blank, but is not taken for a part of it.
  have hspace : ∃ c r, (a.withParams value).afterName = c :: r ∧ isNameChar c = false ∧
      ∀ x ∈ c :: r, Text.isBlank x = true := by
    cases hl : a.afterName with
    | nil => exact ⟨' ', [], by simp [AtRule.withParams, hl], by decide, by simp; decide⟩
    | cons c r =>
      have hblank : ∀ x ∈ c :: r, Text.isBlank x = true := by
        rw [← hl, hafter]
        exact fun x => Text.isBlank_of_mem_leading
      refine ⟨c, r, by simp [AtRule.withParams, hl], ?_, hblank⟩
      rw [← Text.leading_append_trimStart (Lexeme.join prelude), ← hafter, hl] at hlen
      exact not_isNameChar_of_nameLength hlen
  obtain ⟨c, r, hspace, hc, hblank⟩ := hspace
  have hu : Unmarked (c :: r ++ (value ++ a.between)) :=
    (unmarked_of_blank hblank).append (hv.append (unmarked_of_blank hbetween))
  refine headReads_of_unmarked hf.gap hgap hk he hu ?_ ?_
  · exact nameLength_of_blank (hblank c List.mem_cons_self) hc
  · rw [AtRule.ofPrelude_append _ _ hblank hbetween htrim, ← hspace]
    simp only [AtRule.withParams, List.tail_cons, ← hname, AtRule.mk.injEq, and_true]
    exact congrArg AtRule.before ha

/-! ## Collecting -/

variable {σ : Type} {after : Text} {ns : List Node}

section

variable (g : Generator σ) (file : SourceFile)

theorem Node.isOpen_collect (n : Node) (s : σ) : (n.collect g file s).1.isOpen = n.isOpen := by
  cases n with
  | atRule a =>
    show (Node.atRule (a.collect g file s).1).isOpen = _
    rcases a.collect_cases g file s with ⟨-, h, -⟩ | ⟨name, -, h, -⟩
    · rw [h]
    · rw [h]
      rfl
  | _ => rfl

theorem OpenLast.collect (h : OpenLast ns) (s : σ) : OpenLast (collect g file ns s).nodes := by
  induction ns generalizing s with
  | nil => trivial
  | cons n ns ih =>
    obtain ⟨hn, hns⟩ := h
    refine ⟨fun hopen => ?_, ih hns _⟩
    have hnil : ns = [] := hn (by rw [← n.isOpen_collect g file s]; exact hopen)
    rw [hnil]
    rfl

end

theorem Naming.trimmed_defaultName {name : Text} (h : classify name = .valid) (path : Text)
    (hl : ∃ c ∈ name.getLast?, Text.isBlank c = false) : Trimmed (defaultName name path) := by
  obtain ⟨-, hfirst, hlast⟩ := defaultName_unmarked h path
  refine ⟨⟨'_', hfirst, by decide⟩, ?_⟩
  rw [hlast]
  exact hl

theorem AtRule.HeadReads.collect {a : AtRule} (h : a.HeadReads e) (he : IsEnd e)
    (file : SourceFile) (s : σ)
    (hp : ∀ p ∈ (a.collect Generator.default file s).2.1.bind Finding.pair?,
      ∃ c ∈ p.1.getLast?, Text.isBlank c = false) :
    (a.collect Generator.default file s).1.HeadReads e := by
  rcases a.collect_cases Generator.default file s with ⟨-, heq, -⟩ | ⟨name, hname, heq, hfound⟩
  · rwa [heq]
  · rw [heq]
    rw [hfound] at hp
    refine h.withParams he hname.keyframes (defaultName_unmarked hname.usable _).1 ?_
    exact trimmed_defaultName hname.usable _ (hp _ rfl)

theorem AtRule.collect_end (g : Generator σ) (file : SourceFile) (a : AtRule) (s : σ) :
    (a.collect g file s).1.semicolon = a.semicolon ∧ (a.collect g file s).1.after = a.after := by
  rcases a.collect_cases g file s with ⟨-, h, -⟩ | ⟨name, -, h, -⟩
  · rw [h]
    exact ⟨rfl, rfl⟩
  · rw [h]
    exact ⟨rfl, rfl⟩

/-- A rule that is renamed is read back. -/
theorem Node.readsBefore_collect {n : Node} (h : n.ReadsBefore e after) (he : IsEnd e)
    (file : SourceFile) (s : σ)
    (hp : ∀ p ∈ (n.collect Generator.default file s).2.1.bind Finding.pair?,
      ∃ c ∈ p.1.getLast?, Text.isBlank c = false) :
    (n.collect Generator.default file s).1.ReadsBefore e after := by
  have hend : ∀ c, c = ';' ∨ c = '{' ∨ c = '}' → IsEnd (some c) := by
    rintro c hc d hd
    obtain rfl := Option.some.inj hd
    exact hc
  cases n with
  | atRule a =>
    obtain ⟨hsemi, hafter⟩ := a.collect_end Generator.default file s
    show (Node.atRule (a.collect Generator.default file s).1).ReadsBefore e after
    rw [ReadsBefore, isOpen] at h ⊢
    rw [hsemi]
    cases hs : a.semicolon with
    | true =>
      rw [hs] at h
      obtain ⟨-, hnil, hhead⟩ := reads_atRule_iff.mp h
      exact reads_atRule_iff.mpr ⟨by rw [hsemi, hs], by rw [hafter, hnil],
        hhead.collect (hend ';' (.inl rfl)) file s hp⟩
    | false =>
      rw [hs] at h
      obtain ⟨hafter', hnil, hhead⟩ := (readsAt_open_atRule_iff hs).mp h
      exact (readsAt_open_atRule_iff (by rw [hsemi, hs])).mpr
        ⟨hafter', by rw [hafter, hnil], hhead.collect he file s hp⟩
  | atBlock a body =>
    obtain ⟨hs, hhead, hbody⟩ := reads_atBlock_iff.mp h
    obtain ⟨hsemi, hafter⟩ := a.collect_end Generator.default file s
    have hblock : (Node.atBlock (a.collect Generator.default file s).1 body).Reads := by
      refine reads_atBlock_iff.mpr ⟨hsemi.trans hs, ?_, ?_⟩
      · exact hhead.collect (hend '{' (.inr (.inl rfl))) file s hp
      · rwa [hafter]
    exact hblock
  | rule r body => exact h
  | declaration d => exact h
  | comment c => exact h

theorem classify_of_mem_pairs (file : SourceFile) {s : σ} {p : Text × Text}
    (h : p ∈ (collect Generator.default file ns s).pairs) :
    classify p.1 = .valid ∧ p.2 = defaultName p.1 file.path := by
  induction ns generalizing s with
  | nil => cases h
  | cons n ns ih =>
    rw [collect_pairs, List.mem_append, Option.mem_toList] at h
    rcases h with h | h
    · have hrule : ∀ a : AtRule, p ∈ (a.collect Generator.default file s).2.1.bind Finding.pair? →
          classify p.1 = .valid ∧ p.2 = defaultName p.1 file.path := by
        intro a ha
        rcases a.collect_cases Generator.default file s with ⟨-, -, hnone⟩ | ⟨name, hname, -, hsome⟩
        · rw [hnone] at ha
          cases ha
        · rw [hsome] at ha
          obtain rfl := Option.some.inj ha
          exact ⟨hname.usable, rfl⟩
      cases n with
      | atRule a => exact hrule a h
      | atBlock a body => exact hrule a h
      | _ => cases h
    · exact ih h

/-- Renaming keyframes rules leaves nodes that are read back, as long as no name
ends in a blank. -/
theorem ReadsAt.collect (h : ReadsAt none ns after) (file : SourceFile) (s : σ)
    (hp : ∀ p ∈ (collect Generator.default file ns s).pairs,
      ∃ c ∈ p.1.getLast?, Text.isBlank c = false) :
    ReadsAt none (collect Generator.default file ns s).nodes after := by
  obtain ⟨hopen, hafter, hns⟩ := readsAt_iff.mp h
  refine readsAt_iff.mpr ⟨hopen.collect _ file s, hafter, ?_⟩
  clear h hopen hafter
  induction ns generalizing s with
  | nil => simp [AnimationScope.collect]
  | cons n ns ih =>
    rw [collect_pairs, List.forall_mem_append] at hp
    intro m hm
    rcases List.mem_cons.mp hm with rfl | hm
    · refine Node.readsBefore_collect (hns n List.mem_cons_self) (by simp [IsEnd]) file s ?_
      exact fun p hmem => hp.1 p (Option.mem_toList.mpr hmem)
    · exact ih _ hp.2 (fun k hk => hns k (List.mem_cons_of_mem _ hk)) m hm

end AnimationScope
