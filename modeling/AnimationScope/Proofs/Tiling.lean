import AnimationScope.Proofs.Lossless
import AnimationScope.Proofs.Ends

/-!
# Lexemes as ranges of a text

The lexemes of a text lie side by side from its start to its end. Their braces are closed in
pairs, but for closing braces that stand outside of all pairs.
-/

namespace AnimationScope

theorem Text.utf8Length_pos {t : Text} (h : t ≠ []) : 0 < utf8Length t := by
  obtain ⟨c, r, rfl⟩ := List.exists_cons_of_ne_nil h
  have hc := c.utf8Size_pos
  rw [utf8Length]
  omega

theorem Text.append_inj_of_utf8Length {t u v w : Text} (h : t ++ v = u ++ w)
    (hl : utf8Length t = utf8Length u) : t = u := by
  have htake := congrArg (takeBytes (utf8Length t)) h
  rwa [takeBytes_utf8Length, hl, takeBytes_utf8Length] at htake

namespace Css

variable {t u front behind : Text} {ts : List Token} {l : Lexeme}
  {ls ms pre inner post : List Lexeme}

/-! ## Ranges side by side -/

namespace Lexeme

/-- The ranges follow each other without a gap, from one offset to another. -/
def Span.Tiles : Nat → List Span → Nat → Prop
  | start, [], stop => start = stop
  | start, s :: ss, stop => s.start = start ∧ Span.Tiles s.stop ss stop

/-- The bytes in the range are those of a text in the middle of another one. -/
def Span.Holds (s : Span) (t u : Text) : Prop :=
  ∃ front behind, t = front ++ u ++ behind ∧ s.start = front.utf8Length ∧
    s.stop = (front ++ u).utf8Length

theorem spans_tiles (offset : Nat) (ls : List Lexeme) :
    Span.Tiles offset (spans offset ls) (offset + (join ls).utf8Length) := by
  induction ls generalizing offset with
  | nil => rfl
  | cons l ls ih =>
    refine ⟨rfl, ?_⟩
    rw [join_cons, Text.utf8Length_append, ← Nat.add_assoc]
    exact ih _

theorem Span.Holds.start_lt_stop {s : Span} (h : s.Holds t u) (hu : u ≠ []) : s.start < s.stop := by
  obtain ⟨front, behind, -, hstart, hstop⟩ := h
  have hpos := Text.utf8Length_pos hu
  rw [hstart, hstop, Text.utf8Length_append]
  omega

theorem spans_hold (front : Text) (h : t = front ++ join ls) (hne : ∀ l ∈ ls, l.text ≠ []) :
    List.Forall₂ (fun s l => s.kind = l.kind ∧ s.start < s.stop ∧ s.Holds t l.text)
      (spans front.utf8Length ls) ls := by
  induction ls generalizing front with
  | nil => exact .nil
  | cons l ls ih =>
    rw [List.forall_mem_cons] at hne
    rw [join_cons, ← List.append_assoc] at h
    have hrest := ih _ h hne.2
    have hholds : Span.Holds ⟨l.kind, front.utf8Length, (front ++ l.text).utf8Length⟩ t l.text :=
      ⟨front, join ls, h, rfl, rfl⟩
    rw [Text.utf8Length_append] at hholds hrest
    exact .cons ⟨rfl, hholds.start_lt_stop hne.1, hholds⟩ hrest

/-! ## Ranges of a part -/

def Span.within (start stop : Nat) (s : Span) : Bool := start ≤ s.start && s.stop ≤ stop

theorem spans_append (offset : Nat) (ls ms : List Lexeme) :
    spans offset (ls ++ ms) =
      spans offset ls ++ spans (offset + (join ls).utf8Length) ms := by
  induction ls generalizing offset with
  | nil => rfl
  | cons l ls ih =>
    rw [List.cons_append, spans, ih, join_cons, Text.utf8Length_append, Nat.add_assoc]
    rfl

theorem mem_spans {s : Span} {offset : Nat} (h : s ∈ spans offset ls) :
    ∃ pre l post, ls = pre ++ l :: post ∧ s.start = offset + (join pre).utf8Length ∧
      s.stop = s.start + l.text.utf8Length := by
  induction ls generalizing offset with
  | nil => cases h
  | cons l ls ih =>
    rcases List.mem_cons.mp h with rfl | h
    · exact ⟨[], l, ls, rfl, rfl, rfl⟩
    · obtain ⟨pre, m, post, rfl, hstart, hstop⟩ := ih h
      refine ⟨l :: pre, m, post, rfl, ?_, hstop⟩
      rw [hstart, join_cons, Text.utf8Length_append, Nat.add_assoc]

theorem bounds_of_mem_spans {s : Span} {offset : Nat} (hne : ∀ l ∈ ls, l.text ≠ [])
    (h : s ∈ spans offset ls) :
    offset ≤ s.start ∧ s.start < s.stop ∧ s.stop ≤ offset + (join ls).utf8Length := by
  obtain ⟨pre, l, post, rfl, hstart, hstop⟩ := mem_spans h
  have hpos := Text.utf8Length_pos (hne l (by simp))
  rw [join_append, join_cons, Text.utf8Length_append, Text.utf8Length_append]
  omega

theorem filter_spans (hne : ∀ l ∈ pre ++ inner ++ post, l.text ≠ []) :
    (spans 0 (pre ++ inner ++ post)).filter
        (Span.within (join pre).utf8Length (join (pre ++ inner)).utf8Length) =
      spans (join pre).utf8Length inner := by
  have hpre : (spans 0 pre).filter
      (Span.within (join pre).utf8Length (join (pre ++ inner)).utf8Length) = [] := by
    refine List.filter_eq_nil_iff.mpr fun s hs => ?_
    have hb := bounds_of_mem_spans (fun l hl => hne l (by simp [hl])) hs
    simp only [Span.within, Bool.and_eq_true, decide_eq_true_eq]
    omega
  have hinner : (spans (join pre).utf8Length inner).filter
      (Span.within (join pre).utf8Length (join (pre ++ inner)).utf8Length) =
        spans (join pre).utf8Length inner := by
    refine List.filter_eq_self.mpr fun s hs => ?_
    have hb := bounds_of_mem_spans (fun l hl => hne l (by simp [hl])) hs
    simp only [Span.within, Bool.and_eq_true, decide_eq_true_eq, join_append,
      Text.utf8Length_append]
    omega
  have hpost : (spans (join (pre ++ inner)).utf8Length post).filter
      (Span.within (join pre).utf8Length (join (pre ++ inner)).utf8Length) = [] := by
    refine List.filter_eq_nil_iff.mpr fun s hs => ?_
    have hb := bounds_of_mem_spans (fun l hl => hne l (by simp [hl])) hs
    simp only [Span.within, Bool.and_eq_true, decide_eq_true_eq]
    omega
  rw [spans_append, spans_append, List.filter_append, List.filter_append, Nat.zero_add,
    Nat.zero_add, hpre, hinner, hpost, List.nil_append, List.append_nil]

theorem spans_injective {offset : Nat} (h : spans offset ls = spans offset ms)
    (hj : join ls = join ms) : ls = ms := by
  induction ls generalizing ms offset with
  | nil =>
    cases ms with
    | nil => rfl
    | cons m ms => cases h
  | cons l ls ih =>
    cases ms with
    | nil => cases h
    | cons m ms =>
      obtain ⟨hspan, hrest⟩ := List.cons.inj h
      obtain ⟨hk, -, hstop⟩ := Span.mk.inj hspan
      have htext : l.text = m.text := Text.append_inj_of_utf8Length hj (by omega)
      have hlm : l = m := by
        obtain ⟨k, text⟩ := l
        obtain rfl : k = m.kind := hk
        obtain rfl : text = m.text := htext
        rfl
      subst hlm
      rw [ih hrest (List.append_cancel_left hj)]

theorem exists_prefix_of_start {s : Span} (hs : s ∈ spans 0 ls) (ht : join ls = front ++ behind)
    (h : s.start = front.utf8Length) : ∃ pre, pre <+: ls ∧ join pre = front := by
  obtain ⟨pre, l, post, rfl, hstart, -⟩ := mem_spans hs
  rw [join_append] at ht
  refine ⟨pre, List.prefix_append _ _, Text.append_inj_of_utf8Length ht ?_⟩
  rw [← h, hstart, Nat.zero_add]

theorem exists_prefix_of_stop {s : Span} (hs : s ∈ spans 0 ls) (ht : join ls = front ++ behind)
    (h : s.stop = front.utf8Length) : ∃ pre, pre <+: ls ∧ join pre = front := by
  obtain ⟨pre, l, post, rfl, hstart, hstop⟩ := mem_spans hs
  have hsplit : pre ++ l :: post = (pre ++ [l]) ++ post := by simp
  rw [hsplit, join_append] at ht
  refine ⟨pre ++ [l], ⟨post, hsplit.symm⟩, Text.append_inj_of_utf8Length ht ?_⟩
  rw [← h, hstop, hstart, join_append, Text.utf8Length_append, Nat.zero_add]
  simp

/-- A part whose ranges are those in a place of a text takes up this place. -/
theorem exists_split (ht : join ls = front ++ join ms ++ behind) (hls : ∀ l ∈ ls, l.text ≠ [])
    (hms : join ms ≠ []) (hspans : spans front.utf8Length ms = (spans 0 ls).filter
      (Span.within front.utf8Length (front ++ join ms).utf8Length)) :
    ∃ pre post, ls = pre ++ ms ++ post ∧ join pre = front := by
  have hmem : ∀ s ∈ spans front.utf8Length ms, s ∈ spans 0 ls := fun s hs =>
    (List.mem_filter.mp (hspans ▸ hs)).1
  obtain ⟨pre, hpre, hfront⟩ : ∃ pre, pre <+: ls ∧ join pre = front := by
    obtain ⟨m, rest, rfl⟩ : ∃ m rest, ms = m :: rest :=
      List.exists_cons_of_ne_nil fun hnil => hms (by rw [hnil]; rfl)
    rw [List.append_assoc] at ht
    exact exists_prefix_of_start (hmem _ List.mem_cons_self) ht rfl
  obtain ⟨upTo, ⟨post, hpost⟩, hend⟩ : ∃ upTo, upTo <+: ls ∧ join upTo = front ++ join ms := by
    obtain ⟨init, m, rfl⟩ : ∃ init m, ms = init ++ [m] := by
      rcases List.eq_nil_or_concat' ms with rfl | hms'
      · exact absurd rfl hms
      · exact hms'
    have hlast : spans (front.utf8Length + (join init).utf8Length) [m] ⊆
        spans front.utf8Length (init ++ [m]) := by
      rw [spans_append]
      exact List.subset_append_right _ _
    refine exists_prefix_of_stop (hmem _ (hlast List.mem_cons_self)) ht ?_
    simp only [join_append, join_cons, join_nil, List.append_nil, Text.utf8Length_append]
    omega
  rcases List.prefix_or_prefix_of_prefix hpre ⟨post, hpost⟩ with ⟨inner, rfl⟩ | ⟨rest, rfl⟩
  · rw [join_append, hfront] at hend
    have hinner := List.append_cancel_left hend
    refine ⟨pre, post, ?_, hfront⟩
    subst hpost
    rw [← hinner, ← hfront, ← join_append, filter_spans hls] at hspans
    rw [spans_injective hspans hinner.symm]
  · rw [join_append, hend, List.append_assoc] at hfront
    have hnil := List.append_right_eq_self.mp hfront
    exact absurd (List.append_eq_nil_iff.mp hnil).1 hms

end Lexeme

/-! ## Texts of lexemes -/

theorem Token.kind_of_mark {u : Token} {c : Char} {k : Kind} (hu : u ∈ tokens t)
    (hc : u.text.head? = some c) (hk : punctuation? c = some k) : u.kind = k := by
  obtain ⟨pre, post, hsplit⟩ := List.append_of_mem hu
  have hrest := Token.tokens_join_of_append hsplit
  obtain ⟨r, hr⟩ := List.head?_eq_some_iff.mp hc
  rw [Token.join_cons, hr, List.cons_append, tokens_cons] at hrest
  rw [← (List.cons.inj hrest).1, first_mark hk]

theorem text_ne_nil_of_lexemes (h : lexemes t = .ok ls) : ∀ l ∈ ls, l.text ≠ [] := by
  obtain ⟨-, rfl⟩ := lexemes_eq_ok_iff.mp h
  exact Token.text_ne_nil_of_mem_lexemes fun _ hu => Token.text_ne_nil_of_mem hu

/-- A punctuation mark is a lexeme of its own kind, unless it opens a group. -/
theorem kind_of_lexemes {c : Char} {k : Token.Kind} (h : lexemes t = .ok ls) (hl : l ∈ ls)
    (hk : Token.punctuation? c = some k) (hg : k.group? = none) (htext : l.text = [c]) :
    l.kind = k.lexeme := by
  obtain ⟨-, rfl⟩ := lexemes_eq_ok_iff.mp h
  obtain ⟨u, hu, hprefix, hfirst⟩ := Token.exists_first_of_mem_lexemes hl
  obtain ⟨d, r, hr⟩ := List.exists_cons_of_ne_nil (Token.text_ne_nil_of_mem hu)
  rw [hr, htext] at hprefix
  obtain ⟨rfl, -⟩ := List.cons_prefix_cons.mp hprefix
  have hkind : u.kind = k := Token.kind_of_mark hu (by rw [hr]; rfl) hk
  rw [hkind] at hfirst
  rw [hfirst.resolve_right fun hgroup => hgroup.2 hg, Token.lexeme, hkind]

/-! ## Braces in pairs -/

/-- Every opening brace is closed by a later brace of its own, one pair inside another or
behind it. Outside of all pairs, closing braces may stand alone. -/
inductive Nests : (outside : Bool) → List Lexeme.Kind → Prop
  | nil {outside : Bool} : Nests outside []
  | plain {outside : Bool} {k : Lexeme.Kind} {ks : List Lexeme.Kind} (ho : k ≠ .openBrace)
      (hc : k ≠ .closeBrace) (hks : Nests outside ks) : Nests outside (k :: ks)
  | pair {outside : Bool} {body ks : List Lexeme.Kind} (hb : Nests false body)
      (hks : Nests outside ks) : Nests outside (.openBrace :: (body ++ .closeBrace :: ks))
  | alone {ks : List Lexeme.Kind} (hks : Nests true ks) : Nests true (.closeBrace :: ks)

theorem Nests.append {outside : Bool} {ks ms : List Lexeme.Kind} (h : Nests outside ks)
    (hm : Nests outside ms) : Nests outside (ks ++ ms) := by
  induction h with
  | nil => exact hm
  | plain ho hc _ ih => exact .plain ho hc (ih hm)
  | pair hb _ _ ih =>
    rw [List.cons_append, List.append_assoc, List.cons_append]
    exact .pair hb (ih hm)
  | alone _ ih => exact .alone (ih hm)

theorem Inside.nests {own : Option Bracket} (h : Inside own ts)
    (hown : ∀ b ∈ own, b = .curly) : Nests own.isNone ((Token.lexemes ts).map Lexeme.kind) := by
  induction h with
  | nil => exact .nil
  | @plain own t ts ho hc _ ih =>
    rw [Token.lexemes_cons (group?_eq_none ho), List.map_cons]
    by_cases hk : t.kind = .closing .curly
    · have hkind : t.lexeme.kind = .closeBrace := by rw [Token.lexeme, hk]; rfl
      rw [hkind]
      cases own with
      | none => exact .alone (ih hown)
      | some b =>
        obtain rfl := hown b rfl
        exact absurd hk (hc .curly rfl)
    · exact .plain (fun hl => ho _ (Token.Kind.lexeme_eq_openBrace_iff.mp hl))
        (fun hl => hk (Token.Kind.lexeme_eq_closeBrace_iff.mp hl))
        (ih hown)
  | @group own o c inner ts b ho hi hc _ ihi ih =>
    by_cases hb : b = .curly
    · subst hb
      have hog : o.kind.group? = none := by rw [ho]; rfl
      have hcg : c.kind.group? = none := by rw [hc]; rfl
      have hok : o.lexeme.kind = .openBrace := by rw [Token.lexeme, ho]; rfl
      have hck : c.lexeme.kind = .closeBrace := by rw [Token.lexeme, hc]; rfl
      rw [Token.lexemes_cons hog, hi.grouped.lexemes_append, Token.lexemes_cons hcg,
        List.map_cons, List.map_append, List.map_cons, hok, hck]
      exact .pair (ihi (by simp)) (ih hown)
    · rw [Token.lexemes_group ho hb hi hc, List.map_cons]
      exact .plain (by simp) (by simp) (ih hown)

theorem nests_of_not_leavesBlock (h : ¬ LeavesBlock ts) :
    Nests true ((Token.lexemes ts).map Lexeme.kind) := by
  rcases fate none ts with hi | ⟨b, hb, -⟩ | ⟨pre, o, post, b, rfl, hi, ho, hn⟩
  · exact hi.nests (by simp)
  · cases hb
  · -- A group that hangs open takes all that is left, so only a block could go unpaired.
    have hb : b ≠ .curly := by
      rintro rfl
      exact h ⟨pre, o, post, rfl, ho, hn⟩
    rw [hi.grouped.lexemes_append, Token.lexemes_hanging ho hb hn, List.map_append]
    exact (hi.nests (by simp)).append (.plain (by simp) (by simp) .nil)

/-! ## The whole text -/

structure Lexeme.Tiling (t : Text) (ls : List Lexeme) : Prop where
  tiles : Span.Tiles 0 (spans 0 ls) t.utf8Length
  holds : List.Forall₂ (fun s l => s.kind = l.kind ∧ s.start < s.stop ∧ s.Holds t l.text)
    (spans 0 ls) ls
  texts : join ls = t
  openBraces : ∀ l ∈ ls, l.kind = .openBrace ↔ l.text = ['{']
  closeBraces : ∀ l ∈ ls, l.kind = .closeBrace ↔ l.text = ['}']
  nests : Nests true (ls.map kind)

/-- Whenever a text has lexemes, they cover it without gaps and overlaps, and their braces
nest. -/
theorem tiling_of_lexemes (h : lexemes t = .ok ls) : Lexeme.Tiling t ls := by
  have hspelled := spelled_of_lexemes h
  have hjoin := join_lexemes h
  constructor
  case tiles =>
    have htiles := Lexeme.spans_tiles 0 ls
    rwa [hjoin, Nat.zero_add] at htiles
  case holds => exact Lexeme.spans_hold [] hjoin.symm (text_ne_nil_of_lexemes h)
  case texts => exact hjoin
  case openBraces =>
    intro l hl
    refine ⟨fun hk => ?_, kind_of_lexemes (k := .opening .curly) h hl rfl rfl⟩
    have hs := hspelled l hl
    rwa [Lexeme.Spelled, hk] at hs
  case closeBraces =>
    intro l hl
    refine ⟨fun hk => ?_, kind_of_lexemes (k := .closing .curly) h hl rfl rfl⟩
    have hs := hspelled l hl
    rwa [Lexeme.Spelled, hk] at hs
  case nests =>
    obtain ⟨herr, rfl⟩ := lexemes_eq_ok_iff.mp h
    exact nests_of_not_leavesBlock (syntaxError?_eq_none_iff.mp herr).2

/-- Braces in a group, in pairs and alone, and a group that the end of the text closes. -/
theorem tiling_of_lexemes_sample :
    ∃ ls, lexemes "\x7d\u00e9\x7b(\x7d)\x7d[(\x7d".toList = .ok ls ∧
      Lexeme.Tiling "\x7d\u00e9\x7b(\x7d)\x7d[(\x7d".toList ls :=
  ⟨_, rfl, tiling_of_lexemes rfl⟩

end Css

end AnimationScope
