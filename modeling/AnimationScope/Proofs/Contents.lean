import AnimationScope.Proofs.Exchange
import AnimationScope.Proofs.FrontNodes

/-!
# What the declarations of a level say

The text of a level consists of what its direct declarations say, of blanks, colons and
semicolons between them, and of nodes of other sorts, each of which has a mark of its own.
The parts of a declaration are found in its text in one way.
-/

namespace AnimationScope

open Css

/-! ## Characters that say something -/

namespace Text

def isFiller (c : Char) : Bool := isBlank c || c == ':' || c == ';'

/-- The number of characters that are no fillers. -/
def weight (t : Text) : Nat := t.countP (!isFiller ·)

variable {t u : Text}

@[simp] theorem weight_append (t u : Text) : weight (t ++ u) = weight t + weight u :=
  List.countP_append

theorem weight_eq_zero (h : ∀ c ∈ t, isFiller c = true) : weight t = 0 := by
  rw [weight, List.countP_eq_zero]
  intro c hc
  simp [h c hc]

theorem weight_pos {c : Char} (hc : c ∈ t) (h : isFiller c = false) : 0 < weight t := by
  rw [weight, List.countP_pos_iff]
  exact ⟨c, hc, by rw [h]; rfl⟩

theorem IsGap.weight_eq_zero (h : t.IsGap) : weight t = 0 := by
  apply Text.weight_eq_zero
  intro c hc
  rcases h c hc with hs | rfl
  · rw [isFiller, isSpace_blank hs]
    rfl
  · rfl

theorem IsBlank.weight_eq_zero (h : t.IsBlank) : weight t = 0 := by
  apply Text.weight_eq_zero
  intro c hc
  rw [isFiller, h c hc]
  rfl

end Text

theorem Declaration.Divided.weight_between {d : Declaration} (h : d.Divided) :
    d.between.weight = 0 := by
  rcases h with ⟨u, v, hbetween, hu, hv⟩ | ⟨hbetween, -⟩
  · have hcolon : Text.weight [':'] = 0 := rfl
    rw [hbetween, Text.weight_append, ← List.singleton_append, Text.weight_append,
      hu.weight_eq_zero, hv.weight_eq_zero, hcolon]
  · rw [hbetween]
    rfl

/-! ## Levels -/

namespace Node

/-- What the direct declarations say, in their order. -/
def pairs (ns : List Node) : List (Text × Text) :=
  (directDeclarations ns).map fun d => (d.prop, d.value)

def said (ps : List (Text × Text)) : Text := ps.flatMap fun p => p.1 ++ p.2

@[simp] theorem said_nil : said [] = [] := rfl

@[simp] theorem said_cons (p : Text × Text) (ps : List (Text × Text)) :
    said (p :: ps) = p.1 ++ p.2 ++ said ps := rfl

variable {n : Node} {ns ms : List Node} {d : Declaration}

@[simp] theorem pairs_append (ns ms : List Node) : pairs (ns ++ ms) = pairs ns ++ pairs ms := by
  simp [pairs]

@[simp] theorem pairs_declaration :
    pairs (.declaration d :: ns) = (d.prop, d.value) :: pairs ns := rfl

theorem pairs_of_none (h : n.declaration? = none) : pairs (n :: ns) = pairs ns := by
  rw [pairs, directDeclarations_of_none h, pairs]

theorem weight_declaration (h : (Node.declaration d).Shaped) :
    Text.weight (Node.declaration d).render = Text.weight (d.prop ++ d.value) := by
  have hsemicolon : Text.weight (if d.semicolon then [';'] else []) = 0 := by
    split_ifs <;> rfl
  simp only [render, Declaration.render, Text.weight_append, h.1.weight_eq_zero,
    h.2.weight_between, hsemicolon]
  omega

/-- The characters that tell a node of another sort from declarations. -/
def isSign (c : Char) : Prop := c = '/' ∨ c = '@' ∨ c = '{'

theorem exists_sign (hn : n.Shaped) (h : n.declaration? = none) : ∃ c ∈ n.render, isSign c := by
  cases n with
  | declaration d => cases h
  | atRule a | atBlock a body => exact ⟨'@', by simp [render, AtRule.head], .inr (.inl rfl)⟩
  | rule r body => exact ⟨'{', by simp [render], .inr (.inr rfl)⟩
  | comment c =>
    obtain ⟨-, u, hu⟩ := hn
    exact ⟨'/', by simp [render, hu], .inl rfl⟩

theorem weight_pos_of_sign {c : Char} {t : Text} (hc : c ∈ t) (h : isSign c) : 0 < t.weight := by
  refine Text.weight_pos hc ?_
  rcases h with rfl | rfl | rfl <;> rfl

theorem weight_renderAll (h : ∀ n ∈ ns, n.Shaped) :
    Text.weight (said (pairs ns)) + ns.countP (fun n => n.declaration?.isNone) ≤
      Text.weight (renderAll ns) := by
  induction ns with
  | nil => exact Nat.le_refl 0
  | cons n ns ih =>
    obtain ⟨hn, hns⟩ := List.forall_mem_cons.mp h
    have hrest := ih hns
    rw [renderAll, Text.weight_append]
    obtain ⟨d, rfl⟩ | hnone := n.exists_declaration_or
    · rw [weight_declaration hn, pairs_declaration, said_cons, Text.weight_append (_ ++ _),
        List.countP_cons_of_neg (by simp [declaration?])]
      show Text.weight (d.prop ++ d.value) + _ + _ ≤ _
      omega
    · obtain ⟨c, hc, hsign⟩ := exists_sign hn hnone
      have hpos := weight_pos_of_sign hc hsign
      rw [pairs_of_none hnone, List.countP_cons_of_pos (by simp [hnone])]
      omega

theorem declarations_of_weight (h : ∀ n ∈ ns, n.Shaped)
    (hw : Text.weight (renderAll ns) ≤ Text.weight (said (pairs ns))) :
    ∀ n ∈ ns, ∃ d, n = .declaration d := by
  have hsum := weight_renderAll h
  have hzero : ns.countP (fun n => n.declaration?.isNone) = 0 := by omega
  intro n hn
  obtain hd | hnone := n.exists_declaration_or
  · exact hd
  · exact absurd (by simp [hnone]) (List.countP_eq_zero.mp hzero n hn)

theorem weight_declarations (h : ∀ n ∈ ns, n.Shaped) (hd : ∀ n ∈ ns, ∃ d, n = .declaration d) :
    Text.weight (renderAll ns) = Text.weight (said (pairs ns)) := by
  induction ns with
  | nil => rfl
  | cons n ns ih =>
    obtain ⟨hn, hns⟩ := List.forall_mem_cons.mp h
    obtain ⟨⟨d, rfl⟩, hds⟩ := List.forall_mem_cons.mp hd
    rw [renderAll, Text.weight_append, weight_declaration hn, ih hns hds, pairs_declaration,
      said_cons, ← Text.weight_append]

end Node

/-! ## The parts of a declaration -/

namespace Declaration

def text (d : Declaration) : Text := d.prop ++ d.between ++ d.value

/-- A declaration whose gap, and the blanks in front of its value, are as long as they
can be. -/
structure Parted (d : Declaration) : Prop where
  gap : d.before.IsGap
  divided : d.Divided
  start : ∃ c ∈ d.text.head?, ¬ (isSpace c = true ∨ c = ';')
  value : ∀ c ∈ d.value.head?, Text.isBlank c = false

variable {d d' : Declaration} {x y : Text}

theorem ne_semicolon_of_isBlank {u v w : Text} (hu : u.IsBlank) : u ++ ':' :: v ≠ ';' :: w := by
  intro heq
  cases u with
  | nil => cases heq
  | cons a u =>
    obtain rfl : a = ';' := (List.cons.inj heq).1
    have hblank := hu ';' List.mem_cons_self
    cases hblank

/-- Declarations of one value are divided in the same way if they are divided as far as they
can be. -/
theorem Divided.eq_of_append (h : d.Divided) (h' : d'.Divided) (hvalue : d.value = d'.value)
    (hstart : ∀ c ∈ d.value.head?, Text.isBlank c = false)
    (ht : d.between ++ (d.value ++ ';' :: x) = d'.between ++ (d.value ++ ';' :: y)) :
    d.between = d'.between := by
  -- The value and the semicolon behind it do not begin with a blank.
  have hblank : ∀ z : Text, ∀ c ∈ (d.value ++ ';' :: z).head?, ¬ Text.isBlank c = true := by
    intro z c hc
    cases hv : d.value with
    | nil =>
      rw [hv] at hc
      obtain rfl : ';' = c := by simpa using hc
      decide
    | cons a v =>
      rw [hv] at hc
      obtain rfl : a = c := by simpa using hc
      rw [hstart a (by rw [hv]; rfl)]
      exact Bool.false_ne_true
  have hcolon : ∀ z : Text, ∀ c ∈ (':' :: z).head?, ¬ Text.isBlank c = true := by
    intro z c hc
    obtain rfl : ':' = c := Option.some.inj hc
    decide
  rcases h with ⟨u, v, hb, hu, hv⟩ | ⟨hb, hnil⟩ <;>
    rcases h' with ⟨u', v', hb', hu', hv'⟩ | ⟨hb', hnil'⟩ <;>
    rw [hb, hb'] at ht ⊢
  · simp only [List.append_assoc, List.cons_append] at ht
    obtain ⟨rfl, hrest⟩ := eq_of_leading ht hu hu' (hcolon _) (hcolon _)
    obtain ⟨rfl, -⟩ := eq_of_leading (List.cons.inj hrest).2 hv hv' (hblank x) (hblank y)
    rfl
  · rw [hvalue, hnil', List.append_assoc] at ht
    exact absurd ht (ne_semicolon_of_isBlank hu)
  · rw [hnil, List.append_assoc] at ht
    exact absurd ht.symm (ne_semicolon_of_isBlank hu')

/-- Two declarations that say the same are one if a text begins with both of them. -/
theorem Parted.unique (h : d.Parted) (h' : d'.Parted) (hprop : d.prop = d'.prop)
    (hvalue : d.value = d'.value)
    (ht : d.before ++ d.text ++ ';' :: x = d'.before ++ d'.text ++ ';' :: y) :
    d.before = d'.before ∧ d.between = d'.between := by
  have hstart : ∀ {e : Declaration} {z : Text}, e.Parted →
      ∀ c ∈ (e.text ++ ';' :: z).head?, ¬ (isSpace c = true ∨ c = ';') := by
    intro e z he c hc
    obtain ⟨a, ha, hgap⟩ := he.start
    obtain ⟨r, hr⟩ := List.head?_eq_some_iff.mp ha
    rw [hr] at hc
    obtain rfl : a = c := by simpa using hc
    exact hgap
  rw [List.append_assoc, List.append_assoc] at ht
  obtain ⟨hbefore, htext⟩ := eq_of_leading ht h.gap h'.gap (hstart h) (hstart h')
  refine ⟨hbefore, ?_⟩
  rw [text, text, hprop, hvalue] at htext
  simp only [List.append_assoc] at htext
  have hbetween := List.append_cancel_left htext
  exact h.divided.eq_of_append h'.divided hvalue (hvalue ▸ h'.value) (hvalue ▸ hbetween)

end Declaration

theorem Css.Lexed.kind_of_head {l : Lexeme} {ls : List Lexeme} {c : Char} {u x : Text}
    (h : Lexed (l :: ls) x) (hl : l.text = c :: u) :
    (isSpace c = true → l.kind = .whitespace) ∧ (c = ';' → l.kind = .semicolon) := by
  obtain ⟨ts, hcut, -, -, hts⟩ := h
  cases ts with
  | nil => cases hts
  | cons t ts =>
    obtain ⟨m, ms, hlexemes, hprefix, hsingle⟩ := Token.exists_lexemes_cons t ts
    rw [hlexemes] at hts
    obtain ⟨rfl, -⟩ := List.cons.inj hts
    have hone := (Token.cut_cons_iff.mp hcut).1
    have hne : t.text ≠ [] := by
      apply Token.text_ne_nil_of_mem (s := Token.join [t] ++ (Token.join ts ++ x))
      rw [hone]
      exact List.mem_cons_self
    obtain ⟨k, text⟩ := t
    obtain ⟨a, v, rfl⟩ := List.exists_cons_of_ne_nil hne
    rw [hl, List.cons_prefix_cons] at hprefix
    obtain ⟨rfl, -⟩ := hprefix
    obtain ⟨hk, -⟩ := Token.first_of_cut hone
    constructor
    · intro hspace
      obtain rfl : k = .whitespace := by rw [hk, Token.first_space hspace]
      rw [hsingle rfl]
      rfl
    · rintro rfl
      obtain rfl : k = .semicolon := by rw [hk, Token.first_mark rfl]
      rw [hsingle rfl]
      rfl

/-- The lexemes that a declaration is read from. -/
theorem Node.ReadsBefore.exists_prelude {c : Char} {after : Text} {d : Declaration}
    (h : (Node.declaration d).ReadsBefore (some c) after) :
    ∃ gap prelude x, Statement.Head.Formed ⟨gap, none, prelude⟩ ∧ prelude ≠ [] ∧
      d = .ofPrelude (Lexeme.join gap) prelude d.semicolon ∧ Lexed (gap ++ prelude) x := by
  obtain ⟨s, ls, hf, hs, hl⟩ := h.exists_statement
  obtain ⟨gap, prelude, semicolon, rfl, rfl⟩ := Statement.eq_simple_of_declaration hs
  have hlexed := hl []
  rw [Statement.lexemes, Option.toList_none, List.append_nil, List.append_assoc] at hlexed
  rw [Declaration.semicolon_ofPrelude]
  refine ⟨gap, prelude, _, ?_, ?_, rfl, (lexed_append_iff.mp hlexed).1⟩
  · cases hf with
    | simple hh _ _ _ => exact hh
    | openRule hh _ => exact hh
    | openDeclaration hh _ _ _ => exact hh
  · cases hf with
    | simple _ hne _ _ => exact hne rfl
    | openRule _ hk => exact absurd rfl hk
    | openDeclaration _ _ hne _ =>
      rintro rfl
      simp at hne

theorem Declaration.parted {c : Char} {after : Text} {d : Declaration}
    (h : (Node.declaration d).ReadsBefore (some c) after) : d.Parted := by
  obtain ⟨gap, prelude, x, hh, hne, hd, hl⟩ := h.exists_prelude
  have hspelled := hl.spelled
  rw [List.forall_mem_append] at hspelled
  rw [hd]
  refine ⟨?_, divided_ofPrelude _ _ hspelled.2, ?_, ?_⟩
  · rw [before_ofPrelude]
    exact Lexeme.isGap_join hh.gap hspelled.1
  · obtain ⟨l, ls, rfl⟩ := List.exists_cons_of_ne_nil hne
    have hlexed := (lexed_append_iff.mp hl).2
    obtain ⟨a, u, hu⟩ := List.exists_cons_of_ne_nil (hlexed.text_ne_nil l List.mem_cons_self)
    obtain ⟨hspace, hsemicolon⟩ := hlexed.kind_of_head hu
    refine ⟨a, ?_, ?_⟩
    · rw [text, text_ofPrelude, Lexeme.join_cons, hu]
      rfl
    · rintro (ha | ha)
      · exact (hh.start rfl l rfl).1 (hspace ha)
      · exact (hh.prelude l List.mem_cons_self).1 (hsemicolon ha)
  · intro a ha
    rw [ofPrelude] at ha
    split at ha
    · cases ha
    · next colon rest _ =>
      have hvalue : (Lexeme.join rest).trimStart.head? = some a := ha
      have hnot := List.head?_dropWhile_not Text.isBlank (Lexeme.join rest)
      rw [← Text.trimStart, hvalue] at hnot
      exact hnot

end AnimationScope
