import AnimationScope.Proofs.PlainWords
import AnimationScope.Stylesheet.Path

/-!
# Declarations that are added to a rule

A declaration that is added to a rule is found again as a declaration of its own just if
what stands in front of it comes to an end there. The last declaration gets a semicolon
for this, and an at-rule without a block gets none.
-/

namespace AnimationScope

open Css Animation

/-! ## Rules in a tree -/

section

variable {e : Option Char} {after t : Text} {n : Node} {ns ms : List Node}

/-- Printed on its own and read again, the node is the same. -/
def Node.StandsAlone (n : Node) : Prop := Stylesheet.parse n.render = .ok ⟨[n], []⟩

theorem Node.standsAlone_iff (h : n.isOpen = false) : n.StandsAlone ↔ n.Reads := by
  have hrender : (⟨[n], []⟩ : Stylesheet).render = n.render := by
    simp [Stylesheet.render, renderAll]
  rw [← Level.readsAt_closed_iff (e := none) h, ← Level.readsBack_singleton_iff,
    Stylesheet.ReadsBack, hrender, StandsAlone]

theorem readsAt_of_reads (hms : ∀ n ∈ ms, n.Reads) (h : ReadsAt e ns after) :
    ReadsAt e (ms ++ ns) after := by
  induction ms with
  | nil => exact h
  | cons n ms ih =>
    obtain ⟨hn, hms⟩ := List.forall_mem_cons.mp hms
    exact (readsAt_cons_iff hn.isOpen).mpr ⟨hn, ih hms⟩

theorem Node.ReadsBefore.children (h : n.ReadsBefore e after) :
    ∃ after', ReadsAt (some '}') n.children after' := by
  cases n with
  | atBlock a body => exact ⟨_, h.block.1 a body rfl⟩
  | rule r body => exact ⟨_, h.block.2 r body rfl⟩
  | _ => exact ⟨[], readsAt_nil _⟩

theorem ReadsAt.exists_readsBefore {path : List Nat} (h : ReadsAt e ns after)
    (hn : Node.at? ns path = some n) : ∃ e after, n.ReadsBefore e after := by
  induction path generalizing e after ns with
  | nil => cases hn
  | cons i path ih =>
    cases path with
    | nil => exact ⟨e, after, h.readsBefore n (List.mem_of_getElem? hn)⟩
    | cons j path =>
      obtain ⟨m, hm, hchild⟩ := Option.bind_eq_some_iff.mp hn
      obtain ⟨after', hchildren⟩ := (h.readsBefore m (List.mem_of_getElem? hm)).children
      exact ih hchildren hchild

theorem Stylesheet.isGap_after {s : Stylesheet} (h : parse t = .ok s) :
    Node.renderAll s.nodes ++ s.after = t ∧ s.after.IsGap := by
  obtain ⟨r, hr, hl, rfl⟩ := parse_eq_ok_iff.mp h
  have hs := spelled_of_lexemes hl
  constructor
  · rw [← join_lexemes hl, ← render_ofRun hr hs, render]
  · exact Lexeme.isGap_join hr.gap fun l hmem => hs l (List.mem_append_right _ hmem)

end

/-! ## Terminating the last declaration -/

theorem Declaration.terminated_of_semicolon (d : Declaration) (h : d.semicolon = true) :
    { d with semicolon := true } = d := by rw [← h]

namespace Node

variable {n : Node} {ns ms : List Node}

theorem terminateLast_concat (h : ∀ m ∈ ms, m.isOpen = false) (n : Node) :
    terminateLast (ms ++ [n]) = ms ++ terminateLast [n] := by
  induction ms with
  | nil => rfl
  | cons m ms ih =>
    obtain ⟨hm, hms⟩ := List.forall_mem_cons.mp h
    obtain ⟨d, rfl⟩ | hnone := m.exists_declaration_or
    · have hsemicolon : d.semicolon = true := by simpa [isOpen] using hm
      rw [List.cons_append, terminateLast]
      split_ifs with hempty
      · -- No declaration is left to be terminated.
        have hrest : directDeclarations (ms ++ [n]) = [] := List.isEmpty_iff.mp hempty
        obtain ⟨c, rfl⟩ | hn := n.exists_declaration_or
        · simp at hrest
        · rw [terminateLast_of_none hn, d.terminated_of_semicolon hsemicolon]
          rfl
      · rw [ih hms]
        rfl
    · rw [List.cons_append, terminateLast_of_none hnone, ih hms]
      rfl

theorem terminateLast_of_closed (h : n.isOpen = false) : terminateLast [n] = [n] := by
  obtain ⟨d, rfl⟩ | hnone := n.exists_declaration_or
  · have hsemicolon : d.semicolon = true := by simpa [isOpen] using h
    rw [terminateLast, d.terminated_of_semicolon hsemicolon]
    rfl
  · rw [terminateLast_of_none hnone]
    rfl

theorem isGap_indentation (h : ∀ n ∈ ns, n.Shaped) : (indentation ns).IsGap := by
  have hdefault : Text.IsGap "\n  ".toList := by
    intro c hc
    obtain rfl | rfl | rfl : c = '\n' ∨ c = ' ' ∨ c = ' ' := by simpa using hc
    · exact .inl rfl
    · exact .inl rfl
    · exact .inl rfl
  unfold indentation
  split
  · exact hdefault
  · exact hdefault
  · next before _ heq =>
    obtain ⟨d, hd, rfl⟩ := Option.map_eq_some_iff.mp heq
    exact (h _ (mem_directDeclarations.mp (List.mem_of_getLast? hd))).1

end Node

/-! ## Declarations that stay separate -/

/-- Printed with the declaration behind its nodes and read again, the rule says what it
said before and the new declaration. -/
def Rule.AppendsApart (r : Rule) (body : List Node) (prop value : Text) : Prop :=
  ∃ sheet r' body',
    Stylesheet.parse (Node.rule r (Node.appendDeclaration prop value body)).render = .ok sheet ∧
      sheet.nodes = [.rule r' body'] ∧ Node.pairs body' = Node.pairs body ++ [(prop, value)]

/-- What is added behind the node and an indentation does not run into the node. Once it has a
semicolon, a declaration is read back. A semicolon of the indentation ends an at-rule. -/
def Node.EndsApart (indentation : Text) : Node → Prop
  | .declaration d => StandsAlone (.declaration { d with semicolon := true })
  | .atRule a => a.semicolon = true ∨ ∃ (t gap : Text) (b : AtRule), indentation = t ++ ';' :: gap ∧
      b.semicolon = true ∧ (Node.atRule b).render = a.head ++ t ++ [';'] ∧ StandsAlone (.atRule b)
  | _ => True

section

variable {r : Rule} {n : Node} {body ms : List Node} {prop value : Text}

/-- The text is the same if nodes that are read back are in the place of those of the rule. -/
theorem Rule.HeadReads.appendsApart (hr : r.HeadReads) (hafter : ReadsAt (some '}') [] r.after)
    (hms : ∀ n ∈ ms, n.Reads)
    (ht : Node.renderAll ms = Node.renderAll (Node.appendDeclaration prop value body))
    (hpairs : Node.pairs ms = Node.pairs body ++ [(prop, value)]) :
    r.AppendsApart body prop value := by
  have hreads := readsAt_of_reads hms hafter
  rw [List.append_nil] at hreads
  have halone : (Node.rule r ms).StandsAlone :=
    (Node.standsAlone_iff rfl).mpr (reads_rule_iff.mpr ⟨hr, hreads⟩)
  refine ⟨⟨[.rule r ms], []⟩, r, ms, ?_, rfl, hpairs⟩
  rw [Node.render, ← ht, ← Node.render]
  exact halone

/-- What the rule is read as has the same text in its block. -/
theorem Rule.HeadReads.exists_of_appendsApart (hr : r.HeadReads)
    (h : r.AppendsApart body prop value) :
    ∃ ns after, ReadsAt (some '}') ns after ∧
      Node.renderAll ns ++ after =
        Node.renderAll (Node.appendDeclaration prop value body) ++ r.after ∧
      Node.pairs ns = Node.pairs body ++ [(prop, value)] := by
  obtain ⟨sheet, r', ns, hparse, hnodes, hpairs⟩ := h
  obtain ⟨htext, hgap⟩ := Stylesheet.isGap_after hparse
  have hreads := ReadsAt.of_parse hparse
  rw [hnodes, readsAt_cons_iff rfl, reads_rule_iff] at hreads
  obtain ⟨⟨hr', hns⟩, -⟩ := hreads
  -- The text ends with the brace of the rule, so nothing is left behind it.
  have hnil : sheet.after = [] := by
    rcases List.eq_nil_or_concat sheet.after with hnil | ⟨g, c, hc⟩
    · exact hnil
    · have hlast := congrArg List.getLast? htext
      rw [List.concat_eq_append] at hc
      rw [hc, ← List.append_assoc, List.getLast?_concat, Node.render, List.getLast?_concat] at hlast
      obtain rfl := Option.some.inj hlast
      exact absurd (hgap '}' (by simp [hc])) (by decide)
  have hblock : r'.head ++ '{' :: (Node.renderAll ns ++ r'.after ++ ['}']) =
      r.head ++ '{' ::
        (Node.renderAll (Node.appendDeclaration prop value body) ++ r.after ++ ['}']) := by
    simpa [hnodes, hnil, Node.renderAll, Node.render, Rule.head] using htext
  exact ⟨ns, r'.after, hns, List.append_cancel_right (hr'.unique hr hblock).2, hpairs⟩

end

/-! ## What is read in front of the new declaration -/

namespace Declaration

variable {d : Declaration} {after after' gap prop value : Text} {ns : List Node} {c : Char}

theorem Parted.shaped (h : d.Parted) : (Node.declaration d).Shaped := ⟨h.gap, h.divided⟩

theorem added_shaped (hg : gap.IsGap) : (Node.declaration (.added gap prop value)).Shaped :=
  ⟨hg, .inl ⟨[], [' '], rfl, by simp [Text.IsBlank], by simp [Text.IsBlank]; decide⟩⟩

theorem weight_added (hg : gap.IsGap) :
    (added gap prop value).render.weight = prop.weight + value.weight := by
  rw [← Text.weight_append]
  exact Node.weight_declaration (added_shaped hg)

theorem not_isSign_of_added (hg : gap.IsGap) (hp : prop.IsPlainWord) (hv : value.IsPlainWord)
    (hc : c ∈ (added gap prop value).render) : ¬ Node.isSign c ∧ c ≠ '}' := by
  have hplain : ∀ {w : Text}, w.IsPlainWord → c ∈ w → ¬ Node.isSign c ∧ c ≠ '}' := by
    intro w hw hmem
    refine ⟨not_isSign_of_plain (hw.2 c hmem), ?_⟩
    rintro rfl
    exact absurd (hw.2 _ hmem) (by decide)
  have hmark : ∀ {m : Char}, m = ':' ∨ m = ' ' ∨ m = ';' → ¬ Node.isSign m ∧ m ≠ '}' := by
    rintro m (rfl | rfl | rfl) <;> simp [Node.isSign]
  have hcolon : (": ".toList : Text) = [':', ' '] := rfl
  simp only [render, added, hcolon, List.mem_append, if_true, List.mem_cons, List.not_mem_nil,
    or_false] at hc
  rcases hc with (((hc | hc) | hc | hc) | hc) | hc
  · rcases hg c hc with hs | hc
    · refine ⟨?_, ?_⟩
      · rintro (rfl | rfl | rfl) <;> exact absurd hs (by decide)
      · rintro rfl
        exact absurd hs (by decide)
    · exact hmark (by simp [hc])
  · exact hplain hp hc
  · exact hmark (.inl hc)
  · exact hmark (.inr (.inl hc))
  · exact hplain hv hc
  · exact hmark (.inr (.inr hc))

/-- A semicolon of the new declaration is its last character or one of its gap. -/
theorem exists_gap_of_added {t rest : Text} (hp : prop.IsPlainWord) (hv : value.IsPlainWord)
    (h : (added gap prop value).render = t ++ ';' :: rest) :
    rest = [] ∨ ∃ g, gap = t ++ ';' :: g := by
  have hword : ∀ {w : Text}, w.IsPlainWord → ';' ∉ w := by
    intro w hw hmem
    exact absurd (hw.2 _ hmem) (by decide)
  obtain ⟨c, u, rfl⟩ := List.exists_cons_of_ne_nil hp.ne_nil
  have hsemicolon : ';' ∉ c :: u ++ ": ".toList ++ value := by
    rw [List.mem_append, List.mem_append, not_or, not_or]
    exact ⟨⟨hword hp, by simp⟩, hword hv⟩
  have hsplit : gap ++ (c :: u ++ ": ".toList ++ value ++ [';']) = t ++ ';' :: rest := by
    rw [← h]
    simp [added, render]
  rcases List.append_eq_append_iff.mp hsplit with ⟨v, -, hv⟩ | ⟨v, rfl, hv⟩
  · left
    rcases List.eq_nil_or_concat rest with hnil | ⟨z, e, rfl⟩
    · exact hnil
    · rw [List.concat_eq_append, ← List.cons_append, ← List.append_assoc] at hv
      rw [(List.append_inj' hv rfl).1] at hsemicolon
      exact absurd (List.mem_append_right v List.mem_cons_self) hsemicolon
  · right
    cases v with
    | nil =>
      obtain rfl : ';' = c := (List.cons.inj hv).1
      exact absurd List.mem_cons_self (hword hp)
    | cons d v =>
      obtain rfl : ';' = d := (List.cons.inj hv).1
      exact ⟨v, rfl⟩

/-- If both declarations are found, the first one is the one that got its semicolon. -/
theorem standsAlone_of_pairs (hd : (Node.declaration d).ReadsBefore (some '}') after)
    (hopen : d.semicolon = false) (hafter : after.IsGap) (hg : gap.IsGap)
    (hns : ReadsAt (some '}') ns after')
    (ht : Node.renderAll ns ++ after' = d.render ++ ';' :: ((added gap prop value).render ++ after))
    (hpairs : Node.pairs ns = [(d.prop, d.value), (prop, value)]) :
    (Node.declaration { d with semicolon := true }).StandsAlone := by
  have hshaped := hns.shaped
  have hparted := parted hd
  have hweight := congrArg Text.weight ht
  have hsemicolon : Text.weight [';'] = 0 := rfl
  have hrender : d.render.weight = (d.prop ++ d.value).weight :=
    Node.weight_declaration hparted.shaped
  rw [← List.singleton_append] at hweight
  simp only [Text.weight_append, hshaped.after.weight_eq_zero, hafter.weight_eq_zero,
    weight_added hg, hsemicolon, hrender] at hweight
  have hall := Node.declarations_of_weight hshaped.nodes (by rw [hpairs]; simp; omega)
  -- Nothing else weighs anything, so there are just two declarations.
  match ns, hall with
  | [], _ => cases hpairs
  | n :: ms, hall =>
    obtain ⟨⟨d₁, rfl⟩, hms⟩ := List.forall_mem_cons.mp hall
    obtain ⟨hfirst, hrest⟩ := List.cons.inj hpairs
    obtain ⟨hprop, hvalue⟩ := Prod.mk.inj hfirst
    have hclosed : (Node.declaration d₁).isOpen = false := by
      rw [Bool.eq_false_iff]
      intro ho
      obtain rfl := hshaped.openLast.1 ho
      cases hrest
    have hsemi : d₁.semicolon = true := by simpa [Node.isOpen] using hclosed
    have hreads := ((readsAt_cons_iff hclosed).mp hns).1
    have hreadsBefore : (Node.declaration d₁).ReadsBefore (some '}') [] := by
      rw [Node.ReadsBefore, hclosed]
      exact hreads
    obtain ⟨hbefore, hbetween⟩ := (parted hreadsBefore).unique hparted hprop hvalue
      (x := Node.renderAll ms ++ after') (y := (added gap prop value).render ++ after) (by
        simpa [Node.renderAll, Node.render, render, hsemi, hopen, text] using ht)
    have hsame : { d with semicolon := true } = d₁ := by
      cases d
      cases d₁
      simp_all
    rw [hsame, Node.standsAlone_iff hclosed]
    exact hreads

end Declaration

/-- A node that is not open ends with its semicolon, or with a mark of its own. -/
theorem Node.last_of_closed {n : Node} (h : n.isOpen = false) (hn : n.Shaped) :
    (n.render.getLast? = some ';' ∧
        ((∃ d, n = .declaration d) ∨ ∃ a, n = .atRule a ∧ a.semicolon = true)) ∨
      n.render.getLast? = some '}' ∨ n.render.getLast? = some '/' := by
  cases n with
  | declaration d =>
    have hs : d.semicolon = true := by simpa [isOpen] using h
    exact .inl ⟨by simp [render, Declaration.render, hs], .inl ⟨d, rfl⟩⟩
  | atRule a =>
    have hs : a.semicolon = true := by simpa [isOpen] using h
    exact .inl ⟨by simp [render, hs], .inr ⟨a, rfl, hs⟩⟩
  | atBlock a body => exact .inr (.inl List.getLast?_concat)
  | rule r body => exact .inr (.inl List.getLast?_concat)
  | comment c =>
    obtain ⟨-, u, hu⟩ := hn
    have hmark : "*/".toList = ['*'] ++ ['/'] := rfl
    refine .inr (.inr ?_)
    rw [render, hu, hmark, ← List.append_assoc, ← List.append_assoc, List.getLast?_concat]

theorem Node.exists_sign_of_pairs {ns : List Node} (h : ∀ n ∈ ns, n.Shaped) (hpairs : pairs ns = [])
    (hne : ns ≠ []) : ∃ c ∈ renderAll ns, isSign c := by
  obtain ⟨n, ns, rfl⟩ := List.exists_cons_of_ne_nil hne
  obtain ⟨d, rfl⟩ | hnone := n.exists_declaration_or
  · cases hpairs
  · obtain ⟨c, hc, hsign⟩ := exists_sign (h n List.mem_cons_self) hnone
    exact ⟨c, List.mem_append_left _ hc, hsign⟩

namespace AtRule

variable {a : AtRule} {after gap prop value rest u : Text} {n : Node} {ns : List Node}

theorem exists_behind_head (ha : ReadsAt (some '}') [.atRule a] []) (hopen : a.semicolon = false)
    (hn : n.Reads) (ht : n.render ++ rest = a.head ++ u) :
    ∃ t c, n.render = a.head ++ t ++ [c] ∧ u = t ++ c :: rest := by
  have hlonger : ∀ z, a.head ≠ n.render ++ z := by
    intro z hz
    -- The at-rule would begin with the node and so be it.
    obtain ⟨ns, hns⟩ := ha.exists_cons hn (t := z) (by
      simpa [Node.renderAll, Node.render, hopen] using hz)
    obtain ⟨rfl, -⟩ := List.cons.inj hns
    have hclosed := hn.isOpen
    rw [Node.isOpen, hopen] at hclosed
    cases hclosed
  rcases List.append_eq_append_iff.mp ht with ⟨z, hz, -⟩ | ⟨y, hy, rfl⟩
  · exact absurd hz (hlonger z)
  · rcases List.eq_nil_or_concat y with rfl | ⟨t, c, rfl⟩
    · exact absurd (by simpa using hy.symm) (hlonger [])
    · rw [List.concat_eq_append] at hy ⊢
      exact ⟨t, c, by rw [hy, List.append_assoc], by simp⟩

/-- The text of an at-rule weighs more than what the new declaration says. -/
theorem not_declarations (hg : gap.IsGap) (hns : ReadsAt (some '}') ns after)
    (ht : Node.renderAll ns ++ after = a.head ++ (Declaration.added gap prop value).render)
    (hpairs : Node.pairs ns = [(prop, value)]) : ¬ ∀ n ∈ ns, ∃ d, n = .declaration d := by
  intro hall
  have hshaped := hns.shaped
  have hweight := congrArg Text.weight ht
  have hat : 0 < a.head.weight := Text.weight_pos (c := '@') (by simp [head]) rfl
  rw [Text.weight_append, Text.weight_append, Node.weight_declarations hshaped.nodes hall, hpairs,
    hshaped.after.weight_eq_zero, Declaration.weight_added hg] at hweight
  simp at hweight
  omega

/-- If the declaration is found behind an open at-rule, the first node is an at-rule with a
semicolon in front of the end of the declaration. -/
theorem exists_closed_of_pairs (ha : ReadsAt (some '}') [.atRule a] [])
    (hopen : a.semicolon = false) (hg : gap.IsGap) (hp : prop.IsPlainWord) (hv : value.IsPlainWord)
    (hns : ReadsAt (some '}') ns after)
    (ht : Node.renderAll ns ++ after = a.head ++ (Declaration.added gap prop value).render)
    (hpairs : Node.pairs ns = [(prop, value)]) :
    ∃ (b : AtRule) (ms : List Node) (t : Text), ns = .atRule b :: ms ∧ b.semicolon = true ∧
      (Node.atRule b).Reads ∧ (Node.atRule b).render = a.head ++ t ++ [';'] ∧
      (Declaration.added gap prop value).render = t ++ ';' :: (Node.renderAll ms ++ after) := by
  have hshaped := hns.shaped
  have hnot := not_declarations hg hns ht hpairs
  obtain ⟨n, ms, rfl⟩ := List.exists_cons_of_ne_nil fun hnil : ns = [] => hnot (by simp [hnil])
  have hclosed : n.isOpen = false := by
    rw [Bool.eq_false_iff]
    intro ho
    obtain rfl := hshaped.openLast.1 ho
    obtain ⟨d, rfl⟩ | hnone := n.exists_declaration_or
    · exact hnot (by simp)
    · rw [Node.pairs_of_none hnone] at hpairs
      cases hpairs
  have hreads := ((readsAt_cons_iff hclosed).mp hns).1
  rw [Node.renderAll, List.append_assoc] at ht
  obtain ⟨t, c, hrender, hadded⟩ := exists_behind_head ha hopen hreads ht
  have hplain : ∀ e ∈ t ++ c :: (Node.renderAll ms ++ after), ¬ Node.isSign e ∧ e ≠ '}' := by
    intro e he
    rw [← hadded] at he
    exact Declaration.not_isSign_of_added hg hp hv he
  obtain ⟨hsign, hbrace⟩ := hplain c (by simp)
  have hlast : n.render.getLast? = some c := by rw [hrender, List.getLast?_concat]
  rcases Node.last_of_closed hclosed (hshaped.nodes n List.mem_cons_self) with
    ⟨hl, ⟨d, rfl⟩ | ⟨b, rfl, hb⟩⟩ | hl | hl <;> obtain rfl := Option.some.inj (hlast.symm.trans hl)
  · -- A declaration would be the only node, as there is no sign behind it.
    refine absurd ?_ hnot
    by_cases hnil : ms = []
    · simp [hnil]
    · obtain ⟨e, he, hesign⟩ := Node.exists_sign_of_pairs
        (fun m hm => hshaped.nodes m (List.mem_cons_of_mem _ hm)) (List.cons.inj hpairs).2 hnil
      exact absurd hesign (hplain e (by simp [he])).1
  · exact ⟨b, ms, t, rfl, hb, hreads, hrender, hadded⟩
  · exact absurd rfl hbrace
  · exact absurd (.inl rfl) hsign

/-- If the declaration is found behind an open at-rule, the gap in front of it has a
semicolon that ends the at-rule. -/
theorem exists_semicolon_of_pairs (ha : ReadsAt (some '}') [.atRule a] [])
    (hopen : a.semicolon = false) (hg : gap.IsGap) (hp : prop.IsPlainWord) (hv : value.IsPlainWord)
    (hns : ReadsAt (some '}') ns after)
    (ht : Node.renderAll ns ++ after = a.head ++ (Declaration.added gap prop value).render)
    (hpairs : Node.pairs ns = [(prop, value)]) :
    ∃ (t rest : Text) (b : AtRule), gap = t ++ ';' :: rest ∧ b.semicolon = true ∧
      (Node.atRule b).render = a.head ++ t ++ [';'] ∧ (Node.atRule b).StandsAlone := by
  obtain ⟨b, ms, t, rfl, hb, hreads, hrender, hadded⟩ :=
    exists_closed_of_pairs ha hopen hg hp hv hns ht hpairs
  rcases Declaration.exists_gap_of_added hp hv hadded with hnil | ⟨rest, hgap⟩
  · -- The at-rule takes in all of the declaration, which is then nowhere else.
    exfalso
    have hbound := Node.weight_renderAll fun m hm => hns.shaped.nodes m (List.mem_cons_of_mem _ hm)
    have hpos := hp.weight_pos
    have hzero : Text.weight [] = 0 := rfl
    rw [Node.pairs_of_none rfl] at hpairs
    rw [(List.append_eq_nil_iff.mp hnil).1, hpairs, hzero] at hbound
    simp only [Node.said_cons, Node.said_nil, Text.weight_append, hzero] at hbound
    omega
  · exact ⟨t, rest, b, hgap, hb, hrender, (Node.standsAlone_iff hreads.isOpen).mpr hreads⟩

end AtRule

/-! ## The last node -/

section

variable {e : Option Char} {after : Text} {r : Rule} {n : Node} {ms : List Node} {prop value : Text}

/-- All nodes but the last one are read back wherever they stand. -/
theorem ReadsAt.concat (h : ReadsAt e (ms ++ [n]) after) :
    (∀ m ∈ ms, m.Reads) ∧ ReadsAt e [n] after := by
  induction ms with
  | nil => exact ⟨by simp, h⟩
  | cons m ms ih =>
    have hclosed : m.isOpen = false := by
      rw [Bool.eq_false_iff]
      intro hopen
      have hnil := ReadsAt.eq_nil_of_isOpen h hopen
      simp at hnil
    obtain ⟨hm, hrest⟩ := (readsAt_cons_iff hclosed).mp h
    obtain ⟨hms, hn⟩ := ih hrest
    exact ⟨List.forall_mem_cons.mpr ⟨hm, hms⟩, hn⟩

theorem Node.appendDeclaration_concat (hms : ∀ m ∈ ms, m.Reads) (n : Node) (prop value : Text) :
    appendDeclaration prop value (ms ++ [n]) =
      ms ++
        (terminateLast [n] ++ [.declaration (.added (indentation (ms ++ [n])) prop value)]) := by
  rw [appendDeclaration, terminateLast_concat fun m hm => (hms m hm).isOpen, List.append_assoc]
  rfl

/-- If the declaration is found again, the last node comes to an end in front of it. -/
theorem Rule.HeadReads.endsApart (hr : r.HeadReads) (hbody : ReadsAt (some '}') (ms ++ [n]) r.after)
    (hp : prop.IsPlainWord) (hv : value.IsPlainWord) (h : r.AppendsApart (ms ++ [n]) prop value) :
    n.EndsApart (Node.indentation (ms ++ [n])) := by
  have hgap := Node.isGap_indentation hbody.shaped.nodes
  obtain ⟨hms, hn⟩ := hbody.concat
  obtain ⟨ns, after, hns, ht, hpairs⟩ := hr.exists_of_appendsApart h
  rw [Node.appendDeclaration_concat hms, Node.renderAll_append, List.append_assoc] at ht
  obtain ⟨ns, rfl, hns, ht⟩ := hns.exists_append hms ht
  rw [Node.pairs_append, Node.pairs_append, List.append_assoc] at hpairs
  have hpairs := List.append_cancel_left hpairs
  cases n with
  | declaration d =>
    cases hopen : d.semicolon with
    | true =>
      have hclosed : (Node.declaration d).isOpen = false := by simp [Node.isOpen, hopen]
      rw [Node.EndsApart, d.terminated_of_semicolon hopen, Node.standsAlone_iff hclosed]
      exact ((readsAt_cons_iff hclosed).mp hn).1
    | false =>
      refine Declaration.standsAlone_of_pairs (hn.readsBefore _ List.mem_cons_self) hopen
        hn.shaped.after hgap hns ?_ hpairs
      rw [ht]
      simp [Node.terminateLast, Node.renderAll, Node.render, Declaration.render, hopen]
  | atRule a =>
    cases hopen : a.semicolon with
    | true => exact .inl hopen
    | false =>
      obtain ⟨hafter, -, -⟩ := (readsAt_open_atRule_iff hopen).mp hn
      rw [hafter] at hn ht
      refine .inr (AtRule.exists_semicolon_of_pairs hn hopen hgap hp hv hns ?_ hpairs)
      rw [ht]
      simp [Node.terminateLast, Node.renderAll, Node.render, hopen]
  | _ => trivial

/-- If the last node comes to an end in front of it, the declaration is found again. -/
theorem Node.EndsApart.appendsApart (h : n.EndsApart (indentation (ms ++ [n]))) (hr : r.HeadReads)
    (hbody : ReadsAt (some '}') (ms ++ [n]) r.after) (hp : prop.IsPlainWord)
    (hv : value.IsPlainWord) : r.AppendsApart (ms ++ [n]) prop value := by
  have hgap := isGap_indentation hbody.shaped.nodes
  obtain ⟨hms, hn⟩ := hbody.concat
  have happend := appendDeclaration_concat hms n prop value
  have hadded := Declaration.added_reads hgap hp hv
  -- The nodes in front are the same, and two nodes are read behind them.
  have htwo : ∀ m k : Node, m.Reads → k.Reads →
      renderAll [m, k] = renderAll (terminateLast [n] ++
        [.declaration (.added (indentation (ms ++ [n])) prop value)]) →
      pairs [m, k] = pairs [n] ++ [(prop, value)] → r.AppendsApart (ms ++ [n]) prop value := by
    intro m k hm hk ht hpairs
    have hall : ∀ j ∈ ms ++ [m, k], j.Reads := by
      simpa [or_imp, forall_and, hm, hk] using hms
    refine hr.appendsApart hbody.nil hall ?_ ?_
    · rw [happend, renderAll_append, ht, ← renderAll_append]
    · rw [pairs_append, pairs_append, hpairs, List.append_assoc]
  cases hopen : n.isOpen with
  | false =>
    refine htwo n _ ((readsAt_cons_iff hopen).mp hn).1 hadded ?_ ?_
    · rw [terminateLast_of_closed hopen]
      rfl
    · exact pairs_append [n] [_]
  | true =>
    cases n with
    | declaration d =>
      refine htwo _ _ ((standsAlone_iff rfl).mp h) hadded rfl rfl
    | atRule a =>
      have hsemicolon : a.semicolon = false := by simpa [isOpen] using hopen
      obtain hclosed | ⟨t, rest, b, hindent, hb, hrender, halone⟩ := h
      · rw [hsemicolon] at hclosed
        cases hclosed
      · have hclosed : (Node.atRule b).isOpen = false := by simp [isOpen, hb]
        have hrest : rest.IsGap := by
          intro c hc
          exact hgap c (by rw [hindent]; simp [hc])
        refine htwo _ _ ((standsAlone_iff hclosed).mp halone)
          (Declaration.added_reads hrest hp hv) ?_ rfl
        rw [hindent, renderAll, hrender]
        simp [terminateLast, renderAll, render, hsemicolon, Declaration.render, Declaration.added]
    | _ => cases hopen

theorem Node.not_endsApart {indentation : Text} (hopen : n.isOpen = true)
    (hn : n.declaration? = none) (hi : ';' ∉ indentation) : ¬ n.EndsApart indentation := by
  cases n with
  | declaration d => cases hn
  | atRule a =>
    rintro (hclosed | ⟨t, gap, b, rfl, -⟩)
    · rw [isOpen, hclosed] at hopen
      cases hopen
    · exact hi (by simp)
  | _ => cases hopen

end

/-- A declaration that is added to a rule of a sheet is found again as a declaration of its
own just if the last node of the rule comes to an end in front of it. -/
theorem Stylesheet.appendsApart_iff {css : Text} {sheet : Stylesheet} {path : List Nat} {r : Rule}
    {body : List Node} {prop value : Text} (h : parse css = .ok sheet)
    (hpath : Node.at? sheet.nodes path = some (.rule r body)) (hp : prop.IsPlainWord)
    (hv : value.IsPlainWord) :
    r.AppendsApart body prop value ↔ ∀ n ∈ body.getLast?, n.EndsApart (Node.indentation body) := by
  obtain ⟨e, after, hrule⟩ := (ReadsAt.of_parse h).exists_readsBefore hpath
  obtain ⟨hr, hbody⟩ := reads_rule_iff.mp hrule
  rcases List.eq_nil_or_concat body with rfl | ⟨ms, n, rfl⟩
  · have hadded := Declaration.added_reads (Node.isGap_indentation hbody.shaped.nodes) hp hv
    have hall : ∀ n ∈ [Node.declaration (.added (Node.indentation []) prop value)], n.Reads := by
      intro n hn
      obtain rfl := List.mem_singleton.mp hn
      exact hadded
    exact iff_of_true (hr.appendsApart hbody.nil hall rfl rfl) (by simp)
  · rw [List.concat_eq_append] at hbody ⊢
    rw [List.getLast?_concat]
    constructor
    · rintro happ m ⟨⟩
      exact hr.endsApart hbody hp hv happ
    · exact fun hends => (hends n rfl).appendsApart hr hbody hp hv

/-- Nothing ends the at-rule, so it takes the declaration in. -/
theorem Stylesheet.open_atRule_takes_declaration :
    ∃ sheet r body, parse ".a\x7b@b c\x7d".toList = .ok sheet ∧
      Node.at? sheet.nodes [0] = some (.rule r body) ∧
      (Node.rule r (Node.appendDeclaration "p".toList "v".toList body)).render =
        ".a\x7b@b c\n  p: v;\x7d".toList ∧
      ¬ r.AppendsApart body "p".toList "v".toList := by
  have hcheck : (match parse ".a\x7b@b c\x7d".toList with
      | .ok sheet => decide (∃ n ∈ Node.at? sheet.nodes [0], n.before = [] ∧
          (n.withChildren (Node.appendDeclaration "p".toList "v".toList n.children)).render =
            ".a\x7b@b c\n  p: v;\x7d".toList ∧
          ';' ∉ Node.indentation n.children ∧
          ∃ m ∈ n.children.getLast?, m.isOpen = true ∧ m.declaration? = none)
      | .error _ => false) = true := by decide +kernel
  have hp : Text.IsPlainWord "p".toList :=
    ⟨⟨'p', rfl, rfl⟩, List.forall_mem_singleton.mpr (.inl rfl)⟩
  have hv : Text.IsPlainWord "v".toList :=
    ⟨⟨'v', rfl, rfl⟩, List.forall_mem_singleton.mpr (.inl rfl)⟩
  cases hparse : parse ".a\x7b@b c\x7d".toList with
  | error e =>
    rw [hparse] at hcheck
    cases hcheck
  | ok sheet =>
    rw [hparse] at hcheck
    obtain ⟨n, hn, hbefore, hrender, hindent, m, hm, hopen, hnone⟩ := of_decide_eq_true hcheck
    cases n with
    | rule r body =>
      refine ⟨sheet, r, body, rfl, hn, hrender, ?_⟩
      rw [appendsApart_iff hparse hn hp hv]
      exact fun hends => Node.not_endsApart hopen hnone hindent (hends m hm)
    | atBlock a body =>
      -- The text does not begin with an at sign.
      have hbefore : a.before = [] := hbefore
      simp [Node.withChildren, Node.render, AtRule.head, hbefore] at hrender
    | _ => cases hm

end AnimationScope
