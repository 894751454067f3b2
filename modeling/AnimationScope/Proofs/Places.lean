import AnimationScope.Proofs.BreakingOff
import AnimationScope.Stylesheet.Declarations

/-!
# Values in their places

Every declaration of a stylesheet is printed at one place, and its value is a part of the
source. On its own, the value has the lexemes that the source has in this place, unless the
place begins inside a lexeme or a newline behind it breaks its lexemes off.
-/

namespace AnimationScope

open Css

/-! ## Places -/

namespace Node

mutual

/-- The declarations in a node, each with all that is printed in front of its value. -/
def placed (front : Text) : Node → List (Text × Declaration)
  | .declaration d => [(front ++ d.before ++ d.prop ++ d.between, d)]
  | .atBlock a body => allPlaced (front ++ a.head ++ ['{']) body
  | .rule r body => allPlaced (front ++ r.before ++ r.selector ++ r.between ++ ['{']) body
  | .atRule _ => []
  | .comment _ => []

def allPlaced (front : Text) : List Node → List (Text × Declaration)
  | [] => []
  | n :: ns => placed front n ++ allPlaced (front ++ n.render) ns

end

mutual

theorem map_snd_placed (front : Text) (n : Node) :
    (placed front n).map Prod.snd = declarations n := by
  cases n with
  | atRule a => rfl
  | atBlock a body => exact map_snd_allPlaced _ body
  | rule r body => exact map_snd_allPlaced _ body
  | declaration d => rfl
  | comment c => rfl

theorem map_snd_allPlaced (front : Text) (ns : List Node) :
    (allPlaced front ns).map Prod.snd = allDeclarations ns := by
  cases ns with
  | nil => rfl
  | cons n ns =>
    rw [allPlaced, List.map_append, map_snd_placed front n, map_snd_allPlaced _ ns]
    rfl

end

mutual

theorem value_in_place {front : Text} {n : Node} {p : Text × Declaration}
    (h : p ∈ placed front n) : ∃ behind, front ++ n.render = p.1 ++ p.2.value ++ behind := by
  cases n with
  | atRule a => cases h
  | atBlock a body =>
    obtain ⟨behind, hb⟩ := value_in_places h
    refine ⟨behind ++ a.after ++ ['}'], ?_⟩
    simp only [render, ← List.append_assoc, ← hb]
    simp
  | rule r body =>
    obtain ⟨behind, hb⟩ := value_in_places h
    refine ⟨behind ++ r.after ++ ['}'], ?_⟩
    simp only [render, ← List.append_assoc, ← hb]
    simp
  | declaration d =>
    obtain rfl := List.mem_singleton.mp h
    exact ⟨if d.semicolon then [';'] else [], by simp [render, Declaration.render]⟩
  | comment c => cases h

theorem value_in_places {front : Text} {ns : List Node} {p : Text × Declaration}
    (h : p ∈ allPlaced front ns) :
    ∃ behind, front ++ renderAll ns = p.1 ++ p.2.value ++ behind := by
  cases ns with
  | nil => cases h
  | cons n ns =>
    rw [renderAll]
    rcases List.mem_append.mp h with h | h
    · obtain ⟨behind, hb⟩ := value_in_place h
      exact ⟨behind ++ renderAll ns, by rw [← List.append_assoc, hb, List.append_assoc]⟩
    · obtain ⟨behind, hb⟩ := value_in_places h
      exact ⟨behind, by rw [← List.append_assoc, hb]⟩

end

end Node

/-- The declarations of a stylesheet at any depth, each with all that is printed in front of
its value. -/
def Stylesheet.placed (s : Stylesheet) : List (Text × Declaration) := Node.allPlaced [] s.nodes

theorem Stylesheet.map_snd_placed (s : Stylesheet) : s.placed.map Prod.snd = s.declarations :=
  Node.map_snd_allPlaced [] s.nodes

theorem Stylesheet.exists_behind {s : Stylesheet} {p : Text × Declaration} (h : p ∈ s.placed) :
    ∃ behind, s.render = p.1 ++ p.2.value ++ behind := by
  obtain ⟨behind, hb⟩ := Node.value_in_places h
  rw [List.nil_append] at hb
  exact ⟨behind ++ s.after, by rw [render, hb, List.append_assoc]⟩

/-! ## Preludes -/

theorem Declaration.text_ofPrelude (before : Text) (prelude : List Lexeme) (semicolon : Bool) :
    let d := ofPrelude before prelude semicolon
    d.prop ++ d.between ++ d.value = Lexeme.join prelude := by
  have h := render_ofPrelude before prelude semicolon
  rw [render, before_ofPrelude, semicolon_ofPrelude] at h
  have hcancel := List.append_cancel_right h
  rw [List.append_assoc, List.append_assoc] at hcancel
  have htext := List.append_cancel_left hcancel
  rwa [← List.append_assoc] at htext

/-- What may stand behind a declaration. -/
def Css.Lexeme.EndsDeclaration (l : Lexeme) : Prop := l.IsGap ∨ l.kind = .closeBrace

/-- The declaration is read from a prelude among the lexemes, and its value ends the prelude. -/
def ReadFrom (ls : List Lexeme) (p : Text × Declaration) : Prop :=
  ∃ pre prelude post x, ls = pre ++ prelude ++ post ∧ (∀ l ∈ prelude, l.InPrelude) ∧
    p.1 = Lexeme.join pre ++ x ∧ Lexeme.join prelude = x ++ p.2.value ∧
    ∀ l ∈ post.head?, l.EndsDeclaration

/-- A declaration is read from its own prelude. -/
theorem readFrom_ofPrelude {pre gap prelude post : List Lexeme} {semicolon : Bool}
    {p : Text × Declaration} (hprelude : ∀ l ∈ prelude, l.InPrelude)
    (hpost : ∀ l ∈ post.head?, l.EndsDeclaration)
    (h : p ∈ Node.placed (Lexeme.join pre)
      (.declaration (Declaration.ofPrelude (Lexeme.join gap) prelude semicolon))) :
    ReadFrom (pre ++ (gap ++ prelude) ++ post) p := by
  obtain rfl := List.mem_singleton.mp h
  refine ⟨pre ++ gap, prelude, post, _, by simp, hprelude, ?_,
    (Declaration.text_ofPrelude (Lexeme.join gap) prelude semicolon).symm, hpost⟩
  rw [Declaration.before_ofPrelude, Lexeme.join_append]
  simp only [List.append_assoc]

section

variable {s : Statement} {ss : List Statement} {pre post : List Lexeme} {p : Text × Declaration}

theorem Node.render_ofStatement (h : Statement.Formed [s] []) (hs : ∀ l ∈ s.lexemes, l.Spelled) :
    (ofStatement s).render = Lexeme.join s.lexemes := by
  have hall := renderAll_ofStatements h (by simpa [Statement.lexemesOf] using hs)
  simpa [ofStatements, renderAll, Statement.lexemesOf] using hall

/-- The places in a block begin behind its opening brace. -/
theorem Node.placed_block {h : Statement.Head} (hk : ∀ k ∈ h.keyword, ∃ r, k.text = '@' :: r)
    (body : List Statement) (inner : List Lexeme) :
    placed (Lexeme.join pre) (ofStatement (.block h body inner)) =
      allPlaced (Lexeme.join (pre ++ (h.gap ++ h.keyword.toList ++ h.prelude ++ [.openBrace])))
        (ofStatements body) := by
  obtain ⟨gap, keyword, prelude⟩ := h
  cases keyword with
  | some k =>
    have hhead := AtRule.head_ofPrelude (Lexeme.join gap) (hk k rfl) (Lexeme.join prelude)
    simp only [AtRule.head] at hhead
    simp only [ofStatement, placed, AtRule.head, hhead]
    simp [Lexeme.openBrace]
  | none =>
    have hparts := Rule.parts_ofPrelude (Lexeme.join gap) (Lexeme.join prelude)
      (Lexeme.join inner)
    have hfront : ∀ r : Rule, Lexeme.join pre ++ r.before ++ r.selector ++ r.between ++ ['{'] =
        Lexeme.join pre ++ (r.before ++ r.selector ++ r.between) ++ ['{'] := by simp
    simp only [ofStatement, placed, hfront]
    rw [hparts]
    simp [Lexeme.openBrace]

/-- Behind a statement, the places go on behind its lexemes. -/
theorem readFrom_cons {after : List Lexeme} (hf : Statement.Formed [s] [])
    (hs : ∀ l ∈ Statement.lexemesOf (s :: ss), l.Spelled)
    (hp : p ∈ Node.allPlaced (Lexeme.join pre) (Node.ofStatements (s :: ss)))
    (first : p ∈ Node.placed (Lexeme.join pre) (Node.ofStatement s) →
      ReadFrom (pre ++ s.lexemes ++ (Statement.lexemesOf ss ++ after ++ post)) p)
    (later : (∀ l ∈ Statement.lexemesOf ss, l.Spelled) →
      p ∈ Node.allPlaced (Lexeme.join (pre ++ s.lexemes)) (Node.ofStatements ss) →
        ReadFrom (pre ++ s.lexemes ++ (Statement.lexemesOf ss ++ after) ++ post) p) :
    ReadFrom (pre ++ (Statement.lexemesOf (s :: ss) ++ after) ++ post) p := by
  rw [Statement.lexemesOf, List.forall_mem_append] at hs
  rw [Node.ofStatements, Node.allPlaced, Node.render_ofStatement hf hs.1, ← Lexeme.join_append,
    List.mem_append] at hp
  have hlist : pre ++ (Statement.lexemesOf (s :: ss) ++ after) ++ post =
      pre ++ s.lexemes ++ (Statement.lexemesOf ss ++ after) ++ post := by
    simp [Statement.lexemesOf]
  rw [hlist]
  rcases hp with hp | hp
  · rw [List.append_assoc]
    exact first hp
  · exact later hs.2 hp

/-- Every declaration of formed statements is read from a prelude among their lexemes. -/
theorem readFrom_of_formed {after : List Lexeme} (h : Statement.Formed ss after)
    (hs : ∀ l ∈ Statement.lexemesOf ss, l.Spelled)
    (hpost : ∀ l ∈ post.head?, l.kind = .closeBrace)
    (hp : p ∈ Node.allPlaced (Lexeme.join pre) (Node.ofStatements ss)) :
    ReadFrom (pre ++ (Statement.lexemesOf ss ++ after) ++ post) p := by
  have hnil : Statement.Formed [] [] := .done (by simp)
  induction h generalizing pre post with
  | done => cases hp
  | @comment gap c ss after hg hc hss ih =>
    refine readFrom_cons (.comment hg hc hnil) hs hp (fun hfirst => ?_)
      fun hss hp => ih hss hpost hp
    cases hfirst
  | @simple h l ss after hh hne hk _ ih =>
    refine readFrom_cons (.simple hh hne hk hnil) hs hp (fun hfirst => ?_)
      fun hss hp => ih hss hpost hp
    obtain ⟨gap, keyword, prelude⟩ := h
    cases keyword with
    | some k => cases hfirst
    | none =>
      have hends : ∀ m ∈ (l :: (Statement.lexemesOf ss ++ after ++ post)).head?,
          m.EndsDeclaration := by
        rintro m ⟨⟩
        exact .inl (.inr hk)
      have hread := readFrom_ofPrelude hh.prelude hends hfirst
      simpa [Statement.lexemes] using hread
  | @block h body ss inner after hh hb _ ihb ih =>
    refine readFrom_cons (.block hh hb hnil) hs hp (fun hfirst => ?_)
      fun hss hp => ih hss hpost hp
    have hspelled : ∀ l ∈ (Statement.block h body inner).lexemes, l.Spelled := fun l hl =>
      hs l (List.mem_append_left _ hl)
    rw [Node.placed_block] at hfirst
    · have hcloses : ∀ l ∈ (Lexeme.closeBrace :: (Statement.lexemesOf ss ++ after ++ post)).head?,
          l.kind = .closeBrace := by
        rintro l ⟨⟩
        rfl
      have hread := ihb (fun l hl => hspelled l (by simp [Statement.lexemes, hl])) hcloses hfirst
      simpa [Statement.lexemes] using hread
    · exact hh.keyword_text fun k hk =>
        hspelled k (by simp [Statement.lexemes, Option.mem_def.mp hk])
  | @openRule h hh hk =>
    refine readFrom_cons (.openRule hh hk) hs hp (fun hfirst => ?_) fun _ hp => by cases hp
    obtain ⟨gap, keyword, prelude⟩ := h
    obtain ⟨k, rfl⟩ := Option.ne_none_iff_exists'.mp hk
    cases hfirst
  | @openDeclaration h after hh hk hlast ha =>
    refine readFrom_cons (.openDeclaration hh hk hlast (by simp)) hs hp (fun hfirst => ?_)
      fun _ hp => by cases hp
    obtain ⟨gap, keyword, prelude⟩ := h
    obtain rfl : keyword = none := hk
    have hends : ∀ l ∈ (after ++ post).head?, l.EndsDeclaration := by
      intro l hl
      cases after with
      | nil => exact .inr (hpost l hl)
      | cons m after =>
        obtain rfl := Option.some.inj hl
        exact .inl (.inl (ha m List.mem_cons_self))
    have hread := readFrom_ofPrelude hh.prelude hends hfirst
    simpa [Statement.lexemes, Statement.lexemesOf] using hread

end

/-! ## Values on their own -/

/-- The lexemes of the value on its own are those that the text has in the place of the value,
with the same kinds, and moved by the length of the text in front. -/
def LexedInPlace (t front value : Text) : Prop :=
  ∃ ls ms, lexemes t = .ok ls ∧ lexemes value = .ok ms ∧
    Lexeme.spans front.utf8Length ms = (Lexeme.spans 0 ls).filter
      (Lexeme.Span.within front.utf8Length (front ++ value).utf8Length)

theorem lexedInPlace_of_split {t front value : Text} {pre inner post : List Lexeme}
    (h : lexemes t = .ok (pre ++ inner ++ post)) (hfront : Lexeme.join pre = front)
    (hinner : lexemes value = .ok inner) : LexedInPlace t front value := by
  refine ⟨_, inner, h, hinner, ?_⟩
  rw [← hfront, ← join_lexemes hinner, ← Lexeme.join_append,
    Lexeme.filter_spans (text_ne_nil_of_lexemes h)]

theorem exists_split_of_lexedInPlace {t front value behind : Text} {ls : List Lexeme}
    (hls : lexemes t = .ok ls) (ht : t = front ++ value ++ behind) (hvalue : value ≠ [])
    (h : LexedInPlace t front value) :
    ∃ pre inner post, ls = pre ++ inner ++ post ∧ Lexeme.join pre = front ∧
      lexemes value = .ok inner := by
  obtain ⟨ls', inner, hls', hinner, hspans⟩ := h
  obtain rfl := Except.ok.inj (hls.symm.trans hls')
  have hjoin := join_lexemes hinner
  rw [← hjoin] at ht hspans hvalue
  rw [← join_lexemes hls] at ht
  obtain ⟨pre, post, rfl, hfront⟩ :=
    Lexeme.exists_split ht (text_ne_nil_of_lexemes hls) hvalue hspans
  exact ⟨pre, inner, post, rfl, hfront, hinner⟩

theorem isBarrier_of_endsDeclaration {ls : List Lexeme} (hs : ∀ l ∈ ls, l.Spelled)
    (hne : ∀ l ∈ ls, l.text ≠ []) (hends : ∀ l ∈ ls.head?, l.EndsDeclaration) :
    ∀ c ∈ (Lexeme.join ls).head?, isBarrier c = true := by
  intro c hc
  cases ls with
  | nil => cases hc
  | cons l ls =>
    obtain ⟨d, r, hr⟩ := List.exists_cons_of_ne_nil (hne l List.mem_cons_self)
    rw [Lexeme.join_cons, hr] at hc
    obtain rfl := Option.some.inj hc
    have hspelled := hs l List.mem_cons_self
    rw [Lexeme.Spelled, hr] at hspelled
    rcases hends l rfl with (hk | hk) | hk <;> rw [hk] at hspelled
    · simp [isBarrier, show isSpace d = true from hspelled d List.mem_cons_self]
    · obtain ⟨rfl, -⟩ := List.cons.inj hspelled
      rfl
    · obtain ⟨rfl, -⟩ := List.cons.inj hspelled
      rfl

/-- If the lexemes of the text lie in the place of a value, they are those of a part of the
prelude that the declaration was read from, and the value ends with it. -/
theorem ReadFrom.split {ls pre inner post : List Lexeme} {p : Text × Declaration}
    (h : ReadFrom ls p) (hls : ls = pre ++ inner ++ post) (hne : ∀ l ∈ ls, l.text ≠ [])
    (hfront : Lexeme.join pre = p.1) (hvalue : Lexeme.join inner = p.2.value) :
    (∀ l ∈ inner, l.InPrelude) ∧ ∀ l ∈ post.head?, l.EndsDeclaration := by
  obtain ⟨pre', prelude, post', x, rfl, hprelude, hx, hjoin, hends⟩ := h
  have hsame : Lexeme.join (pre' ++ prelude) = Lexeme.join (pre ++ inner) := by
    rw [Lexeme.join_append, Lexeme.join_append, hfront, hvalue, hx, hjoin, List.append_assoc]
  obtain ⟨hfronts, rfl⟩ := Lexeme.append_inj_of_join hls hne hsame
  refine ⟨?_, hends⟩
  rcases List.append_eq_append_iff.mp hfronts with ⟨z, rfl, rfl⟩ | ⟨z, rfl, rfl⟩
  · exact fun l hl => hprelude l (List.mem_append_right _ hl)
  · -- The value is no longer than the prelude, so nothing stands in front of it.
    have hz : ∀ l ∈ z, l.text ≠ [] := fun l hl => hne l (by simp [hl])
    rw [Lexeme.join_append, hjoin, ← List.append_assoc, List.append_left_eq_self] at hvalue
    obtain rfl := Lexeme.eq_nil_of_join hz (List.append_eq_nil_iff.mp hvalue).1
    exact hprelude

/-- The value of each declaration has its own lexemes on its own just if it begins with a
lexeme of the sheet, and no newline right behind it breaks its lexemes off. -/
theorem values_lexedInPlace_iff {css : Text} {sheet : Stylesheet}
    (h : Stylesheet.parse css = .ok sheet) :
    sheet.placed.map Prod.snd = sheet.declarations ∧ ∀ p ∈ sheet.placed,
      (∃ behind, css = p.1 ++ p.2.value ++ behind) ∧
      (LexedInPlace css p.1 p.2.value ↔ ∃ pre inner post,
        lexemes css = .ok (pre ++ inner ++ post) ∧ Lexeme.join pre = p.1 ∧
        Lexeme.join inner = p.2.value ∧
        (headIs isNewline (Lexeme.join post) = true → ¬ BreaksOff inner)) := by
  refine ⟨sheet.map_snd_placed, fun p hp => ?_⟩
  obtain ⟨behind, hbehind⟩ := Stylesheet.exists_behind hp
  rw [Stylesheet.render_of_parse h] at hbehind
  refine ⟨⟨behind, hbehind⟩, ?_⟩
  obtain ⟨⟨ss, after⟩, hr, hls, rfl⟩ := Stylesheet.parse_eq_ok_iff.mp h
  have hs := spelled_of_lexemes hls
  have hne := text_ne_nil_of_lexemes hls
  have hread : ReadFrom (Statement.Run.lexemes ⟨ss, after⟩) p := by
    have hplain : ReadFrom ([] ++ (Statement.lexemesOf ss ++ after) ++ []) p :=
      readFrom_of_formed hr (fun l hl => hs l (List.mem_append_left _ hl)) (by simp) hp
    simpa [Statement.Run.lexemes] using hplain
  constructor
  · intro hplace
    by_cases hvalue : p.2.value = []
    · -- An empty value stands at the end of its prelude.
      obtain ⟨pre, prelude, post, x, hsplit, -, hx, hjoin, -⟩ := hread
      refine ⟨pre ++ prelude, [], post, by rw [hls, hsplit, List.append_nil], ?_, hvalue.symm,
        fun _ => not_breaksOff_of_lexemes rfl⟩
      rw [Lexeme.join_append, hjoin, hvalue, List.append_nil, hx]
    · obtain ⟨pre, inner, post, hsplit, hfront, hinner⟩ :=
        exists_split_of_lexedInPlace hls hbehind hvalue hplace
      have hown := join_lexemes hinner
      refine ⟨pre, inner, post, by rw [hls, hsplit], hfront, hown, fun _ => ?_⟩
      rw [← hown] at hinner
      exact not_breaksOff_of_lexemes hinner
  · rintro ⟨pre, inner, post, hsplit, hfront, hvalue, hb⟩
    have heq := Except.ok.inj (hls.symm.trans hsplit)
    obtain ⟨hprelude, hends⟩ := hread.split heq hne hfront hvalue
    have hinner : Balanced inner := balanced_of_plain fun l hl => (hprelude l hl).2
    have hbarrier := isBarrier_of_endsDeclaration
      (fun l hl => hs l (heq ▸ List.mem_append_right _ hl))
      (fun l hl => hne l (heq ▸ List.mem_append_right _ hl)) hends
    refine lexedInPlace_of_split hsplit hfront ?_
    rw [← hvalue]
    exact (lexemes_join_iff hsplit hinner hbarrier).mpr hb

/-- In the sheet a newline ends the string, which is open at the end of its value. -/
theorem unfinished_string_is_broken_off :
    ∃ sheet p, Stylesheet.parse "a\x7bb:'c\n\x7d".toList = .ok sheet ∧ p ∈ sheet.placed ∧
      ¬ LexedInPlace "a\x7bb:'c\n\x7d".toList p.1 p.2.value := by
  refine ⟨_, ("a\x7bb:".toList, ⟨[], ['b'], [':'], "'c".toList, false⟩), rfl, ?_, ?_⟩
  · decide +kernel
  · intro h
    obtain ⟨pre, inner, post, hls, hfront, hinner, hb⟩ :=
      ((values_lexedInPlace_iff rfl).2 _ (by decide +kernel)).2.mp h
    have hown : lexemes "a\x7bb:'c\n\x7d".toList =
        .ok ([⟨.other, ['a']⟩, .openBrace, ⟨.other, ['b']⟩, ⟨.colon, [':']⟩] ++
          [⟨.string, "'c".toList⟩] ++ [⟨.whitespace, ['\n']⟩, .closeBrace]) := rfl
    have hsame := Except.ok.inj (hls.symm.trans hown)
    have hne := text_ne_nil_of_lexemes hls
    obtain ⟨hfronts, rfl⟩ := Lexeme.append_inj_of_join hsame hne (by
      rw [Lexeme.join_append, hfront, hinner]
      rfl)
    obtain ⟨rfl, rfl⟩ := Lexeme.append_inj_of_join hfronts
      (fun l hl => hne l (List.mem_append_left _ hl)) hfront
    exact hb rfl (.string [] rfl rfl)

end AnimationScope
