import AnimationScope.Proofs.Exchange

/-!
# Undoing a renaming

Where the names of a map are usable and its scoped names are new to a value, the map
from scoped to local names gives back the value that was renamed. A renamed value is
cut into the same lexemes as before but for its names, and so it has the same words.
-/

namespace AnimationScope.Animation

open Css

/-! ## The inverse map -/

namespace NameMap

def inverse (m : NameMap) : NameMap := ofList (m.entries.map Prod.swap)

variable {m : NameMap} {name fresh : Text}

theorem get?_inverse_iff (h : (m.entries.map Prod.snd).Nodup) :
    m.inverse.get? fresh = some name ↔ m.get? name = some fresh := by
  have hnodup : ((m.entries.map Prod.swap).reverse.map Prod.fst).Nodup := by
    rw [List.map_reverse, List.map_map, List.nodup_reverse]
    exact h
  rw [inverse, get?_ofList, ← mem_iff_find? hnodup, List.mem_reverse, ← mem_entries_iff]
  constructor
  · intro hmem
    obtain ⟨e, he, heq⟩ := List.mem_map.mp hmem
    rwa [← Prod.swap_swap e, heq] at he
  · exact fun hmem => List.mem_map.mpr ⟨_, hmem, rfl⟩

theorem get?_inverse_of_not_mem (hnodup : (m.entries.map Prod.snd).Nodup)
    (h : fresh ∉ m.entries.map Prod.snd) : m.inverse.get? fresh = none := by
  rw [Option.eq_none_iff_forall_ne_some]
  intro name hname
  rw [get?_inverse_iff hnodup, ← mem_entries_iff] at hname
  exact h (List.mem_map.mpr ⟨_, hname, rfl⟩)

end NameMap

/-! ## Renaming by a division -/

section

variable {names : NameMap} {value : Text} {ls : List Lexeme} {d : Division}

theorem Piece.rename_of_not_isKey {p : Piece} (h : p.isKey names = false) :
    p.rename names = p.text := by
  cases p with
  | gap t => rfl
  | word w =>
    rw [isKey, NameMap.contains_eq_isSome_get?, Option.isSome_eq_false_iff,
      Option.isNone_iff_eq_none] at h
    rw [rename, h]
    rfl

theorem renameValue?_getD (h : lexemes value = .ok ls) (hd : d.Divides ls) :
    (renameValue? names value).getD value = d.substitute names := by
  obtain ⟨d', -, hunique, hpieces⟩ := Division.exists_unique ls
  obtain rfl := hunique d hd
  rw [← d.flatMap_rename_pieces, ← hpieces, renameValue?, h]
  simp only
  split_ifs with hkey
  · rfl
  · rw [Bool.not_eq_true, List.any_eq_false] at hkey
    have hgaps : (Piece.ofLexemes ls).flatMap (Piece.rename names) =
        Piece.join (Piece.ofLexemes ls) :=
      List.flatMap_congr fun p hp => Piece.rename_of_not_isKey (Bool.eq_false_iff.mpr (hkey p hp))
    rw [hgaps, Piece.join_ofLexemes, join_lexemes h]
    rfl

theorem mem_wordsOf (h : lexemes value = .ok ls) (hd : d.Divides ls)
    {p : List Lexeme × List Lexeme} (hp : p ∈ d.words) : Lexeme.join p.1 ∈ wordsOf value := by
  obtain ⟨d', -, hunique, hpieces⟩ := Division.exists_unique ls
  obtain rfl := hunique d hd
  rw [wordsOf, h]
  simp only [hpieces]
  refine List.mem_filterMap.mpr ⟨.word (Lexeme.join p.1), ?_, rfl⟩
  rw [Division.pieces]
  exact List.mem_append_right _ (List.mem_flatMap.mpr ⟨p, hp, List.mem_cons_self⟩)

end

/-! ## The renamed division -/

/-- The word with its scoped name, if it is a local name, and the gap behind it. -/
def renameWord (names : NameMap) (p : List Lexeme × List Lexeme) : List Lexeme × List Lexeme :=
  match names.get? (Lexeme.join p.1) with
  | some fresh => ([⟨.other, fresh⟩], p.2)
  | none => p

def Division.renamed (names : NameMap) (d : Division) : Division :=
  ⟨d.lead, d.words.map (renameWord names)⟩

theorem join_renameWord (names : NameMap) (p : List Lexeme × List Lexeme) :
    Lexeme.join (renameWord names p).1 = (names.get? (Lexeme.join p.1)).getD (Lexeme.join p.1) ∧
      (renameWord names p).2 = p.2 := by
  rw [renameWord]
  split
  · next fresh h =>
    rw [h]
    simp
  · next h =>
    rw [h]
    exact ⟨rfl, rfl⟩

theorem Division.join_renamed (names : NameMap) (d : Division) :
    Lexeme.join (d.renamed names).lexemes = d.substitute names := by
  rw [lexemes, Lexeme.join_append, substitute, renamed]
  congr 1
  simp only [Lexeme.join, List.flatMap_map, List.flatMap_assoc, List.flatMap_append]
  refine List.flatMap_congr fun p _ => ?_
  obtain ⟨hword, hgap⟩ := join_renameWord names p
  rw [hgap]
  exact congrArg (· ++ Lexeme.join p.2) hword

/-- Names that may be words, and scoped names that may stand in their places. -/
structure Exchangeable (names : NameMap) : Prop where
  name : ∀ name fresh, names.get? name = some fresh → isCustomIdent name = true
  fresh : ∀ name fresh, names.get? name = some fresh → isCustomIdent fresh = true ∧ '\\' ∉ fresh

theorem behindWord_of_gap {post : List Lexeme} (hs : ∀ l ∈ post, l.Spelled)
    (hne : ∀ l ∈ post, l.text ≠ [])
    (h : ∀ l ∈ post.head?, Piece.separates l.kind = true ∨ l.kind = .bang) :
    BehindWord (Lexeme.join post) := by
  intro d hd
  cases post with
  | nil => cases hd
  | cons l post =>
    obtain ⟨c, r, hc⟩ := List.exists_cons_of_ne_nil (hne l List.mem_cons_self)
    rw [Lexeme.join_cons, hc] at hd
    obtain rfl : c = d := Option.some.inj hd
    have hspelled := hs l List.mem_cons_self
    rw [Lexeme.Spelled, hc] at hspelled
    have hkind := h l rfl
    rw [separates_iff] at hkind
    rcases hkind with (hk | hk | hk) | hk <;> rw [hk] at hspelled
    · left
      rw [isBarrier, hspelled c List.mem_cons_self]
      rfl
    · obtain rfl := (List.cons.inj hspelled).1
      exact .inl rfl
    · obtain ⟨u, hu⟩ := hspelled
      obtain rfl := (List.cons.inj hu).1
      exact .inl rfl
    · exact .inr (List.cons.inj hspelled).1

section

variable {names : NameMap}

def wordLexemes (ps : List (List Lexeme × List Lexeme)) : List Lexeme :=
  ps.flatMap fun p => p.1 ++ p.2

/-- Behind a word there is the gap, or an exclamation mark that begins the next word. -/
theorem startsBehind {gap : List Lexeme} {ps : List (List Lexeme × List Lexeme)} (hgap : IsGap gap)
    (htouch : ∀ q ∈ ps.head?, gap = [] → q.1.head?.map Lexeme.kind = some .bang) :
    ∀ l ∈ (gap ++ wordLexemes ps).head?, Piece.separates l.kind = true ∨ l.kind = .bang := by
  intro l hl
  cases gap with
  | cons m gap =>
    obtain rfl : m = l := Option.some.inj hl
    exact .inl (isGap_cons.mp hgap).1
  | nil =>
    cases ps with
    | nil => cases hl
    | cons q ps =>
      obtain ⟨m, hm, hk⟩ := Option.map_eq_some_iff.mp (htouch q rfl rfl)
      obtain ⟨r, hr⟩ := List.head?_eq_some_iff.mp hm
      rw [List.nil_append, wordLexemes, List.flatMap_cons, hr] at hl
      obtain rfl : m = l := Option.some.inj hl
      exact .inr hk

theorem wordLexemes_cons (p : List Lexeme × List Lexeme) (ps : List (List Lexeme × List Lexeme)) :
    wordLexemes (p :: ps) = p.1 ++ (p.2 ++ wordLexemes ps) := by
  simp [wordLexemes]

/-- A word that is renamed leaves all other lexemes as they are. In front of it there is a
gap, unless it begins with an exclamation mark. -/
theorem lexemes_renameWord (hnames : Exchangeable names) {pre : List Lexeme}
    {p : List Lexeme × List Lexeme} {ps : List (List Lexeme × List Lexeme)}
    (h : lexemes (Lexeme.join (pre ++ (p.1 ++ (p.2 ++ wordLexemes ps)))) =
      .ok (pre ++ (p.1 ++ (p.2 ++ wordLexemes ps))))
    (hpre : Piece.startsWord p.1 = true ∨ ∀ l ∈ pre.getLast?, Piece.separates l.kind = true)
    (hp : IsWord p.1 ∧ IsGap p.2)
    (htouch : ∀ q ∈ ps.head?, p.2 = [] → q.1.head?.map Lexeme.kind = some .bang) :
    lexemes (Lexeme.join (pre ++ ((renameWord names p).1 ++ (p.2 ++ wordLexemes ps)))) =
      .ok (pre ++ ((renameWord names p).1 ++ (p.2 ++ wordLexemes ps))) := by
  rw [renameWord]
  split
  · next fresh hget =>
    have hspelled := spelled_of_lexemes h
    have hne := text_ne_nil_of_lexemes h
    have hpost : BehindWord (Lexeme.join (p.2 ++ wordLexemes ps)) := by
      apply behindWord_of_gap
      · exact fun l hl => hspelled l (by simp [List.mem_append.mp hl])
      · exact fun l hl => hne l (by simp [List.mem_append.mp hl])
      · exact startsBehind hp.2 htouch
    have hrest := (Lexed.of_lexemes h fun hnil => absurd (List.append_eq_nil_iff.mp hnil).1
      hp.1.ne_nil).2
    obtain ⟨hword, hcut⟩ := hp.1.eq_name hrest (hnames.name _ _ hget) hpost
    obtain ⟨hfresh, hback⟩ := hnames.fresh _ _ hget
    rw [hword] at h
    apply lexemes_exchange h _ hcut (cut_plain_name hfresh hback hpost)
    · intro d hd
      obtain ⟨c, r, rfl⟩ := List.exists_cons_of_ne_nil (unmarked_of_isCustomIdent hfresh).2
      obtain rfl : c = d := Option.some.inj hd
      exact isSpace_of_isIdentTail (isIdentTail_of_isCustomIdent hfresh)
    · rcases hpre with hbang | hgap
      · rw [hword] at hbang
        cases hbang
      · exact hgap
  · exact h

/-- Words that are renamed one after another leave all other lexemes as they are. -/
theorem lexemes_renamed (hnames : Exchangeable names) {pre : List Lexeme}
    {ps : List (List Lexeme × List Lexeme)}
    (h : lexemes (Lexeme.join (pre ++ wordLexemes ps)) = .ok (pre ++ wordLexemes ps))
    (hpre : ∀ p ∈ ps.head?, Piece.startsWord p.1 = true ∨
      ∀ l ∈ pre.getLast?, Piece.separates l.kind = true)
    (hps : ∀ p ∈ ps, IsWord p.1 ∧ IsGap p.2)
    (hlongest : ps.IsChain fun p q => p.2 = [] → q.1.head?.map Lexeme.kind = some .bang) :
    lexemes (Lexeme.join (pre ++ wordLexemes (ps.map (renameWord names)))) =
      .ok (pre ++ wordLexemes (ps.map (renameWord names))) := by
  induction ps generalizing pre with
  | nil => exact h
  | cons p ps ih =>
    obtain ⟨hp, hps⟩ := List.forall_mem_cons.mp hps
    obtain ⟨htouch, hlongest⟩ := List.isChain_cons.mp hlongest
    -- Behind the word there is its gap, or else an exclamation mark.
    have hbehind : ∀ front : List Lexeme, ∀ q ∈ ps.head?, Piece.startsWord q.1 = true ∨
        ∀ l ∈ (front ++ p.2).getLast?, Piece.separates l.kind = true := by
      intro front q hq
      by_cases hnil : p.2 = []
      · exact .inl ((startsWord_iff q.1).mpr (htouch q hq hnil))
      · right
        intro l hl
        rw [List.getLast?_append_of_ne_nil _ hnil] at hl
        exact (separates_iff l).mpr (hp.2 l (List.mem_of_getLast? hl))
    rw [wordLexemes_cons] at h
    have hstep := lexemes_renameWord hnames h (hpre p rfl) hp htouch
    have hnext := @ih (pre ++ ((renameWord names p).1 ++ p.2)) (by simpa using hstep)
      (by simpa using hbehind (pre ++ (renameWord names p).1)) hps hlongest
    rw [List.map_cons, wordLexemes_cons, (join_renameWord names p).2]
    simpa using hnext

/-- A word that begins with an exclamation mark is no name. -/
theorem Exchangeable.get?_of_bang (hnames : Exchangeable names) {w : List Lexeme}
    (hw : ∀ l ∈ w, l.Spelled) (hbang : w.head?.map Lexeme.kind = some .bang) :
    names.get? (Lexeme.join w) = none := by
  rw [Option.eq_none_iff_forall_ne_some]
  intro fresh hget
  obtain ⟨l, hl, hk⟩ := Option.map_eq_some_iff.mp hbang
  obtain ⟨r, rfl⟩ := List.head?_eq_some_iff.mp hl
  have hspelled := hw l List.mem_cons_self
  rw [Lexeme.Spelled, hk] at hspelled
  obtain ⟨hu, -⟩ := unmarked_of_isCustomIdent (hnames.name _ _ hget)
  rw [Lexeme.join_cons, hspelled] at hu
  exact hu.head_ne (by decide) rfl

/-- A renamed division divides the lexemes of the new value. -/
theorem divides_renamed (hnames : Exchangeable names) {value : Text} {ls : List Lexeme}
    {d : Division} (hd : d.Divides ls) (h : lexemes value = .ok ls) :
    lexemes (d.substitute names) = .ok (d.renamed names).lexemes ∧
      (d.renamed names).Divides (d.renamed names).lexemes := by
  have hlexemes : d.lead ++ wordLexemes d.words = ls := hd.lexemes
  constructor
  · have hls : lexemes (Lexeme.join (d.lead ++ wordLexemes d.words)) =
        .ok (d.lead ++ wordLexemes d.words) := by
      rw [hlexemes, join_lexemes h, h]
    rw [← d.join_renamed]
    apply lexemes_renamed hnames hls _ hd.words hd.longest
    exact fun p _ => .inr fun l hl => (separates_iff l).mpr (hd.lead l (List.mem_of_getLast? hl))
  · refine ⟨rfl, hd.lead, ?_, ?_⟩
    · intro q hq
      obtain ⟨p, hp, rfl⟩ := List.mem_map.mp hq
      obtain ⟨hword, hgap⟩ := hd.words p hp
      rw [renameWord]
      split
      · exact ⟨isWord_singleton Bool.false_ne_true, hgap⟩
      · exact ⟨hword, hgap⟩
    · refine (List.isChain_map _).mpr (hd.longest.imp_of_mem_imp ?_)
      intro p q _ hq htouch hnil
      rw [(join_renameWord names p).2] at hnil
      have hspelled : ∀ l ∈ q.1, l.Spelled := by
        intro l hl
        apply spelled_of_lexemes h
        rw [← hlexemes]
        exact List.mem_append_right _ (List.mem_flatMap.mpr ⟨q, hq, List.mem_append_left _ hl⟩)
      rw [renameWord, hnames.get?_of_bang hspelled (htouch hnil)]
      exact htouch hnil

end

/-- Where the scoped names are no words of a value, the inverse map takes every word of the
renamed value back. -/
theorem substitute_inverse {names : NameMap} {d : Division}
    (hnodup : (names.entries.map Prod.snd).Nodup)
    (hnew : ∀ p ∈ d.words, Lexeme.join p.1 ∉ names.entries.map Prod.snd) :
    (d.renamed names).substitute names.inverse = Lexeme.join d.lexemes := by
  rw [Division.substitute, Division.renamed, Division.lexemes, Lexeme.join_append]
  congr 1
  simp only [Lexeme.join, List.flatMap_map, List.flatMap_assoc, List.flatMap_append]
  refine List.flatMap_congr fun p hp => ?_
  obtain ⟨hword, hgap⟩ := join_renameWord names p
  rw [hgap]
  refine congrArg (· ++ Lexeme.join p.2) ?_
  show (names.inverse.get? (Lexeme.join _)).getD (Lexeme.join _) = Lexeme.join p.1
  rw [hword]
  cases hget : names.get? (Lexeme.join p.1) with
  | none =>
    rw [Option.getD_none, NameMap.get?_inverse_of_not_mem hnodup (hnew p hp)]
    rfl
  | some fresh =>
    rw [Option.getD_some, (NameMap.get?_inverse_iff hnodup).mpr hget]
    rfl

/-- Renaming can be undone. -/
theorem renameValue?_inverse {names : NameMap} {value : Text}
    (hkeys : ∀ name ∈ names.keys, classify name = .valid)
    (hnodup : (names.entries.map Prod.snd).Nodup)
    (hfresh : ∀ fresh ∈ names.entries.map Prod.snd,
      classify fresh = .valid ∧ '\\' ∉ fresh ∧ fresh ∉ wordsOf value) :
    let renamed := (renameValue? names value).getD value
    (renameValue? names.inverse renamed).getD renamed = value := by
  intro renamed
  cases h : lexemes value with
  | error e =>
    have hnone : ∀ m : NameMap, renameValue? m value = none := fun m => by rw [renameValue?, h]
    have hsame : renamed = value := by
      show (renameValue? names value).getD value = value
      rw [hnone]
      rfl
    rw [hsame, hnone]
    rfl
  | ok ls =>
    obtain ⟨d, hd, -⟩ := Division.exists_unique ls
    have hnames : Exchangeable names := by
      constructor <;> intro name fresh hget <;> rw [← NameMap.mem_entries_iff] at hget
      · exact isCustomIdent_of_classify (hkeys name (List.mem_map_of_mem hget))
      · obtain ⟨hvalid, hback, -⟩ := hfresh fresh (List.mem_map_of_mem hget)
        exact ⟨isCustomIdent_of_classify hvalid, hback⟩
    obtain ⟨hlexemes, hdivides⟩ := divides_renamed hnames hd h
    have hrenamed : renamed = d.substitute names := renameValue?_getD h hd
    rw [hrenamed, renameValue?_getD hlexemes hdivides, substitute_inverse hnodup, hd.lexemes,
      join_lexemes h]
    intro p hp hmem
    exact (hfresh _ hmem).2.2 (mem_wordsOf h hd hp)

/-- A comma and a comment separate words. What stands in a group is no word of its own. -/
theorem renameValue?_inverse_sample :
    let names := NameMap.ofList [("spin".toList, "spin_a1".toList), ("fade".toList, "--f".toList)]
    let value := "1s spin, fade/**/!x (spin".toList
    let renamed := (renameValue? names value).getD value
    renamed = "1s spin_a1, --f/**/!x (spin".toList ∧
      (renameValue? names.inverse renamed).getD renamed = value := by
  refine ⟨by decide, renameValue?_inverse ?_ ?_ ?_⟩ <;> decide

end AnimationScope.Animation
