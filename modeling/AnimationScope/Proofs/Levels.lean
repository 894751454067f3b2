import AnimationScope.Animation.Reference
import AnimationScope.Proofs.Publishing
import AnimationScope.Proofs.Reads

/-!
# Levels of a tree

The top level and every block is a level, a list of nodes with the text behind them.
A level is read back if its nodes are, and renaming references leaves a level that is
read back as long as the declarations that refer to animations are.
-/

namespace AnimationScope

open Css Animation

/-- The nodes of a block, or those at the top level, and the text behind them. -/
structure Level where
  nested : Bool
  nodes : List Node
  after : Text

namespace Node

mutual

/-- The blocks of a node, at any depth. -/
def levels : Node → List Level
  | .atBlock a body => ⟨true, body, a.after⟩ :: allLevels body
  | .rule r body => ⟨true, body, r.after⟩ :: allLevels body
  | .atRule _ | .declaration _ | .comment _ => []

def allLevels : List Node → List Level
  | [] => []
  | n :: ns => levels n ++ allLevels ns

end

theorem mem_allLevels {ns : List Node} {l : Level} : l ∈ allLevels ns ↔ ∃ n ∈ ns, l ∈ n.levels := by
  induction ns with
  | nil => simp [allLevels]
  | cons n ns ih => simp [allLevels, ih]

end Node

def Stylesheet.levels (s : Stylesheet) : List Level :=
  ⟨false, s.nodes, s.after⟩ :: Node.allLevels s.nodes

namespace Level

def closer (l : Level) : Option Char := if l.nested then some '}' else none

def Reads (l : Level) : Prop := ReadsAt l.closer l.nodes l.after

/-- A sheet with nothing in it but one declaration of the level. A declaration that
no semicolon ends has the end of its level behind it. -/
def alone (l : Level) (d : Declaration) : Stylesheet :=
  if d.semicolon then ⟨[.declaration d], []⟩
  else if l.nested then ⟨[.rule ⟨[], [], [], l.after⟩ [.declaration d]], []⟩
  else ⟨[.declaration d], l.after⟩

def Keeps (l : Level) (d : Declaration) : Prop := (l.alone d).ReadsBack

def KeepsReferences (l : Level) : Prop :=
  ∀ d ∈ Node.directDeclarations l.nodes, isAnimationProperty d.prop = true → l.Keeps d

variable {l : Level} {d : Declaration}

theorem emptyHead_reads (after : Text) : (⟨[], [], [], after⟩ : Rule).HeadReads :=
  ⟨⟨[], none, []⟩, ⟨by simp, by simp, by simp, by simp⟩, rfl, rfl, ends_nil _⟩

theorem readsBack_singleton_iff {n : Node} {after : Text} :
    (⟨[n], after⟩ : Stylesheet).ReadsBack ↔ ReadsAt none [n] after := Stylesheet.readsBack_iff

theorem readsAt_closed_iff {e : Option Char} {n : Node} (hn : n.isOpen = false) :
    ReadsAt e [n] [] ↔ n.Reads := by
  rw [readsAt_cons_iff hn, and_iff_left (readsAt_nil e)]

theorem keeps_iff : l.Keeps d ↔ (Node.declaration d).ReadsBefore l.closer l.after := by
  rw [Keeps, alone, Node.ReadsBefore]
  cases hd : d.semicolon with
  | true =>
    have hn : (Node.declaration d).isOpen = false := by simp [Node.isOpen, hd]
    rw [if_pos rfl, hn, readsBack_singleton_iff, readsAt_closed_iff hn]
    rfl
  | false =>
    have hn : (Node.declaration d).isOpen = true := by simp [Node.isOpen, hd]
    rw [if_pos hn, if_neg Bool.false_ne_true, closer]
    cases l.nested with
    | true =>
      rw [if_pos rfl, if_pos rfl, readsBack_singleton_iff, readsAt_closed_iff rfl, reads_rule_iff]
      exact and_iff_right (emptyHead_reads l.after)
    | false =>
      rw [if_neg Bool.false_ne_true, if_neg Bool.false_ne_true, readsBack_singleton_iff]

end Level

/-! ## Every level of a tree that is read back -/

variable {e : Option Char} {after : Text}

theorem ReadsAt.readsBefore {ns : List Node} (h : ReadsAt e ns after) :
    ∀ n ∈ ns, n.ReadsBefore e after := (readsAt_iff.mp h).2.2

theorem Node.ReadsBefore.block {n : Node} (h : n.ReadsBefore e after) :
    (∀ a body, n = .atBlock a body → ReadsAt (some '}') body a.after) ∧
      ∀ r body, n = .rule r body → ReadsAt (some '}') body r.after := by
  constructor
  · rintro a body rfl
    exact (reads_atBlock_iff.mp h).2.2
  · rintro r body rfl
    exact (reads_rule_iff.mp h).2

mutual

theorem Node.reads_of_mem_levels {e : Option Char} {after : Text} :
    ∀ {n : Node}, n.ReadsBefore e after → ∀ l ∈ n.levels, l.Reads
  | .atBlock a body, h, l, hl => by
    have hb := h.block.1 a body rfl
    rw [Node.levels, List.mem_cons] at hl
    rcases hl with rfl | hl
    · exact hb
    · exact Node.reads_of_mem_allLevels hb.readsBefore l hl
  | .rule r body, h, l, hl => by
    have hb := h.block.2 r body rfl
    rw [Node.levels, List.mem_cons] at hl
    rcases hl with rfl | hl
    · exact hb
    · exact Node.reads_of_mem_allLevels hb.readsBefore l hl
  | .atRule a, _, l, hl => by simp [Node.levels] at hl
  | .declaration d, _, l, hl => by simp [Node.levels] at hl
  | .comment c, _, l, hl => by simp [Node.levels] at hl

theorem Node.reads_of_mem_allLevels {e : Option Char} {after : Text} :
    ∀ {ns : List Node}, (∀ n ∈ ns, n.ReadsBefore e after) → ∀ l ∈ allLevels ns, l.Reads
  | [], _, l, hl => by simp [Node.allLevels] at hl
  | n :: ns, h, l, hl => by
    rw [Node.allLevels, List.mem_append] at hl
    rcases hl with hl | hl
    · exact Node.reads_of_mem_levels (h n List.mem_cons_self) l hl
    · exact Node.reads_of_mem_allLevels (fun m hm => h m (List.mem_cons_of_mem _ hm)) l hl

end

theorem Node.mem_directDeclarations {ns : List Node} {d : Declaration} :
    d ∈ directDeclarations ns ↔ Node.declaration d ∈ ns := by
  rw [directDeclarations, List.mem_filterMap]
  constructor
  · rintro ⟨n, hn, hd⟩
    cases n with
    | declaration c => rwa [Option.some.inj hd] at hn
    | _ => cases hd
  · intro h
    exact ⟨_, h, rfl⟩

theorem Level.Reads.keeps {l : Level} (h : l.Reads) {d : Declaration}
    (hd : d ∈ Node.directDeclarations l.nodes) : l.Keeps d :=
  Level.keeps_iff.mpr (h.readsBefore _ (Node.mem_directDeclarations.mp hd))

theorem Stylesheet.ReadsBack.reads {s : Stylesheet} (h : s.ReadsBack) :
    ∀ l ∈ s.levels, l.Reads := by
  have htop := readsBack_iff.mp h
  intro l hl
  rcases List.mem_cons.mp hl with rfl | hl
  · exact htop
  · exact Node.reads_of_mem_allLevels htop.readsBefore l hl

/-! ## References -/

section

variable (names : NameMap)

theorem Animation.renameDeclaration_cases (d : Declaration) :
    renameDeclaration names d = d ∨
      isAnimationProperty (renameDeclaration names d).prop = true := by
  rw [renameDeclaration]
  split
  · next value h =>
    right
    rw [newValue?] at h
    split_ifs at h with hd
    exact hd
  · exact .inl rfl

theorem Animation.renameDeclaration_semicolon (d : Declaration) :
    (renameDeclaration names d).semicolon = d.semicolon := by
  rw [renameDeclaration]
  split <;> rfl

theorem Node.isOpen_renamed (n : Node) :
    (n.mapDeclarations (renameDeclaration names)).isOpen = n.isOpen := by
  cases n with
  | declaration d => simp [mapDeclarations, isOpen, renameDeclaration_semicolon]
  | _ => rfl

theorem OpenLast.renamed {ns : List Node} (h : OpenLast ns) :
    OpenLast (Node.mapAllDeclarations (renameDeclaration names) ns) := by
  induction ns with
  | nil => trivial
  | cons n ns ih =>
    obtain ⟨hn, hns⟩ := h
    refine ⟨?_, ih hns⟩
    rw [Node.isOpen_renamed]
    intro hopen
    rw [hn hopen]
    rfl

theorem ReadsAt.renamed {e : Option Char} {ns : List Node} {after : Text} (h : ReadsAt e ns after)
    (hn : ∀ n ∈ Node.mapAllDeclarations (renameDeclaration names) ns, n.ReadsBefore e after) :
    ReadsAt e (Node.mapAllDeclarations (renameDeclaration names) ns) after :=
  readsAt_iff.mpr ⟨(readsAt_iff.mp h).1.renamed names, h.nil, hn⟩

theorem Level.KeepsReferences.readsBefore {l : Level} (h : l.KeepsReferences) {d : Declaration}
    (hd : Node.declaration d ∈ l.nodes) (hanim : isAnimationProperty d.prop = true) :
    (Node.declaration d).ReadsBefore l.closer l.after :=
  Level.keeps_iff.mp (h d (Node.mem_directDeclarations.mpr hd) hanim)

mutual

/-- Renaming its references leaves a node that is read back as long as they are. -/
theorem Node.readsBefore_renamed {e : Option Char} {after : Text} :
    ∀ {n : Node}, n.ReadsBefore e after →
      (∀ l ∈ (n.mapDeclarations (renameDeclaration names)).levels, l.KeepsReferences) →
      (∀ d, n.mapDeclarations (renameDeclaration names) = .declaration d →
        isAnimationProperty d.prop = true → (Node.declaration d).ReadsBefore e after) →
      (n.mapDeclarations (renameDeclaration names)).ReadsBefore e after
  | .atBlock a body, h, hl, _ => by
    obtain ⟨hsemi, hhead, hbody⟩ := reads_atBlock_iff.mp h
    rw [mapDeclarations, levels, List.forall_mem_cons] at hl
    refine reads_atBlock_iff.mpr ⟨hsemi, hhead, hbody.renamed names ?_⟩
    exact Node.readsBefore_allRenamed hbody.readsBefore hl.2 fun d hd => hl.1.readsBefore hd
  | .rule r body, h, hl, _ => by
    obtain ⟨hhead, hbody⟩ := reads_rule_iff.mp h
    rw [mapDeclarations, levels, List.forall_mem_cons] at hl
    refine reads_rule_iff.mpr ⟨hhead, hbody.renamed names ?_⟩
    exact Node.readsBefore_allRenamed hbody.readsBefore hl.2 fun d hd => hl.1.readsBefore hd
  | .declaration d, h, _, hd => by
    rcases renameDeclaration_cases names d with heq | hanim
    · rwa [mapDeclarations, heq]
    · exact hd _ rfl hanim
  | .atRule a, h, _, _ => h
  | .comment c, h, _, _ => h

theorem Node.readsBefore_allRenamed {e : Option Char} {after : Text} :
    ∀ {ns : List Node}, (∀ n ∈ ns, n.ReadsBefore e after) →
      (∀ l ∈ allLevels (mapAllDeclarations (renameDeclaration names) ns), l.KeepsReferences) →
      (∀ d, Node.declaration d ∈ mapAllDeclarations (renameDeclaration names) ns →
        isAnimationProperty d.prop = true → (Node.declaration d).ReadsBefore e after) →
      ∀ n ∈ mapAllDeclarations (renameDeclaration names) ns, n.ReadsBefore e after
  | [], _, _, _, n, hn => by simp [mapAllDeclarations] at hn
  | m :: ms, h, hl, hd, n, hn => by
    rw [mapAllDeclarations] at hl hd hn
    rw [allLevels, List.forall_mem_append] at hl
    rcases List.mem_cons.mp hn with rfl | hn
    · exact Node.readsBefore_renamed (h m List.mem_cons_self) hl.1
        fun d hm => hd d (hm ▸ List.mem_cons_self)
    · exact Node.readsBefore_allRenamed (fun k hk => h k (List.mem_cons_of_mem _ hk)) hl.2
        (fun d hm => hd d (List.mem_cons_of_mem _ hm)) n hn

end

end

end AnimationScope
