import AnimationScope.Proofs.Merging
import AnimationScope.Proofs.Trimming
import AnimationScope.Stylesheet.Parse

/-!
# What a merged block says

Of all the declarations of a name, publishing looks at the first one only. So a merged block
may still say something else of a name further down, and merging the same names once more
changes nothing.
-/

namespace AnimationScope

namespace Node

variable {d : Declaration} {n : Node} {ns : List Node} {prop name value : Text}

theorem mem_valuesOf {v : Text} :
    v ∈ valuesOf ns prop ↔ ∃ d ∈ directDeclarations ns, d.prop = prop ∧ d.value = v := by
  simp [valuesOf, and_assoc]

theorem setFirst_self (h : valueOf? ns name = some value) : setFirst name value ns = ns := by
  induction ns with
  | nil => cases h
  | cons n ns ih =>
    obtain ⟨d, rfl⟩ | hn := exists_declaration_or n
    · rw [valueOf?_declaration] at h
      rw [setFirst]
      by_cases hd : d.prop = name
      · rw [if_pos hd] at h ⊢
        obtain rfl := Option.some.inj h
        rfl
      · rw [if_neg hd] at h ⊢
        rw [ih h]
    · rw [valueOf?_of_none hn] at h
      rw [setFirst_of_none hn, ih h]

end Node

namespace Icss

open Animation

variable {es : List (Text × Text)} {ns : List Node} {name value : Text}

/-! ## All that a block says of a name -/

theorem exists_trim_head_corrected (value : Text) (vs : List Text) :
    ∃ w ∈ (corrected value vs).head?, w.trim = value.trim := by
  obtain ⟨w, hw, rfl | rfl⟩ := exists_head_corrected value vs
  · exact ⟨w, hw, rfl⟩
  · exact ⟨w, hw, (Text.trim_trim w).symm⟩

theorem forall_mem_corrected_iff {value : Text} {vs : List Text} :
    (∀ v ∈ corrected value vs, v.trim = value.trim) ↔ ∀ v ∈ vs.tail, v.trim = value.trim := by
  obtain ⟨w, hw, htrim⟩ := exists_trim_head_corrected value vs
  cases vs with
  | nil => simp [corrected]
  | cons v vs =>
    obtain rfl := Option.some.inj hw
    rw [corrected, List.forall_mem_cons, and_iff_right htrim, List.tail_cons]

/-- The first declaration of each name says the scoped name when names have been merged. All
declarations of the names do so just if the further ones did before. -/
theorem mergeExports_agree_iff (names : NameMap) (s : Stylesheet) :
    (∀ e ∈ names.entries, ∃ w ∈ Node.valueOf? (exported (mergeExports names s).1.nodes) e.1,
        w.trim = e.2.trim) ∧
      ((∀ d ∈ Node.directDeclarations (exported (mergeExports names s).1.nodes),
          ∀ e ∈ names.entries, d.prop = e.1 → d.value.trim = e.2.trim) ↔
        ∀ e ∈ names.entries, ∀ v ∈ (Node.valuesOf (exported s.nodes) e.1).tail,
          v.trim = e.2.trim) := by
  constructor
  · intro e he
    rw [Node.valueOf?_eq_head?, valuesOf_mergeExports names s e he]
    exact exists_trim_head_corrected _ _
  · have hvalues : ∀ e ∈ names.entries,
        ((∀ v ∈ Node.valuesOf (exported (mergeExports names s).1.nodes) e.1, v.trim = e.2.trim) ↔
          ∀ v ∈ (Node.valuesOf (exported s.nodes) e.1).tail, v.trim = e.2.trim) := by
      intro e he
      rw [valuesOf_mergeExports names s e he, forall_mem_corrected_iff]
    rw [← forall₂_congr hvalues]
    constructor
    · intro h e he v hv
      obtain ⟨d, hd, hprop, rfl⟩ := Node.mem_valuesOf.mp hv
      exact h d hd e he hprop
    · intro h d hd e he hprop
      exact h e he d.value (Node.mem_valuesOf.mpr ⟨d, hd, hprop, rfl⟩)

/-- The second of two declarations of a name keeps another value. -/
theorem further_declaration_is_stale :
    ∃ sheet names, Stylesheet.parse ":export\x7ba:x;a:y\x7d".toList = .ok sheet ∧
      NameMap.entries names = [("a".toList, "__a_css__a".toList)] ∧
      ∃ d ∈ Node.directDeclarations (exported (mergeExports names sheet).1.nodes),
        d.prop = "a".toList ∧ d.value.trim = "y".toList := by
  refine ⟨_, ⟨[("a".toList, "__a_css__a".toList)], by decide⟩, rfl, rfl,
    ⟨[], "a".toList, [':'], "y".toList, false⟩, ?_, rfl, rfl⟩
  decide +kernel

/-! ## Merging the same names again -/

/-- Publishing a name once more changes nothing. It is reported again if it has a blank at
its ends, because only the value of the declaration is trimmed. -/
theorem publish_again (h : ∃ w, Node.valueOf? ns name = some w ∧ (w = value ∨ w.trim = value)) :
    publish name value ns =
      (ns, if value.hasBlankEnd then [.about .exportKeyCollision name] else []) := by
  obtain ⟨w, hw, hvalue⟩ := h
  rw [publish_eq, hw]
  simp only
  cases hblank : value.hasBlankEnd with
  | true =>
    have htrim : value.trim ≠ value := by
      rw [Ne, Text.trim_eq_self_iff, hblank]
      exact Bool.noConfusion
    have hne : w.trim ≠ value := by
      rintro rfl
      exact htrim (Text.trim_trim w)
    obtain rfl := hvalue.resolve_right hne
    rw [if_neg hne, Node.setFirst_self hw]
    rfl
  | false =>
    have htrim : w.trim = value := by
      rcases hvalue with rfl | hvalue
      · exact Text.trim_eq_self_iff.mpr hblank
      · exact hvalue
    rw [if_pos htrim]
    rfl

theorem publishAll_again
    (h : ∀ e ∈ es, ∃ w, Node.valueOf? ns e.1 = some w ∧ (w = e.2 ∨ w.trim = e.2)) :
    publishAll es ns =
      (ns, (es.filter (·.2.hasBlankEnd)).map fun e => .about .exportKeyCollision e.1) := by
  induction es with
  | nil => rfl
  | cons e es ih =>
    rw [List.forall_mem_cons] at h
    rw [publishAll, publish_again h.1]
    simp only
    rw [ih h.2, List.filter_cons]
    split_ifs <;> rfl

/-- A block that publishing leaves alone leaves the sheet alone too. -/
theorem mergeExports_eq_self {names : NameMap} {s : Stylesheet} {warnings : List Warning}
    (hne : names.isEmpty = false) (hany : s.nodes.any isExport = true)
    (h : publishAll names.entries (exported s.nodes) = (exported s.nodes, warnings)) :
    mergeExports names s = (s, warnings) := by
  obtain ⟨front, r, behind, hplace, heq⟩ := exists_mergeExports hne s
  rw [heq, h]
  rcases hplace.nodes_eq with hns | ⟨-, hnone, -⟩
  · rw [← hns]
  · obtain ⟨n, hn, hexport⟩ := List.any_eq_true.mp hany
    rw [hnone n hn] at hexport
    cases hexport

/-- Merging the same names a second time leaves the sheet as it is. It reports just the names
whose scoped name has a blank at its ends, in the order of the map. -/
theorem mergeExports_again (names : NameMap) (s : Stylesheet) :
    mergeExports names (mergeExports names s).1 =
        ((mergeExports names s).1,
          (names.entries.filter (·.2.hasBlankEnd)).map
            fun e => .about .exportKeyCollision e.1) ∧
      ((∀ e ∈ names.entries, e.2.hasBlankEnd = false) →
        (mergeExports names (mergeExports names s).1).2 = []) := by
  have hagain : mergeExports names (mergeExports names s).1 =
      ((mergeExports names s).1,
        (names.entries.filter (·.2.hasBlankEnd)).map fun e => .about .exportKeyCollision e.1) := by
    cases hne : names.isEmpty with
    | true =>
      have hentries : names.entries = [] := List.isEmpty_iff.mp hne
      rw [mergeExports, hne, hentries]
      rfl
    | false =>
      exact mergeExports_eq_self hne (any_isExport_mergeExports hne s)
        (publishAll_again (valueOf?_mergeExports names s))
  refine ⟨hagain, fun h => ?_⟩
  have hnone : names.entries.filter (·.2.hasBlankEnd) = [] :=
    List.filter_eq_nil_iff.mpr fun e he => by simp [h e he]
  rw [hagain, hnone]
  rfl

end Icss

end AnimationScope
