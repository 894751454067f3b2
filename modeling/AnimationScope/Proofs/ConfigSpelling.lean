import AnimationScope.Wire.Schema
import Mathlib.Data.List.Basic

/-!
# Spellings of a configuration

Which JSON values are read as a configuration: objects in which the pattern stands at most
once, whatever else is in them, and arrays of at most the pattern.
-/

namespace AnimationScope

open Json

/-! ## Members of an object -/

namespace Wire

variable {members : List (Option Text × Value)} {name : String} {v : Value}

theorem field?_eq_none_iff :
    field? members name = some none ↔ ∀ m ∈ members, m.1 ≠ some name.toList := by
  rw [field?]
  cases h : members.filter (·.1 = some name.toList) with
  | nil => simpa using List.filter_eq_nil_iff.mp h
  | cons m ms =>
    have hm : m ∈ members.filter (·.1 = some name.toList) := h ▸ List.mem_cons_self
    obtain ⟨hmem, hkey⟩ := List.mem_filter.mp hm
    refine iff_of_false ?_ fun hall => hall m hmem (of_decide_eq_true hkey)
    cases ms <;> simp

/-- A known member stands once, among members with other keys. -/
theorem field?_eq_some_iff :
    field? members name = some (some v) ↔ ∃ before after,
      members = before ++ (some name.toList, v) :: after ∧
        ∀ m ∈ before ++ after, m.1 ≠ some name.toList := by
  have hone : members.filter (·.1 = some name.toList) = [(some name.toList, v)] ↔
      ∃ before after, members = before ++ (some name.toList, v) :: after ∧
        ∀ m ∈ before ++ after, m.1 ≠ some name.toList := by
    simp only [List.filter_eq_cons_iff, List.filter_eq_nil_iff, decide_eq_true_eq, true_and,
      List.forall_mem_append]
  rw [← hone, field?]
  cases h : members.filter (·.1 = some name.toList) with
  | nil => simp
  | cons m ms =>
    have hm : m ∈ members.filter (·.1 = some name.toList) := h ▸ List.mem_cons_self
    have hkey : m.1 = some name.toList := of_decide_eq_true (List.mem_filter.mp hm).2
    cases ms <;> simp [Prod.ext_iff, hkey]

theorem fields?_object_iff {f : Option Value} :
    fields? [name] (.object members) = some [f] ↔
      (∀ m ∈ members, m.1.isSome = true) ∧ field? members name = some f := by
  have hone : [name].mapM (field? members) = some [f] ↔ field? members name = some f := by
    cases h : field? members name <;> simp [h]
  rw [fields?, ← hone, ← List.all_eq_true]
  split_ifs with h
  · exact (and_iff_right h).symm
  · exact iff_of_false (by simp) fun h' => h h'.1

end Wire

/-! ## Configurations -/

namespace Config

def key : Text := "scopedNamePattern".toList

inductive SpellsPattern : Value → Option Text → Prop
  | null : SpellsPattern .null none
  | text (t : Text) : SpellsPattern (.string (some t)) (some t)

/-- A configuration is an object, in which the pattern stands at most once and other members
are passed over, or an array of at most the pattern. -/
inductive Spells : Value → Config → Prop
  | without {members : List (Option Text × Value)}
    (h : ∀ m ∈ members, ∃ k, m.1 = some k ∧ k ≠ key) : Spells (.object members) ⟨none⟩
  | within {before after : List (Option Text × Value)} {v : Value} {p : Option Text}
    (h : ∀ m ∈ before ++ after, ∃ k, m.1 = some k ∧ k ≠ key) (hv : SpellsPattern v p) :
    Spells (.object (before ++ (some key, v) :: after)) ⟨p⟩
  | empty : Spells (.array []) ⟨none⟩
  | item {v : Value} {p : Option Text} (hv : SpellsPattern v p) : Spells (.array [v]) ⟨p⟩

theorem ofValue?_eq_some_iff_fields? {v : Value} {c : Config} :
    Wire.Record.ofValue? v = some c ↔
      Wire.fields? ["scopedNamePattern"] v = some [none] ∧ c.scopedNamePattern = none ∨
      ∃ w, Wire.fields? ["scopedNamePattern"] v = some [some w] ∧
        SpellsPattern w c.scopedNamePattern := by
  obtain ⟨p⟩ := c
  simp only [Wire.Record.ofValue?]
  constructor
  · intro h
    split at h
    · next hf =>
      cases h
      exact .inl ⟨hf, rfl⟩
    · next hf =>
      cases h
      exact .inr ⟨_, hf, .null⟩
    · next hf =>
      cases h
      exact .inr ⟨_, hf, .text _⟩
    · cases h
  · rintro (⟨hf, hp⟩ | ⟨w, hf, hp⟩)
    · rw [hf]
      exact congrArg (fun p => some (Config.mk p)) hp.symm
    · rw [hf]
      cases hp <;> rfl

theorem unknown_iff {k : Option Text} :
    (∃ t, k = some t ∧ t ≠ key) ↔ k.isSome = true ∧ k ≠ some key := by
  cases k <;> simp

theorem ofValue?_object_eq_some_iff {members : List (Option Text × Value)} {c : Config} :
    Wire.Record.ofValue? (.object members) = some c ↔ Spells (.object members) c := by
  rw [ofValue?_eq_some_iff_fields?]
  constructor
  · rintro (⟨hf, hp⟩ | ⟨w, hf, hp⟩)
    · obtain ⟨hknown, hfield⟩ := Wire.fields?_object_iff.mp hf
      rw [show c = ⟨none⟩ from congrArg Config.mk hp]
      exact .without fun m hm =>
        unknown_iff.mpr ⟨hknown m hm, Wire.field?_eq_none_iff.mp hfield m hm⟩
    · obtain ⟨hknown, hfield⟩ := Wire.fields?_object_iff.mp hf
      obtain ⟨before, after, rfl, hother⟩ := Wire.field?_eq_some_iff.mp hfield
      refine .within (fun m hm => unknown_iff.mpr ⟨hknown m ?_, hother m hm⟩) hp
      simp only [List.mem_append, List.mem_cons] at hm ⊢
      tauto
  · intro h
    cases h with
    | without h =>
      exact .inl ⟨Wire.fields?_object_iff.mpr ⟨fun m hm => (unknown_iff.mp (h m hm)).1,
        Wire.field?_eq_none_iff.mpr fun m hm => (unknown_iff.mp (h m hm)).2⟩, rfl⟩
    | @within before after v p h hv =>
      refine .inr ⟨v, Wire.fields?_object_iff.mpr ⟨fun m hm => ?_, ?_⟩, hv⟩
      · simp only [List.mem_append, List.mem_cons] at hm h
        obtain hm | rfl | hm := hm
        · exact (unknown_iff.mp (h m (.inl hm))).1
        · rfl
        · exact (unknown_iff.mp (h m (.inr hm))).1
      · exact Wire.field?_eq_some_iff.mpr
          ⟨before, after, rfl, fun m hm => (unknown_iff.mp (h m hm)).2⟩

theorem ofValue?_array_eq_some_iff {items : List Value} {c : Config} :
    Wire.Record.ofValue? (.array items) = some c ↔ Spells (.array items) c := by
  rw [ofValue?_eq_some_iff_fields?]
  constructor
  · rintro (⟨hf, hp⟩ | ⟨w, hf, hp⟩)
    · rw [show c = ⟨none⟩ from congrArg Config.mk hp]
      match items with
      | [] => exact .empty
      | [_] => simp [Wire.fields?] at hf
      | _ :: _ :: _ => simp [Wire.fields?] at hf
    · match items with
      | [] => simp [Wire.fields?] at hf
      | [v] =>
        have hv : v = w := by simpa [Wire.fields?] using hf
        rw [hv, show c = ⟨c.scopedNamePattern⟩ from rfl]
        exact .item hp
      | _ :: _ :: _ => simp [Wire.fields?] at hf
  · intro h
    cases h with
    | empty => exact .inl ⟨rfl, rfl⟩
    | item hv => exact .inr ⟨_, rfl, hv⟩

theorem ofValue?_eq_some_iff {v : Value} {c : Config} :
    Wire.Record.ofValue? v = some c ↔ Spells v c := by
  cases v with
  | object members => exact ofValue?_object_eq_some_iff
  | array items => exact ofValue?_array_eq_some_iff
  | null => exact iff_of_false nofun nofun
  | bool b => exact iff_of_false nofun nofun
  | number literal => exact iff_of_false nofun nofun
  | string t => exact iff_of_false nofun nofun

end Config

end AnimationScope
