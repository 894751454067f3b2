import AnimationScope.Proofs.ConfigSpelling
import AnimationScope.Proofs.JsonRoundTrip
import Mathlib.Data.List.Perm.Basic

/-!
# Spellings of records

A record whose fields are all required is an object with each field once, in any order and
among unknown members, or an array of the fields in their order. Which of these spellings a
text has does not matter, and the text that is written for a record is one of them.
-/

namespace AnimationScope

open Json

namespace Wire

variable {members members' : List (Option Text × Value)} {name : String} {names : List String}
  {values : List Value} {v : Value}

/-- The members of an object that are the fields of a record. -/
def known (names : List String) (values : List Value) : List (Option Text × Value) :=
  (names.zip values).map fun m => (some m.1.toList, m.2)

/-- The value has the fields of a record, as an object in which they may stand in any order and
other members are passed over, or as an array. -/
inductive Fills (names : List String) (values : List Value) : Value → Prop
  | object {members unknown : List (Option Text × Value)}
    (h : members.Perm (known names values ++ unknown))
    (hu : ∀ m ∈ unknown, ∃ k, m.1 = some k ∧ ∀ name ∈ names, k ≠ name.toList) :
    Fills names values (.object members)
  | array : Fills names values (.array values)

/-! ## Fields of an object -/

theorem field?_perm (h : members.Perm members') : field? members name = field? members' name := by
  have hfilter := h.filter (·.1 = some name.toList)
  rw [field?, field?]
  generalize members.filter (·.1 = some name.toList) = found at hfilter
  generalize members'.filter (·.1 = some name.toList) = found' at hfilter
  rcases found with _ | ⟨m, _ | ⟨m', rest⟩⟩
  · rw [List.nil_perm.mp hfilter]
  · rw [List.singleton_perm.mp hfilter]
  · have hlen := hfilter.length_eq
    rcases found' with _ | ⟨n, _ | ⟨n', rest'⟩⟩
    · cases hlen
    · cases hlen
    · rfl

theorem field?_cons_of_ne {m : Option Text × Value} (h : m.1 ≠ some name.toList) :
    field? (m :: members) name = field? members name := by
  rw [field?, field?, List.filter_cons_of_neg (by simpa using h)]

theorem field?_cons_self (h : ∀ m ∈ members, m.1 ≠ some name.toList) :
    field? ((some name.toList, v) :: members) name = some (some v) :=
  field?_eq_some_iff.mpr ⟨[], members, rfl, h⟩

theorem known_cons (name : String) (names : List String) (v : Value) (values : List Value) :
    known (name :: names) (v :: values) = (some name.toList, v) :: known names values := rfl

theorem exists_name_of_mem_known {m : Option Text × Value} (h : m ∈ known names values) :
    ∃ name ∈ names, m.1 = some name.toList := by
  obtain ⟨⟨name, v⟩, hm, rfl⟩ := List.mem_map.mp h
  exact ⟨name, (List.of_mem_zip hm).1, rfl⟩

theorem mapM_field?_cons (h : name ∉ names) :
    names.mapM (field? ((some name.toList, v) :: members)) = names.mapM (field? members) := by
  induction names with
  | nil => rfl
  | cons n names ih =>
    obtain ⟨hn, hnames⟩ := List.ne_and_not_mem_of_not_mem_cons h
    have hkey : some name.toList ≠ some n.toList := by
      simpa [String.toList_inj] using hn
    rw [List.mapM_cons, List.mapM_cons, field?_cons_of_ne hkey, ih hnames]

theorem mapM_cons_eq_some_iff {α β : Type} {f : α → Option β} {a : α} {as : List α} {b : β}
    {bs : List β} :
    (a :: as).mapM f = some (b :: bs) ↔ f a = some b ∧ as.mapM f = some bs := by
  rw [List.mapM_cons]
  cases f a <;> cases as.mapM f <;> simp

/-- All fields are there exactly if the members are the fields and unknown ones. -/
theorem mapM_field?_eq_some_iff (hn : names.Nodup) (hl : values.length = names.length) :
    names.mapM (field? members) = some (values.map some) ↔
      ∃ unknown, members.Perm (known names values ++ unknown) ∧
        ∀ m ∈ unknown, ∀ name ∈ names, m.1 ≠ some name.toList := by
  induction names generalizing values members with
  | nil =>
    obtain rfl := List.length_eq_zero_iff.mp hl
    exact iff_of_true rfl ⟨members, List.Perm.refl _, by simp⟩
  | cons name names ih =>
    obtain ⟨v, values, rfl⟩ := List.exists_cons_of_length_eq_add_one hl
    obtain ⟨hname, hnames⟩ := List.nodup_cons.mp hn
    rw [List.map_cons, mapM_cons_eq_some_iff, known_cons]
    constructor
    · rintro ⟨hfield, hrest⟩
      obtain ⟨before, after, rfl, hother⟩ := field?_eq_some_iff.mp hfield
      have hperm : (before ++ (some name.toList, v) :: after).Perm
          ((some name.toList, v) :: (before ++ after)) := List.perm_middle
      have hmoved : field? (before ++ (some name.toList, v) :: after) =
          field? ((some name.toList, v) :: (before ++ after)) := funext fun _ => field?_perm hperm
      rw [hmoved, mapM_field?_cons hname] at hrest
      obtain ⟨unknown, hall, hu⟩ := (ih hnames (Nat.succ.inj hl)).mp hrest
      refine ⟨unknown, hperm.trans (hall.cons _), fun m hm n hmem => ?_⟩
      rcases List.mem_cons.mp hmem with rfl | hmem
      · exact hother m (hall.mem_iff.mpr (List.mem_append_right _ hm))
      · exact hu m hm n hmem
    · rintro ⟨unknown, hall, hu⟩
      have hother : ∀ m ∈ known names values ++ unknown, m.1 ≠ some name.toList := by
        intro m hm hkey
        rcases List.mem_append.mp hm with hm | hm
        · obtain ⟨n, hmem, hn⟩ := exists_name_of_mem_known hm
          rw [hkey, Option.some.injEq, String.toList_inj] at hn
          exact hname (hn ▸ hmem)
        · exact hu m hm name List.mem_cons_self hkey
      have hmoved : field? members =
          field? ((some name.toList, v) :: (known names values ++ unknown)) :=
        funext fun _ => field?_perm hall
      rw [hmoved, mapM_field?_cons hname]
      exact ⟨field?_cons_self hother, (ih hnames (Nat.succ.inj hl)).mpr
        ⟨unknown, List.Perm.refl _, fun m hm n hmem => hu m hm n (List.mem_cons_of_mem _ hmem)⟩⟩

theorem fields?_object_eq_some_iff (hn : names.Nodup) (hl : values.length = names.length) :
    fields? names (.object members) = some (values.map some) ↔
      Fills names values (.object members) := by
  have hkey {k : Option Text} : (∃ t, k = some t ∧ ∀ name ∈ names, t ≠ name.toList) ↔
      k.isSome = true ∧ ∀ name ∈ names, k ≠ some name.toList := by
    cases k <;> simp
  rw [fields?]
  split_ifs with hall
  · rw [mapM_field?_eq_some_iff hn hl]
    rw [List.all_eq_true] at hall
    constructor
    · rintro ⟨unknown, hperm, hu⟩
      refine .object hperm fun m hm => hkey.mpr ⟨hall m ?_, hu m hm⟩
      exact hperm.mem_iff.mpr (List.mem_append_right _ hm)
    · rintro ⟨hperm, hu⟩
      exact ⟨_, hperm, fun m hm => (hkey.mp (hu m hm)).2⟩
  · refine iff_of_false (fun h => by cases h) ?_
    rintro ⟨hperm, hu⟩
    refine hall (List.all_eq_true.mpr fun m hm => ?_)
    rcases List.mem_append.mp (hperm.mem_iff.mp hm) with hm | hm
    · obtain ⟨name, -, hm⟩ := exists_name_of_mem_known hm
      rw [hm]
      rfl
    · exact (hkey.mp (hu m hm)).1

theorem fields?_array_eq_some_iff {items : List Value} (hl : values.length = names.length) :
    fields? names (.array items) = some (values.map some) ↔
      Fills names values (.array items) := by
  have hsome : Function.Injective (some : Value → Option Value) := fun _ _ => Option.some.inj
  rw [fields?]
  constructor
  · intro h
    split_ifs at h with hle
    have hitems := Option.some.inj h
    have hlength : items.length = names.length := by
      by_contra hne
      have hgap : none ∈ values.map some := by
        rw [← hitems]
        refine List.mem_append_right _ (List.mem_replicate.mpr ⟨by omega, rfl⟩)
      simp at hgap
    rw [hlength, Nat.sub_self, List.replicate_zero, List.append_nil] at hitems
    rw [hsome.list_map hitems]
    exact .array
  · rintro ⟨⟩
    rw [if_pos (Nat.le_of_eq hl), hl, Nat.sub_self, List.replicate_zero, List.append_nil]

/-- The fields of a record are read from its spellings and from nothing else. -/
theorem fields?_eq_some_iff (hn : names.Nodup) (hl : values.length = names.length) :
    fields? names v = some (values.map some) ↔ Fills names values v := by
  cases v with
  | object members => exact fields?_object_eq_some_iff hn hl
  | array items => exact fields?_array_eq_some_iff hl
  | null => exact iff_of_false nofun nofun
  | bool b => exact iff_of_false nofun nofun
  | number literal => exact iff_of_false nofun nofun
  | string t => exact iff_of_false nofun nofun

theorem texts?_eq_some_iff_fields? {texts : List Text} :
    texts? names v = some texts ↔ fields? names v = some ((texts.map .ofText).map some) := by
  rw [texts?, Option.bind_eq_some_iff]
  constructor
  · rintro ⟨fields, hfields, htexts⟩
    rw [hfields]
    congr 1
    clear hfields
    induction fields generalizing texts with
    | nil =>
      cases htexts
      rfl
    | cons f fields ih =>
      rw [List.mapM_cons] at htexts
      simp only [Option.bind_eq_bind, Option.bind_eq_some_iff, Option.pure_def,
        Option.some.injEq] at htexts
      obtain ⟨t, ht, ts, hts, rfl⟩ := htexts
      rw [ih hts]
      split at ht
      · rw [ht]
        rfl
      · cases ht
  · intro h
    refine ⟨_, h, ?_⟩
    clear h
    induction texts with
    | nil => rfl
    | cons t texts ih =>
      rw [List.map_cons, List.map_cons, mapM_cons_eq_some_iff]
      exact ⟨rfl, ih⟩

theorem texts?_eq_some_iff {texts : List Text} (hn : names.Nodup)
    (hl : texts.length = names.length) :
    texts? names v = some texts ↔ Fills names (texts.map .ofText) v := by
  rw [texts?_eq_some_iff_fields?, fields?_eq_some_iff hn (by rwa [List.length_map])]

theorem fills_known (names : List String) (values : List Value) :
    Fills names values (.object (known names values)) := by
  have hperm : (known names values).Perm (known names values ++ []) := by rw [List.append_nil]
  exact .object hperm (by simp)

end Wire

end AnimationScope
