import AnimationScope.Animation.NameMap
import Mathlib.Data.List.Induction
import Mathlib.Data.List.Nodup

/-!
# Entries of a name map

A map made by inserting pairs one after another has each key where it was first
inserted, with the value that it was last inserted with.
-/

namespace AnimationScope.Animation.NameMap

variable {m : NameMap} {name value key : Text} {es : List (Text × Text)}

theorem get?_eq_find? (m : NameMap) (key : Text) :
    m.get? key = (m.entries.find? (·.1 = key)).map Prod.snd := by
  rw [get?, position?]
  induction m.entries with
  | nil => rfl
  | cons e es ih =>
    by_cases h : e.1 = key
    · simp [List.findIdx?_cons, h]
    · rw [List.findIdx?_cons, List.find?_cons]
      simp only [h, decide_false, Bool.false_eq_true, if_false]
      rw [← ih, Option.bind_map]
      rfl

theorem contains_iff (names : NameMap) (name : Text) :
    names.contains name = true ↔ name ∈ names.keys := by
  simp [contains, position?, keys, List.findIdx?_isSome]

theorem find?_put (name value key : Text) (es : List (Text × Text)) :
    ((put name value es).2.find? (·.1 = key)).map Prod.snd =
      if name = key then some value else (es.find? (·.1 = key)).map Prod.snd := by
  induction es with
  | nil => by_cases h : name = key <;> simp [put, h]
  | cons e es ih =>
    by_cases he : e.1 = name
    · subst he
      by_cases hk : e.1 = key <;> simp [put, hk]
    · by_cases hk : e.1 = key
      · subst hk
        have hn : name ≠ e.1 := fun h => he h.symm
        simp [put, he, hn]
      · simp [put, he, hk, ih]

theorem get?_insert (m : NameMap) (name value key : Text) :
    (m.insert name value).get? key = if name = key then some value else m.get? key := by
  rw [get?_eq_find?, get?_eq_find?]
  exact find?_put name value key m.entries

theorem keys_insert (m : NameMap) (name value : Text) :
    (m.insert name value).keys = if name ∈ m.keys then m.keys else m.keys ++ [name] :=
  keys_put name value m.entries

theorem ofList_concat (pairs : List (Text × Text)) (p : Text × Text) :
    ofList (pairs ++ [p]) = (ofList pairs).insert p.1 p.2 := by
  simp [ofList, List.foldl_append]

theorem keys_ofList (pairs : List (Text × Text)) :
    (ofList pairs).keys = (pairs.map Prod.fst).eraseDups := by
  induction pairs using List.reverseRecOn with
  | nil => rfl
  | append_singleton pairs p ih =>
    rw [ofList_concat, keys_insert, ih, List.map_append, List.eraseDups_append]
    by_cases h : p.1 ∈ pairs.map Prod.fst
    · rw [if_pos (List.mem_eraseDups.mpr h)]
      simp [List.removeAll, h]
    · rw [if_neg (fun hm => h (List.mem_eraseDups.mp hm))]
      simp [List.removeAll, h, List.eraseDups_cons]

theorem isEmpty_ofList (pairs : List (Text × Text)) :
    (ofList pairs).isEmpty = true ↔ pairs = [] := by
  have hkeys := keys_ofList pairs
  rw [isEmpty, List.isEmpty_iff]
  constructor
  · intro h
    rw [keys, h] at hkeys
    cases pairs with
    | nil => rfl
    | cons p pairs => simp [List.eraseDups_cons] at hkeys
  · rintro rfl
    rfl

theorem get?_ofList (pairs : List (Text × Text)) (key : Text) :
    (ofList pairs).get? key = (pairs.reverse.find? (·.1 = key)).map Prod.snd := by
  induction pairs using List.reverseRecOn with
  | nil => rfl
  | append_singleton pairs p ih =>
    rw [ofList_concat, get?_insert, ih, List.reverse_append]
    by_cases h : p.1 = key <;> simp [h]

theorem mem_iff_find? {es : List (Text × Text)} (h : (es.map Prod.fst).Nodup) (key value : Text) :
    (key, value) ∈ es ↔ (es.find? (·.1 = key)).map Prod.snd = some value := by
  induction es with
  | nil => simp
  | cons e es ih =>
    rw [List.map_cons, List.nodup_cons] at h
    rw [List.mem_cons, List.find?_cons]
    by_cases he : e.1 = key
    · have hkey : (key, value) ∉ es := fun hmem =>
        h.1 (List.mem_map.mpr ⟨_, hmem, he.symm⟩)
      subst he
      simp [hkey, Prod.ext_iff, eq_comm]
    · have hne : (key, value) ≠ e := fun heq => he (congrArg Prod.fst heq).symm
      simp [he, hne, ih h.2]

/-- An entry is found under its own key, as no key has two entries. -/
theorem mem_entries_iff (m : NameMap) (key value : Text) :
    (key, value) ∈ m.entries ↔ m.get? key = some value := by
  rw [get?_eq_find?]
  exact mem_iff_find? m.nodup key value

theorem contains_eq_isSome_get? (m : NameMap) (key : Text) :
    m.contains key = (m.get? key).isSome := by
  rw [Bool.eq_iff_iff, contains_iff, keys, List.mem_map, Option.isSome_iff_exists]
  simp [← mem_entries_iff]

theorem perm_entries_iff (m m' : NameMap) :
    m.entries.Perm m'.entries ↔ ∀ key, m.get? key = m'.get? key := by
  have hnodup : ∀ m : NameMap, m.entries.Nodup := fun m => List.Nodup.of_map _ m.nodup
  rw [List.perm_ext_iff_of_nodup (hnodup m) (hnodup m')]
  constructor
  · intro h key
    rw [Option.ext_iff]
    intro value
    rw [← mem_entries_iff, ← mem_entries_iff, h]
  · rintro h ⟨key, value⟩
    rw [mem_entries_iff, mem_entries_iff, h]

/-- Where the value of a pair depends on its name alone, so does that of a key. -/
theorem get?_ofList_of_function {pairs : List (Text × Text)} {f : Text → Text}
    (h : ∀ p ∈ pairs, p.2 = f p.1) (key : Text) :
    (ofList pairs).get? key = if key ∈ pairs.map Prod.fst then some (f key) else none := by
  rw [get?_ofList]
  cases hfind : pairs.reverse.find? (·.1 = key) with
  | none =>
    have hnone : key ∉ pairs.map Prod.fst := by
      intro hmem
      obtain ⟨p, hp, rfl⟩ := List.mem_map.mp hmem
      simpa using List.find?_eq_none.mp hfind p (List.mem_reverse.mpr hp)
    rw [if_neg hnone]
    rfl
  | some p =>
    have hp : p ∈ pairs := List.mem_reverse.mp (List.mem_of_find?_eq_some hfind)
    obtain rfl : p.1 = key := by simpa using List.find?_some hfind
    rw [if_pos (List.mem_map.mpr ⟨p, hp, rfl⟩), Option.map_some, h p hp]

end AnimationScope.Animation.NameMap
