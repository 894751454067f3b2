import AnimationScope.Proofs.Entries
import Mathlib.Logic.Function.Basic

/-!
# Entries beside an index

A map can be kept as a list of entries beside an index from names to places. An insertion
changes one of the two or both, and what it does to each of them is what it does to the entries
of a map and to the places at which they are found.
-/

namespace AnimationScope.Animation.NameMap

variable {m m' : NameMap} {name value : Text} {es : List (Text × Text)} {i : Nat}

/-- Entries, and for each name the place that its entry is said to have. -/
@[ext]
structure Indexed where
  entries : List (Text × Text)
  index : Text → Option Nat

namespace Indexed

def empty : Indexed := ⟨[], fun _ => none⟩

def get? (s : Indexed) (name : Text) : Option Text :=
  (s.index name).bind fun i => s.entries[i]?.map Prod.snd

/-- The value in the place of a known name is replaced. A new name gets the place behind all
entries. -/
def exchange (s : Indexed) (name value : Text) : Option Text × Indexed :=
  match s.index name with
  | some i =>
    (s.entries[i]?.map Prod.snd, { s with entries := s.entries.modify i fun e => (e.1, value) })
  | none =>
    (none, ⟨s.entries ++ [(name, value)], Function.update s.index name (some s.entries.length)⟩)

def ofList (pairs : List (Text × Text)) : Indexed :=
  pairs.foldl (fun s p => (s.exchange p.1 p.2).2) empty

/-- The entries are those of the map, and the index tells where it finds them. -/
structure Keeps (s : Indexed) (m : NameMap) : Prop where
  entries : s.entries = m.entries
  index : s.index = m.position?

end Indexed

/-! ## Places -/

theorem ext_entries (h : m.entries = m'.entries) : m = m' := by
  cases m
  cases m'
  cases h
  rfl

theorem position?_eq_none_iff : m.position? name = none ↔ name ∉ m.keys := by
  rw [← Option.not_isSome_iff_eq_none, ← contains_iff]
  rfl

theorem position?_eq_some_iff : m.position? name = some i ↔ m.keys[i]? = some name := by
  have hfound {j : Nat} (h : m.position? name = some j) : m.keys[j]? = some name := by
    obtain ⟨hlt, hj, -⟩ := List.findIdx?_eq_some_iff_getElem.mp h
    rw [keys, List.getElem?_map, List.getElem?_eq_getElem hlt]
    exact congrArg some (of_decide_eq_true hj)
  refine ⟨hfound, fun h => ?_⟩
  cases hp : m.position? name with
  | none => exact absurd (List.mem_of_getElem? h) (position?_eq_none_iff.mp hp)
  | some j =>
    have hlt : j < m.keys.length := (List.getElem?_eq_some_iff.mp (hfound hp)).1
    rw [(List.getElem?_inj hlt m.nodup).mp ((hfound hp).trans h.symm)]

theorem getElem?_keys_eq_some_iff :
    m.keys[i]? = some name ↔ ∃ value, m.entries[i]? = some (name, value) := by
  rw [keys, List.getElem?_map, Option.map_eq_some_iff]
  constructor
  · rintro ⟨⟨_, value⟩, h, rfl⟩
    exact ⟨value, h⟩
  · rintro ⟨value, h⟩
    exact ⟨_, h, rfl⟩

theorem position?_congr (h : m.keys = m'.keys) : m.position? = m'.position? := by
  funext name
  ext i
  rw [position?_eq_some_iff, position?_eq_some_iff, h]

/-! ## Insertions -/

theorem put_of_not_mem (h : name ∉ es.map Prod.fst) :
    put name value es = (none, es ++ [(name, value)]) := by
  induction es with
  | nil => rfl
  | cons e es ih =>
    rw [List.map_cons, List.mem_cons, not_or] at h
    rw [put, if_neg (Ne.symm h.1), ih h.2]
    rfl

theorem put_of_place (h : es.findIdx? (·.1 = name) = some i) :
    put name value es = (es[i]?.map Prod.snd, es.modify i fun e => (e.1, value)) := by
  induction es generalizing i with
  | nil => cases h
  | cons e es ih =>
    rw [List.findIdx?_cons] at h
    by_cases he : e.1 = name
    · simp only [he, decide_true, if_true, Option.some.injEq] at h
      subst h
      rw [put, if_pos he, ← he]
      rfl
    · simp only [he, decide_false, Bool.false_eq_true, if_false, Option.map_eq_some_iff] at h
      obtain ⟨j, hj, rfl⟩ := h
      rw [put, if_neg he, ih hj]
      rfl

theorem exchange_fst (m : NameMap) (name value : Text) :
    (m.exchange name value).1 = m.get? name := by
  change (put name value m.entries).1 = _
  cases hp : m.position? name with
  | none =>
    have hnone : name ∉ m.entries.map Prod.fst := position?_eq_none_iff.mp hp
    rw [put_of_not_mem hnone, get?, hp]
    rfl
  | some i =>
    rw [put_of_place hp, get?, hp]
    rfl

theorem entries_insert_of_position? (h : m.position? name = some i) :
    (m.insert name value).entries = m.entries.modify i fun e => (e.1, value) :=
  congrArg Prod.snd (put_of_place h)

theorem entries_insert_of_not_mem (h : name ∉ m.keys) :
    (m.insert name value).entries = m.entries ++ [(name, value)] :=
  congrArg Prod.snd (put_of_not_mem h)

theorem position?_insert_of_mem (h : name ∈ m.keys) :
    (m.insert name value).position? = m.position? :=
  position?_congr (by rw [keys_insert, if_pos h])

theorem position?_insert_of_not_mem (h : name ∉ m.keys) :
    (m.insert name value).position? = Function.update m.position? name (some m.size) := by
  have hkeys : (m.insert name value).keys = m.keys ++ [name] := by rw [keys_insert, if_neg h]
  have hsize : m.keys.length = m.size := List.length_map ..
  funext key
  by_cases hk : key = name
  · subst hk
    rw [Function.update_self, position?_eq_some_iff, hkeys, ← hsize, List.getElem?_concat_length]
  · rw [Function.update_of_ne hk]
    ext j
    rw [position?_eq_some_iff, position?_eq_some_iff, hkeys, List.getElem?_append]
    split_ifs with hj
    · rfl
    · rw [List.getElem?_eq_none (Nat.le_of_not_lt hj)]
      refine iff_of_false (fun hname => ?_) nofun
      rw [List.getElem?_eq_some_iff] at hname
      obtain ⟨hlt, hname⟩ := hname
      exact hk (by simpa using hname.symm)

/-! ## Both together -/

namespace Indexed

variable {s s' : Indexed}

theorem keeps_empty : empty.Keeps NameMap.empty := ⟨rfl, rfl⟩

theorem Keeps.get?_eq (h : s.Keeps m) (name : Text) : s.get? name = m.get? name := by
  rw [Indexed.get?, h.index, h.entries]
  rfl

theorem Keeps.exchange (h : s.Keeps m) (name value : Text) :
    (s.exchange name value).1 = m.get? name ∧
      (s.exchange name value).2.Keeps (m.insert name value) := by
  rw [Indexed.exchange, h.index, h.entries]
  cases hp : m.position? name with
  | none =>
    have hnone := position?_eq_none_iff.mp hp
    refine ⟨by rw [NameMap.get?, hp]; rfl, (entries_insert_of_not_mem hnone).symm, ?_⟩
    exact (position?_insert_of_not_mem hnone).symm
  | some i =>
    have hmem : name ∈ m.keys := List.mem_of_getElem? (position?_eq_some_iff.mp hp)
    refine ⟨by rw [NameMap.get?, hp]; rfl, (entries_insert_of_position? hp).symm, ?_⟩
    exact (position?_insert_of_mem hmem).symm

theorem Keeps.eq_of_entries (h : s.Keeps m) (h' : s'.Keeps m') (he : s.entries = s'.entries) :
    s = s' := by
  have hm : m = m' := ext_entries (by rw [← h.entries, he, h'.entries])
  exact Indexed.ext he (by rw [h.index, hm, h'.index])

theorem ofList_concat (pairs : List (Text × Text)) (p : Text × Text) :
    ofList (pairs ++ [p]) = ((ofList pairs).exchange p.1 p.2).2 := by
  simp [ofList, List.foldl_append]

theorem keeps_ofList (pairs : List (Text × Text)) :
    (ofList pairs).Keeps (NameMap.ofList pairs) := by
  induction pairs using List.reverseRecOn with
  | nil => exact keeps_empty
  | append_singleton pairs p ih =>
    rw [ofList_concat, NameMap.ofList_concat]
    exact (ih.exchange p.1 p.2).2

end Indexed

/-- What a map tells of the pairs that were inserted into it one after another. -/
structure Records (m : NameMap) (pairs : List (Text × Text)) : Prop where
  nodup : m.keys.Nodup
  places : ∀ name i, m.position? name = some i ↔ ∃ value, m.entries[i]? = some (name, value)
  names : ∀ name, m.contains name = true ↔ name ∈ pairs.map Prod.fst
  values : ∀ name, m.get? name = (pairs.reverse.find? (·.1 = name)).map Prod.snd
  order : m.keys = (pairs.map Prod.fst).eraseDups
  replaced : ∀ name value, m.exchange name value = (m.get? name, ofList (pairs ++ [(name, value)]))

theorem records_ofList (pairs : List (Text × Text)) : (ofList pairs).Records pairs where
  nodup := (ofList pairs).nodup
  places name i := position?_eq_some_iff.trans getElem?_keys_eq_some_iff
  names name := by rw [contains_iff, keys_ofList, List.mem_eraseDups]
  values := get?_ofList pairs
  order := keys_ofList pairs
  replaced name value := by
    rw [ofList_concat]
    exact Prod.ext (exchange_fst _ name value) rfl

/-- A map and its entries beside an index stay in step and tell which pairs were inserted, and
entries are all that tells one of them from another. -/
theorem ofList_keeps_index (pairs : List (Text × Text)) :
    (ofList pairs).Records pairs ∧ (Indexed.ofList pairs).Keeps (ofList pairs) ∧
    (∀ name, (Indexed.ofList pairs).get? name = (ofList pairs).get? name ∧
      ∀ value, ((Indexed.ofList pairs).exchange name value).1 = (ofList pairs).get? name) ∧
    ∀ pairs', (ofList pairs = ofList pairs' ↔
        (ofList pairs).entries = (ofList pairs').entries) ∧
      (Indexed.ofList pairs = Indexed.ofList pairs' ↔
        (Indexed.ofList pairs).entries = (Indexed.ofList pairs').entries) := by
  have hkeeps := Indexed.keeps_ofList
  refine ⟨records_ofList pairs, hkeeps pairs, fun name => ⟨(hkeeps pairs).get?_eq name,
    fun value => ((hkeeps pairs).exchange name value).1⟩, fun pairs' => ⟨?_, ?_⟩⟩
  · exact ⟨congrArg entries, ext_entries⟩
  · exact ⟨congrArg Indexed.entries, (hkeeps pairs).eq_of_entries (hkeeps pairs')⟩

end AnimationScope.Animation.NameMap
