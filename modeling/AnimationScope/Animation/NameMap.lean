import AnimationScope.Text.Basic

/-!
# Maps from local to scoped names

Entries stand in the order in which their names were first inserted. Inserting
a name again replaces its scoped name and leaves the entry in its place.
-/

namespace AnimationScope.Animation

structure NameMap where
  /-- Pairs of a local name and its scoped name. -/
  entries : List (Text × Text)
  nodup : (entries.map Prod.fst).Nodup
deriving DecidableEq

namespace NameMap

def empty : NameMap := ⟨[], List.nodup_nil⟩

def keys (m : NameMap) : List Text := m.entries.map Prod.fst

def isEmpty (m : NameMap) : Bool := m.entries.isEmpty

def size (m : NameMap) : Nat := m.entries.length

def position? (m : NameMap) (name : Text) : Option Nat :=
  m.entries.findIdx? (·.1 = name)

def get? (m : NameMap) (name : Text) : Option Text :=
  (m.position? name).bind fun i => m.entries[i]?.map Prod.snd

def contains (m : NameMap) (name : Text) : Bool := (m.position? name).isSome

/-- The value that an entry had so far, and the entries with the new value. -/
def put (name value : Text) : List (Text × Text) → Option Text × List (Text × Text)
  | [] => (none, [(name, value)])
  | e :: es =>
    if e.1 = name then (some e.2, (name, value) :: es)
    else ((put name value es).1, e :: (put name value es).2)

theorem keys_put (name value : Text) (es : List (Text × Text)) :
    (put name value es).2.map Prod.fst =
      if name ∈ es.map Prod.fst then es.map Prod.fst else es.map Prod.fst ++ [name] := by
  induction es with
  | nil => simp [put]
  | cons e es ih =>
    by_cases h : e.1 = name
    · simp [put, h]
    · have h' : ¬ name = e.1 := fun e' => h e'.symm
      simp only [put, h, if_false, List.map_cons, ih, List.mem_cons, h', false_or]
      split <;> rfl

/-- Sets the scoped name of a local name and tells the one it replaces. -/
def exchange (m : NameMap) (name value : Text) : Option Text × NameMap :=
  ((put name value m.entries).1,
    { entries := (put name value m.entries).2
      nodup := by
        rw [keys_put]
        split
        · exact m.nodup
        · next h =>
          rw [List.nodup_append]
          exact ⟨m.nodup, by simp, by
            intro a ha b hb hab
            rw [List.mem_singleton] at hb
            exact h (hb ▸ hab ▸ ha)⟩ })

def insert (m : NameMap) (name value : Text) : NameMap := (m.exchange name value).2

def ofList (pairs : List (Text × Text)) : NameMap :=
  pairs.foldl (fun m p => m.insert p.1 p.2) empty

end NameMap

end AnimationScope.Animation
