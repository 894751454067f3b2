import AnimationScope.Proofs.RecordSpelling

/-!
# Records that are read and written again

Each record is read from its spellings and from nothing else, and the text that is written for
it is one of them. So a text that is read and written again has settled: nothing changes when
this is done once more.
-/

namespace AnimationScope

open Json

variable {v : Value}

/-! ## The spellings of each record -/

def SourceFile.Spells (v : Value) (f : SourceFile) : Prop :=
  Wire.Fills ["path", "css"] [.ofText f.path, .ofText f.css] v

def Event.Spells (v : Value) (e : Event) : Prop :=
  Wire.Fills ["plugin", "type", "name", "value"]
    [.ofText e.plugin, .ofText e.type, .ofText e.name, .ofText e.value] v

namespace Warning

/-- A kind is spelled by its tag, or by an object that has the tag as its only key. -/
inductive Kind.Spells : Value → Kind → Prop
  | tag (k : Kind) : Spells (.ofText k.tag) k
  | key (k : Kind) : Spells (.object [(some k.tag, .null)]) k

def Spells (v : Value) (w : Warning) : Prop :=
  ∃ kind, Kind.Spells kind w.kind ∧
    Wire.Fills ["kind", "name", "message"] [kind, .ofText w.name, .ofText w.message] v

end Warning

theorem SourceFile.ofValue?_eq_some_iff {f : SourceFile} :
    Wire.Record.ofValue? v = some f ↔ f.Spells v := by
  obtain ⟨path, css⟩ := f
  have htexts : Wire.texts? ["path", "css"] v = some [path, css] ↔ Spells v ⟨path, css⟩ :=
    Wire.texts?_eq_some_iff (by decide) rfl
  rw [← htexts]
  simp only [Wire.Record.ofValue?]
  split
  · next h => simp [h]
  · next h => exact iff_of_false nofun (h path css)

theorem Event.ofValue?_eq_some_iff {e : Event} :
    Wire.Record.ofValue? v = some e ↔ e.Spells v := by
  obtain ⟨plugin, type, name, value⟩ := e
  have htexts : Wire.texts? ["plugin", "type", "name", "value"] v =
      some [plugin, type, name, value] ↔ Spells v ⟨plugin, type, name, value⟩ :=
    Wire.texts?_eq_some_iff (by decide) rfl
  rw [← htexts]
  simp only [Wire.Record.ofValue?]
  split
  · next h => simp [h]
  · next h => exact iff_of_false nofun (h plugin type name value)

namespace Warning

theorem Kind.ofTag?_eq_some_iff {t : Text} {k : Kind} : ofTag? t = some k ↔ t = k.tag := by
  constructor
  · intro h
    have htag := List.find?_some (p := fun k : Kind => decide (k.tag = t)) h
    exact (of_decide_eq_true htag).symm
  · rintro rfl
    cases k <;> rfl

theorem Kind.ofValue?_eq_some_iff {k : Kind} : ofValue? v = some k ↔ Spells v k := by
  constructor
  · intro h
    rw [Kind.ofValue?.eq_def] at h
    split at h
    · rw [ofTag?_eq_some_iff.mp h]
      exact .tag k
    · rw [ofTag?_eq_some_iff.mp h]
      exact .key k
    · cases h
  · rintro (_ | _)
    · exact ofTag?_eq_some_iff.mpr rfl
    · exact ofTag?_eq_some_iff.mpr rfl

theorem ofValue?_eq_some_iff {w : Warning} : Wire.Record.ofValue? v = some w ↔ w.Spells v := by
  obtain ⟨kind, name, message⟩ := w
  have hfields (k : Value) : Wire.fields? ["kind", "name", "message"] v =
      some ([k, .ofText name, .ofText message].map some) ↔
        Wire.Fills ["kind", "name", "message"] [k, .ofText name, .ofText message] v :=
    Wire.fields?_eq_some_iff (by decide) rfl
  simp only [Wire.Record.ofValue?]
  constructor
  · intro h
    split at h
    · next spelling n m hf =>
      obtain ⟨k, hk, hw⟩ := Option.map_eq_some_iff.mp h
      cases hw
      exact ⟨spelling, Kind.ofValue?_eq_some_iff.mp hk, (hfields spelling).mp hf⟩
    · cases h
  · rintro ⟨spelling, hk, hf⟩
    rw [(hfields spelling).mpr hf]
    simp [Value.ofText, Kind.ofValue?_eq_some_iff.mpr hk]

end Warning

/-! ## Writing and reading -/

namespace Wire

/-- The text of a record, written again. -/
def reserialize? (α : Type) [Record α] (t : Text) : Option Text :=
  (read? t : Option α).map write

/-- Records are read from texts of a spelling, whatever the spaces and escapes are, and the text
that is written for a record is read as the same record. -/
structure RoundTrips (α : Type) [Record α] (Spells : Value → α → Prop) : Prop where
  read_iff : ∀ t a, read? t = some a ↔ ∃ v, Json.read t = some v ∧ Spells v a
  read_write : ∀ a : α, read? (write a) = some a
  settles : ∀ t u, reserialize? α t = some u → reserialize? α u = some u

variable {α : Type} [Record α] {Spells : Value → α → Prop}

theorem roundTrips_of (hread : ∀ v a, Record.ofValue? v = some a ↔ Spells v a)
    (hlegible : ∀ a : α, (Record.toValue a).Legible) (hwrite : ∀ a, Spells (Record.toValue a) a) :
    RoundTrips α Spells := by
  have hback (a : α) : read? (write a) = some a := by
    rw [read?, write, read_write (hlegible a), Option.bind_some]
    exact (hread _ a).mpr (hwrite a)
  refine ⟨fun t a => ?_, hback, fun t u h => ?_⟩
  · rw [read?, Option.bind_eq_some_iff]
    simp only [hread]
  · obtain ⟨a, -, rfl⟩ := Option.map_eq_some_iff.mp h
    rw [reserialize?, hback]
    rfl

end Wire

theorem Config.roundTrips : Wire.RoundTrips Config Spells := by
  refine Wire.roundTrips_of (fun _ _ => ofValue?_eq_some_iff) ?_ ?_
  · rintro ⟨_ | p⟩
    · exact .object (by simp [Value.Legible.null])
    · exact .object (by simp [Value.ofText, Value.Legible.string])
  · rintro ⟨_ | p⟩
    · have hspells : Spells (.object ([] ++ (some key, .null) :: [])) ⟨none⟩ :=
        .within (by simp) .null
      exact hspells
    · have hspells : Spells (.object ([] ++ (some key, .ofText p) :: [])) ⟨some p⟩ :=
        .within (by simp) (.text p)
      exact hspells

theorem SourceFile.roundTrips : Wire.RoundTrips SourceFile Spells := by
  refine Wire.roundTrips_of (fun _ _ => ofValue?_eq_some_iff) (fun f => ?_) fun f => ?_
  · exact .object (by simp [Value.ofText, Value.Legible.string])
  · exact Wire.fills_known _ _

theorem Event.roundTrips : Wire.RoundTrips Event Spells := by
  refine Wire.roundTrips_of (fun _ _ => ofValue?_eq_some_iff) (fun e => ?_) fun e => ?_
  · exact .object (by simp [Value.ofText, Value.Legible.string])
  · exact Wire.fills_known _ _

theorem Warning.roundTrips : Wire.RoundTrips Warning Spells := by
  refine Wire.roundTrips_of (fun _ _ => ofValue?_eq_some_iff) (fun w => ?_) fun w => ?_
  · exact .object (by simp [Value.ofText, Value.Legible.string])
  · exact ⟨_, .tag w.kind, Wire.fills_known _ _⟩

/-- Every record is read back from what is written for it, and what was read from any of its
spellings and written again stays as it is. -/
theorem Wire.records_roundTrip :
    RoundTrips Config Config.Spells ∧ RoundTrips SourceFile SourceFile.Spells ∧
      RoundTrips Event Event.Spells ∧ RoundTrips Warning Warning.Spells :=
  ⟨Config.roundTrips, SourceFile.roundTrips, Event.roundTrips, Warning.roundTrips⟩

end AnimationScope
