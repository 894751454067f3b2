import AnimationScope.Proofs.ConfigSpelling
import AnimationScope.Proofs.JsonRoundTrip
import AnimationScope.Wire.Host
import Mathlib.Data.List.Nodup

/-!
# Answers to a host

A host is told the first thing that went wrong, in the order configuration, pattern,
stylesheet. Otherwise it gets a JSON text that spells the output, the exports in the order of
the map and each of them once.
-/

namespace AnimationScope

open Json Naming

namespace Host

variable {file : SourceFile} {config : Option Text} {c : Config}

/-- The configuration that a host hands over. -/
inductive Configures : Option Text → Config → Prop
  | nothing : Configures none ⟨none⟩
  | text {t : Text} {v : Value} {c : Config} (hread : Json.read t = some v) (h : c.Spells v) :
    Configures (some t) c

inductive Chooses : Config → Generator Unit → Prop
  | default : Chooses ⟨none⟩ .default
  | pattern {t : Text} {p : Pattern} (h : Pattern.read t = .ok p) : Chooses ⟨some t⟩ (.ofPattern p)

def exportMembers (o : Output) : List (Option Text × Value) :=
  o.exports.entries.map fun e => (some e.1, .string (some e.2))

def warningObject (w : Warning) : Value :=
  .object [
    (some "kind".toList, .string (some w.kind.tag)),
    (some "name".toList, .string (some w.name)),
    (some "message".toList, .string (some w.message))]

def messageObject (e : Event) : Value :=
  .object [
    (some "plugin".toList, .string (some e.plugin)),
    (some "type".toList, .string (some e.type)),
    (some "name".toList, .string (some e.name)),
    (some "value".toList, .string (some e.value))]

/-- What a host is told about an output. -/
def document (o : Output) : Value :=
  .object [
    (some "css".toList, .string (some o.css)),
    (some "exports".toList, .object (exportMembers o)),
    (some "warnings".toList, .array (o.report.warnings.map warningObject)),
    (some "messages".toList, .array (o.report.events.map messageObject))]

/-- The text spells the output and no other one, and no export stands twice. -/
structure Reports (text : Text) (o : Output) : Prop where
  read : Json.read text = some (document o)
  unique : ∀ o', Json.read text = some (document o') → o' = o
  nodup : ((exportMembers o).map Prod.fst).Nodup

/-- What a host gets: a text, or the message of an error, which is not fixed for a
configuration that cannot be read. -/
inductive Answers (file : SourceFile) (config : Option Text) : Except (Option Text) Text → Prop
  | unreadable (h : ∀ c, ¬ Configures config c) : Answers file config (.error none)
  | badPattern {t : Text} {e : PatternError} (h : Configures config ⟨some t⟩)
    (hpattern : Pattern.read t = .error e) : Answers file config (.error (some e.message))
  | badSheet {c : Config} {g : Generator Unit} {e : Css.SyntaxError} (h : Configures config c)
    (hchoice : Chooses c g) (hsheet : process g file () = .error e) :
    Answers file config
      (.error (some ("CSS parse error in ".toList ++ file.path ++ ": ".toList ++ e.message)))
  | told {c : Config} {g : Generator Unit} {o : Output} {text : Text} (h : Configures config c)
    (hchoice : Chooses c g) (hsheet : process g file () = .ok o) (hreport : Reports text o) :
    Answers file config (.ok text)

/-! ## The text of an output -/

theorem legible_document (o : Output) : (document o).Legible := by
  have hwarning (w : Warning) : (warningObject w).Legible := by
    refine .object ?_
    simp [Value.Legible.string]
  have hmessage (e : Event) : (messageObject e).Legible := by
    refine .object ?_
    simp [Value.Legible.string]
  have hexports : (Value.object (exportMembers o)).Legible := by
    refine .object fun m hm => ?_
    obtain ⟨e, -, rfl⟩ := List.mem_map.mp hm
    exact .string _
  have hwarnings : (Value.array (o.report.warnings.map warningObject)).Legible :=
    .array (List.forall_mem_map.mpr fun w _ => hwarning w)
  have hmessages : (Value.array (o.report.events.map messageObject)).Legible :=
    .array (List.forall_mem_map.mpr fun e _ => hmessage e)
  refine .object ?_
  simp [Value.Legible.string, hexports, hwarnings, hmessages]

theorem toValue_eq_document (o : Output) : o.toValue = document o := rfl

theorem tag_injective : Function.Injective Warning.Kind.tag := by
  intro k k' h
  cases k <;> cases k' <;> first | rfl | exact absurd h (by decide)

theorem warningObject_injective : Function.Injective warningObject := by
  intro w w' h
  obtain ⟨k, n, m⟩ := w
  obtain ⟨k', n', m'⟩ := w'
  simp only [warningObject, Value.object.injEq, List.cons.injEq, Prod.mk.injEq,
    Value.string.injEq, Option.some.injEq, true_and, and_true] at h
  obtain ⟨hk, rfl, rfl⟩ := h
  rw [tag_injective hk]

theorem messageObject_injective : Function.Injective messageObject := by
  intro e e' h
  cases e
  cases e'
  simpa [messageObject] using h

theorem document_injective : Function.Injective document := by
  intro o o' h
  have hmember : Function.Injective fun e : Text × Text => (some e.1, Value.string (some e.2)) := by
    intro e e' heq
    simpa [Prod.ext_iff] using heq
  obtain ⟨css, ⟨exports, hnodup⟩, ⟨warnings, events⟩⟩ := o
  obtain ⟨css', ⟨exports', hnodup'⟩, ⟨warnings', events'⟩⟩ := o'
  simp only [document, exportMembers, Value.object.injEq, Value.array.injEq, Value.string.injEq,
    List.cons.injEq, Prod.mk.injEq, Option.some.injEq, true_and, and_true] at h
  obtain ⟨rfl, hexports, hwarnings, hmessages⟩ := h
  cases hmember.list_map hexports
  cases warningObject_injective.list_map hwarnings
  cases messageObject_injective.list_map hmessages
  rfl

theorem read_write_document (o : Output) : Json.read o.toValue.write = some (document o) := by
  rw [toValue_eq_document, read_write (legible_document o)]

theorem reports_write (o : Output) : Reports o.toValue.write o where
  read := read_write_document o
  unique o' h := document_injective (Option.some.inj (h.symm.trans (read_write_document o)))
  nodup := by
    have hkeys : (exportMembers o).map Prod.fst = o.exports.keys.map some := by
      simp [exportMembers, Animation.NameMap.keys]
    rw [hkeys]
    exact o.exports.nodup.map fun _ _ h => Option.some.inj h

/-! ## The answer -/

theorem config?_eq_some_iff : config? config = some c ↔ Configures config c := by
  cases config with
  | none =>
    refine ⟨fun h => ?_, fun h => ?_⟩
    · rw [← Option.some.inj h]
      exact .nothing
    · cases h
      rfl
  | some t =>
    rw [config?, Wire.read?, Option.bind_eq_some_iff]
    refine ⟨fun ⟨v, hread, hv⟩ => .text hread (Config.ofValue?_eq_some_iff.mp hv), fun h => ?_⟩
    cases h with
    | text hread h => exact ⟨_, hread, Config.ofValue?_eq_some_iff.mpr h⟩

/-- With a generator at hand, the answer is up to the stylesheet. -/
theorem answers_of_chooses {g : Generator Unit} {r : Except Error Text}
    (h : Configures config c) (hchoice : Chooses c g)
    (herror : ∀ e, process g file () = .error e → r = .error (.stylesheet file.path e))
    (hok : ∀ o, process g file () = .ok o → r = .ok o.toValue.write) :
    Answers file config (r.mapError Error.message?) := by
  cases hp : process g file () with
  | error e =>
    rw [herror e hp]
    exact .badSheet h hchoice hp
  | ok o =>
    rw [hok o hp]
    exact .told h hchoice hp (reports_write o)

theorem answer_answers (file : SourceFile) (config : Option Text) :
    Answers file config ((answer file config).mapError Error.message?) := by
  rw [answer]
  cases hc : config? config with
  | none =>
    refine .unreadable fun c h => ?_
    rw [config?_eq_some_iff.mpr h] at hc
    cases hc
  | some c =>
    have hconfig := config?_eq_some_iff.mp hc
    obtain ⟨pattern⟩ := c
    cases pattern with
    | none =>
      exact answers_of_chooses hconfig .default (fun e he => by simp [Config.generator?, he])
        fun o ho => by simp [Config.generator?, ho]
    | some t =>
      cases ht : Pattern.read t with
      | error e =>
        simp only [Config.generator?, ht]
        exact .badPattern hconfig ht
      | ok p =>
        simp only [Config.generator?, ht]
        exact answers_of_chooses hconfig (.pattern ht) (fun e he => by simp [Except.map, he])
          fun o ho => by simp [Except.map, ho]

end Host

end AnimationScope
