import AnimationScope.Json.Read
import AnimationScope.Proofs.JsonTokens

/-!
# Reading back what was written

The tokens of a value are put together to the value again, whatever the arrays and objects
are that it belongs to.
-/

namespace AnimationScope.Json

variable {v : Value} {stack : List Frame} {ts : List Token}

namespace State

/-- The value is read from its tokens and put where it belongs. -/
def Reads (v : Value) : Prop :=
  ∀ stack ts, run (.value stack) (v.tokens ++ ts) = run (deliver v stack) ts

/-- A first item begins like any other, as no value begins with a closing bracket. -/
theorem run_firstItem (v : Value) (vs : List Value) :
    run (.firstItem stack) (Value.itemTokens (v :: vs) ++ ts) =
      run (.value (.array [] :: stack)) (Value.itemTokens (v :: vs) ++ ts) := by
  cases vs <;> cases v <;> rfl

theorem run_items {vs : List Value} (h : Reads v) (hs : ∀ w ∈ vs, Reads w) (items : List Value) :
    run (.value (.array items :: stack)) (Value.itemTokens (v :: vs) ++ .closeBracket :: ts) =
      run (deliver (.array (items.reverse ++ v :: vs)) stack) ts := by
  induction vs generalizing v items with
  | nil =>
    rw [Value.itemTokens, h]
    simp [deliver, run, step]
  | cons w ws ih =>
    obtain ⟨hw, hws⟩ := List.forall_mem_cons.mp hs
    have htokens : Value.itemTokens (v :: w :: ws) ++ .closeBracket :: ts =
        v.tokens ++ .comma :: (Value.itemTokens (w :: ws) ++ .closeBracket :: ts) :=
      List.append_assoc ..
    have hitems : items.reverse ++ v :: w :: ws = (v :: items).reverse ++ w :: ws := by simp
    rw [htokens, h, hitems, ← ih hw hws (v :: items)]
    rfl

theorem run_members {m : Option Text × Value} {ms : List (Option Text × Value)}
    (h : Reads m.2) (hs : ∀ n ∈ ms, Reads n.2) (members : List (Option Text × Value)) :
    run (.key members stack) (Value.memberTokens (m :: ms) ++ .closeBrace :: ts) =
      run (deliver (.object (members.reverse ++ m :: ms)) stack) ts := by
  have hmember (m : Option Text × Value) (hm : Reads m.2) (members : List (Option Text × Value))
      (r : List Token) : run (.key members stack) (.string m.1 :: .colon :: (m.2.tokens ++ r)) =
        run (.behindMember (m :: members) stack) r := hm (.object members m.1 :: stack) r
  induction ms generalizing m members with
  | nil =>
    have hrun := hmember m h members (.closeBrace :: ts)
    simpa [Value.memberTokens, run, step] using hrun
  | cons n ns ih =>
    obtain ⟨hn, hns⟩ := List.forall_mem_cons.mp hs
    have htokens : Value.memberTokens (m :: n :: ns) ++ .closeBrace :: ts = .string m.1 :: .colon ::
        (m.2.tokens ++ .comma :: (Value.memberTokens (n :: ns) ++ .closeBrace :: ts)) := by
      simp [Value.memberTokens]
    have hmembers : members.reverse ++ m :: n :: ns = (m :: members).reverse ++ n :: ns := by simp
    rw [htokens, hmember m h, hmembers, ← ih hn hns (m :: members)]
    rfl

/-- By induction on the value, with what it is delivered to and what follows left open. -/
theorem reads (h : v.Legible) : Reads v := by
  induction h with
  | null => exact fun stack ts => rfl
  | bool b => exact fun stack ts => rfl
  | number h => exact fun stack ts => rfl
  | string t => exact fun stack ts => rfl
  | @array items _ ih =>
    intro stack ts
    have htokens : (Value.array items).tokens ++ ts =
        .openBracket :: (Value.itemTokens items ++ .closeBracket :: ts) := by
      simp [Value.tokens]
    rw [htokens]
    cases items with
    | nil => rfl
    | cons v vs =>
      obtain ⟨hv, hvs⟩ := List.forall_mem_cons.mp ih
      exact (run_firstItem v vs).trans (run_items hv hvs [])
  | @object members _ ih =>
    intro stack ts
    have htokens : (Value.object members).tokens ++ ts =
        .openBrace :: (Value.memberTokens members ++ .closeBrace :: ts) := by
      simp [Value.tokens]
    rw [htokens]
    cases members with
    | nil => rfl
    | cons m ms =>
      obtain ⟨hm, hms⟩ := List.forall_mem_cons.mp ih
      have hfirst : run (.value stack)
            (.openBrace :: (Value.memberTokens (m :: ms) ++ .closeBrace :: ts)) =
          run (.key [] stack) (Value.memberTokens (m :: ms) ++ .closeBrace :: ts) := by
        cases ms <;> rfl
      exact hfirst.trans (run_members hm hms [])

end State

theorem read_write (h : v.Legible) : read v.write = some v := by
  have hrun : State.run (.value []) v.tokens = some (.done v) := by
    have hall := State.reads h [] []
    rwa [List.append_nil] at hall
  rw [read, Token.scan_write h, Option.bind_some, hrun]

end AnimationScope.Json
