import AnimationScope.Text.Basic

/-!
# Digits

Hexadecimal digits are written in lower case and read in either case.
-/

namespace AnimationScope.Text

def hexDigits : Text := "0123456789abcdef".toList

/-- The hexadecimal digit of the lowest four bits of a number. -/
def hexDigit (n : Nat) : Char := hexDigits.getD (n % 16) '0'

theorem hexDigit_mem (n : Nat) : hexDigit n ∈ hexDigits := by
  have h : n % 16 < hexDigits.length := Nat.mod_lt _ (by decide)
  rw [hexDigit, List.getD_eq_getElem?_getD, List.getElem?_eq_getElem h]
  exact List.getElem_mem h

def hexValue? (c : Char) : Option Nat :=
  if c.isDigit then some (c.toNat - 48)
  else if 'a' ≤ c ∧ c ≤ 'f' then some (c.toNat - 87)
  else if 'A' ≤ c ∧ c ≤ 'F' then some (c.toNat - 55)
  else none

theorem hexValue?_hexDigit (n : Nat) : hexValue? (hexDigit n) = some (n % 16) := by
  have h : ∀ k : Fin 16, hexValue? (hexDigits.getD k.val '0') = some k.val := by decide
  exact h ⟨n % 16, Nat.mod_lt _ (by decide)⟩

def ofHex (t : Text) : Nat := t.foldl (fun n c => 16 * n + (hexValue? c).getD 0) 0

def decimal (n : Nat) : Text := Nat.toDigits 10 n

def ofDecimal (t : Text) : Nat := t.foldl (fun n c => 10 * n + (c.toNat - 48)) 0

def isNumeral (t : Text) : Bool := !t.isEmpty && t.all Char.isDigit

end AnimationScope.Text
