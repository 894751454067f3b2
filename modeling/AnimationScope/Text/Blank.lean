import AnimationScope.Text.Basic

/-!
# Blank characters and trimming

A character is blank when it has the Unicode property `White_Space`. Each trim
comes with the part it removes, and the two parts put together are the text.
-/

namespace AnimationScope.Text

/-- The Unicode property `White_Space`. -/
def isBlank (c : Char) : Bool :=
  let n := c.toNat
  (9 ≤ n && n ≤ 13) || n == 0x20 || n == 0x85 || n == 0xA0 || n == 0x1680 ||
    (0x2000 ≤ n && n ≤ 0x200A) || n == 0x2028 || n == 0x2029 || n == 0x202F ||
    n == 0x205F || n == 0x3000

def leading (t : Text) : Text := t.takeWhile isBlank

def trimStart (t : Text) : Text := t.dropWhile isBlank

def trailing (t : Text) : Text := (t.reverse.takeWhile isBlank).reverse

def trimEnd (t : Text) : Text := (t.reverse.dropWhile isBlank).reverse

def trim (t : Text) : Text := trimEnd (trimStart t)

@[simp] theorem leading_append_trimStart (t : Text) : leading t ++ trimStart t = t :=
  List.takeWhile_append_dropWhile

@[simp] theorem trimEnd_append_trailing (t : Text) : trimEnd t ++ trailing t = t := by
  rw [trimEnd, trailing, ← List.reverse_append, List.takeWhile_append_dropWhile,
    List.reverse_reverse]

end AnimationScope.Text
