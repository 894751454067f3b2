/-!
# Text and its UTF-8 measure

A text is a list of code points. Offsets into a text count the bytes of its
UTF-8 encoding, while columns and cuts count code points.
-/

namespace AnimationScope

/-- Source text as its code points. -/
abbrev Text := List Char

instance : LawfulBEq Text := inferInstanceAs (LawfulBEq (List Char))

namespace Text

/-- Number of bytes in the UTF-8 encoding. -/
def utf8Length : Text → Nat
  | [] => 0
  | c :: r => c.utf8Size + utf8Length r

@[simp] theorem utf8Length_append (t u : Text) :
    utf8Length (t ++ u) = utf8Length t + utf8Length u := by
  induction t with
  | nil => simp [utf8Length]
  | cons c r ih => simp [utf8Length, ih, Nat.add_assoc]

/-- The longest initial part that fits into `n` bytes. -/
def takeBytes : Nat → Text → Text
  | _, [] => []
  | n, c :: r => if c.utf8Size ≤ n then c :: takeBytes (n - c.utf8Size) r else []

theorem takeBytes_utf8Length (t u : Text) : takeBytes (utf8Length t) (t ++ u) = t := by
  induction t with
  | nil =>
    cases u with
    | nil => rfl
    | cons c r => simp [takeBytes, utf8Length, Nat.ne_of_gt c.utf8Size_pos]
  | cons c r ih => simp [takeBytes, utf8Length, ih]

/-- What is left behind `start`, if the text begins with it. -/
def stripStart? : Text → (start : Text) → Option Text
  | t, [] => some t
  | c :: r, p :: ps => if c = p then stripStart? r ps else none
  | [], _ :: _ => none

theorem stripStart?_eq_some_iff {t start rest : Text} :
    stripStart? t start = some rest ↔ t = start ++ rest := by
  induction start generalizing t with
  | nil => cases t <;> simp [stripStart?]
  | cons p ps ih =>
    cases t with
    | nil => simp [stripStart?]
    | cons c r => simp only [stripStart?, List.cons_append, List.cons.injEq]; split <;> simp [*]

def utf8Bytes (t : Text) : List UInt8 := t.flatMap String.utf8EncodeChar

end Text

/-! ## Common beginnings -/

section

variable {α : Type} {p : α → Prop} {a b x y : List α} {c : α}

theorem eq_of_leading (h : a ++ x = b ++ y) (ha : ∀ c ∈ a, p c) (hb : ∀ c ∈ b, p c)
    (hx : ∀ c ∈ x.head?, ¬ p c) (hy : ∀ c ∈ y.head?, ¬ p c) : a = b ∧ x = y := by
  rcases List.append_eq_append_iff.mp h with ⟨u, rfl, rfl⟩ | ⟨u, rfl, rfl⟩
  · cases u with
    | nil => simp
    | cons c u => exact absurd (hb c (by simp)) (hx c rfl)
  · cases u with
    | nil => simp
    | cons c u => exact absurd (ha c (by simp)) (hy c rfl)

theorem eq_of_first (h : a ++ c :: x = b ++ c :: y) (ha : c ∉ a) (hb : c ∉ b) : a = b ∧ x = y := by
  have hne : ∀ {z : List α}, c ∉ z → ∀ d ∈ z, d ≠ c := by
    rintro z hz d hd rfl
    exact hz hd
  have hhead : ∀ z : List α, ∀ d ∈ (c :: z).head?, ¬ d ≠ c := by
    rintro z d ⟨⟩ hd
    exact hd rfl
  obtain ⟨hab, hxy⟩ := eq_of_leading h (hne ha) (hne hb) (hhead x) (hhead y)
  exact ⟨hab, (List.cons.inj hxy).2⟩

end

end AnimationScope
