import AnimationScope.Text.Position
import Mathlib.Data.List.Count
import Mathlib.Data.List.Infix
import Mathlib.Data.UInt

/-!
# The places that positions tell

A position tells how many lines and how many characters of the line behind them lie in front
of it, as far as 32 bits can count them. In a text with fewer bytes than 32 bits count, each
offset has a position of its own, and positions grow along the text, except for one that
comes a number too late.
-/

namespace AnimationScope

variable {t u v pre : Text} {a b lines columns lines' columns' : Nat}

/-- An offset at which no character is cut apart, the two ends of the text included. -/
def Text.IsBoundary (t : Text) (offset : Nat) : Prop :=
  ∃ pre, pre <+: t ∧ Text.utf8Length pre = offset

theorem Text.IsBoundary.le (h : t.IsBoundary a) : a ≤ t.utf8Length := by
  obtain ⟨pre, ⟨rest, rfl⟩, rfl⟩ := h
  rw [Text.utf8Length_append]
  exact Nat.le_add_right ..

theorem Text.length_le_utf8Length (t : Text) : t.length ≤ t.utf8Length := by
  induction t with
  | nil => rfl
  | cons c t ih =>
    have hc := c.utf8Size_pos
    rw [List.length_cons, Text.utf8Length]
    omega

theorem Text.utf8Length_replicate (n : Nat) (c : Char) :
    Text.utf8Length (List.replicate n c) = n * c.utf8Size := by
  induction n with
  | zero => exact (Nat.zero_mul _).symm
  | succ n ih => rw [List.replicate_succ, Text.utf8Length, ih, Nat.succ_mul, Nat.add_comm]

theorem Text.eq_of_prefix (h : pre <+: t) (hlen : t.utf8Length ≤ pre.utf8Length) : pre = t := by
  obtain ⟨rest, rfl⟩ := h
  have hrest := Text.length_le_utf8Length rest
  rw [Text.utf8Length_append] at hlen
  rw [List.length_eq_zero_iff.mp (by omega : rest.length = 0), List.append_nil]

namespace Position

variable {p q : Position}

def Before (p q : Position) : Prop := p.line < q.line ∨ p.line = q.line ∧ p.column < q.column

/-- The offset is reached by passing so many lines, up to and with their line feeds, and then
so many characters of one line. -/
def Reaches (t : Text) (lines columns offset : Nat) : Prop :=
  ∃ front row : Text, front ++ row <+: t ∧ (front = [] ∨ front.getLast? = some '\n') ∧
    front.count '\n' = lines ∧ '\n' ∉ row ∧ row.length = columns ∧
    Text.utf8Length (front ++ row) = offset

/-- The position behind so many lines and so many characters of the next one. -/
def behind (lines columns : Nat) : Position := ⟨.ofNat (lines + 1), .ofNat (columns + 1)⟩

/-- The end of a text whose characters are one fewer than 32 bits can tell apart, and which are
all line feeds or all in one line. -/
def Overflows (t : Text) (offset : Nat) : Prop :=
  t.length + 1 = UInt32.size ∧ offset = t.utf8Length ∧ ((∀ c ∈ t, c = '\n') ∨ '\n' ∉ t)

/-! ## Lines and columns -/

theorem lineNumber_advance (p : Position) (t : Text) :
    (p.advance t).lineNumber = p.lineNumber + .ofNat (t.count '\n') := by
  induction t generalizing p with
  | nil => exact (UInt32.add_zero _).symm
  | cons c t ih =>
    change ((p.next c).advance t).lineNumber = _
    rw [ih, next]
    split_ifs with hc
    · subst hc
      rw [List.count_cons_self, Nat.add_comm, UInt32.ofNat_add, ← UInt32.add_assoc]
      rfl
    · rw [List.count_cons_of_ne hc]

theorem columnNumber_advance (p : Position) (h : '\n' ∉ t) :
    (p.advance t).columnNumber = p.columnNumber + .ofNat t.length := by
  induction t generalizing p with
  | nil => exact (UInt32.add_zero _).symm
  | cons c t ih =>
    rw [List.mem_cons, not_or] at h
    change ((p.next c).advance t).columnNumber = _
    rw [ih _ h.2, next, if_neg (Ne.symm h.1), List.length_cons, Nat.add_comm, UInt32.ofNat_add,
      ← UInt32.add_assoc]
    rfl

theorem columnNumber_after_lines (h : u = [] ∨ u.getLast? = some '\n') :
    (after u).columnNumber = 1 := by
  rcases h with rfl | h
  · rfl
  · obtain ⟨front, rfl⟩ := List.getLast?_eq_some_iff.mp h
    rw [after, advance_append]
    rfl

theorem after_append_row (h : u = [] ∨ u.getLast? = some '\n') (hv : '\n' ∉ v) :
    after (u ++ v) = behind (u.count '\n') v.length := by
  have hline : (after (u ++ v)).lineNumber = .ofNat (u.count '\n' + 1) := by
    rw [after, lineNumber_advance, List.count_append, List.count_eq_zero.mpr hv, Nat.add_zero,
      UInt32.ofNat_add, UInt32.add_comm]
    rfl
  have hcolumn : (after (u ++ v)).columnNumber = .ofNat (v.length + 1) := by
    rw [after, advance_append, columnNumber_advance _ hv, ← after, columnNumber_after_lines h,
      UInt32.ofNat_add, UInt32.add_comm]
    rfl
  rw [behind, ← hline, ← hcolumn]

theorem exists_lines (t : Text) : ∃ front row : Text, t = front ++ row ∧
    (front = [] ∨ front.getLast? = some '\n') ∧ '\n' ∉ row := by
  induction t using List.reverseRecOn with
  | nil => exact ⟨[], [], rfl, .inl rfl, List.not_mem_nil⟩
  | append_singleton t c ih =>
    by_cases hc : c = '\n'
    · subst hc
      exact ⟨t ++ ['\n'], [], by simp, .inr List.getLast?_concat, List.not_mem_nil⟩
    · obtain ⟨front, row, rfl, hfront, hrow⟩ := ih
      refine ⟨front, row ++ [c], List.append_assoc .., hfront, ?_⟩
      simp [hrow, Ne.symm hc]

theorem length_le_of_lines {front row front' row' : Text} (h : front ++ row = front' ++ row')
    (hfront' : front' = [] ∨ front'.getLast? = some '\n') (hrow : '\n' ∉ row) :
    front'.length ≤ front.length := by
  rcases List.append_eq_append_iff.mp h with ⟨x, rfl, rfl⟩ | ⟨x, rfl, -⟩
  · rcases List.eq_nil_or_concat x with rfl | ⟨y, c, rfl⟩
    · simp
    · rw [List.concat_eq_append] at hfront' hrow
      have hc : c = '\n' := by simpa [← List.append_assoc] using hfront'
      simp [hc] at hrow
  · simp

theorem eq_of_lines {front row front' row' : Text} (h : front ++ row = front' ++ row')
    (hfront : front = [] ∨ front.getLast? = some '\n') (hrow : '\n' ∉ row)
    (hfront' : front' = [] ∨ front'.getLast? = some '\n') (hrow' : '\n' ∉ row') :
    front = front' ∧ row = row' :=
  List.append_inj h (Nat.le_antisymm (length_le_of_lines h.symm hfront hrow')
    (length_le_of_lines h hfront' hrow))

/-! ## Reached offsets -/

theorem exists_reaches (h : pre <+: t) : ∃ lines columns,
    Reaches t lines columns pre.utf8Length ∧ after pre = behind lines columns := by
  obtain ⟨front, row, rfl, hfront, hrow⟩ := exists_lines pre
  exact ⟨_, _, ⟨front, row, h, hfront, rfl, hrow, rfl, rfl⟩, after_append_row hfront hrow⟩

theorem ofOffset_eq_after (h : pre <+: t) : ofOffset t (Text.utf8Length pre) = after pre := by
  obtain ⟨rest, rfl⟩ := h
  rw [ofOffset, Text.takeBytes_utf8Length]

theorem Reaches.isBoundary (h : Reaches t lines columns a) : t.IsBoundary a := by
  obtain ⟨front, row, hpre, -, -, -, -, ha⟩ := h
  exact ⟨_, hpre, ha⟩

theorem Reaches.ofOffset_eq (h : Reaches t lines columns a) :
    ofOffset t a = behind lines columns := by
  obtain ⟨front, row, hpre, hfront, rfl, hrow, rfl, rfl⟩ := h
  rw [ofOffset_eq_after hpre, after_append_row hfront hrow]

theorem exists_reaches_of_isBoundary (h : t.IsBoundary a) :
    ∃ lines columns, Reaches t lines columns a := by
  obtain ⟨pre, hpre, rfl⟩ := h
  obtain ⟨lines, columns, h, -⟩ := exists_reaches hpre
  exact ⟨lines, columns, h⟩

theorem Reaches.lt (ha : Reaches t lines columns a) (hb : Reaches t lines' columns' b)
    (h : a < b) : lines < lines' ∨ lines = lines' ∧ columns < columns' := by
  obtain ⟨front, row, hpre, hfront, rfl, hrow, rfl, rfl⟩ := ha
  obtain ⟨front', row', hpre', hfront', rfl, hrow', rfl, rfl⟩ := hb
  rcases List.prefix_or_prefix_of_prefix hpre hpre' with ⟨w, hw⟩ | ⟨w, hw⟩
  · have hcount := congrArg (List.count '\n') hw
    simp only [List.count_append, List.count_eq_zero.mpr hrow, List.count_eq_zero.mpr hrow']
      at hcount
    by_cases hmem : '\n' ∈ w
    · have hpos := List.count_pos_iff.mpr hmem
      left
      omega
    · rw [List.append_assoc] at hw
      obtain ⟨rfl, rfl⟩ := eq_of_lines hw hfront (by simp [hrow, hmem]) hfront' hrow'
      refine .inr ⟨rfl, ?_⟩
      rw [List.length_append]
      have hne : w ≠ [] := by
        rintro rfl
        simp at h
      have hpos := List.length_pos_iff.mpr hne
      omega
  · rw [← hw, Text.utf8Length_append] at h
    omega

/-- Every character counts once, as a line or as a column, and takes a byte at least. -/
theorem Reaches.add_le (h : Reaches t lines columns a) : lines + columns ≤ a := by
  obtain ⟨front, row, -, -, rfl, -, rfl, rfl⟩ := h
  have hlength := Text.length_le_utf8Length (front ++ row)
  have hcount : front.count '\n' ≤ front.length := List.count_le_length
  rw [List.length_append] at hlength
  omega

/-! ## 32 bits -/

theorem Reaches.overflows_iff (h : Reaches t lines columns a) (ht : t.utf8Length < UInt32.size) :
    Overflows t a ↔ lines + 1 = UInt32.size ∨ columns + 1 = UInt32.size := by
  obtain ⟨front, row, hpre, hfront, rfl, hrow, rfl, rfl⟩ := h
  have hlength := t.length_le_utf8Length
  have hcount : front.count '\n' ≤ front.length := List.count_le_length
  have hle := hpre.length_le
  rw [List.length_append] at hle
  constructor
  · rintro ⟨hsize, hend, hall⟩
    obtain rfl := Text.eq_of_prefix hpre hend.ge
    rw [List.length_append] at hsize
    rcases hall with hall | hnone
    · obtain rfl : row = [] := List.eq_nil_iff_forall_not_mem.mpr fun c hc =>
        hrow (hall c (List.mem_append_right _ hc) ▸ hc)
      have hfull : front.count '\n' = front.length := List.count_eq_length.mpr fun c hc =>
        (hall c (List.mem_append_left _ hc)).symm
      exact .inl (hfull ▸ hsize)
    · obtain rfl : front = [] := hfront.resolve_right fun hlast =>
        hnone (List.mem_append_left _ (List.mem_of_getLast? hlast))
      exact .inr (by simpa using hsize)
  · intro hsize
    obtain rfl := hpre.eq_of_length (by rw [List.length_append]; omega)
    rw [List.length_append] at hlength
    refine ⟨by rw [List.length_append]; omega, rfl, ?_⟩
    rcases hsize with hsize | hsize
    · obtain rfl : row = [] := List.length_eq_zero_iff.mp (by omega)
      have hfull : front.count '\n' = front.length := by omega
      rw [List.append_nil]
      exact .inl fun c hc => (List.count_eq_length.mp hfull c hc).symm
    · obtain rfl : front = [] := List.length_eq_zero_iff.mp (by omega)
      exact .inr hrow

theorem Reaches.line_column (h : Reaches t lines columns a) (ht : t.utf8Length < UInt32.size)
    (ha : ¬ Overflows t a) :
    (ofOffset t a).line = lines + 1 ∧ (ofOffset t a).column = columns + 1 := by
  rw [h.overflows_iff ht, not_or] at ha
  have hle := h.add_le
  have hend := h.isBoundary.le
  rw [h.ofOffset_eq]
  exact ⟨UInt32.toNat_ofNat_of_lt' (by omega), UInt32.toNat_ofNat_of_lt' (by omega)⟩

/-- A number that is too large by one is told as zero. -/
theorem Reaches.line_column_of_overflows (h : Reaches t lines columns a)
    (ht : t.utf8Length < UInt32.size) (ha : Overflows t a) :
    (ofOffset t a).line = 0 ∨ (ofOffset t a).line = 1 ∧ (ofOffset t a).column = 0 := by
  have hle := h.add_le
  have hend := h.isBoundary.le
  rw [h.ofOffset_eq]
  rcases (h.overflows_iff ht).mp ha with hl | hc
  · left
    rw [line, behind, hl]
    rfl
  · obtain rfl : lines = 0 := by omega
    right
    rw [line, column, behind, hc]
    exact ⟨rfl, rfl⟩

theorem not_overflows_of_lt (hb : t.IsBoundary b) (h : a < b) : ¬ Overflows t a := by
  rintro ⟨-, rfl, -⟩
  exact absurd hb.le (Nat.not_le.mpr h)

/-- A later offset has a later position, unless that overflows. -/
theorem before_iff_not_overflows (ht : t.utf8Length < UInt32.size) (ha : t.IsBoundary a)
    (hb : t.IsBoundary b) (h : a < b) :
    (ofOffset t a).Before (ofOffset t b) ↔ ¬ Overflows t b := by
  obtain ⟨lines, columns, hra⟩ := exists_reaches_of_isBoundary ha
  obtain ⟨lines', columns', hrb⟩ := exists_reaches_of_isBoundary hb
  obtain ⟨hla, hca⟩ := hra.line_column ht (not_overflows_of_lt hb h)
  rw [Before, hla, hca]
  constructor
  · intro hbefore hover
    rcases hrb.line_column_of_overflows ht hover with hl | ⟨hl, hc⟩ <;> omega
  · intro hnb
    obtain ⟨hlb, hcb⟩ := hrb.line_column ht hnb
    have hlt := hra.lt hrb h
    omega

/-- Even a position that overflows is no earlier one, since no other has a zero. -/
theorem ofOffset_ne_of_lt (ht : t.utf8Length < UInt32.size) (ha : t.IsBoundary a)
    (hb : t.IsBoundary b) (h : a < b) : ofOffset t a ≠ ofOffset t b := by
  intro heq
  by_cases hover : Overflows t b
  · obtain ⟨_, _, hra⟩ := exists_reaches_of_isBoundary ha
    obtain ⟨_, _, hrb⟩ := exists_reaches_of_isBoundary hb
    obtain ⟨hl, hc⟩ := hra.line_column ht (not_overflows_of_lt hb h)
    rw [heq] at hl hc
    rcases hrb.line_column_of_overflows ht hover with hzero | ⟨-, hzero⟩ <;> omega
  · have hbefore := (before_iff_not_overflows ht ha hb h).mpr hover
    rw [heq, Before] at hbefore
    omega

theorem ofOffset_inj (ht : t.utf8Length < UInt32.size) (ha : t.IsBoundary a)
    (hb : t.IsBoundary b) : ofOffset t a = ofOffset t b ↔ a = b := by
  refine ⟨fun heq => ?_, fun h => h ▸ rfl⟩
  rcases Nat.lt_trichotomy a b with h | h | h
  · exact absurd heq (ofOffset_ne_of_lt ht ha hb h)
  · exact h
  · exact absurd heq.symm (ofOffset_ne_of_lt ht hb ha h)

theorem reaches_iff (ht : t.utf8Length < UInt32.size) (ha : ¬ Overflows t a) :
    Reaches t lines columns a ↔
      t.IsBoundary a ∧ (ofOffset t a).line = lines + 1 ∧ (ofOffset t a).column = columns + 1 := by
  refine ⟨fun h => ⟨h.isBoundary, h.line_column ht ha⟩, ?_⟩
  rintro ⟨hboundary, hl, hc⟩
  obtain ⟨lines', columns', h⟩ := exists_reaches_of_isBoundary hboundary
  obtain ⟨hl', hc'⟩ := h.line_column ht ha
  obtain rfl : lines' = lines := by omega
  obtain rfl : columns' = columns := by omega
  exact h

/-- Positions tell offsets apart. They keep the order of the offsets, and each one says how its
offset is reached, unless it overflows. -/
theorem ofOffset_identifies (t : Text) (ht : t.utf8Length < UInt32.size) :
    (∀ a b, t.IsBoundary a → t.IsBoundary b →
      (ofOffset t a = ofOffset t b ↔ a = b) ∧
      (a < b → ((ofOffset t a).Before (ofOffset t b) ↔ ¬ Overflows t b))) ∧
    ∀ lines columns offset, ¬ Overflows t offset →
      (Reaches t lines columns offset ↔ t.IsBoundary offset ∧
        (ofOffset t offset).line = lines + 1 ∧ (ofOffset t offset).column = columns + 1) :=
  ⟨fun _ _ ha hb => ⟨ofOffset_inj ht ha hb, before_iff_not_overflows ht ha hb⟩,
    fun _ _ _ => reaches_iff ht⟩

/-- Behind the line feed, and behind four bytes that are one column. -/
theorem ofOffset_identifies_sample :
    let t : Text := "\u00e9\r\n😀".toList
    t.utf8Length < UInt32.size ∧ t.IsBoundary 4 ∧ t.IsBoundary 8 ∧ ¬ Overflows t 8 ∧
      (ofOffset t 4).Before (ofOffset t 8) ∧ ofOffset t 4 ≠ ofOffset t 8 ∧ Reaches t 1 1 8 := by
  intro t
  have ht : t.utf8Length < UInt32.size := by decide
  have h4 : t.IsBoundary 4 := ⟨"\u00e9\r\n".toList, ⟨"😀".toList, rfl⟩, rfl⟩
  have h8 : t.IsBoundary 8 := ⟨t, List.prefix_rfl, rfl⟩
  have hover : ¬ Overflows t 8 := fun h => absurd h.1 (by decide)
  obtain ⟨htells, hreaches⟩ := ofOffset_identifies t ht
  obtain ⟨hinj, hbefore⟩ := htells 4 8 h4 h8
  exact ⟨ht, h4, h8, hover, (hbefore (by decide)).mpr hover,
    fun h => absurd (hinj.mp h) (by decide), (hreaches 1 1 8 hover).mpr ⟨h8, rfl, rfl⟩⟩

theorem reaches_replicate {n : Nat} (h : a ≤ n) : Reaches (List.replicate n 'a') 0 a a := by
  refine ⟨[], List.replicate a 'a', ?_, .inl rfl, rfl, ?_, List.length_replicate, ?_⟩
  · refine ⟨List.replicate (n - a) 'a', ?_⟩
    rw [List.nil_append, List.replicate_append_replicate, Nat.add_sub_cancel' h]
  · rw [List.mem_replicate]
    simp
  · exact (Text.utf8Length_replicate a 'a').trans (Nat.mul_one a)

/-- At the end of one line with so many characters the column is zero. -/
theorem column_overflows :
    let t : Text := List.replicate 4294967295 'a'
    t.utf8Length < UInt32.size ∧ t.IsBoundary 4294967294 ∧ t.IsBoundary 4294967295 ∧
      ofOffset t 4294967294 = ⟨1, 4294967295⟩ ∧ ofOffset t 4294967295 = ⟨1, 0⟩ ∧
      ¬ (ofOffset t 4294967294).Before (ofOffset t 4294967295) := by
  intro t
  have ha : Reaches t 0 4294967294 4294967294 := reaches_replicate (by decide)
  have hb : Reaches t 0 4294967295 4294967295 := reaches_replicate (by decide)
  have hlen : t.utf8Length = 4294967295 * 1 := Text.utf8Length_replicate 4294967295 'a'
  have hta : ofOffset t 4294967294 = ⟨1, 4294967295⟩ := ha.ofOffset_eq
  have htb : ofOffset t 4294967295 = ⟨1, 0⟩ := hb.ofOffset_eq
  refine ⟨by rw [hlen]; decide, ha.isBoundary, hb.isBoundary, hta, htb, ?_⟩
  rw [hta, htb]
  unfold Before
  decide

end Position

end AnimationScope
