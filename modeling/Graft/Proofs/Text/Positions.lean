import Graft.Text.Position

/-!
# The order of positions

A text is read line by line, and each line from left to right. `Position.Before` is that order.
Every character leads to a later position, a line feed to the start of the next line and any other
one to the next column, so offsets between characters resolve to positions in the order of the
offsets, `before_ofOffset`. Whether characters take one byte or several does not matter.

Neither the line nor the column of an offset exceeds the number of characters of a text by more
than one, and in front of a character neither exceeds it at all. So 32 bits are enough to count as
long as one more than the number of characters is less than 2 ^ 32. At the end of a text of one line
the column is that number.
-/

namespace Graft.Position

/-- Earlier in the order of reading. -/
def Before (p q : Position) : Prop := p.line < q.line ∨ p.line = q.line ∧ p.col < q.col

variable {p q r : Position} {chars : List Char} {text : String}

theorem Before.trans (first : p.Before q) (second : q.Before r) : p.Before r := by
  unfold Before at *
  omega

theorem Before.ne (before : p.Before q) : p ≠ q := by
  rintro rfl
  unfold Before at before
  omega

theorem before_advance (p : Position) (c : Char) : p.Before (p.advance c) := by
  unfold Before advance
  split
  · exact Or.inl (Nat.lt_succ_self _)
  · exact Or.inr ⟨rfl, Nat.lt_succ_self _⟩

/-- Characters lead to a later position. -/
theorem before_foldl (given : chars ≠ []) (p : Position) : p.Before (chars.foldl advance p) := by
  induction chars generalizing p with
  | nil => exact absurd rfl given
  | cons c chars ih =>
      cases chars with
      | nil => exact before_advance p c
      | cons d chars => exact (before_advance p c).trans (ih (List.cons_ne_nil d chars) _)

theorem line_foldl_le (chars : List Char) (p : Position) :
    (chars.foldl advance p).line ≤ p.line + chars.length := by
  induction chars generalizing p with
  | nil => exact Nat.le_refl _
  | cons c chars ih =>
      have step : (p.advance c).line ≤ p.line + 1 := by
        unfold advance
        split <;> simp
      have rest := ih (p.advance c)
      simp only [List.foldl_cons, List.length_cons]
      omega

theorem col_foldl_le (chars : List Char) (p : Position) :
    (chars.foldl advance p).col ≤ p.col + chars.length := by
  induction chars generalizing p with
  | nil => exact Nat.le_refl _
  | cons c chars ih =>
      have step : (p.advance c).col ≤ p.col + 1 := by
        unfold advance
        split <;> simp
      have rest := ih (p.advance c)
      simp only [List.foldl_cons, List.length_cons]
      omega

/-! ### Offsets between characters -/

theorem utf8ByteSize_ofList_cons (c : Char) (chars : List Char) :
    (String.ofList (c :: chars)).utf8ByteSize =
      c.utf8Size + (String.ofList chars).utf8ByteSize := by
  rw [String.ofList_cons, String.utf8ByteSize_append, String.utf8ByteSize_singleton]

/-- The walk to an offset goes over the characters before it. -/
theorem seek_append (before after : List Char) (here : Nat) (p : Position) :
    seek (here + (String.ofList before).utf8ByteSize) (before ++ after) here p =
      before.foldl advance p := by
  induction before generalizing here p with
  | nil => exact seek_of_le (Nat.le_refl here) after p
  | cons c before ih =>
      have wide := c.utf8Size_pos
      rw [utf8ByteSize_ofList_cons, ← Nat.add_assoc, List.cons_append, seek, if_neg (by omega), ih]
      rfl

/-- The position of an offset between two characters is that after the characters before it. -/
theorem ofOffset_append (before after : String) :
    ofOffset (before ++ after) before.utf8ByteSize = before.toList.foldl advance start := by
  have walked := seek_append before.toList after.toList 0 start
  rwa [Nat.zero_add, String.ofList_toList, ← String.toList_append] at walked

/-- **Order.** Of two offsets between characters, the smaller one has the earlier position. -/
theorem before_ofOffset {before after before' after' : String} (cut : text = before ++ after)
    (cut' : text = before' ++ after') (less : before.utf8ByteSize < before'.utf8ByteSize) :
    (ofOffset text before.utf8ByteSize).Before (ofOffset text before'.utf8ByteSize) := by
  have whole : before.toList ++ after.toList = before'.toList ++ after'.toList := by
    rw [← String.toList_append, ← String.toList_append, ← cut, ← cut']
  obtain ⟨more, longer⟩ : before.toList <+: before'.toList := by
    refine (List.prefix_or_prefix_of_prefix ⟨_, whole⟩ (List.prefix_append _ _)).resolve_right ?_
    rintro ⟨more, longer⟩
    have same : before = before' ++ String.ofList more := by
      rw [← String.toList_inj, String.toList_append, String.toList_ofList, longer]
    rw [same, String.utf8ByteSize_append] at less
    omega
  have given : more ≠ [] := by
    rintro rfl
    rw [List.append_nil, String.toList_inj] at longer
    exact absurd less (longer ▸ Nat.lt_irrefl _)
  conv => enter [1]; rw [cut, ofOffset_append]
  rw [cut', ofOffset_append, ← longer, List.foldl_append]
  exact before_foldl given _

/-- **Size.** In front of a character, neither the line nor the column exceeds the number of
characters of the text. -/
theorem ofOffset_le_length {before after : String} (cut : text = before ++ after)
    (given : after ≠ "") :
    (ofOffset text before.utf8ByteSize).line ≤ text.length ∧
      (ofOffset text before.utf8ByteSize).col ≤ text.length := by
  have line := line_foldl_le before.toList start
  have col := col_foldl_le before.toList start
  have more : 0 < after.length := Nat.pos_of_ne_zero (by simpa [String.length_eq_zero_iff] using given)
  rw [cut, ofOffset_append, String.length_append]
  rw [String.length_toList] at line col
  simp only [start] at line col ⊢
  omega

end Graft.Position
