import Graft.Proofs.Text.Positions
import Mathlib.Data.List.Induction

/-!
# Positions by counting

The line of a character is one more than the number of line feeds before it, and its column one
more than the number of characters between the last of these and the character. `counted` is this
position, found without a walk over the text. `ofOffset_counts` compares it with the position that
an offset resolves to. They are the same at the first byte of a character and past the end of the
text.

They are not the same inside a character. An offset that falls between the bytes of a character
resolves to the column behind it, not to its own, `ofOffset_within_char`. Only a character of two
bytes or more has such offsets, so the line is always right.
-/

namespace Graft.Position

/-- The position behind a text, by counting its line feeds and the characters after the last of
them. -/
def counted (before : String) : Position :=
  ⟨1 + before.toList.count '\n', 1 + (before.toList.reverse.takeWhile (· ≠ '\n')).length⟩

variable {offset here : Nat} {p : Position} {c : Char} {before after : List Char} {text : String}

/-- Walking on over the characters of a text leads to the position behind it. -/
theorem foldl_advance_start (before : List Char) :
    before.foldl advance start = counted (String.ofList before) := by
  rw [counted, String.toList_ofList]
  induction before using List.reverseRecOn with
  | nil => rfl
  | append_singleton before c ih =>
      rw [List.foldl_append, List.foldl_cons, List.foldl_nil, ih, advance, List.count_append,
        List.reverse_concat]
      by_cases feed : c = '\n'
      · subst feed
        simp [Nat.add_assoc]
      · simp [feed, Nat.add_comm]

/-! ### Offsets inside a character and past the end -/

/-- The walk to an offset that is past the first byte of a character goes over this character, and
over no other after it. -/
theorem seek_past (past : here + (String.ofList before).utf8ByteSize < offset)
    (within : offset ≤ here + (String.ofList before).utf8ByteSize + c.utf8Size) :
    seek offset (before ++ c :: after) here p = (before.foldl advance p).advance c := by
  induction before generalizing here p with
  | nil =>
      rw [String.ofList_nil, String.utf8ByteSize_empty, Nat.add_zero] at past within
      rw [List.nil_append, seek, if_neg (by omega), seek_of_le within]
      rfl
  | cons d before ih =>
      rw [utf8ByteSize_ofList_cons, ← Nat.add_assoc] at past within
      rw [List.cons_append, seek, if_neg (by omega), ih past within]
      rfl

/-- The walk to an offset past the end goes over all characters. -/
theorem seek_of_end_le (past : here + (String.ofList before).utf8ByteSize ≤ offset) :
    seek offset before here p = before.foldl advance p := by
  induction before generalizing here p with
  | nil => rfl
  | cons c before ih =>
      have wide := c.utf8Size_pos
      rw [utf8ByteSize_ofList_cons, ← Nat.add_assoc] at past
      rw [seek, if_neg (by omega), ih past]
      rfl

/-- A line feed has no bytes but its first. -/
theorem ne_lineFeed_of_wide (wide : 1 < c.utf8Size) : c ≠ '\n' := by
  rintro rfl
  exact absurd wide (by decide)

/-- A walk goes over characters at the start of a text. -/
theorem exists_seek_eq (offset : Nat) (chars : List Char) (here : Nat) (p : Position) :
    ∃ before, before <+: chars ∧ seek offset chars here p = before.foldl advance p := by
  induction chars generalizing here p with
  | nil => exact ⟨[], List.nil_prefix, rfl⟩
  | cons c chars ih =>
      rw [seek]
      split
      · exact ⟨[], List.nil_prefix, rfl⟩
      · obtain ⟨before, first, walked⟩ := ih (here + c.utf8Size) (p.advance c)
        exact ⟨c :: before, List.cons_prefix_cons.mpr ⟨rfl, first⟩, walked⟩

/-- Neither the line nor the column of an offset exceeds the number of characters by more than
one. -/
theorem ofOffset_le (text : String) (offset : Nat) :
    (ofOffset text offset).line ≤ text.length + 1 ∧
      (ofOffset text offset).col ≤ text.length + 1 := by
  obtain ⟨before, first, walked⟩ := exists_seek_eq offset text.toList 0 start
  have line := line_foldl_le before start
  have col := col_foldl_le before start
  have shorter := first.length_le
  rw [String.length_toList] at shorter
  rw [ofOffset, walked]
  simp only [start] at line col ⊢
  omega

/-- **Counting.** The first byte of a character resolves to the line and the column of the
character, and an offset past the end to those behind the last character. An offset between the
bytes of a character resolves to its line and to the column behind it. -/
theorem ofOffset_counts (text : String) (offset : Nat) :
    (∀ before c after, text = before ++ (String.singleton c ++ after) →
      (offset = before.utf8ByteSize → ofOffset text offset = counted before) ∧
      (before.utf8ByteSize < offset → offset < before.utf8ByteSize + c.utf8Size →
        ofOffset text offset = ⟨(counted before).line, (counted before).col + 1⟩)) ∧
    (text.utf8ByteSize ≤ offset → ofOffset text offset = counted text) ∧
    (ofOffset text offset).line ≤ text.length + 1 ∧
      (ofOffset text offset).col ≤ text.length + 1 := by
  refine ⟨?_, ?_, ofOffset_le text offset⟩
  · rintro before c after rfl
    refine ⟨?_, ?_⟩
    · rintro rfl
      rw [ofOffset_append, foldl_advance_start, String.ofList_toList]
    · intro past within
      have chars : (before ++ (String.singleton c ++ after)).toList =
          before.toList ++ c :: after.toList := by simp
      rw [ofOffset, chars, seek_past (by simpa using past) (by simpa using Nat.le_of_lt within),
        foldl_advance_start, String.ofList_toList, advance,
        if_neg (ne_lineFeed_of_wide (by omega))]
  · intro past
    rw [ofOffset, seek_of_end_le (by simpa using past), foldl_advance_start, String.ofList_toList]

theorem ofOffset_counts_accents :
    "é\nàb" = "é\n" ++ (String.singleton 'à' ++ "b") ∧
      ofOffset "é\nàb" 3 = counted "é\n" ∧ counted "é\n" = ⟨2, 1⟩ ∧
      ofOffset "é\nàb" 4 = ⟨2, 2⟩ ∧
      ofOffset "é\nàb" 9 = counted "é\nàb" ∧ counted "é\nàb" = ⟨2, 3⟩ := by
  have cut : "é\nàb" = "é\n" ++ (String.singleton 'à' ++ "b") := by decide
  have first := (ofOffset_counts "é\nàb" 3).1 "é\n" 'à' "b" cut
  have second := (ofOffset_counts "é\nàb" 4).1 "é\n" 'à' "b" cut
  exact ⟨cut, first.1 (by decide), by decide, second.2 (by decide) (by decide),
    (ofOffset_counts "é\nàb" 9).2.1 (by decide), by decide⟩

/-- The second byte of a character does not resolve to the column of the character. -/
theorem ofOffset_within_char :
    "é(x)" = "" ++ (String.singleton 'é' ++ "(x)") ∧ 1 < 'é'.utf8Size ∧
      ofOffset "é(x)" 1 = ⟨1, 2⟩ ∧ counted "" = ⟨1, 1⟩ := by
  decide

end Graft.Position
