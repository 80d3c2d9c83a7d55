import Graft.Text.Lines
import Mathlib.Data.List.Forall2

/-!
# Rows of a text

The rows of a text are its pieces between line feeds, the last one included even if it is empty.
A text is the join of its rows, so rows say everything about a text. Lines do not: `lines` drops
an empty last row, and takes the carriage return off a row that a line feed ends. `forall₂_lines`
says that this is all there is between the two, so the lines of a text without carriage returns at
the ends of rows are its rows, `lines_eq`.
-/

namespace Graft.Text

/-- The pieces of a text between its line feeds; there is always at least one. -/
def rows (text : List Char) : List (List Char) := text.splitOn '\n'

/-- Rows without an empty one at the end. -/
def closed : List (List Char) → List (List Char)
  | [] => []
  | [[]] => []
  | r :: rs => r :: closed rs

@[simp] theorem rows_nil : rows [] = [[]] := rfl

@[simp] theorem rows_lineFeed (rest : List Char) : rows ('\n' :: rest) = [] :: rows rest := by
  simp [rows, List.splitOn_cons_eq_if_modifyHead]

theorem rows_cons {c : Char} (other : c ≠ '\n') (rest : List Char) :
    rows (c :: rest) = (rows rest).modifyHead (c :: ·) := by
  simp [rows, List.splitOn_cons_eq_if_modifyHead, other]

/-- A line feed cuts a text in two. -/
theorem rows_append_lineFeed (before after : List Char) :
    rows (before ++ '\n' :: after) = rows before ++ rows after :=
  List.splitOn_append_cons_self before after

theorem rows_ne_nil (text : List Char) : rows text ≠ [] := List.splitOn_ne_nil _ _

/-- A text is given by its rows. -/
theorem intercalate_rows (text : List Char) : ['\n'].intercalate (rows text) = text :=
  List.intercalate_splitOn '\n'

/-- Pieces without line feeds are the rows of their join. -/
theorem rows_intercalate {ls : List (List Char)} (single : ∀ l ∈ ls, '\n' ∉ l) (given : ls ≠ []) :
    rows (['\n'].intercalate ls) = ls :=
  List.splitOn_intercalate '\n' single given

/-- No row has a line feed. -/
theorem lineFeed_notMem_of_mem_rows {text r : List Char} (member : r ∈ rows text) :
    '\n' ∉ r := by
  induction text generalizing r with
  | nil =>
      rw [List.mem_singleton.mp member]
      exact List.not_mem_nil
  | cons c text ih =>
      by_cases feed : c = '\n'
      · subst feed
        rw [rows_lineFeed] at member
        rcases List.mem_cons.mp member with rfl | later
        · exact List.not_mem_nil
        · exact ih later
      · rw [rows_cons feed] at member
        cases split : rows text with
        | nil => exact absurd split (rows_ne_nil text)
        | cons s rs =>
            rw [split] at member ih
            rcases List.mem_cons.mp member with rfl | later
            · have tail : '\n' ∉ s := ih List.mem_cons_self
              simp [tail, Ne.symm feed]
            · exact ih (List.mem_cons_of_mem _ later)

@[simp] theorem closed_nil : closed [] = [] := rfl

@[simp] theorem closed_blank : closed [[]] = [] := rfl

@[simp] theorem closed_cons_cons (r s : List Char) (rs : List (List Char)) :
    closed (r :: s :: rs) = r :: closed (s :: rs) := by
  cases r <;> rfl

@[simp] theorem closed_singleton (c : Char) (r : List Char) : closed [c :: r] = [c :: r] := rfl

/-- Closing changes exactly the rows that end with an empty one. -/
theorem closed_eq_self_iff (rs : List (List Char)) : closed rs = rs ↔ rs.getLast? ≠ some [] := by
  induction rs with
  | nil => simp
  | cons r rs ih =>
      cases rs with
      | nil => cases r <;> simp
      | cons s rs =>
          rw [closed_cons_cons, List.getLast?_cons_cons, ← ih, List.cons.injEq]
          exact and_iff_right rfl

theorem closed_cons_rows (r : List Char) (text : List Char) :
    closed (r :: rows text) = r :: closed (rows text) := by
  cases split : rows text with
  | nil => exact absurd split (rows_ne_nil text)
  | cons s rs => exact closed_cons_cons r s rs

theorem mem_of_mem_closed {r : List Char} {rs : List (List Char)} (member : r ∈ closed rs) :
    r ∈ rs := by
  induction rs with
  | nil => exact member
  | cons s rs ih =>
      cases rs with
      | nil => cases s <;> simp_all
      | cons t rs =>
          rw [closed_cons_cons] at member
          rcases List.mem_cons.mp member with rfl | later
          · exact List.mem_cons_self
          · exact List.mem_cons_of_mem _ (ih later)

/-- No line has a line feed. -/
theorem lineFeed_notMem_of_mem_lines {text l : List Char} (member : l ∈ lines text) :
    '\n' ∉ l := by
  fun_induction lines text generalizing l with
  | case1 => simp at member
  | case2 rest ih =>
      rcases List.mem_cons.mp member with rfl | later
      · exact List.not_mem_nil
      · exact ih later
  | case3 rest ih =>
      rcases List.mem_cons.mp member with rfl | later
      · exact List.not_mem_nil
      · exact ih later
  | case4 c rest other _ last =>
      rw [List.mem_singleton.mp member]
      simpa using fun same => other same.symm
  | case5 c rest other _ line more here ih =>
      rcases List.mem_cons.mp member with rfl | later
      · have tail : '\n' ∉ line := ih (here ▸ List.mem_cons_self)
        simp [tail, Ne.symm other]
      · exact ih (here ▸ List.mem_cons_of_mem _ later)

/-- A character before the first row, seen after closing. -/
theorem closed_modifyHead (c : Char) {rs : List (List Char)} (given : rs ≠ []) :
    closed (rs.modifyHead (c :: ·)) =
      match closed rs with
      | [] => [[c]]
      | l :: more => (c :: l) :: more := by
  cases rs with
  | nil => exact absurd rfl given
  | cons r rs =>
      cases rs with
      | nil => cases r <;> rfl
      | cons s rs => simp [closed_cons_cons]

/-- A row and its line: a carriage return at the end of the row may be left out. -/
def Ends (r l : List Char) : Prop := r = l ∨ r = l ++ ['\r']

theorem Ends.cons {r l : List Char} (ends : Ends r l) (c : Char) : Ends (c :: r) (c :: l) :=
  ends.imp (congrArg (c :: ·)) (congrArg (c :: ·))

/-- Lines are the rows of a text without an empty one at the end, each with or without a carriage
return at its end. -/
theorem forall₂_lines (text : List Char) : List.Forall₂ Ends (closed (rows text)) (lines text) := by
  fun_induction lines text with
  | case1 => exact .nil
  | case2 rest ih =>
      rw [rows_lineFeed, closed_cons_rows]
      exact .cons (Or.inl rfl) ih
  | case3 rest ih =>
      rw [rows_cons (by decide), rows_lineFeed, List.modifyHead_cons, closed_cons_rows]
      exact .cons (Or.inr rfl) ih
  | case4 c rest other _ last ih =>
      rw [last, List.forall₂_nil_right_iff] at ih
      rw [rows_cons other, closed_modifyHead c (rows_ne_nil rest), ih]
      exact .cons (Or.inl rfl) .nil
  | case5 c rest other _ line more here ih =>
      rw [here] at ih
      obtain ⟨r, rs, ends, others, split⟩ := List.forall₂_cons_right_iff.mp ih
      rw [rows_cons other, closed_modifyHead c (rows_ne_nil rest), split]
      exact .cons (ends.cons c) others

/-- If no row ends with a carriage return, the lines of a text are its rows without an empty one
at the end. -/
theorem lines_eq {text : List Char} (returnless : ∀ r ∈ rows text, r.getLast? ≠ some '\r') :
    lines text = closed (rows text) := by
  have same : ∀ {rs ls : List (List Char)}, (∀ r ∈ rs, r.getLast? ≠ some '\r') →
      List.Forall₂ Ends rs ls → ls = rs := by
    intro rs ls returnless ends
    induction ends with
    | nil => rfl
    | cons first _ ih =>
        obtain ⟨here, others⟩ := List.forall_mem_cons.mp returnless
        rcases first with rfl | rfl
        · rw [ih others]
        · exact absurd (List.getLast?_concat) here
  exact same (fun r member => returnless r (mem_of_mem_closed member)) (forall₂_lines text)
end Graft.Text
