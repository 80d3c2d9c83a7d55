import Graft.Proofs.Path.Parent

/-!
# Lengths of paths

An absolute path takes the bytes of its pieces and one separator before each of them, `width`, and
a relative path has one separator less. An absolute form wastes at most one byte, `Tidy`: pieces
that do not count are gone, but two leading separators are kept as two.
-/

namespace Graft.Path

variable {p q cwd : Path} {ps ns : List String} {c : Char}

/-- The bytes of pieces with a separator before each. -/
def width : List String → Nat
  | [] => 0
  | piece :: ps => piece.utf8ByteSize + 1 + width ps

@[simp] theorem width_nil : width [] = 0 := rfl

@[simp] theorem width_cons (piece : String) (ps : List String) :
    width (piece :: ps) = piece.utf8ByteSize + 1 + width ps := rfl

@[simp] theorem width_append (ps qs : List String) : width (ps ++ qs) = width ps + width qs := by
  induction ps with
  | nil => simp
  | cons piece ps ih =>
      rw [List.cons_append, width_cons, width_cons, ih]
      exact (Nat.add_assoc _ _ _).symm

theorem width_filter_le (keep : String → Bool) (ps : List String) :
    width (ps.filter keep) ≤ width ps := by
  induction ps with
  | nil => exact Nat.le_refl _
  | cons first rest ih =>
      rw [List.filter_cons, width_cons]
      split
      · exact Nat.add_le_add_left ih _
      · exact Nat.le_trans ih (Nat.le_add_left _ _)

theorem width_intercalate (given : ps ≠ []) :
    ("/".intercalate ps).utf8ByteSize + 1 = width ps := by
  induction ps with
  | nil => exact absurd rfl given
  | cons first rest ih =>
      cases rest with
      | nil => simp
      | cons second rest =>
          have others := ih (by simp)
          have slash : "/".utf8ByteSize = 1 := rfl
          rw [String.intercalate_cons_cons, String.utf8ByteSize_append, String.utf8ByteSize_append,
            slash, width_cons, ← others]
          omega

/-- A path is put together from its pieces. -/
theorem ofPieces_pieces (p : Path) : ofPieces p.isAbsolute p.pieces = p := by
  have body : ("/".intercalate p.pieces).toList = p.body := by
    have cut : p.pieces.map String.toList = Text.pieces (· == '/') p.body := by
      simp [pieces_eq, Function.comp_def]
    rw [String.toList_intercalate, cut, Text.pieces_eq_splitOnP, ← List.splitOn_eq_splitOnP]
    exact List.intercalate_splitOn _
  refine congrArg Path.mk (String.toList_inj.mp ?_)
  rcases body_cases p with ⟨absolute, text⟩ | ⟨absolute, text⟩ <;>
    simp [absolute, text, body]

theorem utf8ByteSize_eq (p : Path) :
    p.text.utf8ByteSize + 1 = width p.pieces + if p.isAbsolute then 1 else 0 := by
  have slash : "/".utf8ByteSize = 1 := rfl
  have text : p.text = (if p.isAbsolute then "/" else "") ++ "/".intercalate p.pieces :=
    congrArg Path.text (ofPieces_pieces p).symm
  rw [text, String.utf8ByteSize_append, ← width_intercalate p.pieces_ne_nil]
  split
  · rw [slash]
    omega
  · simp

theorem mem_intercalate_iff (other : c ≠ '/') :
    c ∈ ("/".intercalate ps).toList ↔ ∃ piece ∈ ps, c ∈ piece.toList := by
  induction ps with
  | nil => simp
  | cons first rest ih =>
      cases rest with
      | nil => simp
      | cons second rest =>
          rw [String.intercalate_cons_cons, String.toList_append, String.toList_append,
            List.mem_append, List.mem_append, ih]
          simp [other]

/-- The characters of a path are those of its pieces, and separators. -/
theorem mem_text_iff (other : c ≠ '/') :
    c ∈ p.text.toList ↔ ∃ piece ∈ p.pieces, c ∈ piece.toList := by
  rw [← mem_intercalate_iff other]
  conv_lhs => rw [← ofPieces_pieces p]
  simp only [ofPieces, String.toList_append, List.mem_append, or_iff_right_iff_imp]
  split <;> simp [other]

/-! ### The absolute form -/

theorem dirPieces_absolute (cwd p : Path) : (absolute cwd p).dirPieces =
    (if p.isAbsolute then p.leadingSlashes else cwd).dirPieces ++ p.names := by
  have steps : ∀ n ∈ p.names, IsStep n := fun n => isStep_of_mem_names
  have trailing : ∀ q : Path, (q.join ⟨""⟩).dirPieces = q.dirPieces := by
    intro q
    have blank : pieces ⟨""⟩ = [""] := by decide
    rw [dirPieces, pieces_join isAbsolute_empty, blank, List.getLast?_concat, if_pos rfl,
      List.dropLast_concat]
  simp only [absolute_eq]
  split
  · rw [trailing, dirPieces_below steps]
  · rw [dirPieces_below steps]

/-- The pieces of a directory are its names, but for one byte. -/
def Tidy (p : Path) : Prop := width p.dirPieces ≤ 1 + width p.names

theorem tidy_of_steps (steps : ∀ n ∈ ns, IsStep n) : (ofPieces true ns).Tidy := by
  have same : (ofPieces true ns).dirPieces = ns := by
    rw [dirPieces, pieces_ofPieces (fits_of_steps steps)]
    by_cases none : ns = []
    · simp [none]
    · rw [if_neg none, if_neg]
      intro blank
      exact (steps "" (List.mem_of_getLast? blank)).given rfl
  rw [Tidy, same, names_ofPieces_of_steps steps]
  exact Nat.le_add_left _ _

theorem tidy_leadingSlashes (p : Path) : p.leadingSlashes.Tidy := by
  unfold leadingSlashes Tidy
  split <;> decide

theorem tidy_absolute (tidy : cwd.Tidy) (p : Path) : (absolute cwd p).Tidy := by
  rw [Tidy, dirPieces_absolute, names_absolute, width_append, width_append]
  split
  · have start := tidy_leadingSlashes p
    rw [Tidy, names_leadingSlashes] at start
    omega
  · rw [Tidy] at tidy
    omega

end Graft.Path
