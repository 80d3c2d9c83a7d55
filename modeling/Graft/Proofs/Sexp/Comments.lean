import Graft.Proofs.Text.Rows
import Graft.Sexp.Printer
import Graft.Sexp.Reader
import Mathlib.Data.List.TakeWhile

/-!
# Documentation as comment lines

Printing writes every line of a documentation text as a comment, and reading joins the texts of
the comments of a block. `reread` is what a documentation text becomes on the way: reading takes
carriage returns off the ends of lines, and a text that has no lines has no comments.

Texts that come from reading are `Clean`. A clean text comes back unchanged exactly when its last
row is not empty, `reread_eq_self_iff`: an empty last row is no line, so it is not printed.
-/

namespace Graft.Sexp

open Text (rows closed lines)

/-- A documentation text as it is read back from its printed form. -/
def reread (doc : String) : Option String :=
  match lines doc.toList with
  | [] => none
  | ls => some ("\n".intercalate (ls.map fun l => String.ofList (dropReturns l)))

/-- A text with no carriage return at the end of a row. -/
def Clean (doc : String) : Prop :=
  ∀ r ∈ rows doc.toList, r.getLast? ≠ some '\r'

/-- A clean text with characters in its last row. -/
structure Settled (doc : String) : Prop where
  returnless : Clean doc
  closed : (rows doc.toList).getLast? ≠ some []

instance (doc : String) : Decidable (Clean doc) := List.decidableBAll _ _

/-- A possible text of a comment. -/
def CommentText (line : List Char) : Prop :=
  '\n' ∉ line ∧ line.getLast? ≠ some '\r'

/-! ### The text of a comment -/

/-- A text without a carriage return at its end keeps all of its characters. -/
theorem dropReturns_eq_self {line : List Char} (returnless : line.getLast? ≠ some '\r') :
    dropReturns line = line := by
  rw [dropReturns, List.dropWhile_beq_eq_self_of_head?_ne, List.reverse_reverse]
  rwa [List.head?_reverse]

theorem getLast?_dropReturns (line : List Char) : (dropReturns line).getLast? ≠ some '\r' := by
  rw [dropReturns, List.getLast?_reverse]
  intro first
  have kept := List.head?_dropWhile_not (· == '\r') line.reverse
  simp [first] at kept

theorem mem_of_mem_dropReturns {line : List Char} {c : Char} (member : c ∈ dropReturns line) :
    c ∈ line := by
  rw [dropReturns, List.mem_reverse] at member
  exact List.mem_reverse.mp ((List.dropWhile_sublist _).subset member)

/-- Carriage returns are taken off behind what a text begins with. -/
theorem dropReturns_cons {c : Char} (other : c ≠ '\r') (line : List Char) :
    dropReturns (c :: line) = c :: dropReturns line := by
  rw [dropReturns, dropReturns, List.reverse_cons, List.dropWhile_append]
  split
  · next gone =>
      have nothing : line.reverse.dropWhile (· == '\r') = [] := List.isEmpty_iff.mp gone
      simp [nothing, other]
  · simp

/-- What is taken off the end of a line is carriage returns. -/
theorem eq_dropReturns_append (line : List Char) :
    ∃ tail, line = dropReturns line ++ tail ∧ ∀ c ∈ tail, c = '\r' := by
  refine ⟨(line.reverse.takeWhile (· == '\r')).reverse, ?_, ?_⟩
  · rw [dropReturns, ← List.reverse_append, List.takeWhile_append_dropWhile, List.reverse_reverse]
  · intro c member
    simpa using List.mem_takeWhile_imp (List.mem_reverse.mp member)

theorem dropSpace_suffix (line : List Char) : dropSpace line <:+ line := by
  unfold dropSpace
  split
  · exact List.suffix_cons _ _
  · exact List.suffix_refl _

/-- The end of a text that has no carriage return at its end has none either. -/
theorem getLast?_of_suffix {a b : List Char} (suffix : a <:+ b)
    (returnless : b.getLast? ≠ some '\r') : a.getLast? ≠ some '\r' := by
  obtain ⟨front, rfl⟩ := suffix
  intro last
  rw [List.getLast?_append, last] at returnless
  exact returnless rfl

theorem commentText_suffix (line : List Char) : commentText line <:+ dropReturns line :=
  (dropSpace_suffix _).trans (List.dropWhile_suffix _)

theorem getLast?_commentText (line : List Char) : (commentText line).getLast? ≠ some '\r' :=
  getLast?_of_suffix (commentText_suffix line) (getLast?_dropReturns line)

/-- What is read as the text of a comment is the text of one. -/
theorem commentText_commentText {line : List Char} (single : '\n' ∉ line) :
    CommentText (commentText line) := by
  refine ⟨?_, getLast?_commentText line⟩
  intro member
  exact single (mem_of_mem_dropReturns ((commentText_suffix line).subset member))

/-- The text of a comment in what stands behind its first semicolon: further semicolons and at most
one space may come before it, and carriage returns behind it. It has no carriage return at its end
itself, and nothing at its start that could be one of the semicolons or the one space. -/
def Marked (line text : List Char) : Prop :=
  ∃ marks space returns, line = marks ++ (space ++ text) ++ returns ∧
    (∀ c ∈ marks, c = ';') ∧ (space ++ text).head? ≠ some ';' ∧
    (space = [' '] ∨ space = [] ∧ text.head? ≠ some ' ') ∧
    (∀ c ∈ returns, c = '\r') ∧ text.getLast? ≠ some '\r'

/-- Carriage returns at the end are all taken off. -/
theorem dropReturns_append {line returns : List Char} (returnless : line.getLast? ≠ some '\r')
    (all : ∀ c ∈ returns, c = '\r') : dropReturns (line ++ returns) = line := by
  have gone : returns.reverse.dropWhile (· == '\r') = [] := by
    simpa [List.dropWhile_eq_nil_iff] using all
  have kept := dropReturns_eq_self returnless
  rw [dropReturns] at kept ⊢
  rw [List.reverse_append, List.dropWhile_append, gone]
  simpa using kept

theorem dropSpace_cases (line : List Char) :
    line = ' ' :: dropSpace line ∨ dropSpace line = line ∧ line.head? ≠ some ' ' := by
  unfold dropSpace
  split
  · exact Or.inl rfl
  · next other =>
      refine Or.inr ⟨rfl, ?_⟩
      cases line with
      | nil => simp
      | cons c line => simpa using fun same => other line (by rw [same])

/-- Nothing of what is taken off the start of a comment is a carriage return. -/
theorem getLast?_marks {marks space text : List Char} (semicolons : ∀ c ∈ marks, c = ';')
    (spaces : ∀ c ∈ space, c = ' ') (returnless : text.getLast? ≠ some '\r') :
    (marks ++ (space ++ text)).getLast? ≠ some '\r' := by
  intro last
  rcases List.eq_nil_or_concat text with rfl | ⟨init, c, rfl⟩
  · have member := List.mem_of_getLast? last
    rw [List.append_nil] at member
    rcases List.mem_append.mp member with mark | blank
    · exact absurd (semicolons _ mark) (by decide)
    · exact absurd (spaces _ blank) (by decide)
  · apply returnless
    simpa using last

/-- Every comment has one text, the one that is read. -/
theorem marked_iff {line text : List Char} : Marked line text ↔ text = commentText line := by
  constructor
  · rintro ⟨marks, space, returns, rfl, semicolons, other, spaced, all, returnless⟩
    have spaces : ∀ c ∈ space, c = ' ' := by
      rcases spaced with rfl | ⟨rfl, -⟩ <;> simp
    have skipped : (marks ++ (space ++ text)).dropWhile (· == ';') = space ++ text := by
      rw [List.dropWhile_append_of_pos (by simpa using semicolons),
        List.dropWhile_beq_eq_self_of_head?_ne other]
    rw [commentText, dropReturns_append (getLast?_marks semicolons spaces returnless) all, skipped]
    rcases spaced with rfl | ⟨rfl, solid⟩
    · rfl
    · rcases dropSpace_cases text with blank | ⟨same, -⟩
      · exact absurd (by rw [blank]; rfl) solid
      · exact same.symm
  · rintro rfl
    obtain ⟨returns, whole, all⟩ := eq_dropReturns_append line
    have marks := List.takeWhile_append_dropWhile (p := (· == ';')) (l := dropReturns line)
    have other := List.head?_dropWhile_not (· == ';') (dropReturns line)
    have returnless := getLast?_commentText line
    have semicolons : ∀ c ∈ (dropReturns line).takeWhile (· == ';'), c = ';' :=
      fun c member => by simpa using List.mem_takeWhile_imp member
    rw [commentText] at returnless ⊢
    generalize (dropReturns line).dropWhile (· == ';') = rest at marks other returnless ⊢
    have first : rest.head? ≠ some ';' := by
      intro same
      simp [same] at other
    rcases dropSpace_cases rest with blank | ⟨same, solid⟩
    · refine ⟨_, [' '], returns, ?_, semicolons, ?_, Or.inl rfl, all, returnless⟩
      · rw [List.singleton_append, ← blank, marks, ← whole]
      · rwa [List.singleton_append, ← blank]
    · refine ⟨_, [], returns, ?_, semicolons, ?_, Or.inr ⟨rfl, ?_⟩, all, returnless⟩
      · rw [List.nil_append, same, marks, ← whole]
      · rwa [List.nil_append, same]
      · rwa [same]

/-- What stands between the first semicolon of a printed comment and its line feed. -/
def commentBody (line : List Char) : List Char :=
  if line.isEmpty then [';'] else ';' :: ' ' :: line

theorem printDocLine_eq (line : List Char) :
    printDocLine line = ';' :: (commentBody line ++ ['\n']) := by
  cases line <;> rfl

theorem lineFeed_notMem_commentBody {line : List Char} (single : '\n' ∉ line) :
    '\n' ∉ commentBody line := by
  cases line with
  | nil => decide
  | cons c line => simpa [commentBody] using single

/-- A printed comment is read as its text, without carriage returns at the end. -/
theorem commentText_commentBody (line : List Char) :
    commentText (commentBody line) = dropReturns line := by
  cases line with
  | nil => rfl
  | cons c line =>
      have body : commentBody (c :: line) = ';' :: ' ' :: c :: line := rfl
      rw [body, commentText, dropReturns_cons (by decide), dropReturns_cons (by decide)]
      rfl

/-! ### Documentation texts -/

/-- The text of a block of comments. -/
theorem rows_intercalate {ls : List String} (given : ls ≠ [])
    (single : ∀ l ∈ ls, '\n' ∉ l.toList) :
    rows ("\n".intercalate ls).toList = ls.map String.toList := by
  rw [String.toList_intercalate]
  apply Text.rows_intercalate
  · intro l member
    obtain ⟨s, here, rfl⟩ := List.mem_map.mp member
    exact single s here
  · simpa using given

/-- The text of a block of comments is clean. -/
theorem clean_intercalate {ls : List String} (given : ls ≠ [])
    (comments : ∀ l ∈ ls, CommentText l.toList) : Clean ("\n".intercalate ls) := by
  rw [Clean, rows_intercalate given fun l member => (comments l member).1]
  intro r member
  obtain ⟨s, here, rfl⟩ := List.mem_map.mp member
  exact (comments s here).2

/-- A clean text is read back without its last row if that is empty. -/
theorem reread_of_clean {doc : String} (clean : Clean doc) :
    reread doc = if closed (rows doc.toList) = [] then none
      else some ("\n".intercalate ((closed (rows doc.toList)).map String.ofList)) := by
  have kept : ∀ l ∈ closed (rows doc.toList), dropReturns l = l := fun l member =>
    dropReturns_eq_self (clean l (Text.mem_of_mem_closed member))
  rw [reread, Text.lines_eq clean]
  split
  · next nothing => rw [if_pos nothing]
  · next ls given =>
      have same : ((closed (rows doc.toList)).map fun l => String.ofList (dropReturns l)) =
          (closed (rows doc.toList)).map String.ofList := by
        apply List.map_congr_left
        intro l member
        rw [kept l member]
      rw [if_neg given, same]

/-- **Stable documentation.** A clean text comes back as it was exactly when its last row is not
empty. -/
theorem reread_eq_self_iff {doc : String} (clean : Clean doc) :
    reread doc = some doc ↔ (rows doc.toList).getLast? ≠ some [] := by
  rw [reread_of_clean clean, ← Text.closed_eq_self_iff]
  have whole : "\n".intercalate ((rows doc.toList).map String.ofList) = doc := by
    apply String.toList_inj.mp
    rw [String.toList_intercalate, List.map_map]
    simpa [Function.comp_def] using Text.intercalate_rows doc.toList
  constructor
  · intro same
    split at same
    · cases same
    · next given =>
        have back : rows _ = rows doc.toList :=
          congrArg (fun s : String => rows s.toList) (Option.some.inj same)
        rw [rows_intercalate (by simpa using given), List.map_map] at back
        · simpa [Function.comp_def] using back
        · intro l member
          obtain ⟨r, here, rfl⟩ := List.mem_map.mp member
          rw [String.toList_ofList]
          exact Text.lineFeed_notMem_of_mem_rows (Text.mem_of_mem_closed here)
  · intro same
    rw [same, if_neg (Text.rows_ne_nil _), whole]

theorem Settled.reread {doc : String} (settled : Settled doc) : reread doc = some doc :=
  (reread_eq_self_iff settled.returnless).mpr settled.closed

end Graft.Sexp
