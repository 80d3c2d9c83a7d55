import Graft.Text.Pieces

/-!
# Pieces of a text

The pieces between separators are those of the library's `List.splitOnP`, which brings its laws
along. No piece has a separator, and the last piece is empty exactly when the text is empty or ends
with a separator.

The pieces that are not empty are the words of the text. `words_eq_iff` describes them without
pieces: they are the longest runs of other characters than separators, from left to right.
-/

namespace Graft.Text

variable {isSeparator : Char → Bool} {text : List Char}

theorem pieces_eq_splitOnP (isSeparator : Char → Bool) (text : List Char) :
    pieces isSeparator text = text.splitOnP isSeparator := by
  induction text with
  | nil => rfl
  | cons c rest ih =>
      rw [List.splitOnP_cons_eq_if_modifyHead, pieces, ← ih]
      split
      · rfl
      · split
        · next none => exact absurd none (pieces_ne_nil isSeparator rest)
        · next some => rw [some, List.modifyHead_cons]

/-- A separator cuts a text in two. -/
theorem pieces_append_cons {sep : Char} (separates : isSeparator sep = true)
    (before after : List Char) :
    pieces isSeparator (before ++ sep :: after) =
      pieces isSeparator before ++ pieces isSeparator after := by
  simp only [pieces_eq_splitOnP]
  exact List.splitOnP_append_cons before after separates

/-- A separator at the end of a text ends no further word. -/
theorem words_concat {sep : Char} (separates : isSeparator sep = true) (text : List Char) :
    words isSeparator (text ++ [sep]) = words isSeparator text := by
  rw [words, pieces_append_cons separates]
  simp [words, pieces]

theorem pieces_of_separatorFree (free : ∀ c ∈ text, isSeparator c = false) :
    pieces isSeparator text = [text] := by
  rw [pieces_eq_splitOnP, List.splitOnP_eq_singleton free]

theorem separatorFree_of_mem_pieces {piece : List Char}
    (member : piece ∈ pieces isSeparator text) : ∀ c ∈ piece, isSeparator c = false := by
  induction text generalizing piece with
  | nil => simp [List.mem_singleton.mp member]
  | cons c rest ih =>
      rw [pieces] at member
      split at member
      · rcases List.mem_cons.mp member with rfl | later
        · simp
        · exact ih later
      · next plain =>
          cases cut : pieces isSeparator rest with
          | nil => exact absurd cut (pieces_ne_nil isSeparator rest)
          | cons first more =>
              rw [cut] at member ih
              rcases List.mem_cons.mp member with rfl | later
              · have others := ih List.mem_cons_self
                simpa [plain] using others
              · exact ih (List.mem_cons_of_mem _ later)

/-- A text that ends with another character than a separator has something in its last piece. -/
theorem getLast?_pieces_concat_ne {c : Char} (plain : isSeparator c = false) (text : List Char) :
    (pieces isSeparator (text ++ [c])).getLast? ≠ some [] := by
  induction text with
  | nil => simp [pieces, plain]
  | cons d rest ih =>
      rw [List.cons_append, pieces]
      split
      · rw [List.getLast?_cons_of_ne_nil (pieces_ne_nil _ _)]
        exact ih
      · cases cut : pieces isSeparator (rest ++ [c]) with
        | nil => exact absurd cut (pieces_ne_nil _ _)
        | cons first more =>
            rw [cut] at ih
            cases more with
            | nil => simp
            | cons second more =>
                rw [List.getLast?_cons_cons] at ih ⊢
                exact ih

/-! ### Words -/

/-- The words of a text: its longest runs without separators, in order. -/
inductive HasWords (isSeparator : Char → Bool) : List Char → List (List Char) → Prop where
  | nothing {text : List Char} (separates : ∀ c ∈ text, isSeparator c = true) :
    HasWords isSeparator text []
  | word {before word after : List Char} {words : List (List Char)}
    (separates : ∀ c ∈ before, isSeparator c = true) (given : word ≠ [])
    (free : ∀ c ∈ word, isSeparator c = false) (ends : ∀ c ∈ after.head?, isSeparator c = true)
    (others : HasWords isSeparator after words) :
    HasWords isSeparator (before ++ (word ++ after)) (word :: words)

theorem words_cons {sep : Char} (separates : isSeparator sep = true) (text : List Char) :
    words isSeparator (sep :: text) = words isSeparator text := by
  simp [words, pieces, separates]

theorem words_append_of_separators {before : List Char}
    (separates : ∀ c ∈ before, isSeparator c = true) (text : List Char) :
    words isSeparator (before ++ text) = words isSeparator text := by
  induction before with
  | nil => rfl
  | cons c before ih =>
      obtain ⟨first, others⟩ := List.forall_mem_cons.mp separates
      rw [List.cons_append, words_cons first, ih others]

theorem words_word_append {word after : List Char} (given : word ≠ [])
    (free : ∀ c ∈ word, isSeparator c = false) (ends : ∀ c ∈ after.head?, isSeparator c = true) :
    words isSeparator (word ++ after) = word :: words isSeparator after := by
  have first : words isSeparator word = [word] := by
    rw [words, pieces_of_separatorFree free]
    simp [given]
  cases after with
  | nil => rw [List.append_nil, first, words_nil]
  | cons c after =>
      have separates : isSeparator c = true := ends c rfl
      have cut : words isSeparator (word ++ c :: after) =
          words isSeparator word ++ words isSeparator after := by
        rw [words, pieces_append_cons separates, List.filter_append]
        rfl
      rw [cut, first, words_cons separates]
      rfl

theorem HasWords.eq_words {ws : List (List Char)} (has : HasWords isSeparator text ws) :
    words isSeparator text = ws := by
  induction has with
  | nothing separates =>
      have empty := words_append_of_separators separates []
      rwa [List.append_nil, words_nil] at empty
  | word separates given free ends _ ih =>
      rw [words_append_of_separators separates, words_word_append given free ends, ih]

theorem HasWords.word_append {word after : List Char} {ws : List (List Char)} (given : word ≠ [])
    (free : ∀ c ∈ word, isSeparator c = false) (ends : ∀ c ∈ after.head?, isSeparator c = true)
    (others : HasWords isSeparator after ws) :
    HasWords isSeparator (word ++ after) (word :: ws) :=
  @HasWords.word isSeparator [] word after ws (by simp) given free ends others

theorem HasWords.cons_separator {c : Char} {ws : List (List Char)}
    (separates : isSeparator c = true) (has : HasWords isSeparator text ws) :
    HasWords isSeparator (c :: text) ws := by
  cases has with
  | nothing others => exact .nothing (List.forall_mem_cons.mpr ⟨separates, others⟩)
  | word before given free ends others =>
      exact .word (List.forall_mem_cons.mpr ⟨separates, before⟩) given free ends others

/-- Every text has words. -/
theorem exists_hasWords (isSeparator : Char → Bool) (text : List Char) :
    ∃ ws, HasWords isSeparator text ws := by
  induction text with
  | nil => exact ⟨[], .nothing (by simp)⟩
  | cons c text ih =>
      obtain ⟨ws, has⟩ := ih
      cases plain : isSeparator c with
      | true => exact ⟨ws, has.cons_separator plain⟩
      | false =>
          have free : ∀ d ∈ [c], isSeparator d = false := by simpa using plain
          -- the character is a word of its own, or the beginning of the word that follows
          cases has with
          | nothing separates =>
              have ends : ∀ d ∈ text.head?, isSeparator d = true := fun d first =>
                separates d (List.mem_of_head? first)
              exact ⟨[[c]], .word_append (List.cons_ne_nil c []) free ends (.nothing separates)⟩
          | @word before word after others separates given whole ends more =>
              cases before with
              | nil =>
                  have longer : ∀ d ∈ c :: word, isSeparator d = false :=
                    List.forall_mem_cons.mpr ⟨plain, whole⟩
                  exact ⟨(c :: word) :: others,
                    .word_append (List.cons_ne_nil c word) longer ends more⟩
              | cons d before =>
                  have here : isSeparator d = true := separates d List.mem_cons_self
                  have ends' : ∀ e ∈ (d :: before ++ (word ++ after)).head?,
                      isSeparator e = true := by simpa using here
                  exact ⟨[c] :: word :: others, .word_append (List.cons_ne_nil c []) free ends'
                    (.word separates given whole ends more)⟩

theorem words_eq_iff {ws : List (List Char)} :
    words isSeparator text = ws ↔ HasWords isSeparator text ws := by
  refine ⟨fun same => ?_, HasWords.eq_words⟩
  obtain ⟨ws', has⟩ := exists_hasWords isSeparator text
  rwa [← same, has.eq_words]

end Graft.Text
