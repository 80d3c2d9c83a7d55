import Graft.Proofs.Sexp.Grammar

/-!
# A text as comment lines and lists

The text of a unit is layout, and then comments and lists with layout behind each. A `Segment` is a
comment or a list together with the layout behind it, and `arranges_of_unitText` takes every text
of the grammar apart into its first layout and its segments. Layout with at most one line feed keeps
a comment directly above what comes next, and layout with more separates the two.

What reading makes of a text depends on its segments alone, and goes from one to the next with the
comment lines that wait, the `run`. `claims` has the run that each list finds, and `unitLines` the
lines that document the unit, if any. `yields_of_arranged` says that reading does just this.
-/

namespace Graft.Sexp

/-- A comment or a list, and the layout behind it. -/
inductive Segment where
  /-- A comment, given by what stands in its line behind the first semicolon. -/
  | comment (line gap : List Char)
  /-- A list, given by its text and its tree. -/
  | list (text : List Char) (tree : Node) (gap : List Char)

namespace Segment

def chars : Segment → List Char
  | comment line gap => ';' :: line ++ gap
  | list text _ gap => text ++ gap

def gap : Segment → List Char
  | comment _ gap | list _ _ gap => gap

def line? : Segment → Option (List Char)
  | comment line _ => some line
  | list .. => none

def tree? : Segment → Option Node
  | comment .. => none
  | list _ tree _ => some tree

/-- The comment lines that wait behind a segment, when those of `run` do before it. -/
def extend (run : List (List Char)) : Segment → List (List Char)
  | comment line gap => if gap.count '\n' < 2 then run ++ [line] else []
  | list .. => []

end Segment

/-- The text of a list outside every list, and its tree. At most 257 lists nest. -/
inductive ListText : List Char → Node → Prop
  | intro {head : String} {opening body : List Char} {children : List Node}
      (opens : Opening opening head) (longest : EndsSymbol body)
      (inner : Body (topKind head) body children)
      (shallow : (Node.list (topKind head) head children).nesting ≤ 257) :
      ListText ('(' :: opening ++ body) (.list (topKind head) head children)

def textOf (segments : List Segment) : List Char := segments.flatMap Segment.chars

/-- The trees of the lists among some segments. -/
def treesOf (segments : List Segment) : List Node := segments.filterMap Segment.tree?

/-- Comments are single lines, each but the last ended by the layout behind it. -/
inductive Arranged : List Segment → Prop
  | nil : Arranged []
  | comment {line gap : List Char} {later : List Segment} (single : '\n' ∉ line)
      (layout : ∀ c ∈ gap, Text.isLayout c = true) (whole : EndsLine gap)
      (ended : gap = [] → later = []) (more : Arranged later) :
      Arranged (.comment line gap :: later)
  | list {text gap : List Char} {tree : Node} {later : List Segment} (whole : ListText text tree)
      (layout : ∀ c ∈ gap, Text.isLayout c = true) (more : Arranged later) :
      Arranged (.list text tree gap :: later)

/-- A text, taken apart into its first layout and segments. -/
structure Arranges (lead : List Char) (segments : List Segment) (text : List Char) : Prop where
  whole : text = lead ++ textOf segments
  layout : ∀ c ∈ lead, Text.isLayout c = true
  arranged : Arranged segments

/-- Every list, with the comment lines that wait for it when those of `run` do at first. -/
def claims (run : List (List Char)) : List Segment → List (List (List Char) × Node)
  | [] => []
  | .comment line gap :: later => claims ((Segment.comment line gap).extend run) later
  | .list _ tree _ :: later => (run, tree) :: claims [] later

/-- The comment lines that document the unit when those of `run` wait at first: a list takes them
away, and more than one line feed or the end of the text completes them. -/
def unitLines (run : List (List Char)) : List Segment → List (List Char)
  | [] => run
  | .comment line gap :: later =>
    if gap.count '\n' < 2 then unitLines (run ++ [line]) later else run ++ [line]
  | .list .. :: _ => []

/-- The texts of comment lines, the latest first, as reading keeps them. -/
def waiting (lines : List (List Char)) : List String :=
  (lines.map fun line => String.ofList (commentText line)).reverse

/-- The texts of comment lines, one below the other. -/
def docText (lines : List (List Char)) : Option String := State.blockText (waiting lines)

/-- The tree of a list with the comment lines that it claims. -/
def documented (claim : List (List Char) × Node) : Node := { claim.2 with doc := docText claim.1 }

/-! ### Every text of the grammar -/

variable {text : List Char} {segments : List Segment}

@[simp] theorem textOf_nil : textOf [] = [] := rfl

@[simp] theorem textOf_cons (s : Segment) (segments : List Segment) :
    textOf (s :: segments) = s.chars ++ textOf segments := rfl

/-- Segments start with a semicolon or a parenthesis. -/
theorem head?_textOf (arranged : Arranged segments) (given : segments ≠ []) :
    (textOf segments).head? = some ';' ∨ (textOf segments).head? = some '(' := by
  cases arranged with
  | nil => exact absurd rfl given
  | comment => exact Or.inl rfl
  | list whole => cases whole; exact Or.inr rfl

/-- The text of a unit can be taken apart. -/
theorem arranges_of_unitText {ns : List Node} (unit : UnitText text ns)
    (shallow : ∀ n ∈ ns, n.nesting ≤ 257) :
    ∃ lead segments, Arranges lead segments text ∧ treesOf segments = ns := by
  induction unit with
  | nil => exact ⟨[], [], ⟨rfl, by simp, .nil⟩, rfl⟩
  | @layout c rest ns layout _ ih =>
      obtain ⟨lead, segments, ⟨rfl, first, arranged⟩, trees⟩ := ih shallow
      have layouts : ∀ d ∈ c :: lead, Text.isLayout d = true :=
        List.forall_mem_cons.mpr ⟨isLayout_iff_ofLayout.mpr layout, first⟩
      exact ⟨c :: lead, segments, ⟨rfl, layouts, arranged⟩, trees⟩
  | @comment line rest ns single whole _ ih =>
      obtain ⟨gap, later, ⟨rfl, layout, arranged⟩, trees⟩ := ih shallow
      refine ⟨[], .comment line gap :: later, ⟨by simp [Segment.chars], by simp, ?_⟩, trees⟩
      refine .comment single layout (fun c first => whole c ?_) (fun none => ?_) arranged
      · cases gap with
        | nil => cases first
        | cons d gap => exact first
      · by_contra given
        rw [none, List.nil_append] at whole
        rcases head?_textOf arranged given with first | first
        · exact absurd (whole _ first) (by decide)
        · exact absurd (whole _ first) (by decide)
  | @list head opening body rest children ns opens longest inner _ ih =>
      rw [List.forall_mem_cons] at shallow
      obtain ⟨gap, later, ⟨rfl, layout, arranged⟩, trees⟩ := ih shallow.2
      exact ⟨[], .list _ _ gap :: later, ⟨by simp [Segment.chars], by simp,
        .list (.intro opens longest inner shallow.1) layout arranged⟩, congrArg (_ :: ·) trees⟩

/-! ### Claims -/

theorem map_snd_claims (run : List (List Char)) (segments : List Segment) :
    (claims run segments).map Prod.snd = treesOf segments := by
  induction segments generalizing run with
  | nil => rfl
  | cons s segments ih =>
      cases s with
      | comment line gap => exact ih _
      | list text tree gap => exact congrArg (tree :: ·) (ih [])

/-- The trees of lists have no documentation of their own. -/
theorem doc_of_mem_treesOf (arranged : Arranged segments) {tree : Node}
    (member : tree ∈ treesOf segments) : tree.doc = none := by
  induction arranged with
  | nil => cases member
  | comment _ _ _ _ _ ih => exact ih member
  | @list _ _ tree _ whole _ _ ih =>
      rcases List.mem_cons.mp member with rfl | later
      · cases whole
        rfl
      · exact ih later

/-- Comment lines change nothing of a tree but its documentation. -/
theorem eq_of_documented (arranged : Arranged segments) {run : List (List Char)}
    {claim : List (List Char) × Node} (member : claim ∈ claims run segments) :
    { documented claim with doc := none } = claim.2 := by
  obtain ⟨lines, tree⟩ := claim
  have found : tree ∈ treesOf segments := by
    rw [← map_snd_claims run segments]
    exact List.mem_map_of_mem member
  have bare := doc_of_mem_treesOf arranged found
  obtain ⟨kind, value, span, doc, children⟩ := tree
  cases bare
  rfl

theorem map_outline_of_claims (arranged : Arranged segments) {run : List (List Char)}
    {found : List Node} (same : found.map Node.bare = (claims run segments).map documented) :
    found.map outline = treesOf segments := by
  have bare : found.map outline = (found.map Node.bare).map fun n => { n with doc := none } := by
    rw [List.map_map]
    rfl
  rw [bare, same, List.map_map, ← map_snd_claims run segments]
  exact List.map_congr_left fun _ member => eq_of_documented arranged member

/-! ### Reading -/

/-- The documentation of a unit after the comment lines `lines` have been separated from what comes
next. -/
def docAfter (doc : Option String) (items : List Node) (lines : List (List Char)) :
    Option String :=
  if items.isEmpty && doc.isNone then docText lines else doc

theorem docAfter_nil (doc : Option String) (items : List Node) : docAfter doc items [] = doc := by
  rw [docAfter]
  split
  · next first =>
      simp only [Bool.and_eq_true, Option.isNone_iff_eq_none] at first
      rw [first.2]
      rfl
  · rfl

/-- The first lines count. -/
theorem docAfter_docAfter {lines : List (List Char)} (given : lines ≠ []) (doc : Option String)
    (items : List Node) (lines' : List (List Char)) :
    docAfter (docAfter doc items lines) items lines' = docAfter doc items lines := by
  have some : (docText lines).isNone = false := by
    simp [docText, State.blockText, waiting, given]
  unfold docAfter
  by_cases first : (items.isEmpty && doc.isNone) = true
  · simp [first, some]
  · simp [first]

namespace State

/-- Reading from a state on accepts the rest of a text, with this documentation and these items. -/
def Yields (s : State) (text : List Char) (doc : Option String) (items : List Node) : Prop :=
  ∃ s' found, s.run text = .ok s' ∧ s'.finish = .ok (doc, found) ∧ found.map Node.bare = items

variable {rest gap : List Char} {doc doc' : Option String} {items trees : List Node}
variable {pending : List String} {o : Nat}

theorem Yields.of_run {s s' : State} (ran : s.run text = s'.run rest)
    (yields : s'.Yields rest doc trees) : s.Yields text doc trees := by
  obtain ⟨last, found, run, finished⟩ := yields
  exact ⟨last, found, ran.trans run, finished⟩

/-- A complete comment is kept: what is accepted after it is accepted from inside it. -/
theorem yields_comment (whole : EndsLine text) (line : List Char)
    (yields : Yields ⟨o, .outside 0, [], doc, items,
      String.ofList (commentText line.reverse) :: pending⟩ text doc' trees) :
    Yields ⟨o, .comment line, [], doc, items, pending⟩ text doc' trees := by
  cases text with
  | nil =>
      obtain ⟨last, found, ran, finished, same⟩ := yields
      cases ran
      exact ⟨_, found, rfl, finished, same⟩
  | cons c text =>
      obtain rfl := whole c rfl
      exact yields

/-- Where no comments wait, there is nothing to separate. -/
theorem detach_of_pending {s : State} (none : s.pending = []) : s.detach = s := by
  obtain ⟨o, mode, frames, doc, items, pending⟩ := s
  cases none
  cases doc <;> simp [detach, pendingDoc]

/-- Layout outside every list separates the comments that wait from what comes next if it has more
than one line feed, those before it included. -/
theorem run_gap (layout : ∀ c ∈ gap, Text.isLayout c = true) (s : State) (newlines : Nat)
    (separated : 2 ≤ newlines → s.pending = []) :
    ∃ o, ∀ rest, run { s with mode := .outside newlines } (gap ++ rest) =
      run { (if 2 ≤ newlines + gap.count '\n' then s.detach else s) with
        offset := o, mode := .outside (newlines + gap.count '\n') } rest := by
  induction gap generalizing s newlines with
  | nil =>
      refine ⟨s.offset, fun rest => ?_⟩
      rw [List.nil_append, List.count_nil, Nat.add_zero]
      split
      · next wide => rw [detach_of_pending (separated wide)]
      · rfl
  | cons c gap ih =>
      rw [List.forall_mem_cons] at layout
      obtain ⟨seen, counted⟩ : ∃ n, n = if c = '\n' then newlines + 1 else newlines := ⟨_, rfl⟩
      have total : newlines + (c :: gap).count '\n' = seen + gap.count '\n' := by
        simp only [counted, List.count_cons, beq_iff_eq]
        split <;> omega
      by_cases wide : 2 ≤ seen
      · have stepped : step { s with mode := .outside newlines } c =
            .ok { s.detach with offset := s.offset + c.utf8Size, mode := .outside seen } := by
          simp only [step, read, stepOutside, layout.1, if_true, ← counted, if_pos wide]
          rfl
        obtain ⟨o, others⟩ := ih layout.2 { s.detach with offset := s.offset + c.utf8Size } seen
          fun _ => rfl
        have once : detach { s.detach with offset := s.offset + c.utf8Size } =
            { s.detach with offset := s.offset + c.utf8Size } := detach_of_pending rfl
        rw [once, ite_self] at others
        refine ⟨o, fun rest => ?_⟩
        rw [List.cons_append, run, stepped, total, if_pos (Nat.le_add_right_of_le wide)]
        exact others rest
      · have stepped : step { s with mode := .outside newlines } c =
            .ok { s with offset := s.offset + c.utf8Size, mode := .outside seen } := by
          simp only [step, read, stepOutside, layout.1, if_true, ← counted, if_neg wide]
        obtain ⟨o, others⟩ := ih layout.2 { s with offset := s.offset + c.utf8Size } seen
          fun more => absurd more wide
        refine ⟨o, fun rest => ?_⟩
        rw [List.cons_append, run, stepped, total]
        refine (others rest).trans ?_
        split <;> rfl

/-- Layout with at most one line feed changes nothing. -/
theorem yields_narrow (layout : ∀ c ∈ gap, Text.isLayout c = true) (narrow : gap.count '\n' < 2)
    (o : Nat) (yields : ∀ o newlines, Yields ⟨o, .outside newlines, [], doc, items, pending⟩ rest
      doc' trees) :
    Yields ⟨o, .outside 0, [], doc, items, pending⟩ (gap ++ rest) doc' trees := by
  obtain ⟨o', ran⟩ := run_gap layout ⟨o, .outside 0, [], doc, items, pending⟩ 0 (by simp)
  rw [if_neg (by omega)] at ran
  exact (yields o' _).of_run (ran rest)

/-- Layout with more line feeds takes away the comment lines that wait. -/
theorem yields_wide (layout : ∀ c ∈ gap, Text.isLayout c = true) (wide : 2 ≤ gap.count '\n')
    (o : Nat) (lines : List (List Char)) (yields : ∀ o newlines, Yields ⟨o, .outside newlines, [],
      docAfter doc items lines, items, []⟩ rest doc' trees) :
    Yields ⟨o, .outside 0, [], doc, items, waiting lines⟩ (gap ++ rest) doc' trees := by
  obtain ⟨o', ran⟩ := run_gap layout ⟨o, .outside 0, [], doc, items, waiting lines⟩ 0 (by simp)
  rw [if_pos (by omega)] at ran
  exact (yields o' _).of_run (ran rest)

/-- A list outside every list becomes an item, documented by the comments that wait. -/
theorem run_listText {tree : Node} (whole : ListText text tree) (o newlines : Nat)
    (doc : Option String) (items : List Node) (pending : List String) :
    ∃ (o' : Nat) (n : Node), n.bare = { tree with doc := blockText pending } ∧ ∀ rest,
      run ⟨o, .outside newlines, [], doc, items, pending⟩ (text ++ rest) =
        run ⟨o', .outside 0, [], doc, n :: items, []⟩ rest := by
  obtain @⟨head, opening, body, children, opens, longest, inner, shallow⟩ := whole
  have room : 0 + (Node.list (topKind head) head children).nesting ≤ maxOpen + 1 := by
    rwa [Nat.zero_add]
  obtain ⟨-, deeper⟩ := room_of_nesting (isLeaf_topKind head) room
  obtain ⟨o', ms, same, closed⟩ := run_list opens longest inner.ne_nil (followed inner) (o + 1) o
    [] rfl doc items pending deeper
  refine ⟨o' + 1, ⟨topKind head, head, ⟨o, o' + 1⟩, blockText pending, ms⟩, ?_, ?_⟩
  · rw [Node.bare_mk, same]
    rfl
  · intro rest
    have opened : read ⟨o, .outside newlines, [], doc, items, pending⟩ '(' =
        .ok ⟨o, .opened o, [], doc, items, pending⟩ := rfl
    have start := run_cons opened (opening ++ body ++ rest)
    have wide : '('.utf8Size = 1 := rfl
    rwa [wide, closed, run_closeItem, List.reverse_reverse] at start

/-- **Segments.** Reading takes from a text what its segments say, when the comment lines of `run`
wait at first. -/
theorem yields_of_arranged (arranged : Arranged segments) (o newlines : Nat)
    (doc : Option String) (items : List Node) (lines : List (List Char)) :
    Yields ⟨o, .outside newlines, [], doc, items, waiting lines⟩ (textOf segments)
      (docAfter doc items (unitLines lines segments))
      (items.reverse.map Node.bare ++ (claims lines segments).map documented) := by
  induction arranged generalizing o newlines doc items lines with
  | nil =>
      refine ⟨_, _, rfl, rfl, ?_⟩
      simp [claims, detach]
  | @comment line gap later single layout whole ended _ ih =>
      have opening : read ⟨o, .outside newlines, [], doc, items, waiting lines⟩ ';' =
          .ok ⟨o, .comment [], [], doc, items, waiting lines⟩ := rfl
      have start := run_cons opening (line ++ (gap ++ textOf later))
      rw [run_commentChars single, List.append_nil] at start
      have ends : EndsLine (gap ++ textOf later) := by
        cases gap with
        | nil =>
            rw [ended rfl]
            exact whole
        | cons c gap => exact whole
      have waits : String.ofList (commentText line.reverse.reverse) :: waiting lines =
          waiting (lines ++ [line]) := by
        simp [waiting]
      have text : textOf (.comment line gap :: later) = ';' :: (line ++ (gap ++ textOf later)) := by
        simp [Segment.chars]
      rw [text]
      refine (yields_comment ends _ ?_).of_run start
      rw [waits, claims, unitLines, Segment.extend]
      by_cases narrow : gap.count '\n' < 2
      · rw [if_pos narrow, if_pos narrow]
        exact yields_narrow layout narrow _ fun o newlines => ih o newlines doc items _
      · have given : lines ++ [line] ≠ [] := by simp
        rw [if_neg narrow, if_neg narrow, ← docAfter_docAfter given doc items (unitLines [] later)]
        exact yields_wide layout (Nat.le_of_not_lt narrow) _ _ fun o newlines =>
          ih o newlines _ items []
  | @list text gap tree later whole layout _ ih =>
      obtain ⟨o', n, same, start⟩ := run_listText whole o newlines doc items (waiting lines)
      have found : (n :: items).reverse.map Node.bare ++ (claims [] later).map documented =
          items.reverse.map Node.bare ++
            (claims lines (.list text tree gap :: later)).map documented := by
        simp [claims, same, documented, docText]
      have rest : ∀ o newlines, Yields ⟨o, .outside newlines, [], doc, n :: items, []⟩
          (textOf later) doc _ := fun o newlines => ih o newlines doc (n :: items) []
      rw [unitLines, docAfter_nil, ← found, textOf_cons, Segment.chars, List.append_assoc]
      apply Yields.of_run (start _)
      by_cases narrow : gap.count '\n' < 2
      · exact yields_narrow layout narrow _ rest
      · exact yields_wide layout (Nat.le_of_not_lt narrow) _ [] rest

/-- The first layout of a text says nothing. -/
theorem yields_of_arranges {lead : List Char} (arranges : Arranges lead segments text) :
    initial.Yields text (docText (unitLines [] segments))
      ((claims [] segments).map documented) := by
  obtain ⟨rfl, layout, arranged⟩ := arranges
  have rest : ∀ o newlines, Yields ⟨o, .outside newlines, [], none, [], waiting []⟩
      (textOf segments) _ _ := fun o newlines => yields_of_arranged arranged o newlines none [] []
  by_cases narrow : lead.count '\n' < 2
  · exact yields_narrow layout narrow 0 rest
  · exact yields_wide layout (Nat.le_of_not_lt narrow) 0 [] rest

end State

end Graft.Sexp
