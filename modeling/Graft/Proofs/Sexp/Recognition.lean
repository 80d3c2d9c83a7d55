import Graft.Proofs.Sexp.ReadShape
import Graft.Proofs.Sexp.Segments

/-!
# Reading accepts the grammar

While a text is read, what is left of it has to complete every open list and then the unit.
`Closes` says so of the kinds of the open lists, and `Mode.Continues` of the token that is being
read as well. Both are about the text that is still to come, so the argument goes from the end of
the text to its start: the end completes a state that is accepted there, and what completes the
state after a character completes, together with the character, the state before it.

`parse_derives` puts this together with the other direction, which takes a text of the grammar
apart into segments: a text is accepted exactly when the grammar derives it, and then the items are
those of the grammar.
-/

namespace Graft.Sexp

/-- What is left of a text while lists of these kinds are open, the innermost first: the rest of
each list, and then the rest of the unit. -/
def Closes : List Kind → List Char → Prop
  | [], text => ∃ ns, UnitText text ns ∧ ∀ n ∈ ns, n.nesting ≤ maxOpen + 1
  | around :: outer, text => ∃ body rest ns, text = body ++ rest ∧ Body around body ns ∧
      (∀ n ∈ ns, outer.length + 1 + n.nesting ≤ maxOpen + 1) ∧ Closes outer rest

/-- What is left of a text when the next character belongs to this token. -/
def Mode.Continues (around : List Kind) : Mode → List Char → Prop
  | .outside _, text => Closes around text
  | .comment _, text => ∃ line rest, text = line ++ rest ∧ '\n' ∉ line ∧ EndsLine rest ∧
      Closes around rest
  | .opened _, text => ∃ opening head rest, text = opening ++ rest ∧ Opening opening head ∧
      EndsSymbol rest ∧ Closes (listKind head around.head? :: around) rest
  | .head _ before, text => ∃ chars rest, text = chars ++ rest ∧
      (∀ c ∈ chars, isSymbolChar c = true) ∧ EndsSymbol rest ∧
      Closes (listKind (String.ofList (before.reverse ++ chars)) around.head? :: around) rest
  | .inside, text => Closes around text
  | .symbol _ _, text => ∃ chars rest, text = chars ++ rest ∧
      (∀ c ∈ chars, isSymbolChar c = true) ∧ EndsSymbol rest ∧ Closes around rest
  | .string _ _, text => ∃ string value rest, text = string ++ rest ∧ StringText string value ∧
      Closes around rest
  | .escape _ _, text => ∃ c string value rest, text = c :: string ++ rest ∧
      StringText string value ∧ Closes around rest

variable {around : List Kind} {kind : Kind} {text rest : List Char} {c : Char}

/-! ### Parts of what is left -/

theorem EndsSymbol.left {body : List Char} (ends : EndsSymbol (body ++ rest)) (given : body ≠ []) :
    EndsSymbol body := by
  cases body with
  | nil => exact absurd rfl given
  | cons c body => exact ends

theorem closes_layout (layout : Text.isLayout c = true) (closes : Closes around text) :
    Closes around (c :: text) := by
  cases around with
  | nil =>
      obtain ⟨ns, unit, shallow⟩ := closes
      exact ⟨ns, unit.layout (isLayout_iff_ofLayout.mp layout), shallow⟩
  | cons kind outer =>
      obtain ⟨body, rest, ns, rfl, inner, room, closes⟩ := closes
      exact ⟨c :: body, rest, ns, rfl, inner.layout (isLayout_iff_ofLayout.mp layout), room, closes⟩

theorem closes_close (closes : Closes around text) : Closes (kind :: around) (')' :: text) :=
  ⟨[')'], text, [], rfl, .close, by simp, closes⟩

/-- A first element for the innermost open list. -/
theorem closes_element {first : List Char} {n : Node}
    (room : around.length + 1 + n.nesting ≤ maxOpen + 1)
    (element : ∀ body rest ns, text = body ++ rest → Body kind body ns →
      Body kind (first ++ body) (n :: ns))
    (closes : Closes (kind :: around) text) : Closes (kind :: around) (first ++ text) := by
  obtain ⟨body, rest, ns, split, inner, others, closes⟩ := closes
  refine ⟨first ++ body, rest, n :: ns, by rw [split, List.append_assoc],
    element body rest ns split inner, ?_, closes⟩
  intro m member
  rcases List.mem_cons.mp member with rfl | later
  · exact room
  · exact others m later

theorem closes_symbol {name : List Char} (given : name ≠ [])
    (chars : ∀ c ∈ name, isSymbolChar c = true) (ends : EndsSymbol text)
    (room : around.length ≤ maxOpen) (closes : Closes (kind :: around) text) :
    Closes (kind :: around) (name ++ text) := by
  have symbol : IsSymbol (String.ofList name) := by
    rw [isSymbol_iff, String.toList_ofList]
    exact ⟨given, chars⟩
  refine closes_element (n := .ident (String.ofList name)) (Nat.succ_le_succ room) ?_ closes
  rintro body rest ns rfl inner
  have first := Body.symbol symbol (ends.left inner.ne_nil) inner
  rwa [String.toList_ofList] at first

theorem closes_string {string value : List Char} (whole : StringText string value)
    (room : around.length ≤ maxOpen) (closes : Closes (kind :: around) text) :
    Closes (kind :: around) ('"' :: string ++ text) := by
  refine closes_element (n := .literal (String.ofList value)) (Nat.succ_le_succ room) ?_ closes
  rintro body rest ns - inner
  exact .string whole inner

/-- A list leaves room for its elements inside the lists around it. -/
theorem nesting_list_le {head : String} {children : List Node} (inner : kind.isLeaf = false)
    {depth : Nat} (room : depth ≤ maxOpen)
    (elements : ∀ n ∈ children, depth + 1 + n.nesting ≤ maxOpen + 1) :
    depth + (Node.list kind head children).nesting ≤ maxOpen + 1 := by
  have deepest : Node.nestingAll children ≤ maxOpen - depth := by
    rw [Node.nestingAll_le_iff]
    intro n member
    have := elements n member
    omega
  rw [Node.list, Node.nesting_of_not_isLeaf inner]
  simp only
  omega

/-- A list that can open, as an element of the innermost open list or as an item. -/
theorem closes_list {opening : List Char} {head : String} (opens : Opening opening head)
    (ends : EndsSymbol text) (room : around.length ≤ maxOpen)
    (closes : Closes (listKind head around.head? :: around) text) :
    Closes around ('(' :: opening ++ text) := by
  obtain ⟨body, rest, ns, rfl, inner, deeper, closes⟩ := closes
  have longest := ends.left inner.ne_nil
  rw [← List.append_assoc]
  cases around with
  | nil =>
      obtain ⟨items, unit, shallow⟩ := closes
      refine ⟨_, unit.list opens longest inner, ?_⟩
      intro n member
      rcases List.mem_cons.mp member with rfl | later
      · have nests : 0 + (Node.list (topKind head) head ns).nesting ≤ maxOpen + 1 :=
          nesting_list_le (isLeaf_topKind head) room deeper
        rwa [Nat.zero_add] at nests
      · exact shallow n later
  | cons kind around =>
      rw [List.head?_cons, listKind_some] at inner
      refine closes_element (n := .list (innerKind kind) head ns)
        (nesting_list_le (isLeaf_innerKind kind) room deeper) ?_ closes
      rintro body' rest' ns' - more
      exact .list opens longest inner more

theorem closes_comment {line : List Char} (single : '\n' ∉ line) (whole : EndsLine text)
    (closes : Closes [] text) : Closes [] (';' :: line ++ text) := by
  obtain ⟨ns, unit, shallow⟩ := closes
  exact ⟨ns, unit.comment single whole, shallow⟩

/-! ### One character -/

/-- The kinds of open lists. -/
def kinds (frames : List Frame) : List Kind := frames.map (·.kind)

namespace State

variable {s s' : State}

/-- What is left of the text of a state. -/
def Continues (s : State) (text : List Char) : Prop := s.mode.Continues (kinds s.frames) text

theorem kinds_addChild (s : State) (n : Node) : kinds (s.addChild n).frames = kinds s.frames := by
  cases frames : s.frames with
  | nil => simp [addChild, frames]
  | cons f outer => simp [addChild, frames, kinds]

theorem closes_of_opensList (opens : s.OpensList s') (continues : s'.Continues text) :
    Closes (kinds s.frames) ('(' :: text) := by
  obtain ⟨room⟩ := opens
  obtain ⟨opening, head, rest, rfl, opens, ends, closes⟩ := continues
  have shallow : (kinds s.frames).length ≤ maxOpen := by rwa [kinds, List.length_map]
  exact closes_list opens ends shallow closes

theorem closes_of_closesList (closes : s.ClosesList s') (continues : s'.Continues text) :
    Closes (kinds s.frames) (')' :: text) := by
  cases closes with
  | item frames =>
      rw [frames]
      exact closes_close continues
  | element frames =>
      rw [frames]
      exact closes_close continues

/-- A character between the elements of a list. -/
theorem closes_of_readsInside (inside : s.frames ≠ []) (depth : s.frames.length ≤ maxOpen + 1)
    (reads : s.ReadsInside c s') (continues : s'.Continues text) :
    Closes (kinds s.frames) (c :: text) := by
  obtain ⟨f, outer, frames⟩ := List.exists_cons_of_ne_nil inside
  have room : (kinds outer).length ≤ maxOpen := by
    rw [frames, List.length_cons] at depth
    rw [kinds, List.length_map]
    exact Nat.le_of_succ_le_succ depth
  have split : kinds s.frames = f.kind :: kinds outer := by rw [frames, kinds, List.map_cons, kinds]
  cases reads with
  | layout layout => exact closes_layout layout continues
  | close closes => exact closes_of_closesList closes continues
  | paren opens => exact closes_of_opensList opens continues
  | quote =>
      obtain ⟨string, value, rest, rfl, whole, closes⟩ := continues
      simp only [split] at closes ⊢
      exact closes_string whole room closes
  | symbol symbol =>
      obtain ⟨chars, rest, rfl, all, ends, closes⟩ := continues
      simp only [split] at closes ⊢
      exact closes_symbol (List.cons_ne_nil c chars) (List.forall_mem_cons.mpr ⟨symbol, all⟩) ends
        room closes

/-- A character outside every list. -/
theorem closes_of_readsOutside {newlines : Nat} (outside : s.frames = [])
    (reads : s.ReadsOutside newlines c s') (continues : s'.Continues text) :
    Closes [] (c :: text) := by
  have none : kinds s.frames = [] := by rw [outside, kinds, List.map_nil]
  rw [← none]
  cases reads with
  | layout layout => exact closes_layout layout continues
  | emptyLine layout => exact closes_layout layout continues
  | semicolon =>
      obtain ⟨line, rest, rfl, single, whole, closes⟩ := continues
      simp only [none] at closes ⊢
      exact closes_comment single whole closes
  | paren opens => exact closes_of_opensList opens continues

/-- What is left after a character, together with the character, is what was left before it. -/
theorem continues_of_reads (sound : s.Sound) (reads : s.Reads c s')
    (continues : s'.Continues text) : s.Continues (c :: text) := by
  obtain ⟨held, fits⟩ := sound
  have depth := held.depth
  rw [Continues]
  cases reads with
  | outside mode reads =>
      rw [mode] at fits ⊢
      rw [show s.frames = [] from fits]
      exact closes_of_readsOutside fits reads continues
  | endComment mode =>
      rw [mode]
      refine ⟨[], '\n' :: text, rfl, List.not_mem_nil, ?_, closes_layout rfl continues⟩
      rintro d ⟨⟩
      rfl
  | comment mode other =>
      obtain ⟨line, rest, rfl, single, whole, closes⟩ := continues
      rw [mode]
      exact ⟨c :: line, rest, rfl, by simp [single, Ne.symm other], whole, closes⟩
  | opened mode layout =>
      rw [Continues, mode] at continues
      obtain ⟨opening, head, rest, rfl, ⟨skipped, all, symbol, rfl⟩, ends, closes⟩ := continues
      have layouts : ∀ d ∈ c :: skipped, OfLayout d :=
        List.forall_mem_cons.mpr ⟨isLayout_iff_ofLayout.mp layout, all⟩
      rw [mode]
      exact ⟨c :: (skipped ++ head.toList), head, rest, rfl, ⟨c :: skipped, layouts, symbol, rfl⟩,
        ends, closes⟩
  | startHead mode symbol =>
      obtain ⟨chars, rest, rfl, all, ends, closes⟩ := continues
      have head : IsSymbol (String.ofList (c :: chars)) := by
        rw [isSymbol_iff, String.toList_ofList]
        exact ⟨List.cons_ne_nil c chars, List.forall_mem_cons.mpr ⟨symbol, all⟩⟩
      rw [mode]
      exact ⟨c :: chars, String.ofList (c :: chars), rest, rfl,
        ⟨[], by simp, head, by rw [String.toList_ofList, List.nil_append]⟩, ends, closes⟩
  | head mode symbol =>
      obtain ⟨chars, rest, rfl, all, ends, closes⟩ := continues
      rw [mode]
      refine ⟨c :: chars, rest, rfl, List.forall_mem_cons.mpr ⟨symbol, all⟩, ends, ?_⟩
      rwa [List.reverse_cons, List.append_assoc, List.singleton_append] at closes
  | @endHead _ start before _ mode other reads =>
      rw [mode] at fits ⊢
      have closes := closes_of_readsInside (s := s.closeHead start before) (List.cons_ne_nil _ _)
        (Nat.succ_le_succ fits.1) reads continues
      refine ⟨[], c :: text, rfl, by simp, endsSymbol_cons.mpr other, ?_⟩
      have same : (kinds s.frames).head? = s.frames.head?.map (·.kind) := List.head?_map
      rw [List.append_nil, same]
      exact closes
  | inside mode reads =>
      rw [mode] at fits ⊢
      exact closes_of_readsInside fits depth reads continues
  | symbol mode symbol =>
      obtain ⟨chars, rest, rfl, all, ends, closes⟩ := continues
      rw [mode]
      exact ⟨c :: chars, rest, rfl, List.forall_mem_cons.mpr ⟨symbol, all⟩, ends, closes⟩
  | @endSymbol _ start before _ mode other reads =>
      rw [mode] at fits ⊢
      obtain ⟨kept, more⟩ := held.closeSymbol fits.1 fits.2 start
      have closes := closes_of_readsInside more kept.depth reads continues
      refine ⟨[], c :: text, rfl, by simp, endsSymbol_cons.mpr other, ?_⟩
      have same : kinds (s.closeSymbol start before).frames = kinds s.frames := kinds_addChild s _
      rwa [same] at closes
  | @endString start before mode =>
      have same : kinds (s.closeString start before).frames = kinds s.frames :=
        kinds_addChild s _
      rw [Continues, same] at continues
      rw [mode]
      exact ⟨['"'], [], text, rfl, .close, continues⟩
  | backslash mode =>
      obtain ⟨d, string, value, rest, rfl, whole, closes⟩ := continues
      rw [mode]
      exact ⟨'\\' :: d :: string, unescape d :: value, rest, rfl, whole.escaped d, closes⟩
  | string mode noQuote noBackslash =>
      obtain ⟨string, value, rest, rfl, whole, closes⟩ := continues
      rw [mode]
      exact ⟨c :: string, c :: value, rest, rfl, .plain noQuote noBackslash whole, closes⟩
  | escape mode =>
      obtain ⟨string, value, rest, rfl, whole, closes⟩ := continues
      rw [mode]
      exact ⟨c, string, value, rest, rfl, whole, closes⟩

/-- The end of the text completes a state that is accepted there. -/
theorem continues_of_finish (sound : s.Sound) {result : Option String × List Node}
    (finished : s.finish = .ok result) : s.Continues [] := by
  have done : Closes [] [] := ⟨[], .nil, by simp⟩
  obtain ⟨-, fits⟩ := sound
  rw [Continues]
  cases finishes_of_eq_ok finished with
  | outside mode =>
      rw [mode] at fits ⊢
      rw [show s.frames = [] from fits]
      exact done
  | comment mode =>
      rw [mode] at fits ⊢
      rw [fits.1]
      exact ⟨[], [], rfl, List.not_mem_nil, by rintro c ⟨⟩, done⟩

/-- What is left of a text that is accepted completes the state. The induction goes back from the
end of the text. -/
theorem continues_of_run (sound : s.Sound) (ran : s.run text = .ok s')
    {result : Option String × List Node} (finished : s'.finish = .ok result) :
    s.Continues text := by
  induction text generalizing s with
  | nil =>
      cases ran
      exact continues_of_finish sound finished
  | cons c text ih =>
      obtain ⟨t, stepped, ran⟩ := run_cons_eq_ok_iff.mp ran
      have continues := ih (sound.step stepped) ran
      obtain ⟨t', reads, rfl⟩ := reads_of_step stepped
      exact continues_of_reads sound reads continues

end State

/-- What is read from a text of the grammar. -/
theorem read_of_derives {trees : List Node} (derives : Derives text trees) :
    ∃ doc items, read text = .ok (doc, items) ∧ items.map outline = trees := by
  obtain ⟨lead, segments, arranges, rfl⟩ := arranges_of_unitText derives.unit derives.shallow
  obtain ⟨s, items, ran, finished, same⟩ := State.yields_of_arranges arranges
  exact ⟨_, items, read_eq_ok_iff.mpr ⟨s, ran, finished⟩,
    map_outline_of_claims arranges.arranged same⟩

/-- A text that is accepted is one of the grammar. -/
theorem derives_of_read {result : Option String × List Node} (accepted : read text = .ok result) :
    ∃ trees, Derives text trees := by
  obtain ⟨s, ran, finished⟩ := read_eq_ok_iff.mp accepted
  obtain ⟨ns, unit, shallow⟩ := State.continues_of_run State.sound_initial ran finished
  exact ⟨ns, unit, shallow⟩

/-- **Reading is recognition.** A text is accepted exactly when the grammar derives it, and then
the items of the unit are the trees of the grammar: the same kinds, heads, leaves and children in
the same order. Every other text is refused with a fault of loading that names the file. -/
theorem parse_derives (path : Path) (text : String) :
    (∀ trees, Derives text.toList trees ↔
      ∃ u, frontend.parse path text = .ok u ∧ u.items.map outline = trees) ∧
    ((¬ ∃ trees, Derives text.toList trees) →
      ∃ position message, frontend.parse path text = .error (.load path position message)) := by
  have accepts : ∀ trees, Derives text.toList trees →
      ∃ u, frontend.parse path text = .ok u ∧ u.items.map outline = trees := by
    intro trees derives
    obtain ⟨doc, items, accepted, same⟩ := read_of_derives derives
    refine ⟨.ofItems ⟨path, text⟩ doc items, ?_, same⟩
    simp only [frontend, parse, accepted]
  cases accepted : read text.toList with
  | error e =>
      have refused : frontend.parse path text =
          .error (.load path (Position.ofOffset text e.1) e.2.message) := by
        simp only [frontend, parse, accepted]
      refine ⟨fun trees => ⟨accepts trees, ?_⟩, fun _ => ⟨_, _, refused⟩⟩
      rintro ⟨u, loaded, -⟩
      simp [refused] at loaded
  | ok result =>
      obtain ⟨trees, derives⟩ := derives_of_read accepted
      obtain ⟨u, loaded, same⟩ := accepts trees derives
      refine ⟨fun trees' => ⟨accepts trees', ?_⟩, fun none => absurd ⟨trees, derives⟩ none⟩
      rintro ⟨u', loaded', same'⟩
      rw [loaded] at loaded'
      cases loaded'
      rwa [← same', same]

end Graft.Sexp
