import Graft.Path
import Graft.Proofs.Text.Pieces

/-!
# The names of a path

Of the pieces of a path only some lead anywhere: the empty ones and `.` do not. The others are
its names, `..` among them. Names are what paths can be compared by: joining appends them, and for
absolute paths `same` is equality of names and `startsWith` is that the names of one start with
those of the other.
-/

namespace Graft.Path

/-- Whether a piece of a path leads anywhere. -/
def counts (piece : String) : Bool := piece ≠ "" && piece ≠ "."

/-- The pieces of a path that lead anywhere. -/
def names (p : Path) : List String := p.pieces.filter counts

/-- The component that a name stands for. -/
def named (name : String) : Component := if name = ".." then .up else .name name

/-- A text that is a path of one name. -/
structure IsStep (name : String) : Prop where
  given : name ≠ ""
  notHere : name ≠ "."
  whole : '/' ∉ name.toList

/-- A text that can name an entry of a directory. -/
structure IsName (name : String) : Prop extends IsStep name where
  notUp : name ≠ ".."

instance (name : String) : Decidable (IsStep name) :=
  decidable_of_iff (name ≠ "" ∧ name ≠ "." ∧ '/' ∉ name.toList)
    ⟨fun ⟨a, b, c⟩ => ⟨a, b, c⟩, fun ⟨a, b, c⟩ => ⟨a, b, c⟩⟩

instance (name : String) : Decidable (IsName name) :=
  decidable_of_iff (IsStep name ∧ name ≠ "..") ⟨fun ⟨a, b⟩ => ⟨a, b⟩, fun ⟨a, b⟩ => ⟨a, b⟩⟩

variable {p q base : Path} {name : String} {ns : List String}

theorem IsStep.counts (step : IsStep name) : counts name = true := by
  simp [Path.counts, step.given, step.notHere]

theorem up_mem_names : ".." ∈ p.names ↔ ".." ∈ p.pieces := by
  simp [names, counts]

/-- Names of entries do not go up. -/
theorem noUp_of_isName (named : ∀ name ∈ ns, IsName name) : ".." ∉ ns :=
  fun up => (named ".." up).notUp rfl

theorem noUp_of_names {front : List String} (whole : p.names = front ++ ns)
    (first : ".." ∉ front) (second : ".." ∉ ns) : ".." ∉ p.pieces := by
  rw [← up_mem_names, whole, List.mem_append]
  exact not_or.mpr ⟨first, second⟩

/-! ### Components -/

theorem named_inj {a b : String} : named a = named b ↔ a = b := by
  constructor
  · intro same
    unfold named at same
    split at same <;> split at same <;> simp_all
  · rintro rfl
    rfl

theorem text_named (name : String) : (named name).text = name := by
  unfold named
  split
  · next up => rw [up]; rfl
  · rfl

theorem two_le_rank_named (name : String) : 2 ≤ (named name).rank := by
  unfold named
  split <;> simp [Component.rank]

theorem componentOf_false (piece : String) :
    componentOf false piece = if counts piece then some (named piece) else none := by
  unfold componentOf counts named
  by_cases empty : piece = ""
  · simp [empty]
  · by_cases here : piece = "."
    · simp [here]
    · simp [empty, here]
      split <;> rfl

/-- The component before the names of a path. -/
def lead (p : Path) : List Component :=
  if p.isAbsolute then [.root]
  else if p.pieces.head? = some "." then [.here]
  else []

theorem filterMap_componentOf (pieces : List String) :
    (pieces.map fun piece => (piece, componentOf false piece)).filterMap (·.2) =
      (pieces.filter counts).map named := by
  induction pieces with
  | nil => rfl
  | cons piece pieces ih =>
      rw [List.map_cons, List.filterMap_cons, componentOf_false, List.filter_cons, ih]
      split <;> simp_all

theorem components_eq (p : Path) : p.components = p.lead ++ p.names.map named := by
  unfold components parts lead names
  cases cut : p.pieces with
  | nil => cases p.isAbsolute <;> simp
  | cons first rest =>
      rw [List.filterMap_cons, filterMap_componentOf, List.filter_cons]
      cases absolute : p.isAbsolute with
      | true =>
          simp only [Bool.not_true, componentOf_false]
          cases counts first <;> simp
      | false =>
          by_cases here : first = "."
          · simp [here, componentOf, counts]
          · have plain : componentOf true first = componentOf false first := by
              simp [componentOf, here]
            simp only [Bool.not_false, plain, componentOf_false]
            cases counts first <;> simp [here]

theorem components_of_isAbsolute (absolute : p.isAbsolute = true) :
    p.components = .root :: p.names.map named := by
  simp [components_eq, lead, absolute]

theorem same_iff (absolute : p.isAbsolute = true) (absolute' : q.isAbsolute = true) :
    p.same q = true ↔ p.names = q.names := by
  simp only [same, components_of_isAbsolute absolute, components_of_isAbsolute absolute',
    decide_eq_true_eq, List.cons.injEq, true_and]
  exact List.map_inj_right fun _ _ => named_inj.mp

theorem startsWith_iff (absolute : p.isAbsolute = true) (absolute' : base.isAbsolute = true) :
    p.startsWith base = true ↔ base.names <+: p.names := by
  simp only [startsWith, components_of_isAbsolute absolute, components_of_isAbsolute absolute',
    List.isPrefixOf_iff_prefix, List.cons_prefix_cons, true_and]
  constructor
  · rintro ⟨rest, whole⟩
    obtain ⟨front, rest, split, same, -⟩ := List.map_eq_append_iff.mp whole.symm
    rw [List.map_inj_right fun _ _ => named_inj.mp] at same
    exact ⟨rest, by rw [split, same]⟩
  · exact fun initial => initial.map named

theorem fileName?_eq_some_iff : p.fileName? = some name ↔
    p.names.getLast? = some name ∧ name ≠ ".." := by
  have last : p.components.getLast? = (p.names.getLast?.map named).or p.lead.getLast? := by
    rw [components_eq, List.getLast?_append, List.getLast?_map]
  have noName : ∀ text, p.lead.getLast? ≠ some (.name text) := by
    intro text
    unfold lead
    split
    · simp
    · split <;> simp
  unfold fileName?
  rw [last]
  cases split : p.names.getLast? with
  | none =>
      cases first : p.lead.getLast? with
      | none => simp
      | some c =>
          cases c with
          | name text => exact absurd first (noName text)
          | _ => simp
  | some last =>
      by_cases up : last = ".."
      · simp only [up, Option.map_some, Option.some_or, named, if_true]
        simp only [reduceCtorEq, Option.some.injEq, false_iff, not_and, ne_eq, Decidable.not_not]
        exact fun same => same.symm
      · simp only [Option.map_some, Option.some_or, named, up, if_false, Option.some.injEq]
        constructor
        · rintro rfl
          exact ⟨rfl, up⟩
        · exact And.left

/-! ### Pieces of a join -/

/-- What follows a leading separator. -/
def body (p : Path) : List Char := if p.isAbsolute then p.text.toList.tail else p.text.toList

/-- The pieces of a path as those of a directory: a separator at the end adds none. -/
def dirPieces (p : Path) : List String :=
  if p.pieces.getLast? = some "" then p.pieces.dropLast else p.pieces

theorem pieces_eq (p : Path) :
    p.pieces = (Text.pieces (· == '/') p.body).map String.ofList := by
  unfold pieces body
  cases absolute : p.isAbsolute with
  | false => rfl
  | true =>
      simp only [isAbsolute, decide_eq_true_eq] at absolute
      obtain ⟨rest, split⟩ := List.head?_eq_some_iff.mp absolute
      simp [split, Text.pieces]

theorem pieces_ne_nil (p : Path) : p.pieces ≠ [] := by
  simp [pieces_eq, Text.pieces_ne_nil]

theorem whole_of_mem_pieces (member : name ∈ p.pieces) : '/' ∉ name.toList := by
  rw [pieces_eq] at member
  obtain ⟨piece, inside, rfl⟩ := List.mem_map.mp member
  intro slash
  rw [String.toList_ofList] at slash
  simpa using Text.separatorFree_of_mem_pieces inside '/' slash

theorem isStep_of_mem_names (member : name ∈ p.names) : IsStep name := by
  obtain ⟨inside, counted⟩ := List.mem_filter.mp member
  simp only [counts, Bool.and_eq_true, decide_eq_true_eq] at counted
  exact ⟨counted.1, counted.2, whole_of_mem_pieces inside⟩

theorem toList_join (relative : q.isAbsolute = false) :
    (p.join q).text.toList =
      if p.text.toList = [] ∨ p.text.toList.getLast? = some '/' then
        p.text.toList ++ q.text.toList
      else p.text.toList ++ '/' :: q.text.toList := by
  have empty : p.text = "" ↔ p.text.toList = [] := by
    rw [← String.toList_inj]
    rfl
  simp only [join, relative, Bool.false_eq_true, if_false, empty]
  split <;> simp

theorem isAbsolute_join (relative : q.isAbsolute = false) :
    (p.join q).isAbsolute = p.isAbsolute := by
  have chars := toList_join (p := p) relative
  unfold isAbsolute at relative ⊢
  rw [chars]
  cases split : p.text.toList with
  | nil => simpa using relative
  | cons c rest => split <;> simp

theorem body_cases (p : Path) :
    (p.isAbsolute = true ∧ p.text.toList = '/' :: p.body) ∨
      (p.isAbsolute = false ∧ p.text.toList = p.body) := by
  cases absolute : p.isAbsolute with
  | false => exact Or.inr ⟨rfl, by simp [body, absolute]⟩
  | true =>
      have first := absolute
      simp only [isAbsolute, decide_eq_true_eq] at first
      obtain ⟨rest, split⟩ := List.head?_eq_some_iff.mp first
      exact Or.inl ⟨rfl, by simp [body, absolute, split]⟩

theorem body_join (relative : q.isAbsolute = false) :
    (p.join q).body =
      if p.body = [] ∨ p.body.getLast? = some '/' then p.body ++ q.text.toList
      else p.body ++ '/' :: q.text.toList := by
  have chars := toList_join (p := p) relative
  rcases body_cases p with ⟨absolute, text⟩ | ⟨absolute, text⟩
  · have ends : ('/' :: p.body = [] ∨ ('/' :: p.body).getLast? = some '/') ↔
        (p.body = [] ∨ p.body.getLast? = some '/') := by
      cases p.body <;> simp
    simp only [text, ends] at chars
    rw [body, isAbsolute_join relative, absolute, if_pos rfl, chars]
    split <;> rfl
  · rw [body, isAbsolute_join relative, absolute, chars, text]
    rfl

theorem cut_slash (before after : List Char) :
    Text.pieces (· == '/') (before ++ '/' :: after) =
      Text.pieces (· == '/') before ++ Text.pieces (· == '/') after :=
  Text.pieces_append_cons rfl before after

theorem pieces_join (relative : q.isAbsolute = false) :
    (p.join q).pieces = p.dirPieces ++ q.pieces := by
  have rest : q.body = q.text.toList := by simp [body, relative]
  rw [dirPieces, pieces_eq, pieces_eq, pieces_eq, body_join relative, rest, List.getLast?_map]
  rcases List.eq_nil_or_concat p.body with nothing | ⟨front, c, split⟩
  · simp [nothing]
  · rw [split, List.concat_eq_append]
    by_cases separator : c = '/'
    · simp only [separator, List.getLast?_concat, or_true, if_true, List.append_assoc,
        List.singleton_append, cut_slash, Text.pieces_nil, Option.map_some, List.map_append,
        List.map_singleton, List.dropLast_concat]
    · have last : ((Text.pieces (· == '/') (front ++ [c])).getLast?.map String.ofList) ≠
          some "" := by
        have nonempty : (Text.pieces (· == '/') (front ++ [c])).getLast? ≠ some [] :=
          Text.getLast?_pieces_concat_ne (by simpa using separator) front
        simpa using nonempty
      simp only [List.append_eq_nil_iff, List.cons_ne_self, and_false, false_or,
        List.getLast?_concat, Option.some.injEq, separator, if_false, cut_slash, List.map_append,
        last]

/-! ### Names of a join -/

theorem filter_dirPieces (p : Path) : p.dirPieces.filter counts = p.names := by
  unfold dirPieces names
  split
  · next last =>
      obtain ⟨front, split⟩ := List.getLast?_eq_some_iff.mp last
      simp [split, counts]
  · rfl

theorem names_join (relative : q.isAbsolute = false) :
    (p.join q).names = p.names ++ q.names := by
  rw [names, pieces_join relative, List.filter_append, filter_dirPieces]
  rfl

@[simp] theorem names_empty : names ⟨""⟩ = [] := by decide

@[simp] theorem isAbsolute_empty : isAbsolute ⟨""⟩ = false := by decide

theorem IsStep.isAbsolute (step : IsStep name) : Path.isAbsolute ⟨name⟩ = false := by
  simp only [Path.isAbsolute, decide_eq_false_iff_not]
  intro slash
  exact step.whole (List.mem_of_head? slash)

theorem IsStep.pieces (step : IsStep name) : Path.pieces ⟨name⟩ = [name] := by
  have free : ∀ c ∈ name.toList, (c == '/') = false := by
    intro c member
    simp only [beq_eq_false_iff_ne]
    rintro rfl
    exact step.whole member
  rw [pieces_eq, body, step.isAbsolute]
  simp [Text.pieces_of_separatorFree free]

theorem IsStep.names (step : IsStep name) : Path.names ⟨name⟩ = [name] := by
  simp [Path.names, step.pieces, step.counts]

theorem pieces_join_step (step : IsStep name) : (p.join ⟨name⟩).pieces = p.dirPieces ++ [name] := by
  rw [pieces_join step.isAbsolute, step.pieces]

theorem dirPieces_join_step (step : IsStep name) :
    (p.join ⟨name⟩).dirPieces = p.dirPieces ++ [name] := by
  rw [dirPieces, pieces_join_step step, List.getLast?_concat, if_neg]
  simpa using step.given

theorem below_cons (base : Path) (name : String) (ns : List String) :
    base.below (name :: ns) = (base.join ⟨name⟩).below ns := rfl

theorem isAbsolute_below (steps : ∀ n ∈ ns, IsStep n) :
    (base.below ns).isAbsolute = base.isAbsolute := by
  induction ns generalizing base with
  | nil => rfl
  | cons name ns ih =>
      rw [below_cons, ih fun n member => steps n (List.mem_cons_of_mem _ member),
        isAbsolute_join (steps name List.mem_cons_self).isAbsolute]

theorem names_below (steps : ∀ n ∈ ns, IsStep n) :
    (base.below ns).names = base.names ++ ns := by
  induction ns generalizing base with
  | nil => simp [below]
  | cons name ns ih =>
      have step := steps name List.mem_cons_self
      rw [below_cons, ih fun n member => steps n (List.mem_cons_of_mem _ member),
        names_join step.isAbsolute, step.names, List.append_assoc, List.singleton_append]

theorem dirPieces_below (steps : ∀ n ∈ ns, IsStep n) :
    (base.below ns).dirPieces = base.dirPieces ++ ns := by
  induction ns generalizing base with
  | nil => simp [below]
  | cons name ns ih =>
      rw [below_cons, ih fun n member => steps n (List.mem_cons_of_mem _ member),
        dirPieces_join_step (steps name List.mem_cons_self), List.append_assoc,
        List.singleton_append]

theorem pieces_below (steps : ∀ n ∈ ns, IsStep n) (given : ns ≠ []) :
    (base.below ns).pieces = base.dirPieces ++ ns := by
  rcases List.eq_nil_or_concat ns with rfl | ⟨front, last, rfl⟩
  · exact absurd rfl given
  · rw [List.concat_eq_append] at steps ⊢
    have whole : base.below (front ++ [last]) = (base.below front).join ⟨last⟩ := by
      simp [below, List.foldl_append]
    rw [whole, pieces_join_step (steps last (by simp)),
      dirPieces_below fun n member => steps n (List.mem_append_left _ member), List.append_assoc]

/-! ### The absolute form -/

theorem names_of_components (p : Path) :
    (p.components.filter fun c => c.rank ≥ 2).map (·.text) = p.names := by
  have leading : (p.lead.filter fun c => c.rank ≥ 2) = [] := by
    unfold lead
    split
    · rfl
    · split <;> rfl
  have named : ((p.names.map named).filter fun c => c.rank ≥ 2) = p.names.map named := by
    simpa using fun n _ => two_le_rank_named n
  rw [components_eq, List.filter_append, leading, named, List.nil_append, List.map_map]
  simp [Function.comp_def, text_named]

/-- The leading separators of the absolute form of an absolute path. -/
def leadingSlashes (p : Path) : Path :=
  if p.text.toList.take 2 = ['/', '/'] ∧ p.text.toList.take 3 ≠ ['/', '/', '/'] then ⟨"//"⟩
  else ⟨"/"⟩

theorem names_leadingSlashes (p : Path) : p.leadingSlashes.names = [] := by
  unfold leadingSlashes
  split <;> decide

theorem isAbsolute_leadingSlashes (p : Path) : p.leadingSlashes.isAbsolute = true := by
  unfold leadingSlashes
  split <;> decide

theorem absolute_eq (cwd p : Path) :
    absolute cwd p =
      let full := (if p.isAbsolute then p.leadingSlashes else cwd).below p.names
      if p.text.toList.getLast? = some '/' then full.join ⟨""⟩ else full := by
  simp only [absolute, names_of_components]
  rfl

theorem names_absolute (cwd p : Path) :
    (absolute cwd p).names = (if p.isAbsolute then [] else cwd.names) ++ p.names := by
  have steps : ∀ n ∈ p.names, IsStep n := fun n => isStep_of_mem_names
  have full : ((if p.isAbsolute then p.leadingSlashes else cwd).below p.names).names =
      (if p.isAbsolute then [] else cwd.names) ++ p.names := by
    rw [names_below steps]
    split
    · rw [names_leadingSlashes]
    · rfl
  simp only [absolute_eq]
  split
  · rw [names_join isAbsolute_empty, names_empty, List.append_nil, full]
  · exact full

theorem isAbsolute_absolute {cwd : Path} (rooted : cwd.isAbsolute = true) (p : Path) :
    (absolute cwd p).isAbsolute = true := by
  have steps : ∀ n ∈ p.names, IsStep n := fun n => isStep_of_mem_names
  have full : ((if p.isAbsolute then p.leadingSlashes else cwd).below p.names).isAbsolute =
      true := by
    rw [isAbsolute_below steps]
    split
    · exact isAbsolute_leadingSlashes p
    · exact rooted
  simp only [absolute_eq]
  split
  · rw [isAbsolute_join isAbsolute_empty, full]
  · exact full

end Graft.Path
