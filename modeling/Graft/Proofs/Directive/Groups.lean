import Graft.Proofs.Directive.Lines
import Graft.Proofs.Mentions

/-!
# Directives by name

The directives of a text are the directives of its lines, grouped by name. `grouped` says what a
grouping is without going through the lines one by one: each name stands once, in the order of first
mention, with the arguments of all lines that have the name. Adding the directives one after the
other comes to this grouping, `entries_foldl_push`, and so does adding them group by group, so that
the directives of two texts put together are those of the first with the groups of the second added.

Lines are taken here from one line feed to the next. A carriage return in front of a line feed is
then a blank at the end of a line, which belongs to no directive.
-/

namespace Graft.Directives

open Directive (ofLine?)
open Text (rows)

variable {d : Directive} {name : String} {found : List Directive}

/-- The arguments of all directives of one name, in order. -/
def arguments (name : String) (found : List Directive) : List String :=
  (found.filter fun d => d.name = name).flatMap (·.args)

/-- Directives put together by name. -/
def grouped (found : List Directive) : List Directive :=
  (found.map (·.name)).eraseDups.map fun name => ⟨name, arguments name found⟩

/-! ### Adding one directive -/

theorem arguments_append (name : String) (first second : List Directive) :
    arguments name (first ++ second) = arguments name first ++ arguments name second := by
  simp [arguments]

theorem arguments_singleton (name : String) (d : Directive) :
    arguments name [d] = if d.name = name then d.args else [] := by
  by_cases same : d.name = name <;> simp [arguments, same]

theorem arguments_of_fresh (fresh : name ∉ found.map (·.name)) : arguments name found = [] := by
  have none : (found.filter fun d => d.name = name) = [] := by
    rw [List.filter_eq_nil_iff]
    intro d member
    simpa using fun same => fresh (List.mem_map.mpr ⟨d, member, same⟩)
  rw [arguments, none, List.flatMap_nil]

theorem pushEntry_of_fresh {entries : List Directive} (fresh : d.name ∉ entries.map (·.name)) :
    pushEntry d entries = entries ++ [d] := by
  induction entries with
  | nil => rfl
  | cons e entries ih =>
      rw [List.map_cons, List.mem_cons, not_or] at fresh
      rw [pushEntry, if_neg (Ne.symm fresh.1), ih fresh.2, List.cons_append]

/-- The arguments of a directive go to the group of its name. -/
theorem pushEntry_of_mem (args : String → List String) {names : List String} (once : names.Nodup)
    (member : d.name ∈ names) :
    pushEntry d (names.map fun name => ⟨name, args name⟩) =
      names.map fun name => ⟨name, args name ++ if d.name = name then d.args else []⟩ := by
  induction names with
  | nil => cases member
  | cons first names ih =>
      obtain ⟨apart, once⟩ := List.nodup_cons.mp once
      rw [List.map_cons, List.map_cons, pushEntry]
      by_cases here : first = d.name
      · subst here
        have others : ∀ name ∈ names, d.name ≠ name := by
          rintro name inside rfl
          exact apart inside
        rw [if_pos rfl, if_pos rfl]
        congr 1
        apply List.map_congr_left
        intro name inside
        rw [if_neg (others name inside), List.append_nil]
      · have later : d.name ∈ names := (List.mem_cons.mp member).resolve_left (Ne.symm here)
        rw [if_neg here, if_neg (Ne.symm here), List.append_nil, ih once later]

theorem names_grouped (found : List Directive) :
    (grouped found).map (·.name) = (found.map (·.name)).eraseDups := by
  simp [grouped, Function.comp_def]

theorem grouped_concat (found : List Directive) (d : Directive) :
    grouped (found ++ [d]) = pushEntry d (grouped found) := by
  rw [grouped, List.map_append, List.map_singleton, eraseDups_concat]
  simp only [arguments_append, arguments_singleton]
  by_cases known : d.name ∈ found.map (·.name)
  · rw [if_pos known, grouped,
      pushEntry_of_mem _ (nodup_eraseDups _) (List.mem_eraseDups.mpr known)]
  · have fresh : d.name ∉ (grouped found).map (·.name) := by
      rwa [names_grouped, List.mem_eraseDups]
    rw [if_neg known, pushEntry_of_fresh fresh, List.map_append, List.map_singleton,
      if_pos rfl, arguments_of_fresh known, List.nil_append, grouped]
    congr 1
    apply List.map_congr_left
    intro name member
    have other : d.name ≠ name := by
      rintro rfl
      exact known (List.mem_eraseDups.mp member)
    rw [if_neg other, List.append_nil]

/-! ### Adding all directives -/

theorem entries_foldl_push (found : List Directive) :
    (found.foldl push empty).entries = grouped found := by
  induction found using List.reverseRecOn with
  | nil => rfl
  | append_singleton found d ih =>
      rw [List.foldl_concat, entries_push, ih, grouped_concat]

/-- The group of a name has its arguments. -/
theorem arguments_grouped (name : String) (found : List Directive) :
    arguments name (grouped found) = arguments name found := by
  have groups : arguments name (grouped found) =
      ((found.map (·.name)).eraseDups.filter fun n => n = name).flatMap (arguments · found) := by
    rw [arguments, grouped, List.filter_map, List.flatMap_map]
    rfl
  rw [groups, List.filter_eq, (nodup_eraseDups _).count]
  by_cases known : name ∈ found.map (·.name)
  · rw [if_pos (List.mem_eraseDups.mpr known)]
    simp
  · rw [if_neg (by rwa [List.mem_eraseDups]), arguments_of_fresh known]
    rfl

theorem grouped_append_grouped (first second : List Directive) :
    grouped (first ++ grouped second) = grouped (first ++ second) := by
  have names : ((first ++ grouped second).map (·.name)).eraseDups =
      ((first ++ second).map (·.name)).eraseDups := by
    rw [List.map_append, List.map_append, names_grouped, eraseDups_append_eraseDups]
  have same : ∀ name, arguments name (first ++ grouped second) = arguments name (first ++ second) :=
    fun name => by rw [arguments_append, arguments_append, arguments_grouped]
  rw [grouped, names]
  simp only [same]
  rfl

/-- Adding the groups of some directives is adding the directives. -/
theorem foldl_push_grouped (first second : List Directive) :
    (grouped second).foldl push (first.foldl push empty) =
      (first ++ second).foldl push empty := by
  have entries : ((grouped second).foldl push (first.foldl push empty)).entries =
      ((first ++ second).foldl push empty).entries := by
    rw [← List.foldl_append, entries_foldl_push, entries_foldl_push, grouped_append_grouped]
  exact congrArg Directives.mk entries

/-- Where no name stands twice, the arguments of a name are those of its one entry. -/
theorem getD_get? {ds : Directives} (distinct : (ds.entries.map (·.name)).Nodup) (name : String) :
    (ds.get? name).getD [] = arguments name ds.entries := by
  obtain ⟨entries⟩ := ds
  simp only at distinct ⊢
  induction entries with
  | nil => rfl
  | cons d entries ih =>
      obtain ⟨apart, distinct⟩ := List.nodup_cons.mp distinct
      rw [get?, List.find?_cons, ← List.singleton_append, arguments_append, arguments_singleton]
      by_cases here : d.name = name
      · subst here
        rw [if_pos rfl, arguments_of_fresh apart]
        simp
      · rw [if_neg here, List.nil_append, ← ih distinct, get?]
        simp [here]

/-! ### The directives of a text -/

/-- The directives on the lines of a text, in order. -/
def onLines (doc : String) : List Directive := (rows doc.toList).filterMap ofLine?

/-- The lines of a text that hold a directive. -/
def directiveLines (doc : String) : List (List Char) :=
  (rows doc.toList).filter fun line => (ofLine? line).isSome

theorem parse_eq (doc : String) : parse (some doc) = (onLines doc).foldl push empty := by
  rw [parse, parseText, Directive.filterMap_ofLine?_lines, onLines]

theorem onLines_join (doc more : String) :
    onLines (doc ++ "\n" ++ more) = onLines doc ++ onLines more := by
  have lines : rows (doc ++ "\n" ++ more).toList = rows doc.toList ++ rows more.toList := by
    rw [String.toList_append, String.toList_append, List.append_assoc]
    exact Text.rows_append_lineFeed _ _
  rw [onLines, lines, List.filterMap_append, ← onLines, ← onLines]

/-- Ordinary lines count for nothing. -/
theorem filterMap_directiveLines (doc : String) :
    (directiveLines doc).filterMap ofLine? = onLines doc := by
  rw [directiveLines, List.filterMap_filter, onLines]
  apply List.filterMap_congr
  intro line _
  cases ofLine? line <;> rfl

/-- **The directives of a text are its directive lines, grouped by name.** -/
theorem parse_groups :
    (∀ line d, ofLine? line = some d ↔ d.StandsOn line) ∧
    ∀ doc : String,
      (parse (some doc)).entries = grouped (onLines doc) ∧
      (parse (some doc)).uses = (arguments "use" (onLines doc)).eraseDups ∧
      (∀ more : String, parse (some (doc ++ "\n" ++ more)) =
        (parse (some more)).entries.foldl push (parse (some doc))) ∧
      (∀ other : String, directiveLines other = directiveLines doc →
        parse (some other) = parse (some doc)) := by
  refine ⟨fun _ _ => Directive.ofLine?_eq_some_iff, fun doc => ?_⟩
  have groups : (parse (some doc)).entries = grouped (onLines doc) := by
    rw [parse_eq, entries_foldl_push]
  refine ⟨groups, ?_, fun more => ?_, fun other same => ?_⟩
  · have distinct : ((parse (some doc)).entries.map (·.name)).Nodup := by
      rw [groups, names_grouped]
      exact nodup_eraseDups _
    rw [uses, getD_get? distinct, groups, arguments_grouped]
    rfl
  · rw [parse_eq, onLines_join, ← foldl_push_grouped, ← parse_eq doc, parse_eq more,
      entries_foldl_push]
  · rw [parse_eq, parse_eq, ← filterMap_directiveLines, same, filterMap_directiveLines]

/-- Names group lines, commas and blanks part arguments, and other lines are passed over. -/
example : parse (some "macro:use a, b\n\tmacro:tag x\r\nSee macro:use c.\nmacro:use b") =
    ⟨[⟨"use", ["a", "b", "b"]⟩, ⟨"tag", ["x"]⟩]⟩ := by
  decide

end Graft.Directives
