import Graft.Proofs.Sink.Writes

/-!
# What the destinations hold

`writeAll` makes writes one after the other through one sink. `Holds` says what the sink and the
files are like after writes that succeed: the stream has received its texts, a file holds the last
text for it, a shared file all of them with line feeds in between, and nothing else has changed.
Each write preserves this, `Holds.step`, provided that paths can be told apart, `Separate`: the
paths of different components lead to different files, and none of them is used both for a file of
its own and for a shared one.

Empty texts count for nothing, neither as the last text nor between two line feeds, and they make
no directory.
-/

namespace Graft

open FileSystem (Changes IsDirAt Keeps MadeWithin OnWay Ready SameFile)

namespace Sink.State

variable {s s' mid : Sink.State} {d d' : Destination} {p q : Path} {text : String}
variable {ws : List (Destination × String)} {w : Destination × String} {files : FileSystem}
variable {place : List String} {bytes : Nat} {content? : Option Content}
variable {results : List (Except Error Nat)} {touched : List String → Prop}

/-- Make writes one after the other. -/
def writeAll : Sink.State → List (Destination × String) → List (Except Error Nat) × Sink.State
  | s, [] => ([], s)
  | s, (d, text) :: rest =>
    let (result, s) := s.write d text
    let (results, s) := s.writeAll rest
    (result :: results, s)

/-- Writes that all succeed answer the sizes of their texts. -/
theorem writes_of_writeAll (done : s.writeAll ws = (results, s'))
    (succeed : ∀ result ∈ results, ∃ bytes, result = .ok bytes) :
    Writes s ws s' ∧ results = ws.map fun w => .ok w.2.utf8ByteSize := by
  induction ws generalizing s results with
  | nil =>
      cases done
      exact ⟨rfl, rfl⟩
  | cons w rest ih =>
      obtain ⟨d, text⟩ := w
      rw [writeAll] at done
      cases first : s.write d text with
      | mk result next =>
          cases others : next.writeAll rest with
          | mk more last =>
              simp only [first, others] at done
              cases done
              obtain ⟨⟨bytes, rfl⟩, later⟩ := List.forall_mem_cons.mp succeed
              obtain ⟨writes, same⟩ := ih others later
              obtain rfl := bytes_of_write first
              exact ⟨⟨next, first, writes⟩, by rw [same, List.map_cons]⟩

/-! ### The texts of a row of writes -/

/-- The texts for a destination, in order. -/
def textsFor (d : Destination) (ws : List (Destination × String)) : List String :=
  (ws.filter fun w => w.1.same d).map (·.2)

/-- The texts for a destination that are not empty. -/
def givenFor (d : Destination) (ws : List (Destination × String)) : List String :=
  (textsFor d ws).filter (· ≠ "")

/-- What the file of a destination holds after some texts. -/
def held : Destination → List String → String
  | .append _, texts => "\n".intercalate texts
  | _, texts => texts.getLastD ""

/-- A path that got a text. -/
def Filled (ws : List (Destination × String)) (p : Path) : Prop :=
  ∃ w ∈ ws, w.2 ≠ "" ∧ w.1.path? = some p

theorem textsFor_concat (d : Destination) (ws : List (Destination × String))
    (w : Destination × String) :
    textsFor d (ws ++ [w]) = textsFor d ws ++ if w.1.same d then [w.2] else [] := by
  rw [textsFor, List.filter_append, List.map_append, ← textsFor, List.filter_cons, List.filter_nil]
  split <;> rfl

theorem givenFor_concat (same : w.1.same d = true) (given : w.2 ≠ "") :
    givenFor d (ws ++ [w]) = givenFor d ws ++ [w.2] := by
  rw [givenFor, textsFor_concat, if_pos same, List.filter_append, ← givenFor]
  simp [given]

theorem givenFor_concat_of_other (other : w.1.same d = false ∨ w.2 = "") :
    givenFor d (ws ++ [w]) = givenFor d ws := by
  rw [givenFor, textsFor_concat, List.filter_append, ← givenFor]
  rcases other with other | empty
  · simp [other]
  · split <;> simp [empty]

theorem givenFor_ne_nil_iff :
    givenFor d ws ≠ [] ↔ ∃ w ∈ ws, w.2 ≠ "" ∧ w.1.same d = true := by
  simp only [givenFor, textsFor, ne_eq, List.filter_eq_nil_iff, List.mem_map, List.mem_filter]
  simp only [decide_not, Bool.not_eq_true', decide_eq_false_iff_not]
  constructor
  · intro filled
    push Not at filled
    obtain ⟨text, ⟨w, ⟨member, same⟩, rfl⟩, given⟩ := filled
    exact ⟨w, member, given, same⟩
  · rintro ⟨w, member, given, same⟩ empty
    exact empty w.2 ⟨w, ⟨member, same⟩, rfl⟩ given

theorem givenFor_congr (same : d.same d' = true) : givenFor d ws = givenFor d' ws := by
  simp only [givenFor, textsFor, Destination.same_congr same]

theorem held_congr (same : d.same d' = true) (texts : List String) :
    held d texts = held d' texts := by
  cases d <;> cases d' <;> first | rfl | cases same

theorem Filled.append_left (filled : Filled ws p) (more : List (Destination × String)) :
    Filled (ws ++ more) p := by
  obtain ⟨w, member, given, path⟩ := filled
  exact ⟨w, List.mem_append_left _ member, given, path⟩

/-! ### A row of writes -/

/-- Paths that can be told apart: each is used with one kind of destination, and those that lead to
one place are the same. -/
structure Separate (ws : List (Destination × String)) (fs : FileSystem) : Prop where
  kinds : ∀ w ∈ ws, ∀ w' ∈ ws, ∀ p ∈ w.1.path?, ∀ q ∈ w'.1.path?,
    p.same q = true → w.1.kind = w'.1.kind
  places : ∀ w ∈ ws, ∀ w' ∈ ws, ∀ p ∈ w.1.path?, ∀ q ∈ w'.1.path?,
    fs.samePlace p q = true → p.same q = true

namespace Separate

variable {fs fs' : FileSystem} {place' : List String}

theorem same (separate : Separate ws fs) {w' : Destination × String} (member : w ∈ ws)
    (member' : w' ∈ ws) (path : w.1.path? = some p) (path' : w'.1.path? = some q)
    (resolved : fs.resolve p = .ok place) (resolved' : fs.resolve q = .ok place) :
    w.1.same w'.1 = true := by
  have together : fs.samePlace p q = true := by simp [FileSystem.samePlace, resolved, resolved']
  have spelled := separate.places w member w' member' p path q path' together
  exact (Destination.same_iff path path').mpr
    ⟨spelled, separate.kinds w member w' member' p path q path' spelled⟩

/-- Paths that can be told apart could be told apart before. -/
theorem before {more : List (Destination × String)} (separate : Separate (ws ++ more) fs')
    (kept : Keeps touched fs fs') : Separate ws fs := by
  constructor
  · exact fun w member w' member' =>
      separate.kinds w (List.mem_append_left _ member) w' (List.mem_append_left _ member')
  · intro w member w' member' p path q path' together
    refine separate.places w (List.mem_append_left _ member) w' (List.mem_append_left _ member')
      p path q path' ?_
    unfold FileSystem.samePlace at together ⊢
    split at together
    · next a b resolved resolved' =>
        rw [kept.resolve resolved, kept.resolve resolved']
        exact together
    · cases together

end Separate

/-- What writes that succeeded have made of a sink and its files. -/
structure Holds (s : Sink.State) (ws : List (Destination × String)) (s' : Sink.State) : Prop where
  stream : s'.sink.stream = s.sink.stream ++ String.join (textsFor .stream ws)
  noted : ∀ p, s'.sink.hasAppended p = true ↔ givenFor (.append p) ws ≠ []
  files : ∀ w ∈ ws, w.2 ≠ "" → ∀ p, w.1.path? = some p → ∃ place, Ready s'.files p place ∧
    s'.files.root.at? place = some (.file (.text (held w.1 (givenFor w.1 ws))))
  changes : Changes (fun place => ∃ p, Filled ws p ∧ s'.files.resolve p = .ok place)
    s.files s'.files
  made : MadeWithin (fun place => ∃ p, Filled ws p ∧ OnWay s'.files p place) s.files s'.files

namespace Holds

/-- A destination that got a text already holds what it should. -/
theorem there_of_given (holds : Holds s ws mid) (path : d.path? = some p)
    (given : givenFor d ws ≠ []) (kept : Keeps touched mid.files files)
    (resolved : files.resolve p = .ok place) :
    mid.files.root.at? place = some (.file (.text (held d (givenFor d ws)))) := by
  obtain ⟨w, member, filled, same⟩ := givenFor_ne_nil_iff.mp given
  obtain ⟨q, path'⟩ := Destination.path?_of_same same path
  obtain ⟨place', ready, there⟩ := holds.files w member filled q path'
  have spelled := ((Destination.same_iff path' path).mp same).1
  obtain rfl := FileSystem.place_of_same spelled (kept.resolve ready.resolve) resolved
  rwa [givenFor_congr same, held_congr same] at there

/-- A write leaves what its destination should hold. -/
theorem left_eq (holds : Holds s ws mid)
    (before : givenFor d ws ≠ [] → content? = some (.text (held d (givenFor d ws))))
    (text : String) : mid.left d text content? = .text (held d (givenFor d ws ++ [text])) := by
  cases d with
  | stream => simp [left, held]
  | file p => simp [left, held]
  | append p =>
      rw [left, held]
      by_cases given : givenFor (.append p) ws = []
      · have fresh : mid.sink.hasAppended p = false := by
          rw [Bool.eq_false_iff, ne_eq, holds.noted, not_not]
          exact given
        rw [fresh, if_neg Bool.false_ne_true, given, List.nil_append, String.intercalate_singleton]
      · rw [(holds.noted p).mpr given, if_pos rfl, before given, Option.getD_some, Content.append,
          String.intercalate_append_of_ne_nil given (by simp), String.intercalate_singleton, held,
          String.append_assoc]

/-- An empty text, and a text for the stream, changes no file. -/
theorem filled_none (holds : Holds s ws mid) (fileless : w.2 = "" ∨ w.1 = .stream)
    (files : s'.files = mid.files) (appended : s'.sink.appended = mid.sink.appended)
    (stream : s'.sink.stream =
      mid.sink.stream ++ String.join (if w.1.same .stream then [w.2] else [])) :
    Holds s (ws ++ [w]) s' := by
  have nothing : ∀ {d p}, d.path? = some p → givenFor d (ws ++ [w]) = givenFor d ws := by
    intro d p path
    refine givenFor_concat_of_other ?_
    rcases fileless with empty | stream
    · exact Or.inr empty
    · rw [stream]
      cases d with
      | stream => cases path
      | file _ => exact Or.inl rfl
      | append _ => exact Or.inl rfl
  refine ⟨?_, ?_, ?_, ?_, ?_⟩
  · rw [stream, holds.stream, textsFor_concat, String.join_append, String.append_assoc]
  · intro p
    rw [Sink.hasAppended, appended, ← Sink.hasAppended, nothing rfl]
    exact holds.noted p
  · intro w' member given p path
    rw [files, nothing path]
    rcases List.mem_append.mp member with member | new
    · exact holds.files w' member given p path
    · obtain rfl := List.mem_singleton.mp new
      rcases fileless with empty | stream
      · exact absurd empty given
      · rw [stream] at path
        cases path
  · rw [files]
    refine holds.changes.mono ?_
    rintro _ ⟨p, filled, resolved⟩
    exact ⟨p, filled.append_left _, resolved⟩
  · rw [files]
    refine holds.made.mono ?_
    rintro _ ⟨p, filled, onWay⟩
    exact ⟨p, filled.append_left _, onWay⟩

/-- Once the file of a destination has its text, each destination that got texts holds them: the
same destinations, which lead to this file, and the others, which do not. -/
theorem files_concat (holds : Holds s ws mid) (given : text ≠ "") (path : d.path? = some p)
    (separate : Separate (ws ++ [(d, text)]) s'.files) (ready : Ready s'.files p place)
    (there : s'.files.root.at? place = some (.file (.text (held d (givenFor d ws ++ [text])))))
    (changes : Changes (· = place) mid.files s'.files) :
    ∀ w ∈ ws ++ [(d, text)], w.2 ≠ "" → ∀ q, w.1.path? = some q → ∃ place, Ready s'.files q place ∧
      s'.files.root.at? place =
        some (.file (.text (held w.1 (givenFor w.1 (ws ++ [(d, text)]))))) := by
  have new : (d, text) ∈ ws ++ [(d, text)] := List.mem_concat_self
  intro w member given' q path'
  rcases List.mem_append.mp member with before | added
  · obtain ⟨place', ready', there'⟩ := holds.files w before given' q path'
    have ready' := ready'.keeps changes.keeps
    cases same : d.same w.1 with
    | true =>
        have spelled := ((Destination.same_iff path path').mp same).1
        obtain rfl := FileSystem.place_of_same spelled ready.resolve ready'.resolve
        refine ⟨place, ready', ?_⟩
        rwa [givenFor_concat same given, ← givenFor_congr same, ← held_congr same]
    | false =>
        have apart : place' ≠ place := by
          rintro rfl
          have same' := separate.same new member path path' ready.resolve ready'.resolve
          rw [same] at same'
          cases same'
        refine ⟨place', ready', ?_⟩
        rw [givenFor_concat_of_other (Or.inl same)]
        exact (changes.file_iff apart).mpr there'
  · obtain rfl := List.mem_singleton.mp added
    obtain rfl := Option.some.inj (path.symm.trans path')
    refine ⟨place, ready, ?_⟩
    rwa [givenFor_concat (Destination.same_refl d) given]

/-- The file of a destination gets what it should hold, and all other files keep what they hold. -/
theorem filled_one (holds : Holds s ws mid) (given : text ≠ "") (path : d.path? = some p)
    (written : mid.write d text = (.ok bytes, s'))
    (separate : Separate (ws ++ [(d, text)]) s'.files) : Holds s (ws ++ [(d, text)]) s' := by
  obtain ⟨-, -, -, -, -, -, stream, noted⟩ := write_eq_ok_of_path? given path written
  obtain ⟨place, content?, ready, there, old, changes, made⟩ := files_of_write given path written
  have kept := changes.keeps
  have filled : Filled (ws ++ [(d, text)]) p := ⟨_, List.mem_concat_self, given, path⟩
  rw [holds.left_eq fun before => old _ (holds.there_of_given path before kept ready.resolve)]
    at there
  refine ⟨?_, ?_, holds.files_concat given path separate ready there changes, ?_, ?_⟩
  · have other : d.same .stream = false := by cases d <;> first | rfl | cases path
    rw [stream, holds.stream, textsFor_concat, other, if_neg Bool.false_ne_true, List.append_nil]
  · intro q
    rw [noted, Bool.or_eq_true, holds.noted]
    cases same : d.same (.append q) with
    | true => simp [givenFor_concat (w := (d, text)) same given]
    | false => simp [givenFor_concat_of_other (w := (d, text)) (Or.inl same)]
  · refine (holds.changes.mono ?_).trans (changes.mono ?_)
    · rintro _ ⟨q, before, resolved⟩
      exact ⟨q, before.append_left _, kept.resolve resolved⟩
    · rintro _ rfl
      exact ⟨p, filled, ready.resolve⟩
  · refine (holds.made.mono ?_).trans (made.mono fun _ onWay => ⟨p, filled, onWay⟩)
    rintro _ ⟨q, before, onWay⟩
    exact ⟨q, before.append_left _, onWay.keeps kept⟩

/-- Each write that succeeds preserves what holds. -/
theorem step (holds : Holds s ws mid) (written : mid.write d text = (.ok bytes, s'))
    (separate : Separate (ws ++ [(d, text)]) s'.files) : Holds s (ws ++ [(d, text)]) s' := by
  by_cases empty : text = ""
  · rw [write, if_pos empty] at written
    cases written
    refine holds.filled_none (Or.inl empty) rfl rfl ?_
    split <;> simp [empty]
  · cases path : d.path? with
    | some p => exact holds.filled_one empty path written separate
    | none =>
        obtain rfl : d = .stream := by cases d <;> first | rfl | cases path
        obtain ⟨written, -⟩ := (write_eq_ok_iff empty).mp written
        rw [writeText] at written
        split at written
        · cases written
        · cases written
          exact holds.filled_none (Or.inr rfl) rfl rfl (by simp [Destination.same])

end Holds

/-- What holds at the beginning. -/
theorem holds_nil (fresh : s.sink.appended = []) : Holds s [] s := by
  refine ⟨?_, ?_, ?_, .refl, .refl _ _⟩
  · simp [textsFor]
  · simp [Sink.hasAppended, fresh, givenFor, textsFor]
  · simp

/-- Writes that succeed make of a fresh sink what they should. -/
theorem Writes.holds (writes : Writes s ws s') (fresh : s.sink.appended = [])
    (separate : Separate ws s'.files) : Holds s ws s' := by
  induction ws using List.reverseRecOn generalizing s' with
  | nil =>
      obtain rfl : s' = s := writes
      exact holds_nil fresh
  | append_singleton ws w ih =>
      obtain ⟨mid, before, next, written, rfl⟩ := writes_append_iff.mp writes
      have changes := mid.write_changes w.1 w.2
      rw [written] at changes
      exact (ih before (separate.before changes.keeps)).step written separate

/-- What writes through one sink make of its stream and of the files. -/
structure Delivered (s : Sink.State) (ws : List (Destination × String)) (s' : Sink.State) :
    Prop where
  stream : s'.sink.stream = s.sink.stream ++ String.join (textsFor .stream ws)
  /-- A file that got texts holds the last one. -/
  file : ∀ p text, (.file p, text) ∈ ws → text ≠ "" → ∃ last,
    (givenFor (.file p) ws).getLast? = some last ∧ s'.files.readText p = .ok last
  /-- A shared file that got texts holds them and nothing else. -/
  append : ∀ p text, (.append p, text) ∈ ws → text ≠ "" →
    s'.files.readText p = .ok ("\n".intercalate (givenFor (.append p) ws))
  /-- All other files are as before. -/
  others : ∀ place, (∀ p, Filled ws p → s'.files.resolve p ≠ .ok place) →
    SameFile s.files s'.files place
  /-- So is the file of a path that got empty texts only, or there is none still. -/
  idle : ∀ w ∈ ws, ∀ p ∈ w.1.path?, (∀ q, Filled ws q → q.same p = false) →
    ∀ place, s'.files.resolve p = .ok place → SameFile s.files s'.files place
  /-- Directories are made on the ways of the paths that got texts only. -/
  dirs : ∀ place, (∀ p, Filled ws p → ¬ OnWay s'.files p place) →
    (IsDirAt s'.files place ↔ IsDirAt s.files place)

theorem Holds.delivered (holds : Holds s ws s') (separate : Separate ws s'.files) :
    Delivered s ws s' := by
  have others : ∀ place, (∀ p, Filled ws p → s'.files.resolve p ≠ .ok place) →
      SameFile s.files s'.files place := fun place off _ =>
    holds.changes.file_iff fun ⟨p, filled, resolved⟩ => off p filled resolved
  refine ⟨holds.stream, ?_, ?_, others, ?_, ?_⟩
  · intro p text member given
    obtain ⟨place, ready, there⟩ := holds.files _ member given p rfl
    have filled : givenFor (.file p) ws ≠ [] :=
      givenFor_ne_nil_iff.mpr ⟨_, member, given, Destination.same_refl _⟩
    have last := List.getLast?_eq_some_getLast filled
    refine ⟨_, last, ready.readText ?_⟩
    simpa [held, List.getLastD_eq_getLast?, last] using there
  · intro p text member given
    obtain ⟨place, ready, there⟩ := holds.files _ member given p rfl
    exact ready.readText there
  · intro w member p path idle place resolved
    refine others place fun q ⟨w', member', given, path'⟩ resolved' => ?_
    have same := separate.same member' member path' path resolved' resolved
    have spelled := ((Destination.same_iff path' path).mp same).1
    rw [idle q ⟨w', member', given, path'⟩] at spelled
    cases spelled
  · intro place off
    refine ⟨fun isDir => ?_, fun ⟨entries, here⟩ => holds.changes.keeps.dir place entries here⟩
    refine (holds.made place isDir).resolve_right ?_
    exact fun ⟨p, filled, onWay⟩ => off p filled onWay

/-- **A sink delivers.** Whatever sequence of writes succeeds through a fresh sink, each answers the
size of its text, the stream has received all texts for it, each file holds the last text for it,
each shared file all of them, and nothing else has changed. -/
theorem writeAll_delivered (fresh : s.sink.appended = []) (done : s.writeAll ws = (results, s'))
    (succeed : ∀ result ∈ results, ∃ bytes, result = .ok bytes)
    (separate : Separate ws s'.files) :
    results = ws.map (fun w => .ok w.2.utf8ByteSize) ∧ Delivered s ws s' := by
  obtain ⟨writes, sizes⟩ := writes_of_writeAll done succeed
  exact ⟨sizes, (writes.holds fresh separate).delivered separate⟩

/-- A shared file of an earlier run and another file. -/
def earlier : Sink.State :=
  ⟨.fresh, ⟨.dir [("all.rmc", .file (.text "old")), ("note", .file (.text "kept"))], []⟩⟩

def mixedWrites : List (Destination × String) :=
  [(.stream, "a"), (.append ⟨"all.rmc"⟩, ""), (.file ⟨"out/x.rmc"⟩, "1"),
    (.append ⟨"all.rmc"⟩, "A"), (.file ⟨"none/y.rmc"⟩, ""), (.stream, "b"),
    (.append ⟨"all.rmc"⟩, ""), (.file ⟨"out//x.rmc"⟩, "2"), (.append ⟨"all.rmc"⟩, "B")]

theorem writeAll_delivered_mixedWrites :
    ∃ results s', earlier.sink.appended = [] ∧ earlier.writeAll mixedWrites = (results, s') ∧
      (∀ result ∈ results, ∃ bytes, result = .ok bytes) ∧ Separate mixedWrites s'.files ∧
      s'.sink.stream = "ab" ∧ s'.files.readText ⟨"out/x.rmc"⟩ = .ok "2" ∧
      s'.files.readText ⟨"all.rmc"⟩ = .ok "A\nB" := by
  have succeed : (earlier.writeAll mixedWrites).1.all Except.isOk = true := by decide +kernel
  have separate : Separate mixedWrites (earlier.writeAll mixedWrites).2.files :=
    ⟨by decide +kernel, by decide +kernel⟩
  cases done : earlier.writeAll mixedWrites with
  | mk results s' =>
      rw [done] at succeed separate
      have succeed : ∀ result ∈ results, ∃ bytes, result = .ok bytes := by
        intro result member
        cases result with
        | ok bytes => exact ⟨bytes, rfl⟩
        | error e => cases List.all_eq_true.mp succeed _ member
      obtain ⟨-, delivered⟩ := writeAll_delivered rfl done succeed separate
      refine ⟨results, s', rfl, rfl, succeed, separate, delivered.stream, ?_, ?_⟩
      · have given : givenFor (.file ⟨"out/x.rmc"⟩) mixedWrites = ["1", "2"] := by decide +kernel
        obtain ⟨last, whole, read⟩ :=
          delivered.file ⟨"out/x.rmc"⟩ "1" (by decide +kernel) (by decide)
        rw [given] at whole
        cases whole
        exact read
      · have given : givenFor (.append ⟨"all.rmc"⟩) mixedWrites = ["A", "B"] := by decide +kernel
        have read := delivered.append ⟨"all.rmc"⟩ "A" (by decide +kernel) (by decide)
        rw [given] at read
        exact read

end Sink.State

end Graft
