import Graft.Proofs.Discovery.Exact
import Graft.Proofs.FileSystem.Ways
import Graft.Sexp.Reader

/-!
# Surveys and walks over units

`explore_and_walk` says what comes of a survey: the files that it seeks, each once and in order, or
the first directory that refuses it. A walk over units calls its visitor on them in order until a
call asks to stop.

This holds for names of all sorts. `discover_inexact` has the two exceptions to what one might
expect. A directory that cannot be listed ends the survey, also where a unit stands beside it. And a
stem that is not a text is not compared with the suffix of generated files, whatever its bytes.
-/

namespace Graft

namespace Survey

open FileSystem (checkText)

variable {ν : Type} [FileName ν] {s : Survey} {l : Listing ν}

/-! ### Walks -/

section Walks

variable {σ : Type} {files : σ → FileSystem}
variable {visit : σ → UnitEntry → Except Error SourceUnit → σ × Bool} {state : σ}

/-- One call of a visitor, with what the file of the unit then holds. -/
def call (s : Survey) (files : σ → FileSystem)
    (visit : σ → UnitEntry → Except Error SourceUnit → σ × Bool) (state : σ) (e : UnitEntry) :
    σ × Bool :=
  visit state e ((files state).loadUnit s.frontend e.path)

/-- The state after calls on units, one after the other. -/
def called (s : Survey) (files : σ → FileSystem)
    (visit : σ → UnitEntry → Except Error SourceUnit → σ × Bool) (state : σ)
    (units : List UnitEntry) : σ :=
  units.foldl (fun state e => (s.call files visit state e).1) state

/-- The calls on some units, in order and once each, up to and including the first that asks to
stop. -/
structure CallsUpTo (s : Survey) (files : σ → FileSystem)
    (visit : σ → UnitEntry → Except Error SourceUnit → σ × Bool) (state : σ)
    (units first : List UnitEntry) : Prop where
  initial : first <+: units
  goes : ∀ before e after, first = before ++ e :: after → after ≠ [] →
    (s.call files visit (s.called files visit state before) e).2 = false
  stops : first ≠ units → ∃ before e, first = before ++ [e] ∧
    (s.call files visit (s.called files visit state before) e).2 = true

/-- A walk is the calls on the units up to the first that asks to stop. -/
theorem walk_eq_called (s : Survey) (files : σ → FileSystem)
    (visit : σ → UnitEntry → Except Error SourceUnit → σ × Bool) (state : σ)
    (units : List UnitEntry) : ∃ first, s.CallsUpTo files visit state units first ∧
      s.walk files visit state units = s.called files visit state first := by
  induction units generalizing state with
  | nil => exact ⟨[], ⟨List.nil_prefix, by simp, by simp⟩, rfl⟩
  | cons e units ih =>
      cases answer : s.call files visit state e with
      | mk next stop =>
          have walked : s.walk files visit state (e :: units) =
              if stop then next else s.walk files visit next units := by
            rw [call] at answer
            rw [walk, answer]
          cases stop with
          | true =>
              refine ⟨[e], ⟨⟨units, rfl⟩, ?_, fun _ => ⟨[], e, rfl, ?_⟩⟩, ?_⟩
              · intro before e' after split more
                cases before with
                | nil => exact absurd (List.cons.inj split).2.symm more
                | cons => simp at split
              · rw [called, List.foldl_nil, answer]
              · rw [walked, if_pos rfl, called, List.foldl_cons, List.foldl_nil, answer]
          | false =>
              obtain ⟨first, calls, same⟩ := ih next
              have goesOn : ∀ before, s.called files visit state (e :: before) =
                  s.called files visit next before := by
                intro before
                rw [called, List.foldl_cons, answer, called]
              refine ⟨e :: first, ⟨?_, ?_, ?_⟩, ?_⟩
              · exact List.cons_prefix_cons.mpr ⟨rfl, calls.initial⟩
              · intro before e' after split more
                cases before with
                | nil =>
                    obtain ⟨rfl, -⟩ := List.cons.inj split
                    rw [called, List.foldl_nil, answer]
                | cons _ before =>
                    obtain ⟨rfl, rest⟩ := List.cons.inj split
                    rw [goesOn]
                    exact calls.goes before e' after rest more
              · intro less
                obtain ⟨before, e', whole, stopped⟩ := calls.stops fun all => less (by rw [all])
                exact ⟨e :: before, e', by rw [whole, List.cons_append], by rw [goesOn, stopped]⟩
              · rw [walked, if_neg Bool.false_ne_true, same, goesOn]

end Walks

/-- **Discovery is exact.** A survey finds the files that it seeks and nothing else, each once and
in ascending order, if no directory refuses it. Otherwise it ends with the first directory that
does, and without a root it ends with the root. A file system is surveyed through its listing. Walks
over units go on call by call. -/
theorem explore_and_walk (s : Survey) (l : Listing ν) (distinct : l.Distinct) :
    ((∀ f, ¬ s.Refuses l f) → ∃ units, s.explore (.ok l) = .ok units ∧
      (∀ p, p ∈ units ↔ s.Seeks l p) ∧ units.Nodup ∧
      units.Pairwise (fun p q => compare p q = .lt) ∧
      ∀ p ∈ units, p.names ≠ [] →
        p.bytes = EntryPath.attach (Text.bytes s.root.text) p.relative.bytes) ∧
      (∀ f, s.explore (.ok l) = .error f ↔
        s.Refuses l f ∧ ∀ f', s.Refuses l f' → f.path.precedes f'.path = true) ∧
      (∀ fault, s.explore (.error fault) = .error (⟨⟨s.root, []⟩, fault⟩ : WalkFault ν)) ∧
      (∀ fs : FileSystem,
        (∀ units, s.discover fs = .ok units ↔ ∃ found, s.explore (fs.listing s.root) = .ok found ∧
          units = found.map fun p => ⟨p.toPath, p.relative.toPath⟩) ∧
        ∀ f, s.explore (fs.listing s.root) = .error f →
          s.discover fs = .error (.io f.path.toPath (.walk f.path.toPath f.fault))) ∧
      ∀ (σ : Type) (files : σ → FileSystem)
        (visit : σ → UnitEntry → Except Error SourceUnit → σ × Bool) (state : σ)
        (entries : List UnitEntry),
        ∃ first, s.CallsUpTo files visit state entries first ∧
          s.walk files visit state entries = s.called files visit state first := by
  refine ⟨fun none => ?_, fun f => explore_eq_error_iff distinct, fun _ => rfl, fun fs => ⟨?_, ?_⟩,
    fun _ files visit state entries => s.walk_eq_called files visit state entries⟩
  · cases explored : s.explore (.ok l) with
    | error f => exact absurd ((explore_eq_error_iff distinct).mp explored).1 (none f)
    | ok units =>
        obtain ⟨-, members, ascending⟩ := (explore_eq_ok_iff distinct).mp explored
        refine ⟨units, rfl, members, nodup_of_ascending ascending, ascending, ?_⟩
        intro p member given
        have base := ((members p).mp member).base
        obtain ⟨base', names⟩ := p
        obtain rfl : base' = s.root := base
        exact EntryPath.bytes_eq_attach _ names given
  · intro units
    rw [discover]
    cases s.explore (fs.listing s.root) <;> simp [eq_comm]
  · intro f failed
    rw [discover, failed]

/-- Names that are texts, as the system holds them. -/
def rawName (name : String) : RawName := ⟨Text.bytes name⟩

/-- A name that is not the encoding of a text. -/
def strayName : RawName := ⟨0xff :: Text.bytes "_gen.rmc"⟩

/-- Files, and a directory that cannot be listed below one that is skipped. -/
def assorted : Listing RawName :=
  .dir [(rawName "a.rmc", .file), (rawName "a_gen.rmc", .file), (rawName "b.rmc", .special),
    (rawName "c.txt", .file), (rawName "d", .dir [(rawName "x.rmc", .file)]),
    (rawName "e.rmc", .file), (rawName "skip", .dir [(rawName "locked", .closed .nameTooLong)]),
    (strayName, .file)]

def assortedSurvey : Survey :=
  ⟨Sexp.frontend, ⟨"src"⟩, fun relative => relative = Text.bytes "e.rmc", [⟨"src/./skip"⟩],
    some "_gen", none⟩

def assortedUnits : List (EntryPath RawName) :=
  [[rawName "a.rmc"], [rawName "d", rawName "x.rmc"], [strayName]].map fun names =>
    ⟨⟨"src"⟩, names⟩

theorem distinct_assorted : assorted.Distinct := by
  have one : ∀ (name : RawName) (l : Listing RawName), (∀ entries, l ≠ .dir entries) →
      (Listing.dir [(name, l)]).Distinct := fun name l leaf =>
    Listing.distinct_dir (List.nodup_singleton name)
      (List.forall_mem_singleton.mpr (Listing.distinct_of_leaf leaf))
  refine Listing.distinct_dir (by decide +kernel) ?_
  simp only [List.forall_mem_cons, List.not_mem_nil, false_implies, implies_true, and_true]
  refine ⟨?_, ?_, ?_, ?_, one _ _ ?_, ?_, one _ _ ?_, ?_⟩ <;>
    first
    | exact Listing.distinct_of_leaf (by simp)
    | simp

theorem explore_assorted : assortedSurvey.explore (.ok assorted) = .ok assortedUnits := by
  rw [explore_eq_select distinct_assorted, steps, assorted, Listing.walk_dir,
    Listing.inOrder_of_pairwise (by decide +kernel)]
  decide +kernel

theorem explore_and_walk_assorted : assorted.Distinct ∧
    assortedSurvey.explore (.ok assorted) = .ok assortedUnits ∧
    ∀ p, p ∈ assortedUnits ↔ assortedSurvey.Seeks assorted p := by
  have explored := explore_assorted
  obtain ⟨found, -⟩ := explore_and_walk assortedSurvey assorted distinct_assorted
  obtain ⟨free, -⟩ := (explore_eq_ok_iff distinct_assorted).mp explored
  obtain ⟨units, same, members, -⟩ := found free
  obtain rfl := Except.ok.inj (explored.symm.trans same)
  exact ⟨distinct_assorted, explored, members⟩

/-! ### A directory that cannot be listed -/

/-- The directory `src` spelled with pieces `.` that lead nowhere. -/
def dotted (dots : Nat) : Path := .ofPieces false (List.replicate dots "." ++ ["src"])

def deepEntries : List (String × Entry) :=
  [("a.rmc", .file (.text "(fn A)\n")), ("deep-directory", .dir [])]

def deepFiles : FileSystem := ⟨.dir [("src", .dir deepEntries)], []⟩

variable {dots : Nat}

theorem of_mem_dotted {piece : String} (member : piece ∈ List.replicate dots "." ++ ["src"]) :
    piece = "." ∨ piece = "src" := by
  rcases List.mem_append.mp member with dot | name
  · exact Or.inl (List.eq_of_mem_replicate dot)
  · exact Or.inr (List.mem_singleton.mp name)

theorem fits_dotted (dots : Nat) : Path.Fits false (List.replicate dots "." ++ ["src"]) := by
  refine ⟨fun piece member => ?_, fun _ => ?_⟩
  · rcases of_mem_dotted member with rfl | rfl <;> decide
  · cases dots <;> simp [List.replicate_succ]

theorem pieces_dotted (dots : Nat) : (dotted dots).pieces = List.replicate dots "." ++ ["src"] := by
  rw [dotted, Path.pieces_ofPieces (fits_dotted dots), if_neg (by simp)]

theorem names_dotted (dots : Nat) : (dotted dots).pieces.filter Path.counts = ["src"] := by
  have dot : Path.counts "." = false := by decide
  have name : Path.counts "src" = true := by decide
  simp [pieces_dotted, dot, name]

theorem isAbsolute_dotted (dots : Nat) : (dotted dots).isAbsolute = false :=
  Path.isAbsolute_ofPieces (fits_dotted dots)

theorem width_dotted (dots : Nat) :
    Path.width (List.replicate dots "." ++ ["src"]) = 2 * dots + 4 := by
  have dot : ".".utf8ByteSize = 1 := rfl
  have name : "src".utf8ByteSize = 3 := rfl
  rw [Path.width_append, Path.width_cons, Path.width_nil, name]
  induction dots with
  | zero => rfl
  | succ dots ih =>
      rw [List.replicate_succ, Path.width_cons, dot]
      omega

theorem checkText_dotted (short : 2 * dots + 3 ≤ FileSystem.maxPath) :
    checkText (dotted dots) = .ok () := by
  have size := (dotted dots).utf8ByteSize_eq
  rw [isAbsolute_dotted, pieces_dotted, width_dotted, if_neg Bool.false_ne_true] at size
  refine FileSystem.checkText_eq_ok_iff.mpr ⟨fun nul => ?_, fun empty => ?_, by omega⟩
  · obtain ⟨piece, member, inside⟩ := (Path.mem_text_iff (by decide)).mp nul
    rw [pieces_dotted] at member
    rcases of_mem_dotted member with rfl | rfl <;> simp at inside
  · simp [empty] at size

theorem checkText_below_dotted (long : FileSystem.maxPath < 2 * dots + 18) :
    checkText ((dotted dots).join ⟨"deep-directory"⟩) = .error .nameTooLong := by
  have step : Path.IsStep "deep-directory" := ⟨by decide, by decide, by decide⟩
  have name : "deep-directory".utf8ByteSize = 14 := rfl
  have dirPieces : (dotted dots).dirPieces = List.replicate dots "." ++ ["src"] := by
    rw [Path.dirPieces, pieces_dotted, List.getLast?_concat, if_neg (by decide)]
  have pieces := Path.pieces_join_step (p := dotted dots) step
  have size := ((dotted dots).join ⟨"deep-directory"⟩).utf8ByteSize_eq
  rw [dirPieces] at pieces
  rw [Path.isAbsolute_join step.isAbsolute, isAbsolute_dotted, pieces, Path.width_append,
    width_dotted, Path.width_cons, name, Path.width_nil, if_neg Bool.false_ne_true] at size
  refine FileSystem.checkText_of_long (fun nul => ?_) (by omega)
  obtain ⟨piece, member, inside⟩ := (Path.mem_text_iff (by decide)).mp nul
  rw [pieces] at member
  rcases List.mem_append.mp member with above | last
  · rcases of_mem_dotted above with rfl | rfl <;> simp at inside
  · rw [List.mem_singleton.mp last] at inside
    simp at inside

theorem entry_dotted (short : 2 * dots + 3 ≤ FileSystem.maxPath) :
    deepFiles.entry (dotted dots) = .ok (.dir deepEntries) := by
  refine FileSystem.entry_eq_ok_iff.mpr ⟨["src"], ?_, rfl⟩
  refine bind_eq_ok_iff.mpr ⟨(), checkText_dotted short, ?_⟩
  have start : deepFiles.start (dotted dots) = [] := by
    rw [FileSystem.start, isAbsolute_dotted]
    rfl
  have down := names_dotted dots
  rw [start, pieces_dotted] at *
  have there : deepFiles.root.at? ([] ++ (List.replicate dots "." ++ ["src"]).filter Path.counts) =
      some (.dir deepEntries) := by
    rw [down]
    rfl
  have noUp : ".." ∉ List.replicate dots "." ++ ["src"] := by
    intro up
    rcases of_mem_dotted up with same | same <;> simp at same
  have fits : ∀ piece ∈ List.replicate dots "." ++ ["src"],
      piece.utf8ByteSize ≤ FileSystem.maxName := by
    intro piece member
    rcases of_mem_dotted member with rfl | rfl <;> decide
  have followed := FileSystem.followAll_of_at? noUp fits there (Or.inl rfl)
  rwa [down] at followed

/-- What stands at `src`, as far as the system lists it. -/
def deepListing : Listing String :=
  .dir [("a.rmc", .file), ("deep-directory", .closed .nameTooLong)]

theorem listing_dotted (short : 2 * dots + 3 ≤ FileSystem.maxPath)
    (long : FileSystem.maxPath < 2 * dots + 18) :
    deepFiles.listing (dotted dots) = .ok deepListing := by
  simp only [FileSystem.listing, entry_dotted short, Entry.listing, deepEntries, Entry.listings,
    checkText_dotted short, checkText_below_dotted long, deepListing]

/-- The unit in `src` is one of those looked for. -/
theorem seeks_dotted (dots : Nat) : (ofRoot Sexp.frontend (dotted dots)).Seeks deepListing
    ⟨dotted dots, ["a.rmc"]⟩ := by
  have known : "rmc" ∈ Sexp.frontend.extensions := by decide
  have last : FileName.extension? "a.rmc" = some "rmc" := by decide
  refine ⟨rfl, .inside (by simp) (.here _), ⟨"rmc", known, last⟩, ?_, rfl, ?_⟩
  · intro suffix stem suffixed
    cases suffixed
  · intro up initial q member
    cases member

theorem distinct_deepListing : deepListing.Distinct := by
  refine Listing.distinct_dir (by decide +kernel) ?_
  simp only [List.forall_mem_cons, List.not_mem_nil, false_implies, implies_true, and_true]
  exact ⟨Listing.distinct_of_leaf (by simp), Listing.distinct_of_leaf (by simp)⟩

/-- The other directory in `src` keeps a survey from finding it. -/
theorem discover_dotted (short : 2 * dots + 3 ≤ FileSystem.maxPath)
    (long : FileSystem.maxPath < 2 * dots + 18) (units : List UnitEntry) :
    (ofRoot Sexp.frontend (dotted dots)).discover deepFiles ≠ .ok units := by
  have refuses : (ofRoot Sexp.frontend (dotted dots)).Refuses deepListing
      ⟨⟨dotted dots, ["deep-directory"]⟩, .nameTooLong⟩ := by
    refine ⟨rfl, .inside (by simp) (.here _), ?_⟩
    intro up initial q member
    cases member
  intro discovered
  have root : (ofRoot Sexp.frontend (dotted dots)).root = dotted dots := rfl
  rw [discover, root, listing_dotted short long] at discovered
  cases explored : (ofRoot Sexp.frontend (dotted dots)).explore (.ok deepListing) with
  | error f => simp [explored] at discovered
  | ok found => exact ((explore_eq_ok_iff distinct_deepListing).mp explored).1 _ refuses

/-- **Exceptions.** A directory with too long a path keeps a survey from the unit beside it, and a
file whose stem is not a text is a unit although the stem ends with the suffix. -/
theorem discover_inexact :
    (deepFiles.listing (dotted 2040) = .ok deepListing ∧
      (ofRoot Sexp.frontend (dotted 2040)).Seeks deepListing ⟨dotted 2040, ["a.rmc"]⟩ ∧
      ∀ units, (ofRoot Sexp.frontend (dotted 2040)).discover deepFiles ≠ .ok units) ∧
    assortedSurvey.generatedSuffix = some "_gen" ∧ Text.bytes "_gen" <:+ strayName.cut.1 ∧
      assortedSurvey.explore (.ok assorted) = .ok assortedUnits ∧
      ⟨⟨"src"⟩, [strayName]⟩ ∈ assortedUnits :=
  ⟨⟨listing_dotted (by decide) (by decide), seeks_dotted 2040,
    discover_dotted (by decide) (by decide)⟩, rfl, by decide +kernel, explore_assorted,
    by simp [assortedUnits]⟩

end Survey

end Graft
