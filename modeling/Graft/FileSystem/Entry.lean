/-!
# Files and directories

A file system entry is a file with its content or a directory with named entries. `Entry.at?`
looks an entry up by the names that lead to it, and `Entry.put` sets the entry at such a place.

`at?_put_self` says that a look-up after `put` finds what was put, provided that the directory of
the place is there. `at?_put_of_apart` says that every look-up that leads neither through the place
nor on the way to it is as before.
-/

namespace Graft

/-- The content of a file: a text, or bytes that are not the encoding of one. -/
inductive Content where
  | text (text : String)
  | raw (bytes : List UInt8)
deriving DecidableEq, Repr

namespace Content

/-- The content with a text added at its end. Bytes that are no text stay none. -/
def append : Content → String → Content
  | .text before, added => .text (before ++ added)
  | .raw bytes, added => .raw (bytes ++ added.toUTF8.toList)

end Content

/-- A file or a directory. -/
inductive Entry where
  | file (content : Content)
  | dir (entries : List (String × Entry))
deriving Repr, Inhabited

namespace Entry

def emptyDir : Entry := .dir []

/-- Whether an entry is a directory. -/
def isDir : Entry → Bool
  | .dir _ => true
  | .file _ => false

/-- The entry that a list of names leads to. -/
def at? : Entry → List String → Option Entry
  | e, [] => some e
  | .dir entries, name :: names => (entries.lookup name).bind fun e => e.at? names
  | .file _, _ :: _ => none

/-- The entries of a directory with the one called `name` set. -/
def setNamed (name : String) (e : Entry) : List (String × Entry) → List (String × Entry)
  | [] => [(name, e)]
  | (n, old) :: rest => if name == n then (n, e) :: rest else (n, old) :: setNamed name e rest

/-- Set the entry at a place. Nothing happens at a place whose directory is missing. -/
def put : Entry → List String → Entry → Entry
  | _, [], e => e
  | .file content, _ :: _, _ => .file content
  | .dir entries, name :: names, e =>
    match entries.lookup name, names with
    | some old, names => .dir (setNamed name (old.put names e) entries)
    | none, [] => .dir (setNamed name e entries)
    | none, _ :: _ => .dir entries

@[simp] theorem at?_nil (e : Entry) : e.at? [] = some e := by
  cases e <;> rfl

theorem lookup_setNamed_self (name : String) (e : Entry) (entries : List (String × Entry)) :
    (setNamed name e entries).lookup name = some e := by
  induction entries with
  | nil => simp [setNamed]
  | cons head rest ih =>
    obtain ⟨n, old⟩ := head
    cases h : name == n <;> simp [setNamed, List.lookup_cons, h, ih]

theorem lookup_setNamed_of_ne {name other : String} (h : other ≠ name) (e : Entry)
    (entries : List (String × Entry)) :
    (setNamed name e entries).lookup other = entries.lookup other := by
  have hb : (other == name) = false := by simp [h]
  induction entries with
  | nil => simp [setNamed, List.lookup_cons, hb]
  | cons head rest ih =>
    obtain ⟨n, old⟩ := head
    cases hn : name == n
    · simp [setNamed, List.lookup_cons, hn, ih]
    · obtain rfl := eq_of_beq hn
      simp [setNamed, List.lookup_cons, hb]

@[simp] theorem at?_dir_cons (entries : List (String × Entry)) (name : String)
    (names : List String) :
    (Entry.dir entries).at? (name :: names) = (entries.lookup name).bind (·.at? names) := rfl

@[simp] theorem at?_file_cons (content : Content) (name : String) (names : List String) :
    (Entry.file content).at? (name :: names) = none := rfl

/-- What was put in a directory is found there. -/
theorem at?_put_self (e : Entry) {root : Entry} {place : List String}
    {entries : List (String × Entry)} (name : String) (h : root.at? place = some (.dir entries)) :
    (root.put (place ++ [name]) e).at? (place ++ [name]) = some e := by
  induction place generalizing root with
  | nil =>
    rw [at?_nil] at h
    obtain rfl := Option.some.inj h
    cases hl : entries.lookup name with
    | none => simp [put, hl, lookup_setNamed_self]
    | some old => simp [put, hl, lookup_setNamed_self]
  | cons first rest ih =>
    cases root with
    | file content => simp at h
    | dir es =>
      cases hl : es.lookup first with
      | none => simp [hl] at h
      | some old =>
        have hold : old.at? rest = some (.dir entries) := by simpa [hl] using h
        simpa [put, hl, lookup_setNamed_self] using ih hold

/-- A look-up that is apart from the place of a change is as before. -/
theorem at?_put_of_apart (e : Entry) {root : Entry} {place other : List String}
    (h : ¬ place <+: other) (h' : ¬ other <+: place) :
    (root.put place e).at? other = root.at? other := by
  induction place generalizing root other with
  | nil => exact absurd List.nil_prefix h
  | cons name rest ih =>
    cases other with
    | nil => exact absurd List.nil_prefix h'
    | cons first more =>
      cases root with
      | file content => simp [put]
      | dir entries =>
        by_cases hn : first = name
        · subst hn
          have apart : ¬ rest <+: more ∧ ¬ more <+: rest := by
            simpa [List.cons_prefix_cons] using And.intro h h'
          cases hl : entries.lookup first with
          | none =>
            cases rest with
            | nil => exact absurd List.nil_prefix apart.1
            | cons _ _ => simp [put, hl]
          | some old =>
            simp [put, hl, lookup_setNamed_self, ih apart.1 apart.2]
        · cases hl : entries.lookup name with
          | none =>
            cases rest with
            | nil => simp [put, hl, lookup_setNamed_of_ne hn]
            | cons _ _ => simp [put, hl]
          | some old => simp [put, hl, lookup_setNamed_of_ne hn]

end Entry

end Graft
