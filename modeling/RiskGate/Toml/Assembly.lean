import RiskGate.Toml.Basic

/-! # Assembling TOML tables

A TOML document is a list of statements: headers, which open a table, and assignments, which fill
the table opened last. Every key is set once. A table may be opened by one header only, may not be
opened by a header after dotted keys created it, and may not be extended by dotted keys after a
header opened it. A header may still open a table that so far exists only because a longer header
passed through it.
-/

namespace RiskGate.Toml

/-- One statement of a document. -/
inductive Statement where
  /-- Opens the table at a path. -/
  | header (path : List String)
  /-- Opens one more table of the array of tables at a path. -/
  | element (path : List String)
  /-- Sets a dotted key in the table that is open. -/
  | assignment (path : List String) (value : Toml)

/-- How a table came into being. -/
inductive Origin where
  /-- By a header, or as an element of an array of tables. -/
  | declared
  /-- On the way to the table of a longer header. -/
  | implied
  /-- By a dotted key. -/
  | dotted
  deriving DecidableEq

/-- A part of a document under construction. Of the tables in an array only the last is open. -/
inductive Draft where
  | value (value : Toml)
  | table (origin : Origin) (entries : List (String × Draft))
  | elements (closed : List (List (String × Draft))) (last : List (String × Draft))

/-- The entries of a table under construction, in the order of their keys' first use. -/
abbrev Entries := List (String × Draft)

namespace Entries

/-- The entries with the value of one key replaced. -/
def replace (entries : Entries) (key : String) (draft : Draft) : Entries :=
  entries.map fun (k, d) => if k = key then (k, draft) else (k, d)

/-- Applies `edit` to the table at the end of the path, creating what is missing on the way.
`dotted` says that the path is part of a dotted key and not of a header, and the first argument of
`edit` that the table it is given was created by one. -/
def editAt (dotted : Bool) (edit : Bool → Entries → Option Entries) :
    List String → Bool → Entries → Option Entries
  | [], here, entries => edit here entries
  | key :: path, _, entries =>
    match entries.lookup key with
    | none => do
      let created ← editAt dotted edit path dotted []
      return entries ++ [(key, .table (if dotted then .dotted else .implied) created)]
    | some (.value _) => none
    | some (.table origin inner) =>
      if dotted && origin == .declared then none
      else do
        let edited ← editAt dotted edit path (origin == .dotted) inner
        return replace entries key (.table origin edited)
    | some (.elements closed last) => do
      let edited ← editAt dotted edit path false last
      return replace entries key (.elements closed edited)

/-- Opens the table `key` of a table. -/
def openTable (key : String) (entries : Entries) : Option Entries :=
  match entries.lookup key with
  | none => some (entries ++ [(key, .table .declared [])])
  | some (.table .implied inner) => some (entries.replace key (.table .declared inner))
  | some _ => none

/-- Opens one more table of the array `key` of a table. -/
def openElement (key : String) (entries : Entries) : Option Entries :=
  match entries.lookup key with
  | none => some (entries ++ [(key, .elements [] [])])
  | some (.elements closed last) => some (entries.replace key (.elements (closed ++ [last]) []))
  | some _ => none

/-- Sets a dotted key. All its parts but the last name tables that dotted keys created. -/
def assign (path : List String) (value : Toml) (entries : Entries) : Option Entries := do
  let key ← path.getLast?
  let tables := path.dropLast
  let set := fun (createdByDottedKey : Bool) (inner : Entries) =>
    if createdByDottedKey = tables.isEmpty ∨ (inner.lookup key).isSome then none
    else some (inner ++ [(key, .value value)])
  editAt true set tables false entries

end Entries

/-- A document under construction: its entries, and the path of the table that is open. -/
structure Progress where
  entries : Entries := []
  location : List String := []

/-- The document after one more statement. -/
def Progress.step (progress : Progress) : Statement → Option Progress
  | .header path => do
    let key ← path.getLast?
    let entries ← progress.entries.editAt false (fun _ => Entries.openTable key) path.dropLast false
    return { entries, location := path }
  | .element path => do
    let key ← path.getLast?
    let entries ←
      progress.entries.editAt false (fun _ => Entries.openElement key) path.dropLast false
    return { entries, location := path }
  | .assignment path value => do
    let entries ← progress.entries.editAt false (fun _ => Entries.assign path value)
      progress.location false
    return { progress with entries }

mutual

/-- The value that a finished part of a document denotes. -/
def Draft.finish : Draft → Toml
  | .value value => value
  | .table _ entries => .table (finishEntries entries)
  | .elements closed last => .array (finishTables closed ++ [.table (finishEntries last)])

/-- The entries of a finished table. -/
def finishEntries : List (String × Draft) → List (String × Toml)
  | [] => []
  | (key, draft) :: rest => (key, draft.finish) :: finishEntries rest

/-- The closed tables of an array. -/
def finishTables : List (List (String × Draft)) → List Toml
  | [] => []
  | entries :: rest => .table (finishEntries entries) :: finishTables rest

end

/-- The table that a document of these statements denotes. -/
def ofStatements? (statements : List Statement) : Option Toml := do
  let progress ← statements.foldlM Progress.step {}
  return .table (finishEntries progress.entries)

/-- The table that the dotted keys and values of an inline table denote. -/
def ofInline? (assignments : List (List String × Toml)) : Option Toml := do
  let entries ← assignments.foldlM (fun entries (path, value) => Entries.assign path value entries)
    ([] : Entries)
  return .table (finishEntries entries)

end RiskGate.Toml
