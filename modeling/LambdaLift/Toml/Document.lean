import LambdaLift.Toml.Value

/-!
# TOML documents under construction

A document is built line by line. A table may be named by one header only, after it was made by the
path of other headers at most; a table made by dotted keys is extended by dotted keys only; a value
is never extended, and no key is set twice.
-/

namespace LambdaLift.Toml

/-- How a table came to be. -/
inductive Origin where
  /-- It has a header of its own. -/
  | header
  /-- It lies on the path of a header. -/
  | path
  /-- It lies on the path of a dotted key. -/
  | dotted
deriving DecidableEq, Repr

/-- What a key stands for while a document is read. -/
inductive Item where
  | value (v : Value)
  | table (origin : Origin) (entries : List (String × Item))
  /-- Tables with one header each, the latest first. -/
  | tables (items : List (List (String × Item)))

/-- A table under construction. -/
structure Table where
  origin : Origin
  entries : List (String × Item)

namespace Table

def empty (origin : Origin) : Table := ⟨origin, []⟩

def find? (t : Table) (key : String) : Option Item := (t.entries.find? (·.1 == key)).map Prod.snd

/-- Sets what a key stands for, in its old place if it has one. -/
def put (t : Table) (key : String) (item : Item) : Table :=
  if (t.find? key).isSome then
    { t with entries := t.entries.map fun e => if e.1 == key then (key, item) else e }
  else { t with entries := t.entries ++ [(key, item)] }

/-- Changes the table at the end of a path of keys, making the tables on the way that are missing. A
path goes through the latest one of several tables. The path of a dotted key does not go through a
table that has a header. -/
def update (dotted : Bool) (f : Table → Option Table) : List String → Table → Option Table
  | [], t => f t
  | key :: path, t =>
    match t.find? key with
    | none => do
      let inner ← update dotted f path (empty (if dotted then .dotted else .path))
      return t.put key (.table inner.origin inner.entries)
    | some (.table origin entries) =>
      if dotted && origin == .header then none
      else do
        let inner ← update dotted f path ⟨origin, entries⟩
        return t.put key (.table inner.origin inner.entries)
    | some (.tables (latest :: earlier)) => do
      let inner ← update dotted f path ⟨.header, latest⟩
      return t.put key (.tables (inner.entries :: earlier))
    | some (.tables []) => none
    | some (.value _) => none

/-- Sets a key that is not set yet. -/
def insert (key : String) (v : Value) (t : Table) : Option Table :=
  if (t.find? key).isSome then none else some (t.put key (.value v))

/-- Sets a dotted key: `path` leads to the table and `key` is its last part. -/
def insertAt (path : List String) (key : String) (v : Value) (t : Table) : Option Table :=
  t.update true (fun inner =>
    if (inner.origin == .dotted) == path.isEmpty then none else inner.insert key v) path

/-- Gives a header to a table that has none. -/
def openTable (key : String) (t : Table) : Option Table :=
  match t.find? key with
  | none => some (t.put key (.table .header []))
  | some (.table .path entries) => some (t.put key (.table .header entries))
  | some _ => none

/-- Adds a table to an array of tables. -/
def openElement (key : String) (t : Table) : Option Table :=
  match t.find? key with
  | none => some (t.put key (.tables [[]]))
  | some (.tables items) => some (t.put key (.tables ([] :: items)))
  | some _ => none

end Table

mutual

/-- The value of a finished item. -/
def Item.toValue : Item → Value
  | .value v => v
  | .table _ entries => .table (entriesToValues entries)
  | .tables items => .array (tablesToValues items).reverse

/-- The values of the entries of a finished table. -/
def entriesToValues : List (String × Item) → List (String × Value)
  | [] => []
  | (key, item) :: entries => (key, item.toValue) :: entriesToValues entries

/-- The values of several finished tables. -/
def tablesToValues : List (List (String × Item)) → List Value
  | [] => []
  | entries :: tables => .table (entriesToValues entries) :: tablesToValues tables

end

/-- The value of a finished table. -/
def Table.toValue (t : Table) : Value := .table (entriesToValues t.entries)

/-- One line of a document that says something. -/
inductive Line where
  | setting (path : List String) (key : String) (v : Value)
  | table (path : List String) (key : String)
  | element (path : List String) (key : String)

/-- A document so far: its root and the path of the latest header. -/
structure Document where
  root : Table
  current : List String

namespace Document

def empty : Document := ⟨.empty .header, []⟩

/-- Adds a line. -/
def add (d : Document) : Line → Option Document
  | .setting path key v => do
    return { d with root := ← d.root.update false (Table.insertAt path key v) d.current }
  | .table path key => do
    return ⟨← d.root.update false (Table.openTable key) path, path ++ [key]⟩
  | .element path key => do
    return ⟨← d.root.update false (Table.openElement key) path, path ++ [key]⟩

end Document

end LambdaLift.Toml
