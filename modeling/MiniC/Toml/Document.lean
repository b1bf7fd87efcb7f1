import MiniC.Toml.Parser

namespace MiniC.Toml

namespace Table

def set (key : Key) (value : Value) : Table → Table
  | [] => [(key, value)]
  | (k, v) :: t => if k = key then (k, value) :: t else (k, v) :: set key value t

/-- Changes the table that a path leads to, which is made if it is not there. A path through an array of
tables goes to the last of them, and a path through any other value leads nowhere. -/
def change (f : Table → Option Table) : Path → Table → Option Table
  | [], t => f t
  | key :: path, t =>
    match t.lookup key with
    | none => do
      let u ← change f path []
      some (set key (.table u) t)
    | some (.table u) => do
      let u ← change f path u
      some (set key (.table u) t)
    | some (.tables us) => do
      let u ← change f path (us.getLast?.getD [])
      some (set key (.tables (us.dropLast ++ [u])) t)
    | some _ => none

def get? : Path → Table → Option Value
  | [], t => some (.table t)
  | key :: path, t =>
    match t.lookup key with
    | some (.table u) => get? path u
    | some (.tables us) =>
      if path.isEmpty then some (.tables us) else get? path (us.getLast?.getD [])
    | some v => if path.isEmpty then some v else none
    | none => none

end Table

structure Document where
  root : Table
  order : List Path
  implied : List Path
  arrays : List Path
  deriving Repr

namespace Document

def empty : Document := ⟨[], [], [], []⟩

def imply (path : Path) (d : Document) : Document :=
  { d with implied := path :: d.implied }

def record (path : Path) (d : Document) : Document :=
  { d with order := d.order ++ [path] }

def missing (path : Path) (d : Document) : List Path :=
  ((List.range path.length).map fun n => path.take (n + 1)).filter fun part =>
    (Table.get? part d.root).isNone

def define (path : Path) (value : Value) (d : Document) : Option Document := do
  let key ← path.getLast?
  let put (t : Table) : Option Table := some (Table.set key value t)
  if (Table.get? path d.root).isNone then
    let root ← Table.change put path.dropLast d.root
    some { d with root := root }
  else if path ∈ d.arrays then
    let root ← Table.change put path.dropLast d.root
    some { d with root := root, implied := d.implied.filter (· ≠ path) }
  else if path ∈ d.implied then
    some { d with implied := d.implied.filter (· ≠ path) }
  else none

def openTable (path : Path) (d : Document) : Option Document := do
  let parent := path.dropLast
  let root ← Table.change some parent d.root
  define path (.table [])
    { d with root := root, implied := d.missing parent ++ d.implied }

def addElement (key : Key) (t : Table) : Option Table :=
  match t.lookup key with
  | none => some (Table.set key (.tables [[]]) t)
  | some (.tables us) => some (Table.set key (.tables (us ++ [[]])) t)
  | some _ => none

def openElement (path : Path) (d : Document) : Option Document := do
  let key ← path.getLast?
  let parent := path.dropLast
  let root ← Table.change (addElement key) parent d.root
  some { d with root := root, implied := d.missing parent ++ d.implied }

/-- Where it is noted that a path was given an array. What stands under the empty key of a table is noted
at the table. -/
def noted (path : Path) : Path :=
  if path.getLast? = some [] ∧ 1 < path.length then path.dropLast else path

def markArray (isArray : Bool) (path : Path) (d : Document) : Document :=
  let others := d.arrays.filter (· ≠ path)
  { d with arrays := if isArray then path :: others else others }

def isArray : Term → Bool
  | .array _ => true
  | _ => false

def openImplied (base : Path) : Path → Document → Option Document
  | [], d => some d
  | [_], d => some d
  | key :: path, d => do
    let part := base ++ [key]
    let d ← (d.imply part).openTable part
    openImplied part path d

mutual

def evaluate (path : Path) (inArray : Bool) : Term → Document → Option (Value × Document)
  | .scalar value, d => some (.scalar value, d)
  | .array items, d => do
    let (values, d) ← evaluateAll path items (d.markArray true (noted path))
    some (.array values, d)
  | .inline entries, d => do
    let implied := d.imply path
    let d ← if inArray then implied.openElement path else implied.openTable path
    let d ← addEntries path entries d
    some (.table [], d)

def evaluateAll (path : Path) : List Term → Document → Option (List Value × Document)
  | [], d => some ([], d)
  | term :: terms, d => do
    let (value, d) ← evaluate path true term d
    let (values, d) ← evaluateAll path terms d
    some (value :: values, d)

def addEntries (base : Path) : List (Path × Term) → Document → Option Document
  | [], d => some d
  | (keys, term) :: entries, d => do
    let path := base ++ keys
    let d ← openImplied base keys d
    let (value, d) ← evaluate path false term (d.record path)
    let d ← d.define path value
    addEntries base entries (d.markArray (isArray term) (noted path))

end

def add (base : Path) : List Item → Document → Option Document
  | [], d => some d
  | .table path :: items, d => do
    let d ← d.openTable path
    add path items ((d.markArray false path).record path)
  | .element path :: items, d => do
    let d ← d.openElement path
    add path items ((d.markArray false path).record path)
  | .entry keys term :: items, d => do
    let d ← addEntries base [(keys, term)] d
    add base items d

def read? (text : Bytes) : Option Document := do
  let items ← parse? text
  add [] items empty

end Document

end MiniC.Toml
