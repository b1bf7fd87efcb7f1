import MiniC.MessagePack.Read
import MiniC.MessagePack.Write
import MiniC.Snapshot.Record

/-!
The records of a snapshot in the form of maps from field names to values. A record may also be read from
an array of all its fields in order. A field that is written twice is read over its first value.
-/

namespace MiniC.Snapshot

open MessagePack (Item)

def optional (given : Bool) (name : Bytes) (value : Bytes) : List (Bytes × Bytes) :=
  if given then [(name, value)] else []

def list {α : Type} (write : α → Bytes) (xs : List α) : Bytes :=
  if xs.isEmpty then MessagePack.nil else MessagePack.array (xs.map write)

def Value.write (v : Value) : Bytes :=
  MessagePack.record (
    [(("Type" : Bytes), MessagePack.int v.ty.code)] ++
    optional v.symbol "Sym" (MessagePack.bool v.symbol) ++
    [(("Int" : Bytes), MessagePack.int64 v.int)] ++
    optional (!v.str.isEmpty) "Str" (MessagePack.text v.str))

def valueField (name : Bytes) : Option Value → List (Bytes × Bytes)
  | some v => [(name, v.write)]
  | none => []

def Param.write (p : Param) : Bytes :=
  MessagePack.record [("Name", MessagePack.text p.name), ("Type", MessagePack.int p.ty.code)]

def Global.write (g : Global) : Bytes :=
  MessagePack.record (
    [(("Name" : Bytes), MessagePack.text g.name), ("Type", MessagePack.int g.ty.code)] ++
    valueField "Init" g.init)

def Stmt.write (s : Stmt) : Bytes :=
  MessagePack.record (
    [(("Kind" : Bytes), MessagePack.uint8 s.kind)] ++
    optional (!s.label.isEmpty) "Label" (MessagePack.text s.label) ++
    optional (s.op != 0) "Op" (MessagePack.int s.op) ++
    optional (!s.dest.isEmpty) "Dest" (MessagePack.text s.dest) ++
    optional (!s.a.isEmpty) "A" (MessagePack.text s.a) ++
    optional (!s.b.isEmpty) "B" (MessagePack.text s.b) ++
    optional (!s.args.isEmpty) "Args" (MessagePack.array (s.args.map MessagePack.text)) ++
    valueField "Value" s.value)

def Function.write (f : Function) : Bytes :=
  MessagePack.record [
    ("Name", MessagePack.text f.name),
    ("Ret", MessagePack.int f.result.code),
    ("Params", list Param.write f.params),
    ("External", MessagePack.bool f.external),
    ("Body", list Stmt.write f.body)]

def Program.write (p : Program) : Bytes :=
  MessagePack.record [
    ("Version", MessagePack.int p.version),
    ("Names", MessagePack.int p.names),
    ("Globals", list Global.write p.globals),
    ("Funcs", list Function.write p.functions)]

def readText : Item → Option Bytes
  | .nil => some []
  | .text s => some s
  | _ => none

def readBool : Item → Option Bool
  | .nil => some false
  | .bool b => some b
  | _ => none

def readInt : Item → Option Int64
  | .nil => some 0
  | .int n => some (Int64.ofInt n)
  | _ => none

def readUInt8 (i : Item) : Option UInt8 :=
  (readInt i).map fun n => n.toUInt64.toUInt8

def readTy (i : Item) : Option Ty :=
  (readInt i).map Ty.ofCode

/-- How the fields of a record are read, in order: each by its name, over the record as it is. -/
abbrev Fields (α : Type) := List (Bytes × (Item → α → Option α))

/-- The fields of a map, read over a record. Names of no field are passed over. -/
def readEntries {α : Type} (fields : Fields α) : List (Item × Item) → α → Option α
  | [], r => some r
  | (key, item) :: entries, r => do
    let name ← readText key
    match fields.lookup name with
    | some read => readEntries fields entries (← read item r)
    | none => readEntries fields entries r

def readItems {α : Type} : Fields α → List Item → α → Option α
  | [], [], r => some r
  | (_, read) :: fields, item :: items, r => do readItems fields items (← read item r)
  | _, _, _ => none

def readRecord {α : Type} (empty : α) (fields : Fields α) (i : Item) (old : α) : Option α :=
  match i with
  | .nil => some empty
  | .array [] => some empty
  | .array items => readItems fields items old
  | .map entries => readEntries fields entries old
  | _ => none

def readElements {α : Type} (empty : α) (read : Item → α → Option α) :
    List Item → List α → Option (List α)
  | [], _ => some []
  | i :: is, old => do
    let x ← read i (old.headD empty)
    let xs ← readElements empty read is old.tail
    some (x :: xs)

def readList {α : Type} (empty : α) (read : Item → α → Option α) (i : Item) (old : List α) :
    Option (List α) :=
  match i with
  | .nil => some []
  | .array items => readElements empty read items old
  | _ => none

def readNames (i : Item) (old : List Name) : Option (List Name) :=
  match i with
  | .nil => some old
  | .array items => items.mapM readText
  | _ => none

def Value.fields : Fields Value := [
  ("Type", fun i v => (readTy i).map fun ty => { v with ty }),
  ("Sym", fun i v => (readBool i).map fun symbol => { v with symbol }),
  ("Int", fun i v => (readInt i).map fun int => { v with int }),
  ("Str", fun i v => (readText i).map fun str => { v with str })]

def readValue (i : Item) (old : Option Value) : Option (Option Value) :=
  match i with
  | .nil => some none
  | i => (readRecord {} Value.fields i (old.getD {})).map some

def Param.fields : Fields Param := [
  ("Name", fun i p => (readText i).map fun name => { p with name }),
  ("Type", fun i p => (readTy i).map fun ty => { p with ty })]

def Global.fields : Fields Global := [
  ("Name", fun i g => (readText i).map fun name => { g with name }),
  ("Type", fun i g => (readTy i).map fun ty => { g with ty }),
  ("Init", fun i g => (readValue i g.init).map fun init => { g with init })]

def Stmt.fields : Fields Stmt := [
  ("Kind", fun i s => (readUInt8 i).map fun kind => { s with kind }),
  ("Label", fun i s => (readText i).map fun label => { s with label }),
  ("Op", fun i s => (readInt i).map fun op => { s with op }),
  ("Dest", fun i s => (readText i).map fun dest => { s with dest }),
  ("A", fun i s => (readText i).map fun a => { s with a }),
  ("B", fun i s => (readText i).map fun b => { s with b }),
  ("Args", fun i s => (readNames i s.args).map fun args => { s with args }),
  ("Value", fun i s => (readValue i s.value).map fun value => { s with value })]

def Function.fields : Fields Function := [
  ("Name", fun i f => (readText i).map fun name => { f with name }),
  ("Ret", fun i f => (readTy i).map fun result => { f with result }),
  ("Params", fun i f =>
    (readList {} (readRecord {} Param.fields) i f.params).map fun params => { f with params }),
  ("External", fun i f => (readBool i).map fun external => { f with external }),
  ("Body", fun i f =>
    (readList {} (readRecord {} Stmt.fields) i f.body).map fun body => { f with body })]

def Program.fields : Fields Program := [
  ("Version", fun i p => (readInt i).map fun version => { p with version }),
  ("Names", fun i p => (readInt i).map fun names => { p with names }),
  ("Globals", fun i p =>
    (readList {} (readRecord {} Global.fields) i p.globals).map fun globals => { p with globals }),
  ("Funcs", fun i p =>
    (readList {} (readRecord {} Function.fields) i p.functions).map
      fun functions => { p with functions })]

/-- Can an item that starts with this byte be a record? Maps, arrays and nil can. -/
def startsRecord (c : UInt8) : Bool :=
  (0x80 ≤ c && c < 0xa0) || c == 0xc0 || (0xdc ≤ c && c < 0xe0)

/-- The record at the start of some bytes; what follows it does not matter. -/
def Program.read (bytes : Bytes) : Except MessagePack.ReadError Program :=
  match bytes.head? with
  | none => .error .endOfInput
  | some c =>
    if startsRecord c then do
      let (item, _) ← MessagePack.read bytes
      match readRecord {} Program.fields item {} with
      | some p => .ok p
      | none => .error .malformed
    else .error (.notRecord c)

def messagePack : Codec where
  encode := Program.write
  decode bytes := (Program.read bytes).mapError MessagePack.ReadError.message

end MiniC.Snapshot
