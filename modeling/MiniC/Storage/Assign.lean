import MiniC.Fault
import MiniC.Storage.Frame
import MiniC.Storage.Moves
import MiniC.Storage.Placement
import MiniC.Storage.Strings

namespace MiniC.Storage

open Code

inductive Step
  | function (name : Name)
  | strings
  | places
  deriving DecidableEq, Repr

def Step.text : Step → Bytes
  | .function name => "func " ++ name
  | .strings => "extract strings"
  | .places => "allocate"

inductive Cause
  | labelTaken (name : Name)
  | redeclared (name : Name)
  deriving DecidableEq, Repr

def Cause.text : Cause → Bytes
  | .labelTaken name => "string label collides with global: " ++ name
  | .redeclared name => "redeclared global: " ++ name

abbrev Error := Fault Step Cause

def Error.message (e : Error) : Bytes :=
  Fault.message Step.text Cause.text e

/-- Functions, with the names and globals of their program, as far as they were processed, and what
stopped it. -/
structure Progress (α : Type) where
  names : Namer
  globals : List Global
  result : α
  error : Option Error

section

variable (queue : Queue Usage Usage.less)

def assignFunction (names : Namer) (globals : List Global) (f : Function) : Progress Function :=
  let strings := extractStrings names globals f.body
  let f := { f with body := strings.body }
  match strings.collision with
  | some label => ⟨strings.names, strings.globals, f, some ⟨[.strings], .labelTaken label⟩⟩
  | none =>
    match place queue strings.globals f.params f.body with
    | .error name => ⟨strings.names, strings.globals, f, some ⟨[.places], .redeclared name⟩⟩
    | .ok layout =>
      let moved := moveBody strings.names layout.withFrame f.body
      ⟨moved.names, strings.globals, { f with body := moved.code, layout := some moved.layout }, none⟩

def assignFunctions (names : Namer) (globals : List Global) :
    List Function → Progress (List Function)
  | [] => ⟨names, globals, [], none⟩
  | f :: fs =>
    if f.external then
      let rest := assignFunctions names globals fs
      { rest with result := f :: rest.result }
    else
      let first := assignFunction queue names globals f
      match first.error with
      | some e =>
        ⟨first.names, first.globals, first.result :: fs,
          some { e with path := .function f.name :: e.path }⟩
      | none =>
        let rest := assignFunctions first.names first.globals fs
        { rest with result := first.result :: rest.result }

end

end Storage

/-- A program after storage assignment, or as far as it was changed before an error. -/
structure Code.Assigned where
  program : Code.Program
  error : Option Storage.Error

/-- Storage assignment, with any queue for the names that want a register. -/
def Code.Program.assignBy (queue : Storage.Queue Storage.Usage Storage.Usage.less) (p : Code.Program) : Code.Assigned :=
  let done := Storage.assignFunctions queue p.names p.globals p.functions
  ⟨⟨done.names, done.globals, done.result⟩, done.error⟩

def Code.Program.assign (p : Code.Program) : Code.Assigned :=
  p.assignBy Storage.Usage.queue

theorem Code.Program.assign_of_error {p : Code.Program} (ok : p.assign.error = none) :
    p.assign = ⟨p.assign.program, none⟩ := by
  rw [← ok]

end MiniC
