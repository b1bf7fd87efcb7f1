import MiniC.Bytes

namespace MiniC

abbrev Roles := UInt8

namespace Roles

def scratch : Roles := 1
def argument : Roles := 2
def result : Roles := 4
def callerSaved : Roles := 8
def calleeSaved : Roles := 16
def localVar : Roles := 32

def names : List (Roles × Bytes) :=
  [(scratch, "scratch"), (argument, "arg"), (result, "ret"), (callerSaved, "caller"),
    (calleeSaved, "callee"), (localVar, "local")]

def text (roles : Roles) : Bytes :=
  List.intercalate "|" ((names.filter fun (role, _) => roles &&& role ≠ 0).map Prod.snd)

end Roles

/-- A register, by number. Numbers outside of the table belong to no register of the machine. -/
structure Register where
  number : Int
  deriving DecidableEq, Repr

namespace Register

def zero : Register := ⟨0⟩
def ra : Register := ⟨1⟩
def sp : Register := ⟨2⟩
def gp : Register := ⟨3⟩
def tp : Register := ⟨4⟩
def fp : Register := ⟨5⟩
def t0 : Register := ⟨6⟩
def t1 : Register := ⟨7⟩
def t2 : Register := ⟨8⟩
def t3 : Register := ⟨9⟩
def t4 : Register := ⟨10⟩
def t5 : Register := ⟨11⟩
def t6 : Register := ⟨12⟩
def a0 : Register := ⟨13⟩
def a1 : Register := ⟨14⟩
def a2 : Register := ⟨15⟩
def a3 : Register := ⟨16⟩
def a4 : Register := ⟨17⟩
def a5 : Register := ⟨18⟩
def a6 : Register := ⟨19⟩
def a7 : Register := ⟨20⟩
def s1 : Register := ⟨21⟩
def s2 : Register := ⟨22⟩
def s3 : Register := ⟨23⟩
def s4 : Register := ⟨24⟩
def s5 : Register := ⟨25⟩
def s6 : Register := ⟨26⟩
def s7 : Register := ⟨27⟩
def s8 : Register := ⟨28⟩
def s9 : Register := ⟨29⟩
def s10 : Register := ⟨30⟩
def s11 : Register := ⟨31⟩

/-- The names and uses of the registers, in the order of their numbers. The frame pointer is `s0`. -/
def table : List (Bytes × Roles) :=
  open Roles in
  [("zero", 0),
    ("ra", calleeSaved),
    ("sp", 0),
    ("gp", 0),
    ("tp", 0),
    ("fp", calleeSaved),
    ("t0", callerSaved),
    ("t1", callerSaved),
    ("t2", scratch ||| callerSaved),
    ("t3", scratch ||| callerSaved),
    ("t4", scratch ||| callerSaved),
    ("t5", scratch ||| callerSaved),
    ("t6", scratch ||| callerSaved),
    ("a0", argument ||| callerSaved ||| result),
    ("a1", argument ||| callerSaved ||| result),
    ("a2", argument ||| callerSaved),
    ("a3", argument ||| callerSaved),
    ("a4", argument ||| callerSaved),
    ("a5", argument ||| callerSaved),
    ("a6", argument ||| callerSaved),
    ("a7", argument ||| callerSaved),
    ("s1", localVar ||| calleeSaved),
    ("s2", localVar ||| calleeSaved),
    ("s3", localVar ||| calleeSaved),
    ("s4", localVar ||| calleeSaved),
    ("s5", localVar ||| calleeSaved),
    ("s6", localVar ||| calleeSaved),
    ("s7", localVar ||| calleeSaved),
    ("s8", localVar ||| calleeSaved),
    ("s9", localVar ||| calleeSaved),
    ("s10", localVar ||| calleeSaved),
    ("s11", localVar ||| calleeSaved)]

def all : List Register :=
  (List.range table.length).map fun (i : Nat) => ⟨i⟩

def entry? (r : Register) : Option (Bytes × Roles) :=
  if 0 ≤ r.number then table[r.number.toNat]? else none

def isValid (r : Register) : Bool :=
  r.entry?.isSome

def name (r : Register) : Bytes :=
  match r.entry? with
  | some (name, _) => name
  | none => "r?"

def roles (r : Register) : Roles :=
  match r.entry? with
  | some (_, roles) => roles
  | none => 0

def hasRoles (r : Register) (roles : Roles) : Bool :=
  r.isValid && r.roles &&& roles == roles

def withRoles (roles : Roles) : List Register :=
  all.filter fun r => r.hasRoles roles

def args : List Register := withRoles Roles.argument
def results : List Register := withRoles Roles.result
def scratchPool : List Register := withRoles Roles.scratch
def locals : List Register := withRoles Roles.localVar
def calleeSaved : List Register := withRoles Roles.calleeSaved
def callerSaved : List Register := withRoles Roles.callerSaved

def ofName? (name : Bytes) : Option Register :=
  all.find? fun r => r.name = name

/-- The temporary of the code that is emitted for one statement. No variable is ever kept in it. -/
def temporary : Register := t0

end Register

end MiniC
