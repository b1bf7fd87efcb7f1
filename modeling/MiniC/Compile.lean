import MiniC.Assembly.OfProgram
import MiniC.Code.OfSource
import MiniC.Source.Parser
import MiniC.Storage.Assign

namespace MiniC

/-- Why a text cannot be lowered to three-address code. -/
inductive LowerError
  | parse (error : Source.SyntaxError)
  | lower (error : Code.OfSource.Error)
  deriving DecidableEq, Repr

def LowerError.message (name : Bytes) : LowerError → Bytes
  | .parse error => "parse text: " ++ error.message name
  | .lower error => "lower: " ++ Code.OfSource.Error.message error

def lower (text : Bytes) : Except LowerError Code.Program := do
  let source ← (Source.parse text).mapError .parse
  (Code.Program.ofSource source).mapError .lower

inductive CompileError
  | lower (error : LowerError)
  | assign (error : Storage.Error)
  | emit (error : Assembly.Error)
  deriving DecidableEq, Repr

def CompileError.message (name : Bytes) : CompileError → Bytes
  | .lower error => error.message name
  | .assign error => "assign storage: " ++ Storage.Error.message error
  | .emit error => "compile: " ++ Assembly.Error.message error

def compileCode (startup : Assembly.Startup) (p : Code.Program) :
    Except CompileError (List Assembly.Line) :=
  let assigned := p.assign
  match assigned.error with
  | some e => .error (.assign e)
  | none => (Assembly.ofProgram startup assigned.program).mapError .emit

def compile (startup : Assembly.Startup) (text : Bytes) :
    Except CompileError (List Assembly.Line) := do
  let p ← (lower text).mapError .lower
  compileCode startup p

end MiniC
