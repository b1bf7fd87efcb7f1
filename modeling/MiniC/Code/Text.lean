import MiniC.Code.Basic
import MiniC.Text.Blank
import MiniC.Text.Quoted

namespace MiniC.Code

def Value.text : Value → Bytes
  | .int value => Bytes.ofInt value.toInt
  | .char value => Text.Quoted.single value
  | .str value => Text.Quoted.double value
  | .symbol name => "&" ++ name

def Value.text? : Option Value → Bytes
  | some value => value.text
  | none => "<nil>"

def aboutName (name : Name) (text : Bytes) : Bytes :=
  if name = [] then [] else text

namespace Action

def text : Action → Bytes
  | .nop => []
  | .store dest value => "\t" ++ dest ++ " = " ++ Value.text? value ++ "\n"
  | .binary op dest left right =>
    "\t" ++ dest ++ " = " ++ op.text ++ " " ++ left ++ ", " ++ right ++ "\n"
  | .unary op dest arg => "\t" ++ dest ++ " = " ++ op.text ++ " " ++ arg ++ "\n"
  | .jump target => "\tjump " ++ target ++ "\n"
  | .branch check var target => "\t" ++ check.text ++ " " ++ var ++ ", " ++ target ++ "\n"
  | .call callee args result =>
    "\t" ++ aboutName result (result ++ " = ") ++ "call " ++ callee ++
      "[" ++ List.intercalate " " args ++ "]\n"
  | .ret var => "\treturn" ++ aboutName var (" " ++ var) ++ "\n"
  | .move src dst => "\tmove " ++ dst.text ++ " <- " ++ src.text ++ "\n"

def summary (a : Action) : Bytes :=
  Text.trim a.text

end Action

def Stmt.text (s : Stmt) : Bytes :=
  aboutName s.label (s.label ++ ":\n") ++ s.action.text

def Param.text (p : Param) : Bytes :=
  p.ty.text ++ " " ++ p.name

def Function.text (f : Function) : Bytes :=
  let head := "\nfunc " ++ f.result.text ++ " " ++ f.name ++ "(" ++
    List.intercalate ", " (f.params.map Param.text) ++ ")"
  if f.external then head ++ "\n" else head ++ " \x7b\n" ++ f.body.flatMap Stmt.text ++ "\x7d\n"

def Global.text (g : Global) : Bytes :=
  match g.init with
  | some value => "global " ++ g.ty.text ++ " " ++ g.name ++ " = " ++ value.text ++ "\n"
  | none => "global " ++ g.ty.text ++ " " ++ g.name ++ "\n"

def Program.text (p : Program) : Bytes :=
  p.globals.flatMap Global.text ++ p.functions.flatMap Function.text

end MiniC.Code
