import MiniC.Source.Token
import MiniC.Source.Tree

namespace MiniC.Source

inductive Wanted
  | expression
  | literal
  | type
  | identifier
  | punct (p : Punct)
  deriving DecidableEq, Repr

def Wanted.text : Wanted → Bytes
  | .expression => "expression"
  | .literal => "literal"
  | .type => "type"
  | .identifier => "identifier"
  | .punct p => Text.Quoted.double p.text

inductive SyntaxFault
  | lexical (error : Lexeme.Error)
  | expected (want : Wanted) (got : Option Lexeme)
  | openBlock
  | voidGlobal (name : Name)
  | stringGlobal (name : Name)
  | voidVariable (name : Name)
  | stringVariable (name : Name)
  | needsVariable (op : UnOp)
  | badInteger (numeral : Bytes) (error : Numeral.Error)
  | reservedName (name : Name)
  deriving DecidableEq, Repr

def SyntaxFault.message : SyntaxFault → Bytes
  | .lexical error => error.message
  | .expected want none => "expected " ++ want.text ++ ", got end of file"
  | .expected want (some got) =>
    "expected " ++ want.text ++ ", got " ++ got.kind ++ " " ++ Text.Quoted.double got.text
  | .openBlock => "unexpected end of file, expected \x7d"
  | .voidGlobal name => "void global: " ++ name
  | .stringGlobal name => "string global " ++ name ++ " declared without initializer"
  | .voidVariable name => "void variable: " ++ name
  | .stringVariable name => "string variable " ++ name ++ " declared without initializer"
  | .needsVariable op => op.text ++ " needs a variable operand"
  | .badInteger numeral error =>
    "bad integer " ++ numeral ++ ": " ++ error.unsignedMessage numeral
  | .reservedName name =>
    "identifiers can't start with " ++ Text.Quoted.double Name.reserved ++ ": " ++ name

structure SyntaxError where
  pos : Position
  fault : SyntaxFault
  deriving DecidableEq, Repr

def SyntaxError.message (name : Name) (e : SyntaxError) : Bytes :=
  name ++ ":" ++ e.pos.text ++ ": " ++ e.fault.message

end MiniC.Source
