import MiniC.Bytes

namespace MiniC.Toml

abbrev Key := Bytes

abbrev Path := List Key

inductive Scalar
  | string (text : Bytes)
  | integer (n : Int64)
  | boolean (b : Bool)
  | float
  | date
  deriving DecidableEq, Repr

inductive Term
  | scalar (value : Scalar)
  | array (items : List Term)
  | inline (entries : List (Path × Term))
  deriving Repr, Inhabited

inductive Item
  | table (path : Path)
  | element (path : Path)
  | entry (path : Path) (term : Term)
  deriving Repr, Inhabited

/-- A value of a document. Tables list their entries in the order of definition. -/
inductive Value
  | scalar (value : Scalar)
  | array (items : List Value)
  | table (entries : List (Key × Value))
  | tables (elements : List (List (Key × Value)))
  deriving Repr, Inhabited

abbrev Table := List (Key × Value)

def isBare (c : Char) : Bool :=
  c.isAlphanum || c == '_' || c == '-'

def isBareByte (b : UInt8) : Bool :=
  Ascii.isWord b || b == 0x2d

def escapeByte (b : UInt8) : Bytes :=
  if b = 0x08 then "\\b"
  else if b = Ascii.tab then "\\t"
  else if b = Ascii.newline then "\\n"
  else if b = 0x0c then "\\f"
  else if b = Ascii.carriageReturn then "\\r"
  else if b = Ascii.quote ∨ b = Ascii.backslash then [Ascii.backslash, b]
  else if b < 0x20 ∨ b = 0x7f then "\\u" ++ Bytes.hex 4 b.toNat
  else [b]

def keyText (key : Key) : Bytes :=
  if !key.isEmpty && key.all isBareByte then key
  else "\"" ++ key.flatMap escapeByte ++ "\""

def pathText (path : Path) : Bytes :=
  List.intercalate "." (path.map keyText)

end MiniC.Toml
