import MiniC.Bytes

namespace MiniC

abbrev Name := Bytes

namespace Name

def reserved : Bytes := "__"

def isGenerated (name : Name) : Bool :=
  reserved.isPrefixOf name

def temporary : Bytes := "t"
def label : Bytes := "L"
def string : Bytes := "str"
def scratch : Bytes := "s"

def generated (kind : Bytes) (count : Int64) : Name :=
  reserved ++ kind ++ Bytes.ofInt count.toInt

end Name

/-- The count of the names generated so far. -/
structure Namer where
  count : Int64
  deriving DecidableEq, Repr

def Namer.fresh (n : Namer) (kind : Bytes) : Name × Namer :=
  (Name.generated kind (n.count + 1), ⟨n.count + 1⟩)

end MiniC
