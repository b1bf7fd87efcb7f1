import MiniC.Bytes

namespace MiniC.Path

def slash : UInt8 := Ascii.slash

def dot : UInt8 := 0x2e

def split (separator : UInt8) : Bytes → List Bytes
  | [] => [[]]
  | c :: text =>
    if c = separator then [] :: split separator text
    else
      match split separator text with
      | [] => [[c]]
      | part :: parts => (c :: part) :: parts

theorem split_ne_nil (separator : UInt8) (text : Bytes) : split separator text ≠ [] := by
  cases text with
  | nil => simp [split]
  | cons c text =>
    rw [split]
    split
    · simp
    · split <;> simp

def isAbsolute (path : Bytes) : Bool :=
  path.head? == some slash

def names (path : Bytes) : List Bytes :=
  (split slash path).filter fun name => !name.isEmpty

def extension (path : Bytes) : Bytes :=
  let name := (path.reverse.takeWhile (· != slash)).reverse
  if name.contains dot then dot :: (name.reverse.takeWhile (· != dot)).reverse else []

def withoutEnding (ending text : Bytes) : Bytes :=
  if ending.isSuffixOf text then text.take (text.length - ending.length) else text

def withoutExtension (path : Bytes) : Bytes :=
  withoutEnding (extension path) path

def base (path : Bytes) : Bytes :=
  if path.isEmpty then [dot]
  else
    match (names path).getLast? with
    | some name => name
    | none => [slash]

/-- One more name of a shortest path: a point adds nothing, and two points take the last name away. -/
def step (absolute : Bool) (done : List Bytes) (name : Bytes) : List Bytes :=
  if name = [dot] then done
  else if name ≠ [dot, dot] then done ++ [name]
  else
    match done.getLast? with
    | none => if absolute then [] else [name]
    | some last => if last = [dot, dot] then done ++ [name] else done.dropLast

def clean (path : Bytes) : Bytes :=
  let shortest := List.intercalate [slash] ((names path).foldl (step (isAbsolute path)) [])
  if isAbsolute path then slash :: shortest
  else if shortest.isEmpty then [dot]
  else shortest

def join (dir path : Bytes) : Bytes :=
  if dir.isEmpty && path.isEmpty then []
  else if dir.isEmpty then clean path
  else clean (dir ++ slash :: path)

end MiniC.Path
