import MiniC.Files.Host

namespace MiniC

/-- A part of a file tree. What is written to a `sink` is gone. -/
inductive Node
  | file (content : Bytes)
  | sink
  | directory (entries : List (Bytes × Node))
  deriving Repr, Inhabited

namespace Node

def get? : Node → List Bytes → Option Node
  | node, [] => some node
  | .directory entries, name :: names =>
    match entries.lookup name with
    | some node => node.get? names
    | none => none
  | _, _ :: _ => none

def setEntry (name : Bytes) (node : Node) : List (Bytes × Node) → List (Bytes × Node)
  | [] => [(name, node)]
  | (n, old) :: entries =>
    if n = name then (n, node) :: entries else (n, old) :: setEntry name node entries

def set (node : Node) : List Bytes → Node → Node
  | [], _ => node
  | name :: names, .directory entries =>
    let child := (entries.lookup name).getD (.directory [])
    .directory (setEntry name (set node names child) entries)
  | _ :: _, other => other

end Node

/-- A file tree and the directory that paths start from. -/
structure FileTree where
  root : Node
  start : List Bytes
  deriving Repr

namespace FileTree

def empty : FileTree where
  root := .directory [("dev", .directory [("null", .sink)]),
    ("tmp", .directory [("work", .directory [])])]
  start := ["tmp", "work"]

def walk (root : Node) : (place : List Bytes) → List Bytes → Except FileFault (List Bytes)
  | place, [] => .ok place
  | place, name :: names =>
    match root.get? place with
    | some (.directory entries) =>
      if name = [Path.dot] then walk root place names
      else if name = [Path.dot, Path.dot] then walk root place.dropLast names
      else if 255 < name.length then .error .nameTooLong
      else if (entries.lookup name).isSome then walk root (place ++ [name]) names
      else .error .notFound
    | some _ => .error .notDirectory
    | none => .error .notFound

def steps (path : Bytes) : List Bytes :=
  let names := Path.names path
  if path.getLast? = some Path.slash then names ++ [[Path.dot]] else names

def place (t : FileTree) (path : Bytes) : List Bytes :=
  if Path.isAbsolute path then [] else t.start

def longest : Nat := 4095

def locate (t : FileTree) (path : Bytes) : Except FileFault (List Bytes) :=
  if path.isEmpty then .error .notFound
  else if path.contains 0 then .error .invalid
  else if longest < path.length then .error .nameTooLong
  else walk t.root (t.place path) (steps path)

def withoutSlashes (path : Bytes) : Bytes :=
  (path.reverse.dropWhile (· == Path.slash)).reverse

def locateNew (t : FileTree) (path : Bytes) : Except FileFault (List Bytes) :=
  match (Path.names path).getLast? with
  | none => .error .notFound
  | some name => do
    if longest < path.length then .error .nameTooLong
    let parent ← walk t.root (t.place path) (Path.names path).dropLast
    match t.root.get? parent with
    | some (.directory _) => .ok (parent ++ [name])
    | _ => .error .notDirectory

def put (t : FileTree) (node : Node) (place : List Bytes) : FileTree :=
  { t with root := Node.set node place t.root }

def read (t : FileTree) (path : Bytes) : Except FileError Bytes :=
  match t.locate path with
  | .error fault => .error ⟨.openFile, path, fault⟩
  | .ok place =>
    match t.root.get? place with
    | some (.file content) => .ok content
    | some .sink => .ok []
    | some (.directory _) => .error ⟨.readFile, path, .isDirectory⟩
    | none => .error ⟨.openFile, path, .notFound⟩

/-- Writes a file. A path with a slash at its end is refused once the names before the last are found. -/
def write (t : FileTree) (path content : Bytes) : Except FileError FileTree :=
  let refuse (fault : FileFault) : Except FileError FileTree := .error ⟨.openFile, path, fault⟩
  match t.locate path with
  | .ok place =>
    match t.root.get? place with
    | some (.directory _) => refuse .isDirectory
    | some .sink => .ok t
    | _ => .ok (t.put (.file content) place)
  | .error fault =>
    match t.locateNew path with
    | .error _ => refuse fault
    | .ok place =>
      if path.getLast? = some Path.slash then refuse .isDirectory
      else if fault = .notFound then .ok (t.put (.file content) place)
      else refuse fault

def isDirectory (t : FileTree) (path : Bytes) : Option Bool :=
  match t.locate path with
  | .error _ => none
  | .ok place =>
    match t.root.get? place with
    | some (.directory _) => some true
    | some _ => some false
    | none => none

def makeDirectory (t : FileTree) (path : Bytes) : Except FileError FileTree :=
  match t.locate (withoutSlashes path) with
  | .ok _ => .error ⟨.makeDirectory, path, .alreadyThere⟩
  | .error .notFound =>
    match t.locateNew path with
    | .ok place => .ok (t.put (.directory []) place)
    | .error fault => .error ⟨.makeDirectory, path, fault⟩
  | .error fault => .error ⟨.makeDirectory, path, fault⟩

def parent? (path : Bytes) : Option Bytes :=
  let above := (withoutSlashes path).reverse.dropWhile (· != Path.slash)
  if above.isEmpty then none else some above.reverse

theorem length_parent? {path parent : Bytes} (found : parent? path = some parent) :
    parent.length < path.length := by
  simp only [parent?, withoutSlashes, List.reverse_reverse] at found
  have trimmed := (List.dropWhile_suffix (· == Path.slash) (l := path.reverse)).length_le
  have first := List.head?_dropWhile_not (· == Path.slash) path.reverse
  cases named : path.reverse.dropWhile (· == Path.slash) with
  | nil => simp [named] at found
  | cons c rest =>
    rw [named] at found trimmed first
    have kept : (c != Path.slash) = true := by simpa using first
    rw [List.dropWhile_cons, if_pos kept] at found
    have cut := (List.dropWhile_suffix (· != Path.slash) (l := rest)).length_le
    split at found
    · simp at found
    · simp only [Option.some.injEq] at found
      rw [← found, List.length_reverse]
      rw [List.length_cons, List.length_reverse] at trimmed
      omega

def makeDirectories (t : FileTree) (path : Bytes) : Except FileError FileTree :=
  match t.isDirectory path with
  | some true => .ok t
  | some false => .error ⟨.makeDirectory, path, .notDirectory⟩
  | none =>
    match _found : parent? path with
    | none => t.makeDirectory path
    | some parent => do
      let t ← makeDirectories t parent
      match t.makeDirectory path with
      | .ok t => .ok t
      | .error e => if t.isDirectory path = some true then .ok t else .error e
termination_by path.length
decreasing_by exact length_parent? _found

def ofFiles (files : List (Bytes × Bytes)) : FileTree :=
  files.foldl (fun t (path, content) =>
    let made := match parent? path with
      | some parent => (t.makeDirectories parent).toOption.getD t
      | none => t
    (made.write path content).toOption.getD made) empty

def lift {α : Type} (t : FileTree) (result : Except FileError FileTree) (a : α) :
    Except FileError α × FileTree :=
  match result with
  | .ok t => (.ok a, t)
  | .error e => (.error e, t)

def disk : FileSystem (StateM FileTree) where
  read path := fun t => (t.read path, t)
  write path content := fun t => lift t (t.write path content) ()
  makeDirectories path := fun t => lift t (t.makeDirectories path) ()
  isThere path := fun t => ((t.locate path).isOk, t)

mutual

def nodeFiles (path : Bytes) : Node → List (Bytes × Bytes)
  | .file content => [(path, content)]
  | .sink => []
  | .directory entries => entryFiles path entries

def entryFiles (path : Bytes) : List (Bytes × Node) → List (Bytes × Bytes)
  | [] => []
  | (name, node) :: entries =>
    nodeFiles (if path.isEmpty then name else path ++ Path.slash :: name) node ++
      entryFiles path entries

end

def textBefore : Bytes → Bytes → Bool
  | _, [] => false
  | [], _ :: _ => true
  | a :: as, b :: bs => if a = b then textBefore as bs else a.toNat < b.toNat

def namesBefore : List Bytes → List Bytes → Bool
  | [], _ => true
  | _ :: _, [] => false
  | a :: as, b :: bs => if a = b then namesBefore as bs else textBefore a b

def before (a b : Bytes × Bytes) : Bool :=
  namesBefore (Path.names a.1) (Path.names b.1)

def files (t : FileTree) : List (Bytes × Bytes) :=
  match t.root.get? t.start with
  | some node => (nodeFiles [] node).mergeSort before
  | none => []

def changedSince (old t : FileTree) : List (Bytes × Bytes) :=
  t.files.filter fun file => !old.files.contains file

end FileTree

end MiniC
