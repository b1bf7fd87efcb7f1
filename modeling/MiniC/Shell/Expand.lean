import MiniC.Shell.Expression
import MiniC.Shell.Pattern
import MiniC.Shell.Subshell

namespace MiniC.Shell

/-- Fields that are done, and the one that is being put together. -/
structure Fields where
  done : List Bytes
  current : Option Bytes

namespace Fields

def none : Fields := ⟨[], .none⟩

def add (text : Bytes) (f : Fields) : Fields := { f with current := some (f.current.getD [] ++ text) }

def close (f : Fields) : Fields := ⟨f.done ++ f.current.toList, .none⟩

def addCut (text : Bytes) (f : Fields) : Fields :=
  text.foldl (fun f c => if isBlank c || c == Ascii.newline then f.close else f.add [c]) f

def addAll (f : Fields) : List Bytes → Fields
  | [] => f
  | [text] => f.add text
  | text :: texts => (f.add text).close.addAll texts

end Fields

def isQuoted : Part → Bool
  | .text q _ => q
  | .value q _ _ _ => q
  | .output q _ => q
  | .number q _ => q

def isText : Part → Bool
  | .text _ _ => true
  | _ => false

def looseParts (text : Bytes) : Word :=
  match quotedParts (text.filter (· != Ascii.quote) ++ [Ascii.quote]) with
  | .ok (w, _) => w
  | .error _ => [.text true text]

def withoutNewlines (text : Bytes) : Bytes :=
  (text.reverse.dropWhile (· == Ascii.newline)).reverse

section

variable {m : Type → Type} [Monad m] (env : Env)
variable (nested : Env → Bytes → State → m State) (line : Nat)

def isUsable (evenEmpty : Bool) : Option Bytes → Bool
  | .none => false
  | some value => !evenEmpty || !value.isEmpty

mutual

def partText (fuel : Nat) (p : Part) (s : State) : m (Bytes × State) :=
  match fuel with
  | 0 => return ([], s)
  | fuel + 1 => do
    match p with
    | .text _ text => return (text, s)
    | .output _ script =>
      let run (env : Env) (s : State) : m State := subshell env nested (nested env script) s
      let (text, s) ← capture env run s
      return (withoutNewlines text, s)
    | .number _ expression =>
      let (text, s) ← wordText fuel (looseParts expression) s
      match Expression.evaluate (fun name => (lookUp? env s name).getD []) text with
      | .ok n => return (Bytes.ofInt n.toInt, s)
      | .error e =>
        let message := "arithmetic expression: " ++ e.message ++ ": \"" ++ text ++ "\""
        return ([], s.abort env line message)
    | .value _ name change word =>
      let value := lookUp? env s name
      let text := value.getD []
      match change with
      | .plain => return (text, s)
      | .length => return (Bytes.ofNat text.length, s)
      | .orElse evenEmpty =>
        if isUsable evenEmpty value then return (text, s) else wordText fuel (looseParts word) s
      | .assign evenEmpty =>
        if isUsable evenEmpty value then return (text, s)
        let (text, s) ← wordText fuel (looseParts word) s
        return (text, s.setVar name text)
      | .instead evenEmpty =>
        if isUsable evenEmpty value then wordText fuel (looseParts word) s else return ([], s)
      | .require evenEmpty =>
        if isUsable evenEmpty value then return (text, s)
        let (message, s) ← wordText fuel (looseParts word) s
        let reason : Bytes := if message.isEmpty then "parameter not set or null" else message
        return ([], s.abort env line (name ++ ": " ++ reason))
      | .cutStart longest =>
        let (pattern, s) ← wordText fuel (looseParts word) s
        return (withoutStart longest (pattern.map (·, false)) text, s)
      | .cutEnd longest =>
        let (pattern, s) ← wordText fuel (looseParts word) s
        return (withoutEnd longest (pattern.map (·, false)) text, s)
      | .invalid => return ([], s.abort env line "Bad substitution")

def wordText (fuel : Nat) (w : Word) (s : State) : m (Bytes × State) :=
  match fuel with
  | 0 => return ([], s)
  | fuel + 1 =>
    match w with
    | [] => return ([], s)
    | p :: w => do
      let (text, s) ← partText fuel p s
      let (rest, s) ← wordText fuel w s
      return (text ++ rest, s)

end

def nesting (w : Word) : Nat := w.length + 1000

def expandWhole (w : Word) (s : State) : m (Bytes × State) :=
  wordText env nested line (nesting w) w s

def expandPattern : Word → State → m (List Letter × State)
  | [], s => return ([], s)
  | p :: w, s => do
    let (text, s) ← partText env nested line (nesting w) p s
    let (letters, s) ← expandPattern w s
    return (text.map (·, isQuoted p) ++ letters, s)

def expandParts : Word → Fields → State → m (List Bytes × State)
  | [], f, s => return (f.close.done, s)
  | [.value true [0x40] .plain _, .text true []], f, s => return ((f.addAll s.args).close.done, s)
  | .value true [0x40] .plain _ :: w, f, s => expandParts w (f.addAll s.args) s
  | p :: w, f, s => do
    let (text, s) ← partText env nested line (nesting w) p s
    expandParts w (if isQuoted p || isText p then f.add text else f.addCut text) s

def expandAll : List Word → State → m (List Bytes × State)
  | [], s => return ([], s)
  | w :: ws, s => do
    let (here, s) ← expandParts env nested line w .none s
    let (rest, s) ← expandAll ws s
    return (here ++ rest, s)

end

def plainLead : Word → Bytes
  | .text false [c] :: w => c :: plainLead w
  | _ => []

def assignment? (w : Word) : Option (Bytes × Word) :=
  let lead := plainLead w
  let name := lead.takeWhile Ascii.isWord
  if isName name && (lead.drop name.length).head? == some 0x3d then
    some (name, w.drop (name.length + 1))
  else none

end MiniC.Shell
