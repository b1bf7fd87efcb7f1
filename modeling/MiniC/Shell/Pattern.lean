import MiniC.Bytes

namespace MiniC.Shell

abbrev Letter := UInt8 × Bool

inductive Glob
  | letter (c : UInt8)
  | any
  | star
  | set (negated : Bool) (ranges : List (UInt8 × UInt8))
  deriving DecidableEq, Repr

namespace Glob

def ranges (first : Bool) (letters : List Letter) : Option (List (UInt8 × UInt8) × List Letter) :=
  match letters with
  | [] => none
  | (a, _) :: (0x2d, m) :: (b, n) :: rest =>
    if a = 0x5d ∧ !first then some ([], (0x2d, m) :: (b, n) :: rest)
    else if b = 0x5d then
      (ranges false ((0x2d, m) :: (b, n) :: rest)).map fun (rs, left) => ((a, a) :: rs, left)
    else (ranges false rest).map fun (rs, left) => ((a, b) :: rs, left)
  | (a, _) :: rest =>
    if a = 0x5d ∧ !first then some ([], rest)
    else (ranges false rest).map fun (rs, left) => ((a, a) :: rs, left)
termination_by letters.length

def set? : List Letter → Option (Glob × List Letter)
  | (0x21, false) :: letters => (ranges true letters).map fun (rs, left) => (.set true rs, left)
  | letters => (ranges true letters).map fun (rs, left) => (.set false rs, left)

def ofLetters : (fuel : Nat) → List Letter → List Glob
  | 0, _ => []
  | _, [] => []
  | fuel + 1, (c, plain) :: rest =>
    if plain then .letter c :: ofLetters fuel rest
    else if c = Ascii.star then .star :: ofLetters fuel rest
    else if c = 0x3f then .any :: ofLetters fuel rest
    else if c = 0x5b then
      match set? rest with
      | some (g, left) => g :: ofLetters fuel left
      | none => .letter c :: ofLetters fuel rest
    else .letter c :: ofLetters fuel rest

def covers : List Glob → Bytes → Bool
  | [], text => text.isEmpty
  | .star :: gs, [] => covers gs []
  | .star :: gs, c :: text => covers gs (c :: text) || covers (.star :: gs) text
  | _ :: _, [] => false
  | .letter d :: gs, c :: text => c == d && covers gs text
  | .any :: gs, _ :: text => covers gs text
  | .set negated rs :: gs, c :: text =>
    (rs.any (fun (a, b) => a ≤ c && c ≤ b)) != negated && covers gs text
termination_by gs text => gs.length + text.length

end Glob

def matchesPattern (pattern : List Letter) (text : Bytes) : Bool :=
  Glob.covers (Glob.ofLetters pattern.length pattern) text

def withoutStart (longest : Bool) (pattern : List Letter) (text : Bytes) : Bytes :=
  let lengths := List.range (text.length + 1)
  let tried := if longest then lengths.reverse else lengths
  match tried.find? fun n => matchesPattern pattern (text.take n) with
  | some n => text.drop n
  | none => text

def withoutEnd (longest : Bool) (pattern : List Letter) (text : Bytes) : Bytes :=
  let lengths := List.range (text.length + 1)
  let tried := if longest then lengths else lengths.reverse
  match tried.find? fun n => matchesPattern pattern (text.drop n) with
  | some n => text.take n
  | none => text

end MiniC.Shell
