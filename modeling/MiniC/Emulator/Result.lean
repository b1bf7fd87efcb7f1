import MiniC.Bytes

namespace MiniC.Emulator

def lines : Bytes → List Bytes
  | [] => []
  | c :: rest =>
    if c = Ascii.newline then [c] :: lines rest
    else
      match lines rest with
      | [] => [[c]]
      | line :: others => (c :: line) :: others

def withoutBanner (banner text : Bytes) : Bytes :=
  if banner.isEmpty then text
  else ((lines text).filter fun line => !banner.isPrefixOf line).flatten

structure Result where
  timedOut : Bool
  exit : Int
  stdout : Bytes
  stderr : Bytes
  deriving DecidableEq, Repr

def Result.ok (r : Result) : Bool := r.exit = 0 && !r.timedOut

def Result.output (r : Result) : Bytes := r.stdout ++ r.stderr

end MiniC.Emulator
