import MiniC.Bytes

namespace MiniC

structure Fault (Step Cause : Type) where
  path : List Step
  cause : Cause
  deriving DecidableEq, Repr

variable {Step Cause α : Type}

theorem mapError_ok {ε ε' : Type} (f : ε → ε') (a : α) : (Except.ok a).mapError f = .ok a := rfl

theorem mapError_error {ε ε' : Type} (f : ε → ε') (e : ε) :
    (Except.error e : Except ε α).mapError f = .error (f e) := rfl

def fail (cause : Cause) : Except (Fault Step Cause) α :=
  .error ⟨[], cause⟩

def within (step : Step) (x : Except (Fault Step Cause) α) : Except (Fault Step Cause) α :=
  x.mapError fun f => { f with path := step :: f.path }

def Fault.message (step : Step → Bytes) (cause : Cause → Bytes) (f : Fault Step Cause) : Bytes :=
  List.intercalate ": " (f.path.map step ++ [cause f.cause])

end MiniC
