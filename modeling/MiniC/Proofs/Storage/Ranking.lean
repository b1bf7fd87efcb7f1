import MiniC.Proofs.Storage.Places
import MiniC.Proofs.Storage.Tiling

/-!
Which names get registers. The names of a body that are neither globals nor parameters choose one after the other,
the most used first; those that are read take the registers for local names in their order, as long as there are any,
and all others live in the frame.
-/

namespace MiniC.Storage

open Code

inductive Access
  | read (name : Name)
  | write (name : Name)
  deriving DecidableEq

def Access.name : Access → Name
  | .read name | .write name => name

variable {queue : Queue Usage Usage.less} {all : List Access} {x y : Name} {names : List Name} {us : List Usage} {l : Layout}

section

variable (all : List Access)

def useCount (x : Name) : Nat :=
  all.count (.read x) + all.count (.write x)

def firstUse (x : Name) : Nat :=
  (all.map Access.name).idxOf x

/-- `x` chooses before `y`: it is used more often, or as often and appears first. -/
def Precedes (x y : Name) : Prop :=
  useCount all y < useCount all x ∨ useCount all x = useCount all y ∧ firstUse all x < firstUse all y

/-- The names that choose, in their order. -/
structure IsRanking (globals : List Global) (params : List Param) (names : List Name) : Prop where
  once : names.Nodup
  each : ∀ x, x ∈ names ↔ x ∈ all.map Access.name ∧ x ∉ globals.map (·.name) ∧ x ∉ params.map (·.name)
  order : names.Pairwise (Precedes all)

end

instance (all : List Access) (x y : Name) : Decidable (Precedes all x y) :=
  inferInstanceAs (Decidable (_ ∨ _))

theorem Precedes.asymm (precedes : Precedes all x y) : ¬ Precedes all y x := by
  unfold Precedes at precedes ⊢
  omega

theorem Precedes.ne (precedes : Precedes all x y) : x ≠ y := by
  rintro rfl
  exact precedes.asymm precedes

theorem isRanking_iff {globals : List Global} {params : List Param} :
    IsRanking all globals params names ↔ names.Nodup ∧ names.Pairwise (Precedes all) ∧
      (∀ x ∈ names, x ∈ all.map Access.name ∧ x ∉ globals.map (·.name) ∧ x ∉ params.map (·.name)) ∧
      ∀ x ∈ all.map Access.name, x ∉ globals.map (·.name) ∧ x ∉ params.map (·.name) → x ∈ names := by
  constructor
  · intro ranking
    exact ⟨ranking.once, ranking.order, fun x => (ranking.each x).1, fun x there isLocal => (ranking.each x).2 ⟨there, isLocal⟩⟩
  · intro ⟨once, order, inside, each⟩
    exact ⟨once, fun x => ⟨inside x, fun ⟨there, isLocal⟩ => each x there isLocal⟩, order⟩

instance (all : List Access) (globals : List Global) (params : List Param) (names : List Name) :
    Decidable (IsRanking all globals params names) :=
  decidable_of_iff' _ isRanking_iff

theorem IsRanking.unique {globals : List Global} {params : List Param} {names' : List Name}
    (ranking : IsRanking all globals params names) (ranking' : IsRanking all globals params names') : names = names' := by
  have same : names.Perm names' := by
    rw [List.perm_ext_iff_of_nodup ranking.once ranking'.once]
    intro x
    rw [ranking.each, ranking'.each]
  apply same.eq_of_pairwise _ ranking.order ranking'.order
  intro x y _ _ precedes precedes'
  exact absurd precedes' precedes.asymm

namespace Usage

def count : Access → Usage → Usage
  | .read _, u => { u with reads := u.reads + 1 }
  | .write _, u => { u with writes := u.writes + 1 }

/-- The entry of a name, if these are the accesses to names. -/
def entry (all : List Access) (x : Name) : Usage :=
  ⟨x, (all.map Access.name).eraseDups.idxOf x, all.count (.read x), all.count (.write x)⟩

end Usage

namespace Layout

end Layout

open Layout

def choose : List Register → List Usage → List (Name × Location)
  | _, [] => []
  | [], u :: us => (u.name, .stack 0 slotSize) :: choose [] us
  | r :: free, u :: us =>
    if u.reads = 0 then (u.name, .stack 0 slotSize) :: choose (r :: free) us
    else (u.name, .register r) :: choose free us

section

variable {globals : List Global} {params : List Param} {body : List Stmt} {l : Layout}

end

structure Grows (l l' : Layout) : Prop where
  keys : ∃ scratch, l'.keys = l.keys ++ scratch ∧ ∀ x ∈ scratch, ∃ n, x = Name.generated Name.scratch n
  once : l.keys.Nodup → l'.keys.Nodup

namespace Grows

variable {l l' l'' : Layout}

theorem refl (l : Layout) : Grows l l :=
  ⟨⟨[], by simp, by simp⟩, id⟩

theorem trans (first : Grows l l') (second : Grows l' l'') : Grows l l'' := by
  obtain ⟨scratch, keys, generated⟩ := first.keys
  obtain ⟨more, keys', generated'⟩ := second.keys
  refine ⟨⟨scratch ++ more, ?_, List.forall_mem_append.2 ⟨generated, generated'⟩⟩, second.once ∘ first.once⟩
  rw [keys', keys, List.append_assoc]

theorem set (l : Layout) (n : Int64) (place : Location) : Grows l (l.set (Name.generated Name.scratch n) place) := by
  have keys : (l.set (Name.generated Name.scratch n) place).keys = _ := keys_put ..
  refine ⟨?_, fun once => nodup_set once _ _⟩
  rw [keys]
  split
  · exact (refl l).keys
  · exact ⟨[_], rfl, fun x last => ⟨n, List.mem_singleton.1 last⟩⟩

theorem lend (loan : Loan) (x : Name) : Grows loan.layout (loan.lend x).layout := by
  rcases lend_cases loan x with ⟨same, _⟩ | ⟨place, r, pool, _, _, _, _, gives⟩
  · rw [same]
    exact refl _
  · rw [gives]
    exact set ..

theorem foldl (loan : Loan) (xs : List Name) : Grows loan.layout (xs.foldl Loan.lend loan).layout := by
  induction xs generalizing loan with
  | nil => exact refl _
  | cons x xs ih => exact (lend loan x).trans (ih _)

theorem moveStmt (names : Namer) (l : Layout) (stmt : Stmt) : Grows l (moveStmt names l stmt).layout := by
  by_cases here : stmt.action.isLocal = true
  · rw [moveStmt_of_isLocal _ _ here]
    have ins : Grows l (loansIn names l stmt.action).layout := foldl (.start ..) _
    have outs : Grows (loansIn names l stmt.action).layout (loansOut names l stmt.action).layout := foldl (.start ..) _
    exact ins.trans outs
  · obtain ⟨label, action⟩ := stmt
    cases action with
    | call | move => exact refl l
    | _ => exact absurd rfl here

theorem moveBody (names : Namer) (l : Layout) (body : List Stmt) : Grows l (moveBody names l body).layout := by
  induction body generalizing names l with
  | nil => exact refl l
  | cons stmt body ih => exact (moveStmt names l stmt).trans (ih _ _)

end Grows

end MiniC.Storage

namespace MiniC.Code.Program

open Storage

variable {p q : Program} {i : Nat} {f : Function}

end MiniC.Code.Program
