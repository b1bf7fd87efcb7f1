import Mathlib.Logic.Relation
import MiniC.CommandLine.Run
import MiniC.Files.Tree

namespace MiniC.CommandLine

open Assembly (Startup)

/-- The number of jobs that run at the same time at most. -/
def Options.limit (o : Options) : Nat :=
  (max 1 o.jobs.toInt).toNat

/-- Jobs that are under way. Each is a file and its number. -/
structure Jobs where
  waiting : List (Bytes × Nat)
  running : List (Bytes × Nat)
  assemblies : List Bytes
  failure : Option Failure
  tree : FileTree

namespace Jobs

def start (files : List Bytes) (t : FileTree) : Jobs :=
  ⟨files.zipIdx, [], List.replicate files.length [], none, t⟩

/-- Does a job, and keeps the first failure. -/
def perform (startup : Startup) (jobs : Jobs) (file : Bytes) (number : Nat) : Jobs :=
  match compileFile FileTree.disk startup file jobs.tree with
  | (.ok assembly, t) => { jobs with assemblies := jobs.assemblies.set number assembly, tree := t }
  | (.error cause, t) => { jobs with failure := jobs.failure <|> some (.file .compile file cause), tree := t }

inductive Step (startup : Startup) (limit : Nat) : Jobs → Jobs → Prop
  | launch {jobs : Jobs} {job : Bytes × Nat} {rest : List (Bytes × Nat)} (next : jobs.waiting = job :: rest)
      (free : jobs.running.length < limit) :
      Step startup limit jobs { jobs with waiting := rest, running := job :: jobs.running }
  | finish {jobs : Jobs} {before behind : List (Bytes × Nat)} {file : Bytes} {number : Nat}
      (runs : jobs.running = before ++ (file, number) :: behind) :
      Step startup limit jobs { jobs.perform startup file number with running := before ++ behind }

/-- All that can happen to jobs until later. -/
abbrev Run (startup : Startup) (limit : Nat) : Jobs → Jobs → Prop :=
  Relation.ReflTransGen (Step startup limit)

def IsOver (jobs : Jobs) : Prop :=
  jobs.waiting = [] ∧ jobs.running = []

end Jobs

def deliver (output : Bytes) (compiled : List (Bytes × Bytes)) : StateM FileTree Printed := do
  if output.isEmpty then return .text (compiled.flatMap Prod.snd)
  match ← writeOutput FileTree.disk output compiled with
  | .error e => return .failed (.write e)
  | .ok _ => return .nothing

def Jobs.conclude (output : Bytes) (files : List Bytes) (jobs : Jobs) : Printed × FileTree :=
  match jobs.failure with
  | some failure => (.failed failure, jobs.tree)
  | none => deliver output (files.zip jobs.assemblies) jobs.tree

/-- The ends of compilation, over all orders in which the jobs may be done. -/
def Ends (startup : Startup) (o : Options) (files : List Bytes) (t : FileTree) : Set (Printed × FileTree) :=
  {final | ∃ jobs, Jobs.Run startup o.limit (.start files t) jobs ∧ jobs.IsOver ∧ jobs.conclude o.output files = final}

variable {startup : Startup} {files : List Bytes} {t : FileTree} {assembly : Bytes → Bytes}

theorem disk_read_bind {α : Type} (file : Bytes) (next : Except FileError Bytes → StateM FileTree α) (t : FileTree) :
    (FileTree.disk.read file >>= next) t = next (t.read file) t :=
  rfl

theorem snd_compileFile (startup : Startup) (file : Bytes) (t : FileTree) :
    (compileFile FileTree.disk startup file t).2 = t := by
  unfold compileFile
  dsimp only
  split
  · rw [disk_read_bind]
    cases t.read file with
    | error e => rfl
    | ok bytes => cases unpacked : Snapshot.unpack Snapshot.messagePack bytes <;> simp only [unpacked] <;> rfl
  · rw [disk_read_bind]
    cases t.read file <;> rfl

theorem compileFile_eq {file : Bytes} (compiles : (compileFile FileTree.disk startup file t).1 = .ok (assembly file)) :
    compileFile FileTree.disk startup file t = (.ok (assembly file), t) :=
  Prod.ext compiles (snd_compileFile startup file t)

section

variable (compiles : ∀ file ∈ files, (compileFile FileTree.disk startup file t).1 = .ok (assembly file))

include compiles

theorem compileFiles_eq :
    compileFiles FileTree.disk startup files t = (.ok (files.map fun file => (file, assembly file)), t) := by
  induction files with
  | nil => rfl
  | cons file files ih =>
    obtain ⟨here, there⟩ := List.forall_mem_cons.1 compiles
    rw [compileFiles]
    simp only [bind, StateT.bind, compileFile_eq here, ih there]
    rfl

theorem compileCommand_eq (output : Bytes) : compileCommand FileTree.disk startup output files t =
    deliver output (files.map fun file => (file, assembly file)) t := by
  unfold compileCommand
  simp only [bind, StateT.bind, compileFiles_eq compiles]
  rfl

end

namespace Jobs

variable {limit : Nat} {jobs jobs' : Jobs}

def work (jobs : Jobs) : Nat :=
  2 * jobs.waiting.length + jobs.running.length

theorem perform_queues (startup : Startup) (jobs : Jobs) (file : Bytes) (number : Nat) :
    (jobs.perform startup file number).waiting = jobs.waiting ∧
      (jobs.perform startup file number).running = jobs.running := by
  unfold perform
  split <;> exact ⟨rfl, rfl⟩

theorem Step.work_eq (step : Step startup limit jobs jobs') : jobs.work = jobs'.work + 1 := by
  cases step with
  | launch next =>
    simp only [work, next, List.length_cons]
    omega
  | finish runs =>
    simp only [work, runs, perform_queues, List.length_append, List.length_cons]
    omega

theorem exists_step (startup : Startup) (positive : 0 < limit) (isGoing : ¬ jobs.IsOver) :
    ∃ next, Step startup limit jobs next := by
  cases running : jobs.running with
  | cons job rest => exact ⟨_, .finish (running.trans (List.nil_append _).symm)⟩
  | nil =>
    cases waiting : jobs.waiting with
    | nil => exact absurd ⟨waiting, running⟩ isGoing
    | cons job rest => exact ⟨_, .launch waiting (by rwa [running])⟩

theorem exists_isOver (startup : Startup) (positive : 0 < limit) (jobs : Jobs) :
    ∃ last, Run startup limit jobs last ∧ last.IsOver := by
  induction left : jobs.work generalizing jobs with
  | zero =>
    refine ⟨jobs, .refl, Classical.byContradiction fun isGoing => ?_⟩
    obtain ⟨next, step⟩ := exists_step startup positive isGoing
    have less := step.work_eq
    omega
  | succ n ih =>
    by_cases isOver : jobs.IsOver
    · exact ⟨jobs, .refl, isOver⟩
    obtain ⟨next, step⟩ := exists_step startup positive isOver
    obtain ⟨last, run, isOver⟩ := ih next (by have less := step.work_eq; omega)
    exact ⟨last, .head step run, isOver⟩

structure GoesWell (files : List Bytes) (t : FileTree) (assembly : Bytes → Bytes) (jobs : Jobs) : Prop where
  tree : jobs.tree = t
  failure : jobs.failure = none
  length : jobs.assemblies.length = files.length
  known : ∀ job ∈ jobs.waiting ++ jobs.running, files[job.2]? = some job.1
  made : ∀ number file, files[number]? = some file →
    (file, number) ∈ jobs.waiting ++ jobs.running ∨ jobs.assemblies[number]? = some (assembly file)

theorem goesWell_start : (start files t).GoesWell files t assembly where
  tree := rfl
  failure := rfl
  length := List.length_replicate
  known job member := by
    rw [start, List.append_nil] at member
    exact List.mem_zipIdx_iff_getElem?.1 member
  made number file found := by
    rw [start, List.append_nil]
    exact .inl (List.mem_zipIdx_iff_getElem?.2 found)

section

variable (compiles : ∀ file ∈ files, (compileFile FileTree.disk startup file t).1 = .ok (assembly file))

include compiles

theorem Step.goesWell (step : Step startup limit jobs jobs') (well : jobs.GoesWell files t assembly) :
    jobs'.GoesWell files t assembly := by
  cases step with
  | @launch job rest next =>
    have same : ∀ other, other ∈ rest ++ job :: jobs.running ↔ other ∈ jobs.waiting ++ jobs.running := by
      intro other
      rw [next, List.cons_append, List.mem_append, List.mem_cons, List.mem_cons, List.mem_append]
      exact or_left_comm
    refine ⟨well.tree, well.failure, well.length, fun other member => well.known other ((same other).1 member), ?_⟩
    exact fun number file found => (well.made number file found).imp_left (same _).2
  | @finish before behind file number runs =>
    have found : files[number]? = some file := well.known (file, number) (by simp [runs])
    have below : number < jobs.assemblies.length := by
      rw [well.length]
      exact (List.getElem?_eq_some_iff.1 found).1
    have performed : jobs.perform startup file number =
        { jobs with assemblies := jobs.assemblies.set number (assembly file) } := by
      rw [perform, well.tree, compileFile_eq (compiles file (List.mem_of_getElem? found))]
    rw [performed]
    refine ⟨well.tree, well.failure, List.length_set.trans well.length, fun other member => well.known other ?_, ?_⟩
    · rw [runs]
      exact (((List.sublist_cons_self _ behind).append_left before).append_left _).subset member
    · intro number' file' found'
      by_cases same : number' = number
      · subst same
        cases found.symm.trans found'
        exact .inr (List.getElem?_set_self below)
      · rw [List.getElem?_set_ne (Ne.symm same)]
        refine (well.made number' file' found').imp_left fun member => ?_
        rw [runs] at member
        simpa [same] using member

theorem Run.goesWell (run : Run startup limit (start files t) jobs) : jobs.GoesWell files t assembly := by
  induction run with
  | refl => exact goesWell_start
  | tail _ step ih => exact step.goesWell compiles ih

end

theorem GoesWell.assemblies_eq (well : jobs.GoesWell files t assembly) (isOver : jobs.IsOver) :
    jobs.assemblies = files.map assembly := by
  refine List.ext_getElem? fun number => ?_
  rw [List.getElem?_map]
  cases found : files[number]? with
  | some file =>
    refine (well.made number file found).resolve_left ?_
    rw [isOver.1, isOver.2]
    exact List.not_mem_nil
  | none => rwa [Option.map_none, List.getElem?_eq_none_iff, well.length, ← List.getElem?_eq_none_iff]

end Jobs

theorem ends_eq {o : Options}
    (compiles : ∀ file ∈ files, (compileFile FileTree.disk startup file t).1 = .ok (assembly file)) :
    Ends startup o files t = {compileCommand FileTree.disk startup o.output files t} := by
  have concluded : ∀ jobs, Jobs.Run startup o.limit (.start files t) jobs → jobs.IsOver →
      jobs.conclude o.output files = compileCommand FileTree.disk startup o.output files t := by
    intro jobs run isOver
    have well := run.goesWell compiles
    have zipped : files.zip (files.map assembly) = files.map fun file => (file, assembly file) := by
      simpa using List.zip_map' (f := id) (g := assembly) (l := files)
    rw [Jobs.conclude, well.failure, well.assemblies_eq isOver, well.tree, compileCommand_eq compiles, zipped]
  have positive : 0 < o.limit := by
    rw [Options.limit]
    omega
  ext final
  constructor
  · rintro ⟨jobs, run, isOver, rfl⟩
    exact concluded jobs run isOver
  · rintro rfl
    obtain ⟨jobs, run, isOver⟩ := Jobs.exists_isOver startup positive (.start files t)
    exact ⟨jobs, run, isOver, concluded jobs run isOver⟩

end MiniC.CommandLine
