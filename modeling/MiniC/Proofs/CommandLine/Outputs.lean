import MiniC.Proofs.CommandLine.Jobs
import MiniC.Proofs.Compilation.Formatting
import MiniC.Proofs.Files.Trees

namespace MiniC.CommandLine

open Assembly (Startup)
open MiniC.Path (dot slash)

variable {file : Bytes}

/-- The name under which the assembly of a file is written. -/
def outputName (file : Bytes) : Bytes :=
  Path.withoutEnding (Path.extension file) (Path.base file) ++ ".s"

theorem isEntry_outputName (named : Path.names file ≠ []) : Path.IsEntry (outputName file) := by
  have given : file ≠ [] := by
    rintro rfl
    exact named rfl
  obtain ⟨name, isLast⟩ := Option.ne_none_iff_exists'.1 (mt List.getLast?_eq_none_iff.1 named)
  have isBase : Path.base file = name := by
    rw [Path.base, if_neg (by simpa using given), isLast]
  have noSlash : slash ∉ Path.withoutEnding (Path.extension file) (Path.base file) := by
    have whole := (Path.isName_of_mem_names (List.mem_of_getLast? isLast)).2
    rw [isBase, Path.withoutEnding]
    split
    · exact fun member => whole (List.mem_of_mem_take member)
    · exact whole
  have last : (outputName file).getLast? ≠ some dot := by
    rw [outputName, List.getLast?_append_of_ne_nil _ (by decide)]
    decide
  refine ⟨⟨?_, ?_⟩, ?_, ?_⟩
  · exact List.append_ne_nil_of_right_ne_nil _ (by decide)
  · rw [outputName, List.mem_append, not_or]
    exact ⟨noSlash, by decide⟩
  · intro same
    exact last (by rw [same]; rfl)
  · intro same
    exact last (by rw [same]; rfl)

variable {startup : Startup} {files : List Bytes} {t : FileTree} {assembly : Bytes → Bytes}

theorem isEntry_of_compileFile {code : Bytes} (compiles : (compileFile FileTree.disk startup file t).1 = .ok code) :
    Path.IsEntry (outputName file) := by
  suffices isRead : ∃ content, t.read file = .ok content by
    obtain ⟨content, isRead⟩ := isRead
    exact isEntry_outputName (FileTree.names_ne_nil_of_read isRead)
  cases isRead : t.read file with
  | ok content => exact ⟨content, rfl⟩
  | error e =>
    unfold compileFile at compiles
    dsimp only at compiles
    split at compiles <;> rw [disk_read_bind, isRead] at compiles <;> cases compiles

def lastOf (name : Bytes) : List (Bytes × Bytes) → Option Bytes
  | [] => none
  | (file, code) :: rest => (lastOf name rest).or (if outputName file = name then some code else none)

theorem lastOf_append (name : Bytes) (first second : List (Bytes × Bytes)) :
    lastOf name (first ++ second) = (lastOf name second).or (lastOf name first) := by
  induction first with
  | nil => rw [List.nil_append, lastOf, Option.or_none]
  | cons entry first ih => rw [List.cons_append, lastOf, lastOf, ih, Option.or_assoc]

theorem lastOf_eq_none {name : Bytes} {compiled : List (Bytes × Bytes)}
    (never : ∀ entry ∈ compiled, outputName entry.1 ≠ name) : lastOf name compiled = none := by
  induction compiled with
  | nil => rfl
  | cons entry compiled ih =>
    obtain ⟨here, there⟩ := List.forall_mem_cons.1 never
    rw [lastOf, ih there, if_neg here]
    rfl

theorem writeAll_cons {dir code : Bytes} {rest : List (Bytes × Bytes)} {next : FileTree}
    (written : t.write (Path.join dir (outputName file)) code = .ok next) :
    writeAll FileTree.disk dir ((file, code) :: rest) t = writeAll FileTree.disk dir rest next := by
  have one : FileTree.disk.write (Path.join dir (outputName file)) code t = (.ok (), next) := by
    change FileTree.lift t (t.write _ _) () = _
    rw [written]
    rfl
  change (FileTree.disk.write (Path.join dir (outputName file)) code >>= _) t = _
  simp only [bind, StateT.bind, one]

theorem exists_writeAll {dir : Bytes} {place : List Bytes} {compiled : List (Bytes × Bytes)} (opens : t.Opens dir place)
    (each : ∀ entry ∈ compiled, Path.IsEntry (outputName entry.1) ∧ t.Takes dir (outputName entry.1)) :
    ∃ t', writeAll FileTree.disk dir compiled t = (.ok (), t') ∧ t'.Opens dir place ∧ ∀ name,
      t'.root.get? (place ++ [name]) = ((lastOf name compiled).map .file).or (t.root.get? (place ++ [name])) := by
  induction compiled generalizing t with
  | nil => exact ⟨t, rfl, opens, fun name => rfl⟩
  | cons entry compiled ih =>
    obtain ⟨file, code⟩ := entry
    obtain ⟨⟨isEntry, takes⟩, others⟩ := List.forall_mem_cons.1 each
    obtain ⟨t', rest, opens', holds⟩ := ih (opens.put code takes)
      fun entry member => ⟨(others entry member).1, FileTree.Takes.put opens code takes (others entry member).2⟩
    refine ⟨t', (writeAll_cons (FileTree.write_join opens isEntry takes code)).trans rest, opens', fun name => ?_⟩
    rw [holds, opens.get?_put, lastOf, Option.map_or, Option.or_assoc]
    congr 1
    by_cases same : outputName file = name
    · rw [if_pos same, if_pos same.symm]
      rfl
    · rw [if_neg same, if_neg (Ne.symm same)]
      rfl

theorem writeOutput_eq {output : Bytes} {made : FileTree} {compiled : List (Bytes × Bytes)}
    (several : 2 ≤ compiled.length) (isMade : t.makeDirectories output = .ok made) :
    writeOutput FileTree.disk output compiled t = writeAll FileTree.disk output compiled made := by
  have directory : FileTree.disk.makeDirectories output t = (.ok (), made) := by
    change FileTree.lift t (t.makeDirectories output) () = _
    rw [isMade]
    rfl
  match compiled with
  | [] | [_] => simp at several
  | first :: second :: rest =>
    rw [writeOutput]
    simp only [bind, StateT.bind, directory]
    nofun

theorem exists_compileCommand {output : Bytes} {made : FileTree} {place : List Bytes} (several : 2 ≤ files.length)
    (compiles : ∀ file ∈ files, (compileFile FileTree.disk startup file t).1 = .ok (assembly file))
    (isMade : t.makeDirectories output = .ok made) (opens : made.Opens output place)
    (takes : ∀ file ∈ files, made.Takes output (outputName file)) :
    ∃ t', compileCommand FileTree.disk startup output files t = (.nothing, t') ∧ t'.Opens output place ∧ ∀ name,
      t'.root.get? (place ++ [name]) = ((lastOf name (files.map fun file => (file, assembly file))).map .file).or
        (made.root.get? (place ++ [name])) := by
  obtain ⟨given, _⟩ := FileTree.walk_of_locate opens.located
  have each : ∀ entry ∈ files.map fun file => (file, assembly file),
      Path.IsEntry (outputName entry.1) ∧ made.Takes output (outputName entry.1) := by
    intro entry member
    obtain ⟨file, inside, rfl⟩ := List.mem_map.1 member
    exact ⟨isEntry_of_compileFile (compiles file inside), takes file inside⟩
  obtain ⟨t', written, opens', holds⟩ := exists_writeAll opens each
  refine ⟨t', ?_, opens', holds⟩
  rw [compileCommand_eq compiles, deliver, if_neg (by simpa using given)]
  simp only [bind, StateT.bind, writeOutput_eq (several.trans_eq (List.length_map _).symm) isMade, written]
  rfl

/-- A directory to which files were compiled: a name has the assembly of the last file that it was made of. -/
structure Delivers (files : List Bytes) (assembly : Bytes → Bytes) (place : List Bytes) (old new : FileTree) : Prop where
  last : ∀ before file behind, files = before ++ file :: behind → outputName file ∉ behind.map outputName →
    new.root.get? (place ++ [outputName file]) = some (.file (assembly file))
  distinct : (files.map outputName).Nodup → ∀ file ∈ files,
    new.root.get? (place ++ [outputName file]) = some (.file (assembly file))
  others : ∀ name ∉ files.map outputName, new.root.get? (place ++ [name]) = old.root.get? (place ++ [name])

theorem delivers_of_lastOf {place : List Bytes} {old new : FileTree} (holds : ∀ name, new.root.get? (place ++ [name]) =
      ((lastOf name (files.map fun file => (file, assembly file))).map .file).or (old.root.get? (place ++ [name]))) :
    Delivers files assembly place old new := by
  have never : ∀ {name : Bytes} {xs : List Bytes}, name ∉ xs.map outputName →
      lastOf name (xs.map fun file => (file, assembly file)) = none := by
    intro name xs absent
    refine lastOf_eq_none fun entry member same => absent ?_
    obtain ⟨file, inside, rfl⟩ := List.mem_map.1 member
    exact List.mem_map.2 ⟨file, inside, same⟩
  have last : ∀ before file behind, files = before ++ file :: behind → outputName file ∉ behind.map outputName →
      new.root.get? (place ++ [outputName file]) = some (.file (assembly file)) := by
    rintro before file behind rfl free
    rw [holds, List.map_append, List.map_cons, lastOf_append, lastOf, never free, if_pos rfl]
    rfl
  refine ⟨last, fun distinct file member => ?_, fun name absent => ?_⟩
  · obtain ⟨before, behind, rfl⟩ := List.append_of_mem member
    refine last before file behind rfl ?_
    rw [List.map_append, List.map_cons] at distinct
    exact (List.nodup_cons.1 (List.nodup_append.1 distinct).2.1).1
  · rw [holds, never absent]
    rfl

/-- Files that compile, to a directory that can be written to: in whatever order the jobs end, each name in the directory
has the assembly of the last file that it was made of, so that nothing is lost if the names are different. -/
theorem delivers_of_compile {o : Options} {made : FileTree} (several : 2 ≤ files.length)
    (compiles : ∀ file ∈ files, (compileFile FileTree.disk startup file t).1 = .ok (assembly file))
    (isMade : t.makeDirectories o.output = .ok made) (takes : ∀ file ∈ files, made.Takes o.output (outputName file)) :
    ∃ t' place, compileCommand FileTree.disk startup o.output files t = (.nothing, t') ∧
      Ends startup o files t = {(.nothing, t')} ∧ t'.locate o.output = .ok place ∧
      Delivers files assembly place made t' := by
  obtain ⟨place, opens⟩ := FileTree.opens_of_makeDirectories isMade
  obtain ⟨t', compiled, opens', holds⟩ := exists_compileCommand several compiles isMade opens takes
  refine ⟨t', place, compiled, ?_, opens'.located, delivers_of_lastOf holds⟩
  rw [ends_eq compiles, compiled]

theorem compileFile_source {text : Bytes} {lines : List Assembly.Line} (isSource : Path.extension file ≠ ".irpack")
    (isRead : t.read file = .ok text) (compiled : compile startup text = .ok lines) :
    (compileFile FileTree.disk startup file t).1 = .ok (Assembly.text lines) := by
  unfold compileFile
  dsimp only
  rw [if_neg isSource, disk_read_bind, isRead]
  simp only [compiled]
  rfl

def returning (n : UInt64) : Source.Program :=
  let pos := Source.Position.nowhere
  ⟨[], [⟨pos, "main", .int, [], false, [.returnStmt pos (.literal ⟨pos, .int n⟩)]⟩]⟩

def oneText : Bytes := "int main() \x7b\n\treturn 1;\n\x7d\n"

def tenText : Bytes := "int main() \x7b\n\treturn 10;\n\x7d\n"

def assemblyLength (x : Source.Program) : Option Nat := do
  let p ← (Code.Program.ofSource x).toOption
  let lines ← (compileCode .default p).toOption
  return (Assembly.text lines).length

theorem exists_compile {x : Source.Program} {text : Bytes} {length : Nat} (wellFormed : x.WellFormed)
    (printed : x.format = .ok text) (has : assemblyLength x = some length) :
    ∃ lines, compile .default text = .ok lines ∧ (Assembly.text lines).length = length := by
  unfold assemblyLength at has
  cases lowered : Code.Program.ofSource x with
  | error e =>
    rw [lowered] at has
    cases has
  | ok p =>
    rw [lowered] at has
    cases compiled : compileCode .default p with
    | error e => simp [Except.toOption, compiled] at has
    | ok lines =>
      have length : (Assembly.text lines).length = length := by simpa [Except.toOption, compiled] using has
      exact ⟨lines, compile_format wellFormed printed lowered compiled, length⟩

def twoFiles (name : Bytes) : FileTree where
  root := .directory [("a", .directory [("x.c", .file oneText)]), ("b", .directory [(name, .file tenText)])]
  start := []

def twoPaths (name : Bytes) : List Bytes :=
  ["a/x.c", "b/" ++ name]

def toOut : Options := { Options.default with output := "b/../out" }

def outPlace : List Bytes := ["out"]

structure Prepared (name one ten : Bytes) (assembly : Bytes → Bytes) (made : FileTree) : Prop where
  differ : one ≠ ten
  assemblies : (twoPaths name).map assembly = [one, ten]
  compiles : ∀ file ∈ twoPaths name, (compileFile FileTree.disk .default file (twoFiles name)).1 = .ok (assembly file)
  isMade : (twoFiles name).makeDirectories toOut.output = .ok made
  opens : made.Opens toOut.output outPlace
  free : ∀ output, made.root.get? (outPlace ++ [output]) = none
  takes : ∀ file ∈ twoPaths name, made.Takes toOut.output (outputName file)

theorem takes_out {name : Bytes} (known : name = "x.c" ∨ name = "y.c") {made : FileTree}
    (opens : made.Opens toOut.output outPlace) (free : ∀ output, made.root.get? (outPlace ++ [output]) = none) :
    ∀ file ∈ twoPaths name, made.Takes toOut.output (outputName file) := by
  have lengths : ∀ file ∈ twoPaths name, (outputName file).length ≤ 255 ∧
      (Path.join toOut.output (outputName file)).length ≤ FileTree.longest ∧
      0 ∉ Path.join toOut.output (outputName file) := by
    rcases known with rfl | rfl <;> decide +kernel
  intro file member
  obtain ⟨short, shortPath, text⟩ := lengths file member
  refine ⟨short, shortPath, text, fun place located node found => ?_⟩
  cases located.symm.trans opens.located
  cases (free _).symm.trans found

set_option maxRecDepth 8000 in
theorem exists_prepared {name : Bytes} (known : name = "x.c" ∨ name = "y.c") :
    ∃ one ten assembly made, Prepared name one ten assembly made := by
  obtain ⟨one, isOne, oneLength⟩ : ∃ lines, compile .default oneText = .ok lines ∧ (Assembly.text lines).length = 464 :=
    exists_compile (x := returning 1) (by decide) (by decide +kernel) (by decide +kernel)
  obtain ⟨ten, isTen, tenLength⟩ : ∃ lines, compile .default tenText = .ok lines ∧ (Assembly.text lines).length = 465 :=
    exists_compile (x := returning 10) (by decide) (by decide +kernel) (by decide +kernel)
  have other : ("b/" ++ name : Bytes) ≠ "a/x.c" := by
    rcases known with rfl | rfl <;> decide
  have opens : ((twoFiles name).put (.directory []) outPlace).Opens toOut.output outPlace := by
    rcases known with rfl | rfl <;> exact ⟨rfl, [], rfl⟩
  let assembly (file : Bytes) := if file = "a/x.c" then Assembly.text one else Assembly.text ten
  refine ⟨Assembly.text one, Assembly.text ten, assembly, (twoFiles name).put (.directory []) outPlace, ?_, ?_, ?_, ?_,
    opens, fun _ => rfl, takes_out known opens fun _ => rfl⟩
  · intro same
    rw [same, tenLength] at oneLength
    omega
  · simp [assembly, twoPaths, other]
  · refine List.forall_mem_cons.2 ⟨?_, List.forall_mem_singleton.2 ?_⟩
    · dsimp only [assembly]
      rw [if_pos rfl]
      rcases known with rfl | rfl <;> exact compileFile_source (by decide) rfl isOne
    · dsimp only [assembly]
      rw [if_neg other]
      rcases known with rfl | rfl <;> exact compileFile_source (by decide) rfl isTen
  · rcases known with rfl | rfl <;>
      exact FileTree.makeDirectories_of_parent (by decide +kernel) rfl (by decide +kernel) rfl

theorem delivers_twoFiles : ∃ one ten assembly made t' place, Prepared "y.c" one ten assembly made ∧
    ((twoPaths "y.c").map outputName).Nodup ∧
    compileCommand FileTree.disk .default toOut.output (twoPaths "y.c") (twoFiles "y.c") = (.nothing, t') ∧
    Ends .default toOut (twoPaths "y.c") (twoFiles "y.c") = {(.nothing, t')} ∧ t'.locate toOut.output = .ok place ∧
    Delivers (twoPaths "y.c") assembly place made t' := by
  obtain ⟨one, ten, assembly, made, ready⟩ := exists_prepared (.inr rfl)
  have several : 2 ≤ (twoPaths "y.c").length := Nat.le_refl 2
  obtain ⟨t', place, compiled⟩ := delivers_of_compile several ready.compiles ready.isMade ready.takes
  exact ⟨one, ten, assembly, made, t', place, ready, by decide +kernel, compiled⟩

/-- Of two files with the same name in different directories, the assembly of the first is in no file of the directory,
and the command ends well. -/
theorem loses_first : ∃ one ten assembly made t', Prepared "x.c" one ten assembly made ∧ (twoPaths "x.c").Nodup ∧
    Ends .default toOut (twoPaths "x.c") (twoFiles "x.c") = {(.nothing, t')} ∧ t'.locate toOut.output = .ok outPlace ∧
    ∀ name, t'.root.get? (outPlace ++ [name]) ≠ some (.file one) := by
  obtain ⟨one, ten, assembly, made, ready⟩ := exists_prepared (.inl rfl)
  have several : 2 ≤ (twoPaths "x.c").length := Nat.le_refl 2
  obtain ⟨t', compiled, opens, holds⟩ :=
    exists_compileCommand several ready.compiles ready.isMade ready.opens ready.takes
  refine ⟨one, ten, assembly, made, t', ready, by decide, ?_, opens.located, fun name => ?_⟩
  · rw [ends_eq ready.compiles, compiled]
  have delivers := delivers_of_lastOf holds
  by_cases output : name ∈ (twoPaths "x.c").map outputName
  · have same : name = outputName "b/x.c" := by
      have only : ∀ x ∈ (twoPaths "x.c").map outputName, x = outputName "b/x.c" := by decide +kernel
      exact only name output
    have second : assembly "b/x.c" = ten := (List.cons.inj (List.cons.inj ready.assemblies).2).1
    rw [same, delivers.last ["a/x.c"] "b/x.c" [] rfl List.not_mem_nil, second]
    exact fun is => ready.differ (Node.file.inj (Option.some.inj is)).symm
  · rw [delivers.others name output, ready.free]
    nofun

end MiniC.CommandLine
