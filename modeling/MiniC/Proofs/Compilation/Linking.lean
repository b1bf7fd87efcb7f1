import MiniC.Proofs.Compilation.Stages

namespace MiniC

open Code Storage Assembly

theorem lines_le_codes {q : Program} {gs : List Function} {codes : List (List Line)}
    (coded : List.Forall₂ (IsFunctionCode q) gs codes)
    (marked : ∀ g ∈ gs, ∀ stmt ∈ g.body, stmt.action = .nop → stmt.label ≠ []) :
    Storage.lines gs ≤ (codes.flatMap (.blank :: ·)).length := by
  induction coded with
  | nil => exact Nat.le_refl 0
  | @cons g code gs codes isCode _ ih =>
    have here := isCode.longer (marked g List.mem_cons_self)
    have others := ih fun g' member => marked g' (List.mem_cons_of_mem g member)
    simp only [Storage.lines, List.map_cons, List.sum_cons, List.flatMap_cons, List.length_append,
      List.length_cons] at others ⊢
    omega

theorem lines_le_bodies {declared globals : List Global} {fs gs : List Function}
    (assigns : List.Forall₂ (AssignsTo declared globals) fs gs)
    (empty : ∀ f ∈ fs, f.external = true → f.body = []) : Storage.lines fs ≤ Storage.lines (bodies gs) := by
  induction assigns with
  | nil => exact Nat.le_refl 0
  | @cons f g fs gs here _ ih =>
    have others := ih fun f' member => empty f' (List.mem_cons_of_mem f member)
    have external := (keeps_of_assignsTo here).2.2.1
    rw [bodies] at others ⊢
    rcases here with ⟨isExternal, rfl⟩ | ⟨hasBody, _, _, _, _, _, _, _, _, _, assigns⟩
    · have noCode := empty g List.mem_cons_self isExternal
      rw [List.filter_cons_of_neg (by simp [isExternal])]
      simpa [Storage.lines, noCode] using others
    · have longer := assigns.length
      rw [List.filter_cons_of_pos (by simp [external, hasBody])]
      simp only [Storage.lines, List.map_cons, List.sum_cons] at others ⊢
      omega

theorem labels_assigned {declared globals : List Global} {fs gs : List Function}
    (assigns : List.Forall₂ (AssignsTo declared globals) fs gs) :
    (gs.flatMap fun g => Code.labels g.body) = fs.flatMap fun f => Code.labels f.body := by
  induction assigns with
  | nil => rfl
  | cons here _ ih => rw [List.flatMap_cons, List.flatMap_cons, ih, (keeps_of_assignsTo here).2.2.2.labels]

namespace Stages

variable {s : Startup} {text : Bytes} {x : Source.Program} {p q : Program} {lines : List Line}
  (stages : Stages s text x p q lines)

include stages

theorem lines_le_length : Storage.lines p.functions ≤ lines.length := by
  obtain ⟨data, codes, isAssembly⟩ := stages.exists_isAssembly
  have empty : ∀ f ∈ p.functions, f.external = true → f.body = [] := by
    intro f member external
    obtain ⟨_, _, lowersTo⟩ := exists_of_mem_right stages.lowersTo.functions member
    exact lowersTo.empty external
  have marked : ∀ g ∈ bodies q.functions, ∀ stmt ∈ g.body, stmt.action = .nop → stmt.label ≠ [] :=
    fun g member => (stages.written (mem_bodies.1 member).1).1
  have assigned := lines_le_bodies stages.assignsTo empty
  have coded := lines_le_codes isAssembly.coded marked
  rw [isAssembly.parts]
  simp only [List.length_append]
  omega

theorem wellNamed_of_lines (small : Storage.lines p.functions < 2 ^ 64) : WellNamed q := by
  obtain ⟨made, _, few, numbered⟩ := stages.lowersTo.numbered
  rw [← labels_assigned stages.assignsTo] at numbered
  refine ⟨?_, ?_, ?_, numbered.nodup (by omega)⟩
  · intro g member
    obtain ⟨_, new, declared, _, names, _⟩ := Program.assign_spec stages.assigned
    rw [declared] at member
    rcases List.mem_append.1 member with inCode | isNew
    · obtain ⟨h, inTree, lowered⟩ := exists_of_mem_right stages.lowersTo.globals inCode
      rw [OfSource.name_of_global lowered]
      exact origin_of_userName (stages.wellFormed.globals h inTree).name
    · obtain ⟨j, _, _, name⟩ := names g isNew
      rw [name]
      exact origin_string _
  · intro g member
    obtain ⟨y, inTree, f, _, lowersTo, assignsTo⟩ := stages.exists_source member
    rw [(keeps_of_assignsTo assignsTo).1, lowersTo.name]
    exact origin_of_userName (stages.wellFormed.functions y inTree).name
  · intro g member name inside
    obtain ⟨numbers, _, _, same⟩ := numbered
    have isLabel : name ∈ q.functions.flatMap fun g => Code.labels g.body := List.mem_flatMap_of_mem member inside
    rw [same] at isLabel
    obtain ⟨j, _, rfl⟩ := List.mem_map.1 isLabel
    exact origin_mark _

theorem wellNamed (small : lines.length < 2 ^ 64) : WellNamed q :=
  stages.wellNamed_of_lines (Nat.lt_of_le_of_lt stages.lines_le_length small)

end Stages

/-- The code of a function, from its label to where it returns. -/
def IsCodeOf (name : Name) (code : List Line) : Prop :=
  ∃ inner, code = .label name :: (inner ++ [Line.instr (.jumpRegister .ra)]) ∧ Line.instr (.jumpRegister .ra) ∉ inner

/-- The lines of a program: labels are defined once, symbols are defined but for functions without a body, and jumps
stay in the code of their function. -/
structure Linked (x : Source.Program) (lines : List Line) : Prop where
  distinct : (labels lines).Nodup
  defined : ∀ line ∈ lines, ∀ name, line.symbol? = some name → name ∈ labels lines ∨
    line = .instr (.call name) ∧ ∃ f ∈ x.functions, f.external = true ∧ f.name = name
  external : ∀ f ∈ x.functions, f.external = true → f.name ∉ labels lines
  jumps : ∀ f ∈ x.functions, f.external = false → ∃ before code behind, lines = before ++ code ++ behind ∧
    IsCodeOf f.name code ∧ ∀ line ∈ code, ∀ target, line.jump? = some target → target ∈ labels code

theorem linked_of_compile {s : Startup} {text : Bytes} {lines : List Line} (compiled : compile s text = .ok lines)
    (small : lines.length < 2 ^ 64) : ∃ x, Source.parse text = .ok x ∧ Linked x lines := by
  obtain ⟨x, p, q, stages⟩ := exists_stages compiled
  obtain ⟨data, codes, isAssembly⟩ := stages.exists_isAssembly
  have wellNamed := stages.wellNamed small
  refine ⟨x, stages.parsed, nodup_labels isAssembly wellNamed, ?_, ?_, ?_⟩
  · intro line member name refers
    refine (symbols_assembly isAssembly member refers).imp_right ?_
    rintro ⟨calls, g, inside, external, rfl⟩
    obtain ⟨f, inTree, name, kind⟩ := stages.exists_declared inside
    exact ⟨calls, f, inTree, kind.trans external, name⟩
  · intro f member external
    obtain ⟨g, inside, name, kind⟩ := stages.exists_assembled member
    rw [← name]
    exact external_notMem_labels isAssembly wellNamed inside (kind.trans external)
  · intro f member hasBody
    obtain ⟨g, inside, name, kind⟩ := stages.exists_assembled member
    obtain ⟨before, code, behind, parts, isCode⟩ := exists_code isAssembly.coded (mem_bodies.2 ⟨inside, kind.trans hasBody⟩)
    obtain ⟨inner, shape, stays⟩ := isCode.shape
    refine ⟨[Line.directive (.align 2), .directive (.segment ".data")] ++ data ++ startup s ++ before, code,
      behind ++ [Line.label "halt", .instr (.jump "halt")], ?_, ⟨inner, by rw [shape, name], ?_⟩, ?_⟩
    · rw [isAssembly.parts, parts]
      simp
    · exact fun again => (stays _ again).goes .ra rfl
    · intro line inCode target jumps
      rcases isCode.stays_or_returns inCode with stays | rfl
      · exact stays.jumps target jumps
      · cases jumps

/-- `string hi = "hi"; int put(string text); int main(int n) { while (n) { if (put(hi)) { break; } n = n - put("lo"); }
return n; }` -/
def greeting : Source.Program :=
  let pos := Source.Position.nowhere
  let n := Source.Expr.var pos "n"
  let body : List Source.Stmt :=
    [.whileStmt pos n
      [.ifStmt pos (.call pos "put" [.var pos "hi"]) [.breakStmt pos] [],
        .assign pos "n" (.binary pos .sub n (.call pos "put" [.literal ⟨pos, .str "lo"⟩]))],
      .returnStmt pos n]
  ⟨[⟨pos, "hi", .string, some ⟨pos, .str "hi"⟩⟩],
    [⟨pos, "put", .int, [⟨.string, "text"⟩], true, []⟩, ⟨pos, "main", .int, [⟨.int, "n"⟩], false, body⟩]⟩

def greetingText : Bytes :=
  "string hi = \"hi\";\n\nint put(string text);\n\nint main(int n) \x7b\n\twhile (n) \x7b\n\t\tif (put(hi)) " ++
    "\x7b\n\t\t\tbreak;\n\t\t\x7d\n\t\tn = n - put(\"lo\");\n\t\x7d\n\treturn n;\n\x7d\n"

def greeter : Program :=
  (Program.ofSource greeting).toOption.getD ⟨⟨0⟩, [], []⟩

theorem lowered_greeting : Program.ofSource greeting = .ok greeter :=
  eq_ok_getD (by decide +kernel)

set_option maxRecDepth 4000 in
theorem compiled_greeter : (compileCode .default greeter).toOption.any (fun lines => lines.length < 2 ^ 64) = true := by
  decide +kernel

theorem linked_of_compile_greeting :
    ∃ lines x, compile .default greetingText = .ok lines ∧ lines.length < 2 ^ 64 ∧
      Source.parse greetingText = .ok x ∧ Linked x lines := by
  have printed : greeting.format = .ok greetingText := by decide +kernel
  obtain ⟨lines, compiled, short⟩ := any_toOption.1 compiled_greeter
  have small : lines.length < 2 ^ 64 := of_decide_eq_true short
  have accepted := compile_format (by decide) printed lowered_greeting compiled
  obtain ⟨x, parsed, linked⟩ := linked_of_compile accepted small
  exact ⟨lines, x, accepted, small, parsed, linked⟩

end MiniC
