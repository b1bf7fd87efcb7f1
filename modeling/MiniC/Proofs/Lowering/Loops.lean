import MiniC.Proofs.Lowering.Tracing

namespace MiniC

namespace Code.OfSource

open Trace

section

variable {find find' : Path → Option Source.Stmt} {path around : Path} {i : Nat}

def NoLoop (find : Path → Option Source.Stmt) (path : Path) : Prop :=
  ∀ above s, above <+: path → above ≠ path → find above = some s → s.isLoop = false

/-- The innermost loop around the statement at a path. -/
structure Nearest (find : Path → Option Source.Stmt) (around path : Path) : Prop where
  above : around <+: path
  other : around ≠ path
  loop : ∃ s, find around = some s ∧ s.isLoop = true
  nearest : ∀ between s, around <+: between → between <+: path → between ≠ path → find between = some s →
    s.isLoop = true → between = around

theorem noLoop_nil (find : Path → Option Source.Stmt) : NoLoop find [] :=
  fun _ _ above other => absurd (List.prefix_nil.1 above) other

theorem NoLoop.cons (none : NoLoop find' path) (first : ∀ s, find [] = some s → s.isLoop = false)
    (inner : ∀ path, find (i :: path) = find' path) : NoLoop find (i :: path) := by
  intro above s before other found
  cases above with
  | nil => exact first s found
  | cons j above =>
    obtain ⟨rfl, shorter⟩ := List.cons_prefix_cons.1 before
    rw [inner] at found
    exact none above s shorter (fun same => other (by rw [same])) found

theorem Nearest.of_noLoop {s : Source.Stmt} (none : NoLoop find' path) (first : find [] = some s) (isLoop : s.isLoop = true)
    (inner : ∀ path, find (i :: path) = find' path) : Nearest find [] (i :: path) := by
  refine ⟨List.nil_prefix, nofun, ⟨s, first, isLoop⟩, ?_⟩
  intro between t _ before other found isLoop
  cases between with
  | nil => rfl
  | cons j between =>
    obtain ⟨rfl, shorter⟩ := List.cons_prefix_cons.1 before
    rw [inner] at found
    rw [none between t shorter (fun same => other (by rw [same])) found] at isLoop
    cases isLoop

theorem Nearest.cons (nearest : Nearest find' around path) (inner : ∀ path, find (i :: path) = find' path) :
    Nearest find (i :: around) (i :: path) := by
  obtain ⟨s, found, isLoop⟩ := nearest.loop
  refine ⟨List.cons_prefix_cons.2 ⟨rfl, nearest.above⟩, fun same => nearest.other (List.cons.inj same).2,
    ⟨s, by rw [inner, found], isLoop⟩, ?_⟩
  intro between t after before other found isLoop
  cases between with
  | nil => cases List.prefix_nil.1 after
  | cons j between =>
    obtain ⟨rfl, shorter⟩ := List.cons_prefix_cons.1 before
    rw [inner] at found
    rw [nearest.nearest between t (List.cons_prefix_cons.1 after).2 shorter (fun same => other (by rw [same])) found isLoop]

end

/-- The lines of a trace for the statement at a path, and those before and after them. -/
def CodeAt (trace : Trace) (path : Path) (before code after : List Stmt) : Prop :=
  ∃ left part right, trace = left ++ part ++ right ∧ IsPart path left part right ∧ left.code = before ∧ part.code = code ∧
    right.code = after

/-- The lines of a trace for the loop at a path have the labels of a loop. -/
def LoopAt (trace : Trace) (path : Path) (loop : Loop) : Prop :=
  ∃ before after entry middle, CodeAt trace path before (loopLines entry loop middle) after

def Origin (find : Path → Option Source.Stmt) (trace : Trace) (base path : Path) (outer inner : Option Loop) : Prop :=
  inner = outer ∧ NoLoop find path ∨
    ∃ around own, inner = some own ∧ LoopAt trace (base ++ around) own ∧ Nearest find around path

section

variable {trace part left right : Trace} {base path around : Path} {loop outer inner : Option Loop} {own : Loop}
  {s c : Source.Stmt} {names names' : Namer}

theorem LoopAt.extend (loopAt : LoopAt trace path own) (outside : ∀ e ∈ left ++ right, ¬ path <+: e.2) :
    LoopAt (left ++ trace ++ right) path own := by
  obtain ⟨_, _, entry, middle, before, part, after, rfl, isPart, rfl, shape, rfl⟩ := loopAt
  exact ⟨_, _, entry, middle, left ++ before, part, after ++ right, by simp, isPart.extend outside, rfl, shape, rfl⟩

theorem loopAt_self (traced : traceStmt loop path s names = .ok (trace, names'))
    (isLoop : ∃ entry middle, trace.code = loopLines entry own middle) : LoopAt trace path own := by
  obtain ⟨entry, middle, shape⟩ := isLoop
  refine ⟨[], [], entry, middle, [], trace, [], by simp, ⟨ensures_tags_stmt loop path s _ _ _ traced, ?_⟩, rfl, shape, rfl⟩
  exact fun _ never => nomatch never

theorem outside_of_longer {e : Stmt × Path} (outside : ¬ path <+: e.2) (more : Path) : ¬ path ++ more <+: e.2 :=
  fun inside => outside ((List.prefix_append path more).trans inside)

theorem exists_locates_within (traced : traceStmt loop base s names = .ok (trace, names')) (found : s.within? path = some c) :
    ∃ inner, Locates loop trace inner (base ++ path) c ∧ Origin s.within? trace base path loop inner := by
  induction path generalizing loop base s names trace names' with
  | nil =>
    cases found
    rw [List.append_nil]
    exact ⟨loop, .self traced, .inl ⟨rfl, noLoop_nil _⟩⟩
  | cons i path ih =>
    obtain ⟨child, isChild, found⟩ := Option.bind_eq_some_iff.1 found
    have inside : ∀ path, s.within? (i :: path) = child.within? path := by
      intro path
      rw [Source.Stmt.within?, isChild, Option.bind_some]
    obtain ⟨middle, located, origin⟩ := exists_locates_child traced isChild
    have isTrace := traced
    obtain ⟨before, part, after, mid, mid', rfl, traced, encloses⟩ := located
    obtain ⟨inner, located, origin'⟩ := ih traced found
    have outside : ∀ more, ∀ e ∈ before ++ after, ¬ base ++ [i] ++ more <+: e.2 :=
      fun more e member => outside_of_longer (encloses.outside e member) more
    have whole := located.extend before after encloses.lands encloses.loops (outside path)
    rw [List.append_assoc base, List.singleton_append] at whole
    refine ⟨inner, whole, ?_⟩
    rcases origin' with ⟨rfl, none⟩ | ⟨around, own, rfl, loopAt, nearest⟩
    · rcases origin with ⟨notLoop, rfl⟩ | ⟨isLoop, own, rfl, shape⟩
      · refine .inl ⟨rfl, none.cons ?_ inside⟩
        rintro _ ⟨⟩
        exact notLoop
      · refine .inr ⟨[], own, rfl, ?_, .of_noLoop none rfl isLoop inside⟩
        rw [List.append_nil]
        exact loopAt_self isTrace shape
    · have loopAt := loopAt.extend (outside around)
      rw [List.append_assoc base, List.singleton_append] at loopAt
      exact .inr ⟨i :: around, own, rfl, loopAt, nearest.cons inside⟩

theorem exists_locates {ss : List Source.Stmt} (traced : traceStmts none [] 0 ss names = .ok (trace, names'))
    (found : Source.Stmt.at? ss path = some c) :
    ∃ inner, Locates none trace inner path c ∧ Origin (Source.Stmt.at? ss) trace [] path none inner := by
  cases path with
  | nil => cases found
  | cons i path =>
    obtain ⟨s, isFirst, found⟩ := Option.bind_eq_some_iff.1 found
    have inside : ∀ path, Source.Stmt.at? ss (i :: path) = s.within? path := by
      intro path
      rw [Source.Stmt.at?, isFirst, Option.bind_some]
    obtain ⟨before, part, after, mid, mid', rfl, traced, encloses⟩ := locates_of_traceStmts traced isFirst
    obtain ⟨inner, located, origin⟩ := exists_locates_within traced found
    have outside : ∀ more, ∀ e ∈ before ++ after, ¬ [] ++ [0 + i] ++ more <+: e.2 :=
      fun more e member => outside_of_longer (encloses.outside e member) more
    have whole := located.extend before after encloses.lands encloses.loops (outside path)
    rw [Nat.zero_add] at whole
    refine ⟨inner, whole, ?_⟩
    rcases origin with ⟨rfl, none⟩ | ⟨around, own, rfl, loopAt, nearest⟩
    · refine .inl ⟨rfl, none.cons nofun inside⟩
    · have loopAt := loopAt.extend (outside around)
      rw [Nat.zero_add] at loopAt
      exact .inr ⟨i :: around, own, rfl, loopAt, nearest.cons inside⟩

end

/-- What is asked of the code of a body. The lines of a loop are one range, from its entry to its exit, and no jump in it
goes to a label around it or the other way round. Lines of a `break` or `continue` jump to the exit or to the check of the
innermost loop around it. -/
structure Structured (ss : List Source.Stmt) (trace : Trace) : Prop where
  loops : ∀ path s, Source.Stmt.at? ss path = some s → s.isLoop = true →
    ∃ before code after entry loop middle, CodeAt trace path before code after ∧ code = loopLines entry loop middle ∧
      (∀ line ∈ code, ∀ t, line.action.target? = some t → t ∈ labels code ∧ t ∉ labels (before ++ after)) ∧
      ∀ line ∈ before ++ after, ∀ t, line.action.target? = some t → t ∉ labels code
  breaks : ∀ path pos, Source.Stmt.at? ss path = some (.breakStmt pos) →
    ∃ around loop before after, Nearest (Source.Stmt.at? ss) around path ∧ LoopAt trace around loop ∧
      CodeAt trace path before [.plain (.jump loop.exit)] after
  continues : ∀ path pos, Source.Stmt.at? ss path = some (.continueStmt pos) →
    ∃ around loop before after, Nearest (Source.Stmt.at? ss) around path ∧ LoopAt trace around loop ∧
      CodeAt trace path before [.plain (.jump loop.check)] after

theorem not_mem_labels_around {before part after : List Stmt} (distinct : (labels (before ++ part ++ after)).Nodup) {t : Name}
    (inside : t ∈ labels part) : t ∉ labels (before ++ after) := by
  simp only [labels_append, List.mem_append, not_or] at distinct ⊢
  obtain ⟨distinct, _, apart⟩ := List.nodup_append.1 distinct
  obtain ⟨_, _, apart'⟩ := List.nodup_append.1 distinct
  exact ⟨fun earlier => apart' t earlier t inside rfl, fun later => apart t (List.mem_append_right _ inside) t later rfl⟩

section

variable {ss : List Source.Stmt} {trace : Trace} {path : Path} {names names' : Namer}
  (traced : traceStmts none [] 0 ss names = .ok (trace, names'))

include traced

theorem exists_jump {s : Source.Stmt} {target : Loop → Name} (found : Source.Stmt.at? ss path = some s)
    (outside : ∀ path, traceStmt none path s = do
      let code ← stmt none s
      pure (own path code))
    (refused : ∀ names code names', ¬ stmt none s names = .ok (code, names'))
    (jumps : ∀ loop path, traceStmt (some loop) path s = pure (own path [.plain (.jump (target loop))])) :
    ∃ around loop before after, Nearest (Source.Stmt.at? ss) around path ∧ LoopAt trace around loop ∧
      CodeAt trace path before [.plain (.jump (target loop))] after := by
  obtain ⟨inner, ⟨before, part, after, mid, mid', rfl, isPart, encloses⟩, origin⟩ := exists_locates traced found
  rcases origin with ⟨rfl, _⟩ | ⟨around, loop, rfl, loopAt, nearest⟩
  · rw [outside path] at isPart
    obtain ⟨code, _, lowered, _⟩ := bind_ok.1 isPart
    exact absurd lowered (refused _ _ _)
  · rw [jumps loop path] at isPart
    obtain ⟨rfl, _⟩ := pure_ok.1 isPart
    exact ⟨around, loop, _, _, nearest, loopAt, before, _, after, rfl, encloses.toIsPart, rfl, code_own _ _, rfl⟩

theorem structured_of_trace (distinct : (labels trace.code).Nodup) : Structured ss trace := by
  refine ⟨?_, ?_, ?_⟩
  · intro path s found isLoop
    obtain ⟨inner, ⟨before, part, after, mid, mid', rfl, isPart, encloses⟩, _⟩ := exists_locates traced found
    rw [code_append, code_append] at distinct
    cases s with
    | whileStmt pos check body =>
      obtain ⟨loop, ⟨entry, middle, shape⟩, lands, _⟩ := locates_of_loop isPart
      refine ⟨before.code, part.code, after.code, entry, loop, middle,
        ⟨before, part, after, rfl, encloses.toIsPart, rfl, rfl, rfl⟩, shape, ?_, ?_⟩
      · intro line member t isTarget
        have inside := lands line member t isTarget
        rw [Loop.labels, List.append_nil] at inside
        exact ⟨inside, not_mem_labels_around distinct inside⟩
      · intro line member t isTarget inside
        have around := encloses.lands line (by rwa [code_append]) t isTarget
        rw [Loop.labels, List.append_nil, code_append] at around
        exact not_mem_labels_around distinct inside around
    | _ => cases isLoop
  · intro path pos found
    exact exists_jump traced found (fun _ => by simp [traceStmt]) (fun _ _ _ => by rw [stmt]; exact refuse_ok)
      fun _ _ => by simp [traceStmt, stmt]
  · intro path pos found
    exact exists_jump traced found (fun _ => by simp [traceStmt]) (fun _ _ _ => by rw [stmt]; exact refuse_ok)
      fun _ _ => by simp [traceStmt, stmt]

end

def IsTrace (ss : List Source.Stmt) (code : List Stmt) (trace : Trace) : Prop :=
  ∃ names names', traceStmts none [] 0 ss names = .ok (trace, names') ∧ trace.code = code

theorem structured_functions {fs : List Source.Function} {gs : List Function} {names names' : Namer}
    (lowered : functions fs names = .ok (gs, names')) (distinct : ∀ g ∈ gs, (labels g.body).Nodup) :
    List.Forall₂ (fun f g => f.external = false → ∃ trace, IsTrace f.body g.body trace ∧ Structured f.body trace) fs gs := by
  induction fs generalizing gs names names' with
  | nil =>
    rw [functions] at lowered
    obtain ⟨rfl, _⟩ := pure_ok.1 lowered
    exact .nil
  | cons f fs ih =>
    rw [functions] at lowered
    obtain ⟨g, mid, first, lowered⟩ := bind_ok.1 lowered
    obtain ⟨rest, mid', others, lowered⟩ := bind_ok.1 lowered
    obtain ⟨rfl, _⟩ := pure_ok.1 lowered
    refine .cons (fun hasBody => ?_) (ih others fun h member => distinct h (List.mem_cons_of_mem g member))
    obtain ⟨_, isBody⟩ := function_ok (inside_ok.1 first) hasBody
    rw [← code_traceStmts none [] 0 f.body] at isBody
    obtain ⟨trace, traced, same⟩ := map_ok.1 isBody
    have apart := distinct g List.mem_cons_self
    rw [← same] at apart
    exact ⟨trace, ⟨names, mid, traced, same⟩, structured_of_trace traced apart⟩

end Code.OfSource

open Code OfSource

/-- Control flow of lowered programs. No label stands twice in a program, every jump goes to a label of its function, and
the code of every function is structured by the loops of its source. The count of names must not come round. -/
theorem Code.Program.structured_of_ofSource {x : Source.Program} {p : Program} (lowered : Program.ofSource x = .ok p)
    (small : Storage.lines p.functions < 2 ^ 64) :
    (p.functions.flatMap fun g => labels g.body).Nodup ∧
      (∀ g ∈ p.functions, ∀ line ∈ g.body, ∀ t, line.action.target? = some t → t ∈ labels g.body) ∧
      List.Forall₂ (fun f g => f.external = false → ∃ trace, IsTrace f.body g.body trace ∧ Structured f.body trace)
        x.functions p.functions := by
  unfold Program.ofSource at lowered
  obtain ⟨globals, _, lowered⟩ := bind_eq_ok.1 lowered
  obtain ⟨⟨functions, names⟩, isFunctions, done⟩ := bind_eq_ok.1 lowered
  cases done
  obtain ⟨made, _, _, upper, numbered, lands⟩ :=
    @flows_functions ⟨0⟩ x.functions 0 functions names (by rw [Namer.after_zero]; exact isFunctions)
  have distinct := numbered.nodup (by dsimp only at small; omega)
  refine ⟨distinct, ?_, ?_⟩
  · intro g member line inBody t isTarget
    have inside := lands g member line inBody t isTarget
    rwa [Loop.labels, List.append_nil] at inside
  · exact structured_functions isFunctions (List.nodup_flatMap.1 distinct).1

/-- `int main() { while (1) { while (2) { if (3) { break; } else { continue; } } if (4) { break; } } return 0; }` -/
def nested : Source.Program :=
  let pos := Source.Position.nowhere
  let number (n : UInt64) : Source.Expr := .literal ⟨pos, .int n⟩
  let inner : Source.Stmt := .whileStmt pos (number 2) [.ifStmt pos (number 3) [.breakStmt pos] [.continueStmt pos]]
  let outer : Source.Stmt := .whileStmt pos (number 1) [inner, .ifStmt pos (number 4) [.breakStmt pos] []]
  ⟨[], [⟨pos, "main", .int, [], false, [outer, .returnStmt pos (number 0)]⟩]⟩

def nestedCode : Program :=
  (Program.ofSource nested).toOption.getD ⟨⟨0⟩, [], []⟩

theorem lowered_nested : Program.ofSource nested = .ok nestedCode :=
  eq_ok_getD (by decide +kernel)

theorem lines_nested : Storage.lines nestedCode.functions = 34 := by
  decide +kernel

theorem Code.Program.structured_of_ofSource_nested :
    Program.ofSource nested = .ok nestedCode ∧ Storage.lines nestedCode.functions < 2 ^ 64 ∧
      (nestedCode.functions.flatMap fun g => labels g.body).Nodup ∧
      (∀ g ∈ nestedCode.functions, ∀ line ∈ g.body, ∀ t, line.action.target? = some t → t ∈ labels g.body) ∧
      List.Forall₂ (fun f g => f.external = false → ∃ trace, IsTrace f.body g.body trace ∧ Structured f.body trace)
        nested.functions nestedCode.functions := by
  have small : Storage.lines nestedCode.functions < 2 ^ 64 := by
    rw [lines_nested]
    decide
  exact ⟨lowered_nested, small, Code.Program.structured_of_ofSource lowered_nested small⟩

end MiniC
