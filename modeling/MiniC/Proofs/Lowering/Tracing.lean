import MiniC.Proofs.Lowering.Flow
import Mathlib.Data.List.Infix

namespace MiniC

/-- Where a statement stands in a body: its number there, then its number among the statements inside of that one, and so
on. -/
abbrev Path := List Nat

namespace Source.Stmt

/-- The statements right inside of a statement. -/
def children : Stmt → List Stmt
  | .whileStmt _ _ body => body
  | .ifStmt _ _ thenBody elseBody => thenBody ++ elseBody
  | _ => []

/-- The statement at a path in a statement. -/
def within? (s : Stmt) : Path → Option Stmt
  | [] => some s
  | i :: path => s.children[i]?.bind fun c => c.within? path

def at? (ss : List Stmt) : Path → Option Stmt
  | [] => none
  | i :: path => ss[i]?.bind fun s => s.within? path

def isLoop : Stmt → Bool
  | .whileStmt .. => true
  | _ => false

end Source.Stmt

namespace Code.OfSource

abbrev Trace := List (Stmt × Path)

namespace Trace

def code (trace : Trace) : List Stmt :=
  trace.map Prod.fst

@[simp] theorem code_append (first second : Trace) : (first ++ second : Trace).code = first.code ++ second.code :=
  List.map_append

/-- Lines that are made for one statement. -/
def own (path : Path) (lines : List Stmt) : Trace :=
  lines.map fun line => (line, path)

@[simp] theorem code_own (path : Path) (lines : List Stmt) : (own path lines).code = lines := by
  simp [own, code, Function.comp_def]

theorem tag_of_mem_own {path : Path} {lines : List Stmt} {e : Stmt × Path} (member : e ∈ own path lines) : e.2 = path := by
  obtain ⟨_, _, rfl⟩ := List.mem_map.1 member
  rfl

end Trace

open Trace

mutual

def traceStmt (loop : Option Loop) (path : Path) : Source.Stmt → Lower Trace
  | .whileStmt _ check body => do
    let start ← fresh Name.label
    let exit ← fresh Name.label
    let inner ← fresh Name.label
    let again ← fresh Name.label
    let flag ← fresh Name.temporary
    let test ← inside .whileCheck (assign flag check)
    let trace ← traceStmts (some ⟨again, exit⟩) path 0 body
    pure (own path ([.mark start, .mark again] ++ test ++ [.plain (.branch .zero flag exit), .mark inner]) ++ trace ++
      own path [.plain (.jump again), .mark exit])
  | .ifStmt _ check thenBody elseBody => do
    let flag ← fresh Name.temporary
    let other ← fresh Name.label
    let exit ← fresh Name.label
    let test ← inside .ifCheck (assign flag check)
    let thenTrace ← traceStmts loop path 0 thenBody
    let elseTrace ← traceStmts loop path thenBody.length elseBody
    pure (own path (test ++ [.plain (.branch .zero flag other)]) ++ thenTrace ++
      own path [.plain (.jump exit), .mark other] ++ elseTrace ++ own path [.mark exit])
  | s => do
    let code ← stmt loop s
    pure (own path code)

/-- The tagged code of statements right inside of the one at a path, from the one numbered `index` on. -/
def traceStmts (loop : Option Loop) (path : Path) (index : Nat) : List Source.Stmt → Lower Trace
  | [] => pure []
  | s :: ss => do
    let before ← traceStmt loop (path ++ [index]) s
    let trace ← traceStmts loop path (index + 1) ss
    pure (before ++ trace)

end

theorem map_ok {α β : Type} {f : α → β} {x : Lower α} {b : β} {names names' : Namer} :
    (f <$> x) names = .ok (b, names') ↔ ∃ a, x names = .ok (a, names') ∧ f a = b := by
  rw [map_eq_pure_bind, bind_ok]
  constructor
  · rintro ⟨a, mid, done, last⟩
    obtain ⟨same, rfl⟩ := pure_ok.1 last
    exact ⟨a, done, same⟩
  · rintro ⟨a, done, rfl⟩
    exact ⟨a, names', done, rfl⟩

mutual

theorem code_traceStmt (loop : Option Loop) (path : Path) : ∀ s, code <$> traceStmt loop path s = stmt loop s
  | .whileStmt _ check body => by
    simp only [traceStmt, stmt, map_bind, map_pure, ← code_traceStmts _ path 0 body, bind_map_left, code_append, code_own]
  | .ifStmt _ check thenBody elseBody => by
    simp only [traceStmt, stmt, map_bind, map_pure, ← code_traceStmts loop path 0 thenBody,
      ← code_traceStmts loop path thenBody.length elseBody, bind_map_left, code_append, code_own]
  | .missing | .assign .. | .declare .. | .returnStmt .. | .breakStmt .. | .continueStmt .. | .exprStmt .. => by
    simp [traceStmt]

theorem code_traceStmts (loop : Option Loop) (path : Path) (index : Nat) :
    ∀ ss, code <$> traceStmts loop path index ss = stmts loop ss
  | [] => by
    simp [traceStmts, stmts, code]
  | s :: ss => by
    simp only [traceStmts, stmts, map_bind, map_pure, ← code_traceStmt loop (path ++ [index]) s,
      ← code_traceStmts loop path (index + 1) ss, bind_map_left, code_append]

end

mutual

theorem ensures_tags_stmt (loop : Option Loop) (path : Path) :
    ∀ s, Ensures (traceStmt loop path s) fun trace => ∀ e ∈ trace, path <+: e.2
  | .whileStmt _ check body => by
    rw [traceStmt]
    refine .bind (.any _) fun _ _ => .bind (.any _) fun _ _ => .bind (.any _) fun _ _ => .bind (.any _) fun _ _ =>
      .bind (.any _) fun _ _ => .bind (.any _) fun _ _ => .bind (ensures_tags_stmts _ path 0 body) fun _ tags => .pure ?_
    intro e member
    rcases List.mem_append.1 member with member | last
    · rcases List.mem_append.1 member with first | inner
      · rw [tag_of_mem_own first]
      · obtain ⟨_, _, _, inside⟩ := tags e inner
        exact (List.prefix_append path _).trans inside
    · rw [tag_of_mem_own last]
  | .ifStmt _ check thenBody elseBody => by
    rw [traceStmt]
    refine .bind (.any _) fun _ _ => .bind (.any _) fun _ _ => .bind (.any _) fun _ _ => .bind (.any _) fun _ _ =>
      .bind (ensures_tags_stmts loop path 0 thenBody) fun _ thenTags =>
      .bind (ensures_tags_stmts loop path thenBody.length elseBody) fun _ elseTags => .pure ?_
    intro e member
    simp only [List.mem_append] at member
    rcases member with (((first | inThen) | middle) | inElse) | last
    · rw [tag_of_mem_own first]
    · obtain ⟨_, _, _, inside⟩ := thenTags e inThen
      exact (List.prefix_append path _).trans inside
    · rw [tag_of_mem_own middle]
    · obtain ⟨_, _, _, inside⟩ := elseTags e inElse
      exact (List.prefix_append path _).trans inside
    · rw [tag_of_mem_own last]
  | .missing | .assign .. | .declare .. | .returnStmt .. | .breakStmt .. | .continueStmt .. | .exprStmt .. => by
    rw [traceStmt]
    · exact .bind (.any _) fun _ _ => .pure fun e member => by rw [tag_of_mem_own member]
    all_goals nofun

theorem ensures_tags_stmts (loop : Option Loop) (path : Path) (index : Nat) :
    ∀ ss, Ensures (traceStmts loop path index ss) fun trace =>
      ∀ e ∈ trace, ∃ i, index ≤ i ∧ i < index + ss.length ∧ path ++ [i] <+: e.2
  | [] => by
    rw [traceStmts]
    exact .pure fun _ never => nomatch never
  | s :: ss => by
    rw [traceStmts]
    refine .bind (ensures_tags_stmt loop (path ++ [index]) s) fun _ tags =>
      .bind (ensures_tags_stmts loop path (index + 1) ss) fun _ others => .pure ?_
    intro e member
    rcases List.mem_append.1 member with first | later
    · exact ⟨index, Nat.le_refl index, by simp, tags e first⟩
    · obtain ⟨i, above, below, inside⟩ := others e later
      exact ⟨i, by omega, by rw [List.length_cons]; omega, inside⟩

end

/-- The part of a trace that was made for the statement at a path and those inside of it. -/
structure IsPart (path : Path) (before part after : Trace) : Prop where
  inside : ∀ e ∈ part, path <+: e.2
  outside : ∀ e ∈ before ++ after, ¬ path <+: e.2

/-- A part of a trace in the loop `outer` that is itself in the loop `inner`. No jump around the part goes into it. -/
structure Encloses (outer inner : Option Loop) (path : Path) (before part after : Trace) : Prop
    extends IsPart path before part after where
  lands : Lands outer (before ++ after).code
  loops : Loop.labels inner ⊆ labels (before ++ after).code ++ Loop.labels outer

section

variable {outer middle inner : Option Loop} {path path' : Path} {before part after left right : Trace}

theorem IsPart.extend (isPart : IsPart path before part after) (outside : ∀ e ∈ left ++ right, ¬ path <+: e.2) :
    IsPart path (left ++ before) part (after ++ right) := by
  refine ⟨isPart.inside, fun e member => ?_⟩
  have cases : e ∈ before ++ after ∨ e ∈ left ++ right := by
    simp only [List.mem_append] at member ⊢
    tauto
  rcases cases with near | far
  · exact isPart.outside e near
  · exact outside e far

theorem Encloses.extend (encloses : Encloses middle inner path before part after) (lands : Lands outer (left ++ right).code)
    (loops : Loop.labels middle ⊆ labels (left ++ right).code ++ Loop.labels outer)
    (outside : ∀ e ∈ left ++ right, ¬ path <+: e.2) : Encloses outer inner path (left ++ before) part (after ++ right) := by
  have far : ∀ t, t ∈ labels (left ++ right).code ++ Loop.labels outer →
      t ∈ labels ((left ++ before) ++ (after ++ right)).code ++ Loop.labels outer := by
    intro t member
    simp only [code_append, labels_append, List.mem_append] at member ⊢
    tauto
  have near : ∀ t, t ∈ labels (before ++ after).code ++ Loop.labels middle →
      t ∈ labels ((left ++ before) ++ (after ++ right)).code ++ Loop.labels outer := by
    intro t member
    rcases List.mem_append.1 member with own | ofLoop
    · simp only [code_append, labels_append, List.mem_append] at own ⊢
      tauto
    · exact far t (loops ofLoop)
  refine ⟨encloses.toIsPart.extend outside, fun line member t isTarget => ?_, fun t member => near t (encloses.loops member)⟩
  have cases : line ∈ (before ++ after).code ∨ line ∈ (left ++ right).code := by
    simp only [code_append, List.mem_append] at member ⊢
    tauto
  rcases cases with inside | around
  · exact near t (encloses.lands line inside t isTarget)
  · exact far t (lands line around t isTarget)

end

/-- A trace in the loop `outer` has a part for the statement at a path, which was lowered in the loop `inner`. -/
def Locates (outer : Option Loop) (trace : Trace) (inner : Option Loop) (path : Path) (s : Source.Stmt) : Prop :=
  ∃ before part after names names', trace = before ++ part ++ after ∧
    traceStmt inner path s names = .ok (part, names') ∧ Encloses outer inner path before part after

section

variable {outer middle inner : Option Loop} {path : Path} {trace : Trace} {s : Source.Stmt} {names names' : Namer}

theorem Locates.self (traced : traceStmt outer path s names = .ok (trace, names')) : Locates outer trace outer path s := by
  refine ⟨[], trace, [], names, names', by simp, traced, ⟨ensures_tags_stmt outer path s _ _ _ traced, ?_⟩, ?_, ?_⟩
  · exact fun _ never => nomatch never
  · exact fun _ never => nomatch never
  · exact List.subset_append_right _ _

theorem Locates.extend (located : Locates middle trace inner path s) (left right : Trace)
    (lands : Lands outer (left ++ right).code)
    (loops : Loop.labels middle ⊆ labels (left ++ right).code ++ Loop.labels outer)
    (outside : ∀ e ∈ left ++ right, ¬ path <+: e.2) : Locates outer (left ++ trace ++ right) inner path s := by
  obtain ⟨before, part, after, names, names', rfl, traced, encloses⟩ := located
  exact ⟨left ++ before, part, after ++ right, names, names', by simp, traced, encloses.extend lands loops outside⟩

theorem lands_traceStmt (traced : traceStmt outer path s names = .ok (trace, names')) : Lands outer trace.code := by
  have lowered : stmt outer s names = .ok (trace.code, names') := by
    rw [← code_traceStmt outer path s]
    exact map_ok.2 ⟨trace, traced, rfl⟩
  exact ensures_lands_stmt outer s _ _ _ lowered

theorem lands_traceStmts {index : Nat} {ss : List Source.Stmt}
    (traced : traceStmts outer path index ss names = .ok (trace, names')) : Lands outer trace.code := by
  have lowered : stmts outer ss names = .ok (trace.code, names') := by
    rw [← code_traceStmts outer path index ss]
    exact map_ok.2 ⟨trace, traced, rfl⟩
  exact ensures_lands_stmts outer ss _ _ _ lowered

end

theorem not_prefix_of_ne {path tag : Path} {i j : Nat} (inside : path ++ [i] <+: tag) (other : i ≠ j) :
    ¬ path ++ [j] <+: tag := by
  intro both
  have same := List.prefix_of_prefix_length_le inside both (by simp)
  exact other (by simpa using same.eq_of_length (by simp))

theorem not_prefix_self (path : Path) (i : Nat) : ¬ path ++ [i] <+: path := by
  intro longer
  have length := longer.length_le
  rw [List.length_append, List.length_singleton] at length
  omega

theorem not_prefix_of_mem_own {path : Path} {lines : List Stmt} {e : Stmt × Path} (member : e ∈ own path lines) (i : Nat) :
    ¬ path ++ [i] <+: e.2 := by
  rw [tag_of_mem_own member]
  exact not_prefix_self path i

section

variable {loop : Option Loop} {path : Path} {trace : Trace} {s c : Source.Stmt} {ss : List Source.Stmt}
  {names names' : Namer} {index i : Nat}

theorem locates_of_traceStmts (traced : traceStmts loop path index ss names = .ok (trace, names'))
    (found : ss[i]? = some s) : Locates loop trace loop (path ++ [index + i]) s := by
  induction ss generalizing index i names trace with
  | nil => cases found
  | cons first ss ih =>
    rw [traceStmts] at traced
    obtain ⟨head, mid, isFirst, traced⟩ := bind_ok.1 traced
    obtain ⟨tail, mid', others, traced⟩ := bind_ok.1 traced
    obtain ⟨rfl, rfl⟩ := pure_ok.1 traced
    cases i with
    | zero =>
      cases found
      have later : ∀ e ∈ ([] ++ tail : Trace), ¬ path ++ [index + 0] <+: e.2 := by
        intro e member
        obtain ⟨j, above, _, inside⟩ := ensures_tags_stmts loop path (index + 1) ss _ _ _ others e member
        exact not_prefix_of_ne inside (by omega)
      exact (Locates.self isFirst).extend [] tail (lands_traceStmts others) (List.subset_append_right _ _) later
    | succ i =>
      have located := ih others found
      rw [show index + 1 + i = index + (i + 1) by omega] at located
      have earlier : ∀ e ∈ (head ++ [] : Trace), ¬ path ++ [index + (i + 1)] <+: e.2 := by
        intro e member
        rw [List.append_nil] at member
        exact not_prefix_of_ne (ensures_tags_stmt loop (path ++ [index]) first _ _ _ isFirst e member) (by omega)
      have whole := located.extend head [] (by rw [List.append_nil]; exact lands_traceStmt isFirst)
        (List.subset_append_right _ _) earlier
      rwa [List.append_nil] at whole

/-- The lines of a loop: its entry, where it goes on, and what follows up to its exit. -/
def loopLines (entry : Name) (loop : Loop) (middle : List Stmt) : List Stmt :=
  Stmt.mark entry :: Stmt.mark loop.check :: (middle ++ [Stmt.mark loop.exit])

theorem ne_nil_of_fresh {kind : Bytes} {name : Name} (made : fresh kind names = .ok (name, names')) : name ≠ [] := by
  obtain ⟨n, rfl⟩ := Ensures.fresh kind _ _ _ made
  exact Name.generated_ne_nil kind n

theorem lands_loopFrame (loop : Option Loop) {test : List Stmt} {start exit inner again : Name} (plain : IsPlain test)
    (isStart : start ≠ []) (isExit : exit ≠ []) (isInner : inner ≠ []) (isAgain : again ≠ []) (flag : Name) :
    let frame := [Stmt.mark start, Stmt.mark again] ++ test ++ [Stmt.plain (.branch .zero flag exit), Stmt.mark inner] ++
      [Stmt.plain (.jump again), Stmt.mark exit]
    Lands loop frame ∧ labels frame = [start, again, inner, exit] := by
  intro frame
  have marks : labels frame = [start, again, inner, exit] := by
    simp [frame, labels_mark, isStart, isExit, isInner, isAgain, plain.labels_eq_nil]
  refine ⟨fun line member t isTarget => ?_, marks⟩
  rw [marks]
  simp only [frame, List.mem_append, List.mem_cons, List.not_mem_nil, or_false] at member
  rcases member with (((rfl | rfl) | inTest) | rfl | rfl) | rfl | rfl
  · cases isTarget
  · cases isTarget
  · cases (plain line inTest).2.symm.trans isTarget
  · cases isTarget
    simp
  · cases isTarget
  · cases isTarget
    simp
  · cases isTarget

theorem locates_of_loop {pos : Source.Position} {check : Source.Expr} {body : List Source.Stmt}
    (traced : traceStmt loop path (.whileStmt pos check body) names = .ok (trace, names')) :
    ∃ own, (∃ entry middle, trace.code = loopLines entry own middle) ∧ Lands none trace.code ∧
      ∀ i c, body[i]? = some c → Locates loop trace (some own) (path ++ [i]) c := by
  have lands : Lands none trace.code := by
    rw [show traceStmt loop path (.whileStmt pos check body) = traceStmt none path (.whileStmt pos check body) by
      simp only [traceStmt]] at traced
    exact lands_traceStmt traced
  rw [traceStmt] at traced
  obtain ⟨start, _, isStart, traced⟩ := bind_ok.1 traced
  obtain ⟨exit, _, isExit, traced⟩ := bind_ok.1 traced
  obtain ⟨inner, _, isInner, traced⟩ := bind_ok.1 traced
  obtain ⟨again, _, isAgain, traced⟩ := bind_ok.1 traced
  obtain ⟨flag, _, _, traced⟩ := bind_ok.1 traced
  obtain ⟨test, _, isTest, traced⟩ := bind_ok.1 traced
  obtain ⟨middle, _, isBody, traced⟩ := bind_ok.1 traced
  obtain ⟨rfl, _⟩ := pure_ok.1 traced
  have plain := ensures_plain_assign flag check _ _ _ (inside_ok.1 isTest)
  refine ⟨⟨again, exit⟩, ⟨start, test ++ [Stmt.plain (.branch .zero flag exit), Stmt.mark inner] ++ middle.code ++
    [Stmt.plain (.jump again)], by simp [loopLines]⟩, lands, fun i c found => ?_⟩
  have located := locates_of_traceStmts isBody found
  rw [Nat.zero_add] at located
  obtain ⟨lands, marks⟩ := lands_loopFrame loop plain (ne_nil_of_fresh isStart) (ne_nil_of_fresh isExit)
    (ne_nil_of_fresh isInner) (ne_nil_of_fresh isAgain) flag
  refine located.extend _ _ ?_ ?_ ?_
  · rwa [code_append, code_own, code_own]
  · rw [code_append, code_own, code_own, marks]
    simp [Loop.labels]
  · intro e member
    rcases List.mem_append.1 member with first | last
    · exact not_prefix_of_mem_own first i
    · exact not_prefix_of_mem_own last i

theorem lands_choiceFrame (loop : Option Loop) {test : List Stmt} {other exit : Name} (plain : IsPlain test)
    (isOther : other ≠ []) (isExit : exit ≠ []) (flag : Name) :
    Lands loop (test ++ [Stmt.plain (.branch .zero flag other)] ++ [Stmt.plain (.jump exit), Stmt.mark other] ++
      [Stmt.mark exit]) := by
  intro line member t isTarget
  simp only [List.mem_append, List.mem_cons, List.not_mem_nil, or_false] at member
  simp only [labels_append, plain.labels_eq_nil, labels_plain, labels_mark isOther, labels_mark isExit, labels_nil]
  rcases member with ((inTest | rfl) | rfl | rfl) | rfl
  · cases (plain line inTest).2.symm.trans isTarget
  · cases isTarget
    simp
  · cases isTarget
    simp
  · cases isTarget
  · cases isTarget

theorem locates_of_choice {pos : Source.Position} {check : Source.Expr} {thenBody elseBody : List Source.Stmt}
    (traced : traceStmt loop path (.ifStmt pos check thenBody elseBody) names = .ok (trace, names'))
    (found : (thenBody ++ elseBody)[i]? = some c) : Locates loop trace loop (path ++ [i]) c := by
  rw [traceStmt] at traced
  obtain ⟨flag, _, _, traced⟩ := bind_ok.1 traced
  obtain ⟨other, _, isOther, traced⟩ := bind_ok.1 traced
  obtain ⟨exit, _, isExit, traced⟩ := bind_ok.1 traced
  obtain ⟨test, _, isTest, traced⟩ := bind_ok.1 traced
  obtain ⟨thenTrace, _, isThen, traced⟩ := bind_ok.1 traced
  obtain ⟨elseTrace, _, isElse, traced⟩ := bind_ok.1 traced
  obtain ⟨rfl, _⟩ := pure_ok.1 traced
  have plain := ensures_plain_assign flag check _ _ _ (inside_ok.1 isTest)
  have lands := lands_choiceFrame loop plain (ne_nil_of_fresh isOther) (ne_nil_of_fresh isExit) flag
  by_cases inThen : i < thenBody.length
  · rw [List.getElem?_append_left inThen] at found
    have located := locates_of_traceStmts isThen found
    rw [Nat.zero_add] at located
    rw [List.append_assoc _ _ elseTrace, List.append_assoc _ _ (own path [.mark exit])]
    refine located.extend _ _ ?_ (List.subset_append_right _ _) ?_
    · refine lands.merge (lands_traceStmts isElse) ?_ ?_
      · intro line member
        simp only [code_append, code_own, List.mem_append] at member ⊢
        tauto
      · constructor <;> intro t member <;> simp only [code_append, code_own, labels_append, List.mem_append] at member ⊢ <;>
          tauto
    · intro e member
      simp only [List.mem_append] at member
      rcases member with mine | (mine | inElse) | mine
      · exact not_prefix_of_mem_own mine i
      · exact not_prefix_of_mem_own mine i
      · obtain ⟨j, above, _, inside⟩ := ensures_tags_stmts loop path _ elseBody _ _ _ isElse e inElse
        exact not_prefix_of_ne inside (by omega)
      · exact not_prefix_of_mem_own mine i
  · rw [List.getElem?_append_right (Nat.not_lt.1 inThen)] at found
    have located := locates_of_traceStmts isElse found
    rw [Nat.add_sub_cancel' (Nat.not_lt.1 inThen)] at located
    refine located.extend _ _ ?_ (List.subset_append_right _ _) ?_
    · refine lands.merge (lands_traceStmts isThen) ?_ ?_
      · intro line member
        simp only [code_append, code_own, List.mem_append] at member ⊢
        tauto
      · constructor <;> intro t member <;> simp only [code_append, code_own, labels_append, List.mem_append] at member ⊢ <;>
          tauto
    · intro e member
      simp only [List.mem_append] at member
      rcases member with ((mine | inThenTrace) | mine) | mine
      · exact not_prefix_of_mem_own mine i
      · obtain ⟨j, _, below, inside⟩ := ensures_tags_stmts loop path 0 thenBody _ _ _ isThen e inThenTrace
        exact not_prefix_of_ne inside (by omega)
      · exact not_prefix_of_mem_own mine i
      · exact not_prefix_of_mem_own mine i

theorem exists_locates_child (traced : traceStmt loop path s names = .ok (trace, names')) (found : s.children[i]? = some c) :
    ∃ inner, Locates loop trace inner (path ++ [i]) c ∧
      (s.isLoop = false ∧ inner = loop ∨
        s.isLoop = true ∧ ∃ own, inner = some own ∧ ∃ entry middle, trace.code = loopLines entry own middle) := by
  cases s with
  | whileStmt pos check body =>
    obtain ⟨own, isLoop, _, each⟩ := locates_of_loop traced
    exact ⟨some own, each i c found, .inr ⟨rfl, own, rfl, isLoop⟩⟩
  | ifStmt pos check thenBody elseBody => exact ⟨loop, locates_of_choice traced found, .inl ⟨rfl, rfl⟩⟩
  | _ => cases found

end

end Code.OfSource

end MiniC
