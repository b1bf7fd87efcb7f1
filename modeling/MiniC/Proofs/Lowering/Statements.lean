import MiniC.Proofs.Lowering.Expressions
import MiniC.Proofs.Lowering.Performing
import Mathlib.Data.List.Nodup

namespace MiniC.Code.OfSource

open Source (Completion Expr)

section

variable (w : World) (start : Namer)

structure AssignCode (a : Nat) (x : Name) (e : Expr) (code : List Stmt) (b : Nat) : Prop where
  lower : a ≤ b
  upper : b + 1 ≤ a + code.length
  straight : ∀ stmt ∈ code, stmt.IsStraight
  runs : b < 2 ^ 64 → ∀ i σ τ, τ.user = σ.user →
    Matches (fun out τ' => τ'.user = (out.2.set x out.1).user ∧ τ' x = out.1) (e.values w σ)
      (w.setting.language.flows i code τ)

def Marked (a b : Nat) (part : List Stmt) : Prop :=
  ∃ numbers : List Nat, numbers.Nodup ∧ (∀ j ∈ numbers, a < j ∧ j ≤ b) ∧
    w.setting.language.marks part = numbers.map (start.made Name.label)

structure StmtCode (loop : Option Loop) (a : Nat) (results : Valuation → Set (Completion × Valuation))
    (part : List Stmt) (b : Nat) : Prop where
  lower : a ≤ b
  upper : b ≤ a + part.length
  marked : Marked w start a b part
  performs : b < 2 ^ 64 → ∀ {code k next}, w.setting.language.UniqueLabels code → CodeAt code k part →
    next = k + part.length → Performs w code loop results k next

def LowersStmt (lowered : Option Loop → Lower (List Stmt))
    (results : Valuation → Set (Completion × Valuation)) : Prop :=
  ∀ loop a part names, lowered loop (start.after a) = .ok (part, names) →
    ∃ b, names = start.after b ∧ StmtCode w start loop a results part b

end

variable {w : World} {start : Namer} {a b : Nat} {x : Name} {e : Expr} {code part : List Stmt}

theorem made_ne_nil (kind : Bytes) (i : Nat) : start.made kind i ≠ [] :=
  Name.generated_ne_nil _ _

theorem assign_ok {names : Namer} (lowers : Lowers w start e)
    (ok : assign x e (start.after a) = .ok (code, names)) :
    ∃ b, names = start.after b ∧ AssignCode w a x e code b := by
  rw [assign, bind_ok] at ok
  obtain ⟨⟨before, y⟩, mid, lowered, ok⟩ := ok
  obtain ⟨rfl, rfl⟩ := pure_ok.1 ok
  obtain ⟨b, after, exprCode⟩ := lowers _ _ _ _ lowered
  have plain : (Stmt.plain (.unary .copy x y)).IsStraight := Stmt.isStraight_plain rfl
  refine ⟨b, after, exprCode.lower, ?_, ?_, ?_⟩
  · have upper := exprCode.upper
    simp only [List.length_append, List.length_singleton]
    omega
  · intro stmt member
    rcases List.mem_append.1 member with member | member
    · exact exprCode.straight stmt member
    · rw [List.mem_singleton.1 member]
      exact plain
  · intro bound i σ τ same
    rw [Language.flows_append, Expr.values]
    refine (exprCode.runs bound i σ τ same).andThen ?_
    rintro ⟨v, σ'⟩ τ' agrees
    rw [Language.flows_singleton, World.nexts_unary]
    have value : v.read σ' = τ' y := agrees.holds.read agrees.user
    have copied : {τ'' | ∃ c, UnOp.copy.eval? (τ' y) = some c ∧ τ'' = τ'.set x c} = {τ'.set x (τ' y)} := by
      ext τ''
      simp [UnOp.eval?]
    rw [copied]
    dsimp only
    rw [value]
    exact .singleton ⟨Valuation.user_set agrees.user x _, Valuation.set_same _ _ _⟩

namespace Marked

theorem straight (plain : ∀ stmt ∈ part, stmt.IsStraight) (start : Namer) (a b : Nat) :
    Marked w start a b part :=
  ⟨[], List.nodup_nil, by simp, marks_straight plain⟩

theorem append {c : Nat} {first second : List Stmt} (left : Marked w start a b first)
    (right : Marked w start b c second) (lower : a ≤ b) (upper : b ≤ c) :
    Marked w start a c (first ++ second) := by
  obtain ⟨numbers, distinct, within, same⟩ := left
  obtain ⟨numbers', distinct', within', same'⟩ := right
  refine ⟨numbers ++ numbers', ?_, ?_, by rw [Language.marks_append, same, same', List.map_append]⟩
  · refine List.nodup_append.2 ⟨distinct, distinct', ?_⟩
    intro i member j member' equal
    have := within i member
    have := within' j member'
    omega
  · intro j member
    rcases List.mem_append.1 member with member | member
    · have := within j member
      omega
    · have := within' j member
      omega

theorem unique (marked : Marked w start a b part) (bound : b < 2 ^ 64) : w.setting.language.UniqueLabels part := by
  obtain ⟨numbers, distinct, within, same⟩ := marked
  rw [Language.uniqueLabels_iff, same]
  refine List.Nodup.map_on ?_ distinct
  intro i member j member' equal
  have := within i member
  have := within j member'
  exact Namer.made_injective (by omega) (by omega) equal

end Marked

namespace AssignCode

variable {values : Valuation → Set (Word × Valuation)} {k : Nat} {rest : List Stmt} {loop : Option Loop}

theorem tests {label : Name} {no : Nat} (assigned : AssignCode w a x e part b) (bound : b < 2 ^ 64)
    (hidden : Name.isGenerated x = true)
    (placed : CodeAt code k (part ++ .plain (.branch .zero x label) :: rest))
    (found : w.setting.language.labelled code label = some no) :
    Tests w code (e.values w) k no (k + part.length + 1) := by
  have plain : ∀ stmt ∈ part, w.setting.language.Straight stmt :=
    fun stmt member => (assigned.straight stmt member).straight
  have branches : ∀ {count τ outcome τ'}, w.setting.language.Closes code count (k + part.length) τ outcome τ' ↔
      ∃ count', count = count' + 1 ∧
        w.setting.language.Closes code count' (if τ x = 0 then no else k + part.length + 1) τ outcome τ' := by
    intro count τ outcome τ'
    have decided : (if (τ x == 0) = true then some no else some (k + part.length + 1)) =
        some (if τ x = 0 then no else k + part.length + 1) := by
      simp only [beq_iff_eq]
      split <;> rfl
    rw [closes_branch placed.right.head rfl rfl rfl, found, decided]
    simp only [Option.some.injEq, exists_and_left, exists_eq_left']
  constructor
  · intro σ τ c σ' same computed
    obtain ⟨τ', flow, same', value⟩ := (assigned.runs bound k σ τ same).1 _ computed
    rw [Valuation.user_set_generated hidden] at same'
    obtain rfl : τ' x = c := value
    refine ⟨τ', same', fun {count _ _} closes => ⟨count + 1 + part.length, ?_⟩⟩
    exact (Language.closes_straight placed.left plain).2 ⟨τ', flow, _, rfl, branches.2 ⟨count, rfl, closes⟩⟩
  · intro σ τ count outcome τ'' same closes
    obtain ⟨τ', flow, count', rfl, later⟩ := (Language.closes_straight placed.left plain).1 closes
    obtain ⟨count'', rfl, final⟩ := branches.1 later
    obtain ⟨⟨c, σ'⟩, computed, same', value⟩ := (assigned.runs bound k σ τ same).2 _ flow
    obtain rfl : τ' x = c := value
    rw [Valuation.user_set_generated hidden] at same'
    exact ⟨_, σ', τ', count'', computed, same', by omega, final⟩

theorem returns (assigned : AssignCode w a x e part b) (bound : b < 2 ^ 64)
    (hidden : Name.isGenerated x = true) (named : x ≠ [])
    (placed : CodeAt code k (part ++ [.plain (.ret x)])) {next : Nat} :
    Performs w code loop (fun σ => MiniC.andThen (e.values w σ) fun (c, σ) =>
      {(.returned (some c), σ)}) k next := by
  have plain : ∀ stmt ∈ part, w.setting.language.Straight stmt :=
    fun stmt member => (assigned.straight stmt member).straight
  constructor
  · rintro σ τ _ _ same ⟨⟨c, σ'⟩, computed, ended⟩
    obtain ⟨rfl, rfl⟩ := Prod.mk.inj ended
    obtain ⟨τ', flow, same', value⟩ := (assigned.runs bound k σ τ same).1 _ computed
    obtain rfl : τ' x = c := value
    rw [Valuation.user_set_generated hidden] at same'
    refine ⟨τ', same', fun {count _ _} ended => ⟨part.length, ?_⟩⟩
    cases ended
    refine (Language.closes_straight placed.left plain).2 ⟨τ', flow, 0, by omega, ?_⟩
    rw [closes_return placed.right.head rfl]
    exact ⟨rfl, [], some (τ' x), .give named rfl, rfl⟩
  · intro σ τ count outcome τ'' same closes
    obtain ⟨τ', flow, count', rfl, later⟩ := (Language.closes_straight placed.left plain).1 closes
    rw [closes_return placed.right.head rfl] at later
    obtain ⟨rfl, events, value, acts, rfl⟩ := later
    obtain ⟨⟨c, σ'⟩, computed, same', value⟩ := (assigned.runs bound k σ τ same).2 _ flow
    obtain rfl : τ' x = c := value
    rw [Valuation.user_set_generated hidden] at same'
    cases acts with
    | leave => exact absurd rfl named
    | give _ read =>
      cases read
      exact ⟨_, σ', _, 0, ⟨_, computed, rfl⟩, same', by omega, .returned⟩

end AssignCode

namespace LowersStmt

variable {lowered lowered' : Option Loop → Lower (List Stmt)}
  {results results' : Valuation → Set (Completion × Valuation)}

theorem of_eq (lowers : LowersStmt w start lowered' results') (code : ∀ loop, lowered loop = lowered' loop)
    (meaning : ∀ σ, results σ = results' σ) : LowersStmt w start lowered results := by
  rw [funext code, funext meaning]
  exact lowers

theorem refused {cause : Option Loop → Cause} : LowersStmt w start (fun loop => refuse (cause loop)) results :=
  fun _ _ _ _ ok => absurd ok refuse_ok

theorem of_pure_nil : LowersStmt w start (fun _ => pure []) fun σ => {(.normal, σ)} := by
  intro loop a part names ok
  obtain ⟨rfl, rfl⟩ := pure_ok.1 ok
  refine ⟨a, rfl, le_refl _, by simp, .straight (by simp) _ _ _, ?_⟩
  rintro _ code k _ _ placed rfl
  exact .straight placed (by simp) fun σ τ same => .singleton ⟨rfl, same⟩

theorem seq (first : LowersStmt w start lowered results) (rest : LowersStmt w start lowered' results') :
    LowersStmt w start
      (fun loop => do
        let before ← lowered loop
        let code ← lowered' loop
        pure (before ++ code))
      fun σ => andThen (results σ) fun (completion, σ) =>
        if completion = .normal then results' σ else {(completion, σ)} := by
  intro loop a part names ok
  rw [bind_ok] at ok
  obtain ⟨before, mid, before_ok, ok⟩ := ok
  obtain ⟨b, rfl, firstCode⟩ := first _ _ _ _ before_ok
  rw [bind_ok] at ok
  obtain ⟨behind, mid, behind_ok, ok⟩ := ok
  obtain ⟨c, rfl, restCode⟩ := rest _ _ _ _ behind_ok
  obtain ⟨rfl, rfl⟩ := pure_ok.1 ok
  have lower := restCode.lower
  refine ⟨c, rfl, le_trans firstCode.lower lower, ?_, firstCode.marked.append restCode.marked
    firstCode.lower lower, ?_⟩
  · have upper := firstCode.upper
    have upper' := restCode.upper
    rw [List.length_append]
    omega
  · intro bound code k next unique placed ending
    have ending' : next = k + before.length + behind.length := by
      rw [ending, List.length_append, Nat.add_assoc]
    exact (firstCode.performs (by omega) unique placed.left rfl).andThen
      (restCode.performs bound unique placed.right ending')

theorem evaluate (lowers : Lowers w start e) :
    LowersStmt w start
      (fun _ => do
        let (code, _) ← expr e
        pure code)
      fun σ => andThen (e.values w σ) fun (_, σ) => {(.normal, σ)} := by
  intro loop a part names ok
  rw [bind_ok] at ok
  obtain ⟨⟨part, y⟩, mid, lowered, ok⟩ := ok
  obtain ⟨rfl, rfl⟩ := pure_ok.1 ok
  obtain ⟨b, rfl, exprCode⟩ := lowers _ _ _ _ lowered
  refine ⟨b, rfl, exprCode.lower, exprCode.upper, .straight exprCode.straight _ _ _, ?_⟩
  rintro bound code k _ _ placed rfl
  refine .straight placed exprCode.straight fun σ τ same => ?_
  rw [Expr.values]
  refine .map (.map (exprCode.runs bound k σ τ same) (Q := fun out τ' => τ'.user = out.2.user) ?_) ?_
  · intro out τ' agrees
    exact agrees.user
  · intro out τ' same'
    exact ⟨rfl, same'⟩

theorem assign (x : Name) (lowers : Lowers w start e) :
    LowersStmt w start (fun _ => OfSource.assign x e)
      fun σ => andThen (e.values w σ) fun (c, σ) => {(.normal, σ.set x c)} := by
  intro loop a part names ok
  obtain ⟨b, rfl, assigned⟩ := assign_ok lowers ok
  have upper := assigned.upper
  refine ⟨b, rfl, assigned.lower, by omega, .straight assigned.straight _ _ _, ?_⟩
  rintro bound code k _ _ placed rfl
  refine .straight placed assigned.straight fun σ τ same => ?_
  exact .map (assigned.runs bound k σ τ same) fun out τ' agrees => ⟨rfl, agrees.1⟩

theorem leave : LowersStmt w start (fun _ => pure [.plain (.ret [])]) fun σ => {(.returned none, σ)} := by
  intro loop a part names ok
  obtain ⟨rfl, rfl⟩ := pure_ok.1 ok
  refine ⟨a, rfl, le_refl _, by simp, ⟨[], List.nodup_nil, by simp, rfl⟩, ?_⟩
  intro _ code k _ _ placed _
  constructor
  · rintro σ τ _ _ same ⟨⟩
    refine ⟨τ, same, fun rest => ⟨0, ?_⟩⟩
    cases rest
    rw [closes_return placed.head rfl]
    exact ⟨rfl, [], none, .leave, rfl⟩
  · intro σ τ count outcome τ'' same closes
    rw [closes_return placed.head rfl] at closes
    obtain ⟨rfl, events, value, acts, rfl⟩ := closes
    cases acts with
    | leave => exact ⟨_, σ, _, 0, rfl, same, le_refl _, .returned⟩
    | give named _ => exact absurd rfl named

theorem returns_value (lowers : Lowers w start e) :
    LowersStmt w start
      (fun _ => do
        let res ← fresh Name.temporary
        let code ← inside .returned (OfSource.assign res e)
        pure (code ++ [.plain (.ret res)]))
      fun σ => andThen (e.values w σ) fun (c, σ) => {(.returned (some c), σ)} := by
  intro loop a part names ok
  dsimp only at ok
  rw [fresh_bind, bind_ok] at ok
  obtain ⟨test, mid, assigns, ok⟩ := ok
  rw [inside_ok] at assigns
  obtain ⟨b, rfl, assigned⟩ := assign_ok lowers assigns
  obtain ⟨rfl, rfl⟩ := pure_ok.1 ok
  have lower := assigned.lower
  have upper := assigned.upper
  refine ⟨b, rfl, by omega, ?_, ?_, ?_⟩
  · simp only [List.length_append, List.length_singleton]
    omega
  · exact ⟨[], List.nodup_nil, by simp, by rw [Language.marks_append, marks_straight assigned.straight]; rfl⟩
  · intro bound code k _ _ placed _
    exact assigned.returns bound (Namer.isGenerated_made _ _ _) (made_ne_nil _ _) placed

theorem escape {label : Loop → Name} {completion : Completion} {cause : Cause}
    (goes : ∀ {code loop next count τ outcome τ'}, Rest w code loop next count τ completion outcome τ' ↔
      ∃ l pc, loop = some l ∧ w.setting.language.labelled code (label l) = some pc ∧
        w.setting.language.Closes code count pc τ outcome τ') :
    LowersStmt w start
      (fun loop =>
        match loop with
        | some l => pure [.plain (.jump (label l))]
        | none => refuse cause)
      fun σ => {(completion, σ)} := by
  intro loop a part names ok
  cases loop with
  | none => exact absurd ok refuse_ok
  | some l =>
    obtain ⟨rfl, rfl⟩ := pure_ok.1 ok
    refine ⟨a, rfl, le_refl _, by simp, ⟨[], List.nodup_nil, by simp, rfl⟩, ?_⟩
    intro _ code k _ _ placed _
    constructor
    · rintro σ τ _ _ same ⟨⟩
      refine ⟨τ, same, fun {count _ _} rest => ⟨count + 1, ?_⟩⟩
      obtain ⟨_, pc, ⟨⟩, found, closes⟩ := goes.1 rest
      exact (closes_jump placed.head rfl).2 ⟨count, pc, rfl, found, closes⟩
    · intro σ τ count outcome τ'' same closes
      obtain ⟨count', pc, rfl, found, closes⟩ := (closes_jump placed.head rfl).1 closes
      exact ⟨completion, σ, τ, count', rfl, same, by omega, goes.2 ⟨l, pc, rfl, found, closes⟩⟩

theorem loop (check : Lowers w start e) (body : LowersStmt w start lowered results) :
    LowersStmt w start
      (fun _ => do
        let first ← fresh Name.label
        let exit ← fresh Name.label
        let inner ← fresh Name.label
        let again ← fresh Name.label
        let flag ← fresh Name.temporary
        let test ← inside .whileCheck (OfSource.assign flag e)
        let code ← lowered (some ⟨again, exit⟩)
        pure ([Stmt.mark first, .mark again] ++ test ++ [Stmt.plain (.branch .zero flag exit), .mark inner] ++
          code ++ [Stmt.plain (.jump again), .mark exit]))
      fun σ => {out | Source.Loop (e.values w) results σ out.1 out.2} := by
  intro loop a part names ok
  dsimp only at ok
  rw [fresh_bind, fresh_bind, fresh_bind, fresh_bind, fresh_bind, bind_ok] at ok
  obtain ⟨test, mid, assigns, ok⟩ := ok
  rw [inside_ok] at assigns
  obtain ⟨b, rfl, assigned⟩ := assign_ok check assigns
  rw [bind_ok] at ok
  obtain ⟨round, mid, round_ok, ok⟩ := ok
  obtain ⟨c, rfl, bodyCode⟩ := body _ _ _ _ round_ok
  obtain ⟨rfl, rfl⟩ := pure_ok.1 ok
  simp only [List.append_assoc, List.cons_append, List.nil_append]
  have lower := assigned.lower
  have upper := assigned.upper
  have lower' := bodyCode.lower
  have upper' := bodyCode.upper
  refine ⟨c, rfl, by omega, ?_, ?_, ?_⟩
  · simp only [List.length_append, List.length_cons, List.length_nil]
    omega
  · obtain ⟨numbers, distinct, within, same⟩ := bodyCode.marked
    refine ⟨(a + 1) :: (a + 4) :: (a + 3) :: (numbers ++ [a + 2]), ?_, ?_, ?_⟩
    · grind
    · grind
    · simp only [marks_mark (made_ne_nil _ _), Language.marks_append, marks_plain, Language.marks_nil,
        marks_straight assigned.straight, same, List.map_cons, List.map_append, List.nil_append,
        List.map_nil]
  · intro bound code k next unique placed ending
    have atAgain := placed.tail
    have atTest := atAgain.tail
    have atInner := atTest.right.tail
    have atBody := atInner.tail
    have atJump := atBody.right
    have atExit := atJump.tail
    have again := Language.labelled_of_codeAt unique atAgain (made_ne_nil _ _)
    have exit := Language.labelled_of_codeAt unique atExit (made_ne_nil _ _)
    have tests := (assigned.tests (by omega) (Namer.isGenerated_made _ _ _) atTest exit).before
      (Passes.mark atAgain)
    have rounds := ((bodyCode.performs bound unique atBody.left rfl).after (Passes.jump atJump again)).before
      (Passes.mark atInner)
    obtain rfl : next = k + 1 + 1 + test.length + 1 + 1 + round.length + 1 + 1 := by
      simp only [ending, List.length_append, List.length_cons, List.length_nil]
      omega
    exact ((Performs.of_loop tests rounds again exit).after (Passes.mark atExit)).before (Passes.mark placed)

theorem choice (check : Lowers w start e) (first : LowersStmt w start lowered results)
    (second : LowersStmt w start lowered' results') :
    LowersStmt w start
      (fun loop => do
        let flag ← fresh Name.temporary
        let other ← fresh Name.label
        let exit ← fresh Name.label
        let test ← inside .ifCheck (OfSource.assign flag e)
        let thenCode ← lowered loop
        let elseCode ← lowered' loop
        pure (test ++ [.plain (.branch .zero flag other)] ++ thenCode ++
          [.plain (.jump exit), .mark other] ++ elseCode ++ [.mark exit]))
      fun σ => andThen (e.values w σ) fun (c, σ) => if c ≠ 0 then results σ else results' σ := by
  intro loop a part names ok
  dsimp only at ok
  rw [fresh_bind, fresh_bind, fresh_bind, bind_ok] at ok
  obtain ⟨test, mid, assigns, ok⟩ := ok
  rw [inside_ok] at assigns
  obtain ⟨b, rfl, assigned⟩ := assign_ok check assigns
  rw [bind_ok] at ok
  obtain ⟨thenCode, mid, then_ok, ok⟩ := ok
  obtain ⟨c, rfl, thenStmts⟩ := first _ _ _ _ then_ok
  rw [bind_ok] at ok
  obtain ⟨elseCode, mid, else_ok, ok⟩ := ok
  obtain ⟨d, rfl, elseStmts⟩ := second _ _ _ _ else_ok
  obtain ⟨rfl, rfl⟩ := pure_ok.1 ok
  simp only [List.append_assoc, List.cons_append, List.nil_append]
  have lower := assigned.lower
  have upper := assigned.upper
  have lowerThen := thenStmts.lower
  have upperThen := thenStmts.upper
  have lowerElse := elseStmts.lower
  have upperElse := elseStmts.upper
  refine ⟨d, rfl, by omega, ?_, ?_, ?_⟩
  · simp only [List.length_append, List.length_cons, List.length_nil]
    omega
  · obtain ⟨numbers, distinct, within, same⟩ := thenStmts.marked
    obtain ⟨numbers', distinct', within', same'⟩ := elseStmts.marked
    refine ⟨numbers ++ (a + 2) :: (numbers' ++ [a + 3]), ?_, ?_, ?_⟩
    · grind
    · grind
    · simp only [marks_mark (made_ne_nil _ _), Language.marks_append, marks_plain, Language.marks_nil,
        marks_straight assigned.straight, same, same', List.map_cons, List.map_append, List.nil_append,
        List.map_nil]
  · intro bound code k next unique placed ending
    have atThen := placed.right.tail
    have atJump := atThen.right
    have atOther := atJump.tail
    have atElse := atOther.tail
    have atExit := atElse.right
    have other := Language.labelled_of_codeAt unique atOther (made_ne_nil _ _)
    have exit := Language.labelled_of_codeAt unique atExit (made_ne_nil _ _)
    obtain rfl : next = k + test.length + 1 + thenCode.length + 1 + 1 + elseCode.length + 1 := by
      simp only [ending, List.length_append, List.length_cons, List.length_nil]
      omega
    have whenTrue := (thenStmts.performs (by omega) unique atThen.left rfl).after (Passes.jump atJump exit)
    have whenFalse := (elseStmts.performs bound unique atElse.left rfl).before (Passes.mark atOther)
    exact (Performs.choice (assigned.tests (by omega) (Namer.isGenerated_made _ _ _) placed other)
      whenTrue whenFalse).after (Passes.mark atExit)

end LowersStmt

section

variable (w : World) (start : Namer)

mutual

theorem lowersStmt : ∀ s : Source.Stmt, s.isProper = true → LowersStmt w start (fun loop => stmt loop s) (s.results w)
  | .missing, _ => .of_eq .refused (fun _ => by rw [stmt]) (fun _ => by rw [Source.Stmt.results])
  | .assign _ x e, proper => by
    simp only [Source.Stmt.isProper, Bool.and_eq_true] at proper
    exact .of_eq (.assign x (lowers w start e proper.2)) (fun _ => by rw [stmt]) (fun _ => by rw [Source.Stmt.results])
  | .declare pos ty x e, proper => by
    simp only [Source.Stmt.isProper, Bool.and_eq_true] at proper
    by_cases missing : e = .missing
    · subst missing
      by_cases text : ty = .string
      · exact .of_eq .refused (fun _ => by rw [stmt, if_pos text]) (fun _ => rfl)
      · exact .of_eq .of_pure_nil (fun _ => by rw [stmt, if_neg text]) (fun _ => by rw [Source.Stmt.results])
    · exact .of_eq (.assign x (lowers w start e proper.2)) (fun _ => by rw [stmt]; exact missing)
        (fun _ => by rw [Source.Stmt.results]; exact missing)
  | .returnStmt pos e, proper => by
    rw [Source.Stmt.isProper] at proper
    by_cases missing : e = .missing
    · subst missing
      exact .of_eq .leave (fun _ => by rw [stmt]) (fun _ => by rw [Source.Stmt.results])
    · exact .of_eq (.returns_value (lowers w start e proper)) (fun _ => by rw [stmt]; exact missing)
        (fun _ => by rw [Source.Stmt.results]; exact missing)
  | .breakStmt pos, _ =>
    .of_eq (.escape Rest.broke_iff) (fun loop => by cases loop <;> rw [stmt]) (fun _ => by rw [Source.Stmt.results])
  | .continueStmt pos, _ =>
    .of_eq (.escape Rest.continued_iff) (fun loop => by cases loop <;> rw [stmt])
      (fun _ => by rw [Source.Stmt.results])
  | .whileStmt _ check body, proper => by
    simp only [Source.Stmt.isProper, Bool.and_eq_true] at proper
    exact .of_eq (.loop (lowers w start check proper.1) (lowersStmts body proper.2)) (fun _ => by rw [stmt])
      (fun _ => by rw [Source.Stmt.results])
  | .ifStmt _ check thenBody elseBody, proper => by
    simp only [Source.Stmt.isProper, Bool.and_eq_true] at proper
    obtain ⟨⟨proper, properThen⟩, properElse⟩ := proper
    exact .of_eq (.choice (lowers w start check proper) (lowersStmts thenBody properThen)
      (lowersStmts elseBody properElse)) (fun _ => by rw [stmt]) (fun _ => by rw [Source.Stmt.results])
  | .exprStmt _ e, proper => by
    rw [Source.Stmt.isProper] at proper
    exact .of_eq (.evaluate (lowers w start e proper)) (fun _ => by rw [stmt]) (fun _ => by rw [Source.Stmt.results])

theorem lowersStmts : ∀ ss : List Source.Stmt, Source.Stmt.allProper ss = true →
    LowersStmt w start (fun loop => stmts loop ss) (Source.Stmt.listResults w ss)
  | [], _ => .of_eq .of_pure_nil (fun _ => by rw [stmts]) (fun _ => by rw [Source.Stmt.listResults])
  | s :: ss, proper => by
    rw [Source.Stmt.allProper, Bool.and_eq_true] at proper
    exact .of_eq (.seq (lowersStmt s proper.1) (lowersStmts ss proper.2)) (fun _ => by rw [stmts])
      (fun _ => by rw [Source.Stmt.listResults])

end

end

end MiniC.Code.OfSource
