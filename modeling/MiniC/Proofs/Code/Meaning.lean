import MiniC.Code.Basic
import MiniC.Proofs.Execution.Labels

namespace MiniC

namespace Word

/-- One for what holds, and zero for what does not. -/
def ofBool (b : Bool) : Word :=
  if b then 1 else 0

def bit (w : Word) : Word :=
  w &&& 1

def byte (w : Word) : Word :=
  w &&& 0xff

/-- Signed division, rounded to zero. Division by zero gives `-1`. -/
def quotient (a b : Word) : Word :=
  if b = 0 then -1 else a.sdiv b

/-- The rest of signed division. Division by zero leaves all. -/
def remainder (a b : Word) : Word :=
  if b = 0 then a else a.srem b

/-- Shifts take the lowest six bits of their amount. -/
def amount (w : Word) : Nat :=
  w.toNat % 64

end Word

namespace Code

/-- The value of an operation on two words; an operation outside of the table has none. -/
def BinOp.eval? (op : BinOp) (a b : Word) : Option Word :=
  match op with
  | .add => some (a + b)
  | .sub => some (a - b)
  | .mul => some (a * b)
  | .div => some (a.quotient b)
  | .rem => some (a.remainder b)
  | .lt => some (.ofBool (a.slt b))
  | .gt => some (.ofBool (b.slt a))
  | .eq => some (.ofBool (a == b))
  | .ne => some (.ofBool (a != b))
  | .bitAnd => some (a &&& b)
  | .bitOr => some (a ||| b)
  | .bitXor => some (a ^^^ b)
  | .shiftLeft => some (a <<< b.amount)
  | .shiftRight => some (a >>> b.amount)
  | .logAnd => some (a &&& b).bit
  | .logOr => some (a ||| b).bit
  | .unknown _ _ => none

/-- The value of an operation on one word; an operation outside of the table has none. -/
def UnOp.eval? (op : UnOp) (a : Word) : Option Word :=
  match op with
  | .minus => some (-a)
  | .bitNeg => some (~~~a)
  | .logNeg => some (~~~a).bit
  | .copy => some a
  | .unknown _ _ => none

def Check.holds? (check : Check) (a : Word) : Option Bool :=
  match check with
  | .zero => some (a == 0)
  | .nonzero => some (a != 0)
  | .unknown _ _ => none

/-- What code refers to, over the states `S`. -/
structure Setting (S : Type) where
  read : S → Name → Option Word
  write : S → Name → Word → Option S
  constant : S → (i : Nat) → Value → Set Word
  transfer : S → Storage.Location → Storage.Location → Option S
  call : S → Name → List Word → Set (Word × S)

section

variable {S : Type} (m : Setting S)

/-- The state after the result of a call is put in its place; an empty name drops it. -/
def Setting.keep (s : S) (result : Name) (w : Word) : Option S :=
  if result = [] then some s else m.write s result w

/-- What an action of the statement numbered `i` may do in the state `s`. -/
inductive Acts (i : Nat) (s : S) : Action → List Event → Flow → S → Prop
  | nop : Acts i s .nop [] .next s
  | store {dest value w s'} :
    w ∈ m.constant s i value → m.write s dest w = some s' →
    Acts i s (.store dest (some value)) [] .next s'
  | binary {op dest left right a b w s'} :
    m.read s left = some a → m.read s right = some b → op.eval? a b = some w →
    m.write s dest w = some s' → Acts i s (.binary op dest left right) [] .next s'
  | unary {op dest arg a w s'} :
    m.read s arg = some a → op.eval? a = some w → m.write s dest w = some s' →
    Acts i s (.unary op dest arg) [] .next s'
  | jump {target} : Acts i s (.jump target) [.jump target] (.goto target) s
  | taken {check var target a} :
    m.read s var = some a → check.holds? a = some true →
    Acts i s (.branch check var target) [.jump target] (.goto target) s
  | passed {check var target a} :
    m.read s var = some a → check.holds? a = some false →
    Acts i s (.branch check var target) [] .next s
  | call {callee args result ws w s₁ s'} :
    args.mapM (m.read s) = some ws → (w, s₁) ∈ m.call s callee ws →
    m.keep s₁ result w = some s' →
    Acts i s (.call callee args result) [.call callee ws w] .next s'
  | leave : Acts i s (.ret []) [] (.leave none) s
  | give {var a} :
    var ≠ [] → m.read s var = some a → Acts i s (.ret var) [] (.leave (some a)) s
  | move {src dst s'} :
    m.transfer s src dst = some s' → Acts i s (.move src dst) [] .next s'

def Setting.language : Language Stmt S where
  label := Stmt.label
  acts i s stmt := Acts m i s stmt.action

end

def Action.isStraight : Action → Bool
  | .jump _ | .branch .. | .ret _ => false
  | _ => true

def Stmt.IsStraight (s : Stmt) : Prop :=
  s.label = [] ∧ s.action.isStraight = true

theorem Stmt.isStraight_plain {action : Action} (straight : action.isStraight = true) :
    (Stmt.plain action).IsStraight :=
  ⟨rfl, straight⟩

section

variable {S : Type} {m : Setting S}

theorem Stmt.IsStraight.straight {stmt : Stmt} (plain : stmt.IsStraight) : m.language.Straight stmt := by
  obtain ⟨label, action⟩ := stmt
  obtain ⟨_, plain⟩ := plain
  intro i s events flow s' acts
  cases acts with
  | jump | taken | leave | give => cases plain
  | _ => rfl

variable {code : List Stmt} {count pc : Nat} {stmt : Stmt} {s s' : S} {outcome : Outcome}

theorem language_acts_iff {action : Action} (is : stmt.action = action) {i : Nat} {events : List Event}
    {flow : Flow} : m.language.acts i s stmt events flow s' ↔ Acts m i s action events flow s' := by
  rw [← is]
  rfl

theorem closes_return {var : Name} (at_ : code[pc]? = some stmt) (gives : stmt.action = .ret var) :
    m.language.Closes code count pc s outcome s' ↔
      count = 0 ∧ ∃ events value, Acts m pc s (.ret var) events (.leave value) s' ∧
        outcome = .returned value := by
  constructor
  · rintro ⟨_, ends⟩
    cases ends with
    | halt halts =>
      cases halts with
      | fell => simp at at_
      | returned at_' acts =>
        obtain rfl : stmt = _ := Option.some.inj (at_.symm.trans at_')
        exact ⟨rfl, _, _, (language_acts_iff gives).1 acts, rfl⟩
    | step at_' acts target rest =>
      obtain rfl : stmt = _ := Option.some.inj (at_.symm.trans at_')
      cases (language_acts_iff gives).1 acts <;> cases target
  · rintro ⟨rfl, events, value, acts, rfl⟩
    exact ⟨_, .halt (.returned at_ ((language_acts_iff gives).2 acts))⟩

theorem closes_jump {target : Name} (at_ : code[pc]? = some stmt) (jumps : stmt.action = .jump target) :
    m.language.Closes code count pc s outcome s' ↔
      ∃ count' pc', count = count' + 1 ∧ m.language.labelled code target = some pc' ∧
        m.language.Closes code count' pc' s outcome s' := by
  rw [Language.closes_step at_ fun _ _ _ acts => by cases (language_acts_iff jumps).1 acts]
  constructor
  · rintro ⟨count', flow, s₁, pc', rfl, ⟨events, acts⟩, found, rest⟩
    cases (language_acts_iff jumps).1 acts
    exact ⟨count', pc', rfl, found, rest⟩
  · rintro ⟨count', pc', rfl, found, rest⟩
    exact ⟨count', .goto target, s, pc', rfl, ⟨_, (language_acts_iff jumps).2 .jump⟩, found, rest⟩

theorem closes_branch {check : Check} {var target : Name} {value : Word} {taken : Bool}
    (at_ : code[pc]? = some stmt) (branches : stmt.action = .branch check var target)
    (known : m.read s var = some value) (holds : check.holds? value = some taken) :
    m.language.Closes code count pc s outcome s' ↔
      ∃ count' pc', count = count' + 1 ∧
        (if taken then m.language.labelled code target else some (pc + 1)) = some pc' ∧
        m.language.Closes code count' pc' s outcome s' := by
  rw [Language.closes_step at_ fun _ _ _ acts => by cases (language_acts_iff branches).1 acts]
  constructor
  · rintro ⟨count', flow, s₁, pc', rfl, ⟨events, acts⟩, found, rest⟩
    cases (language_acts_iff branches).1 acts with
    | taken read decided =>
      cases known.symm.trans read
      cases holds.symm.trans decided
      exact ⟨count', pc', rfl, found, rest⟩
    | passed read decided =>
      cases known.symm.trans read
      cases holds.symm.trans decided
      exact ⟨count', pc', rfl, found, rest⟩
  · rintro ⟨count', pc', rfl, found, rest⟩
    cases taken with
    | true =>
      exact ⟨count', .goto target, s, pc', rfl, ⟨_, (language_acts_iff branches).2 (.taken known holds)⟩,
        found, rest⟩
    | false =>
      exact ⟨count', .next, s, pc', rfl, ⟨_, (language_acts_iff branches).2 (.passed known holds)⟩, found, rest⟩

theorem closes_next {s₁ : S} (at_ : code[pc]? = some stmt)
    (acts : ∀ {events flow s'}, Acts m pc s stmt.action events flow s' ↔ events = [] ∧ flow = .next ∧ s' = s₁) :
    (∃ count, m.language.Closes code count pc s outcome s') ↔
      ∃ count, m.language.Closes code count (pc + 1) s₁ outcome s' := by
  have stays : ∀ events value s', ¬ Acts m pc s stmt.action events (.leave value) s' :=
    fun _ _ _ leaves => nomatch (acts.1 leaves).2.1
  constructor
  · rintro ⟨count, closes⟩
    obtain ⟨count', flow, _, pc', _, ⟨_, does⟩, goes, rest⟩ := (Language.closes_step at_ stays).1 closes
    obtain ⟨_, rfl, rfl⟩ := acts.1 does
    cases goes
    exact ⟨count', rest⟩
  · rintro ⟨count, rest⟩
    refine ⟨count + 1, (Language.closes_step at_ stays).2 ?_⟩
    exact ⟨count, .next, s₁, _, rfl, ⟨[], acts.2 ⟨rfl, rfl, rfl⟩⟩, rfl, rest⟩

@[simp] theorem marks_plain (action : Action) (part : List Stmt) :
    m.language.marks (.plain action :: part) = m.language.marks part := by
  simp [Language.marks, Setting.language, Stmt.plain]

theorem marks_mark {label : Name} (named : label ≠ []) (part : List Stmt) :
    m.language.marks (.mark label :: part) = label :: m.language.marks part := by
  simp [Language.marks, Setting.language, Stmt.mark, named]

theorem marks_straight {part : List Stmt} (straight : ∀ stmt ∈ part, stmt.IsStraight) :
    m.language.marks part = [] := by
  simp only [Language.marks, List.filter_eq_nil_iff, List.mem_map]
  rintro _ ⟨stmt, member, rfl⟩
  simp [Setting.language, (straight stmt member).1]

end

end Code

end MiniC
