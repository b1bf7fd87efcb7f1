import MiniC.Proofs.Emission.Failures
import MiniC.Proofs.Storage.Totality

namespace MiniC.Assembly

open Code Storage

variable {queue : Queue Usage Usage.less} {x : Name}

theorem fits_ofNat {m : Nat} (small : m < 2 ^ 63) : fits (Int64.ofNat m) = true ↔ m < 2048 := by
  have number : (Int64.ofNat m).toInt = m := Int64.toInt_ofNat_of_lt small
  have low : (-2048 : Int64).toInt = -2048 := by decide
  have high : (2048 : Int64).toInt = 2048 := by decide
  rw [fits, Bool.and_eq_true, decide_eq_true_iff, decide_eq_true_iff, Int64.le_iff_toInt_le, Int64.lt_iff_toInt_lt, number,
    low, high]
  omega

theorem fits_neg_ofNat {m : Nat} (small : m < 2048) : fits (-Int64.ofNat m) = true := by
  have negated : (-Int64.ofNat m).toInt = -m := Int64.toInt_neg_ofNat_of_le (by omega)
  have low : (-2048 : Int64).toInt = -2048 := by decide
  have high : (2048 : Int64).toInt = 2048 := by decide
  rw [fits, Bool.and_eq_true, decide_eq_true_iff, decide_eq_true_iff, Int64.le_iff_toInt_le, Int64.lt_iff_toInt_lt, negated,
    low, high]
  omega

section

variable {start : Namer} {a moves : Nat} {globals new later : List Global} {f g : Function}
  {strings : Nat → Name} {l final : Layout} {q : Program}

theorem movable_of_withFrame {params : List Param} {body : List Stmt} (ok : place queue globals params body = .ok l)
    (small : 8 * l.withFrame.slots.length < 2048) {place : Location} (found : l.withFrame.get? x = some place) :
    Movable place := by
  obtain ⟨_, _, sized, _⟩ := get?_place ok
  rw [Layout.get?_withFrame sized] at found
  cases placed ok x with
  | param _ before | frame _ _ before =>
    have inside := Layout.offsetOf_lt before
    rw [before] at found
    cases found
    exact (fits_ofNat (by omega)).2 (by omega)
  | global _ _ before | register _ _ _ before =>
    rw [before] at found
    cases found
    trivial
  | unused _ _ none =>
    rw [none] at found
    cases found

variable (assigns : Assigns queue start a moves globals new f g strings l) (layout : g.layout = some final)
  (small : 8 * l.withFrame.slots.length < 2048)

include assigns layout small

theorem reaches_of_placed {place : Location} (found : final.get? x = some place) :
    (scopeOf q final g.exitLabel).Reaches x := by
  refine ⟨place, by rw [Scope.resolve, show (scopeOf q final g.exitLabel).layout = final from rfl, found], ?_⟩
  rcases (later_of_assigns assigns layout).places x with same | ⟨_, r, _, register⟩
  · exact movable_of_withFrame assigns.places small (same.symm.trans found)
  · cases register.symm.trans found
    trivial

theorem reaches_of_withFrame (found : l.withFrame.get? x ≠ none) : (scopeOf q final g.exitLabel).Reaches x := by
  obtain ⟨place, found⟩ := Option.ne_none_iff_exists'.1 ((later_of_assigns assigns layout).get?_ne_none found)
  exact reaches_of_placed assigns layout small found

theorem reaches_of_global (declared : q.globals = globals ++ new ++ later) {h : Global} (member : h ∈ new) :
    (scopeOf q final g.exitLabel).Reaches h.name := by
  cases found : final.get? h.name with
  | some place => exact reaches_of_placed assigns layout small found
  | none =>
    have isGlobal : h ∈ q.globals := by
      rw [declared]
      exact List.mem_append_left _ (List.mem_append_right _ member)
    have declaredOnce : (q.globals.find? fun h' => h'.name = h.name).isSome = true :=
      List.find?_isSome.2 ⟨h, isGlobal, decide_eq_true rfl⟩
    obtain ⟨h', found'⟩ := Option.isSome_iff_exists.1 declaredOnce
    refine ⟨.memory h'.name h'.ty.size, ?_, trivial⟩
    rw [Scope.resolve, show (scopeOf q final g.exitLabel).layout = final from rfl, found,
      show (scopeOf q final g.exitLabel).globals = q.globals from rfl, found']

theorem ready_of_becomes (declared : q.globals = globals ++ new ++ later) {P : Name → Prop} (named : ∀ x, P x → x ≠ [])
    {i : Nat} {s : Stmt} {action : Action} (inBody : f.body[i]? = some s) (written : s.action.IsWritten P)
    (placed : ∀ x ∈ s.action.inputs ++ s.action.outputs, l.withFrame.get? x ≠ none)
    (becomes : Becomes l.withFrame final (symbolic (strings i) s.action) action) :
    Ready (scopeOf q final g.exitLabel) action := by
  obtain ⟨label, original⟩ := s
  dsimp only at written placed becomes
  cases becomes with
  | load _ _ found => exact .inl ⟨⟨_, rfl⟩, movable_of_withFrame assigns.places small found⟩
  | unload _ _ found => exact .inr ⟨⟨_, rfl⟩, movable_of_withFrame assigns.places small found⟩
  | @call callee args result is =>
    obtain rfl : original = .call callee args result := by
      unfold symbolic at is
      split at is
      · cases is
      · exact is
    refine ⟨fun arg member => ?_, ?_⟩
    · exact reaches_of_withFrame assigns layout small (placed arg (List.mem_append_left _ member))
    · have output : result ∈ (Action.call callee args result).outputs := by
        rw [Action.outputs, if_neg (named result written.2)]
        exact List.mem_singleton_self result
      exact reaches_of_withFrame assigns layout small (placed result (List.mem_append_right _ output))
  | @other ins outs _ reads writes =>
    rw [InRegisters, inputs_symbolic] at reads
    rw [InRegisters, outputs_symbolic] at writes
    have input : ∀ x ∈ original.inputs, (scopeOf q final g.exitLabel).Keeps (ins.apply x) :=
      fun x member => reads x member (placed x (List.mem_append_left _ member))
    have output : ∀ x ∈ original.outputs, (scopeOf q final g.exitLabel).Keeps (outs.apply x) :=
      fun x member => writes x member (placed x (List.mem_append_right _ member))
    cases original with
    | nop | jump => trivial
    | move => exact written.elim
    | call => exact absurd ‹_› Bool.false_ne_true
    | store dest value =>
      obtain ⟨_, v, rfl, plain⟩ := written
      have keeps := output dest List.mem_cons_self
      cases v with
      | str text =>
        obtain ⟨_, found⟩ := assigns.extracts.kept inBody
        refine ⟨keeps, .symbol (strings i), rfl, nofun, ?_⟩
        rintro name ⟨⟩
        exact reaches_of_global assigns layout small declared (List.mem_of_find?_eq_some found)
      | symbol name => exact absurd rfl (plain name)
      | int | char => exact ⟨keeps, _, rfl, nofun, nofun⟩
    | binary op dest left right =>
      exact ⟨written.1, output dest List.mem_cons_self, input left List.mem_cons_self,
        input right (List.mem_cons_of_mem _ List.mem_cons_self)⟩
    | unary op dest arg => exact ⟨written.1, output dest List.mem_cons_self, input arg List.mem_cons_self⟩
    | branch check var target =>
      obtain ⟨rfl, _⟩ := written
      exact ⟨by decide, input var List.mem_cons_self⟩
    | ret var =>
      by_cases empty : var = []
      · exact .inl (if_pos empty)
      · have read : var ∈ (Action.ret var).inputs := by
          rw [Action.inputs, if_neg empty]
          exact List.mem_singleton_self var
        have keeps := input var read
        refine .inr ?_
        rw [if_neg empty]
        exact keeps.reaches

end

theorem convert_cases {ty : Ty} {value given : Value} (converted : OfSource.convert ty value = .ok given) :
    given.ty = ty ∧ ((∀ name, value ≠ .symbol name) → ∀ name, given ≠ .symbol name) := by
  unfold OfSource.convert at converted
  split at converted
  · cases converted
    exact ⟨rfl, nofun⟩
  · split at converted <;> cases converted
    exact ⟨rfl, nofun⟩
  · split at converted <;> cases converted
    exact ⟨‹_›, id⟩

theorem exists_globalData {y : Source.Global} {h : Global} (wellFormed : y.WellFormed) (lowered : OfSource.global y = .ok h) :
    ∃ part, globalData h = .ok part := by
  obtain ⟨pos, name, ty, init⟩ := y
  cases init with
  | none =>
    cases ty with
    | int | char =>
      cases lowered
      exact ⟨_, rfl⟩
    | void => exact absurd rfl wellFormed.notVoid
    | string => exact absurd rfl (wellFormed.notString rfl)
    | unknown =>
      have known := wellFormed.ty
      simp [Ty.all] at known
  | some literal =>
    obtain ⟨value, isValue, lowered⟩ := bind_eq_ok.1 lowered
    obtain ⟨given, converted, done⟩ := bind_eq_ok.1 lowered
    cases done
    obtain ⟨sameTy, plain⟩ := convert_cases (within_eq_ok.1 converted)
    rw [← sameTy]
    cases given with
    | symbol name => exact absurd rfl (plain (OfSource.constant_ne_symbol isValue) name)
    | int | char | str => exact ⟨_, rfl⟩

theorem operands_of_isWritten {P : Name → Prop} {action : Action} (written : action.IsWritten P) :
    ∀ x ∈ action.inputs ++ action.outputs, P x := by
  cases action with
  | nop | jump => exact nofun
  | move => exact written.elim
  | store => simpa [Action.inputs, Action.outputs] using written.1
  | binary => simpa [Action.inputs, Action.outputs, and_comm, and_left_comm] using written.2
  | unary => simpa [Action.inputs, Action.outputs, and_comm] using written.2
  | branch => simpa [Action.inputs, Action.outputs] using written.2
  | call callee args result =>
    intro x member
    rcases List.mem_append.1 member with isArg | isResult
    · exact written.1 x isArg
    · rw [Action.outputs] at isResult
      split at isResult
      · cases isResult
      · rw [List.mem_singleton.1 isResult]
        exact written.2
  | ret var =>
    intro x member
    rw [Action.inputs, Action.outputs, List.append_nil] at member
    split at member
    · cases member
    · rw [List.mem_singleton.1 member]
      exact written.resolve_left ‹_›

theorem operand_ne_string {start : Namer} {a b : Nat} (operand : OfSource.Operand start a b x) (n : Int64) :
    x ≠ Name.generated Name.string n := by
  rcases operand with ⟨user, _⟩ | ⟨j, _, _, rfl⟩
  · exact Name.ne_generated user _ _
  · intro same
    have start : (start.made Name.temporary j).take 3 = (Name.generated Name.string n).take 3 := by rw [same]
    cases start

theorem length_slots_of_assigns {start : Namer} {a moves : Nat} {declared earlier new : List Global} {f g : Function}
    {strings : Nat → Name} {l : Layout} (assigns : Assigns queue start a moves (declared ++ earlier) new f g strings l)
    (old : ∀ h ∈ declared ++ earlier ++ new, h ∈ declared ∨ ∃ n, h.name = Name.generated Name.string n)
    (operands : ∀ s ∈ f.body, ∀ x ∈ s.action.inputs ++ s.action.outputs, ∀ n, x ≠ Name.generated Name.string n) :
    l.withFrame.slots.length = 2 + (frameNames declared f.params f.body).length := by
  rw [length_slots assigns.places, frameNames_congr f.params (usedNames_withStrings strings [] f.body)]
  intro s inBody x isOperand
  constructor
  · intro isName
    obtain ⟨h, inside, rfl⟩ := List.mem_map.1 isName
    rcases old h inside with isDeclared | ⟨n, isString⟩
    · exact List.mem_map_of_mem isDeclared
    · exact absurd isString (operands s inBody h.name isOperand n)
  · intro isName
    rw [List.map_append, List.map_append]
    exact List.mem_append_left _ (List.mem_append_left _ isName)

theorem badCall_congr {fs gs : List Function} (same : List.Forall₂ (fun f g => g.name = f.name ∧ g.params = f.params) fs gs)
    (action : Action) : BadCall gs action ↔ BadCall fs action := by
  cases action with
  | call callee args result =>
    refine or_congr ?_ (or_congr ?_ .rfl)
    · constructor
      · intro none f member
        obtain ⟨g, inside, name, _⟩ := exists_of_mem_left same member
        exact name ▸ none g inside
      · intro none g member
        obtain ⟨f, inside, name, _⟩ := exists_of_mem_right same member
        exact name ▸ none f inside
    · constructor
      · rintro ⟨g, member, named, other⟩
        obtain ⟨f, inside, name, params⟩ := exists_of_mem_right same member
        exact ⟨f, inside, name.symm.trans named, params ▸ other⟩
      · rintro ⟨f, member, named, other⟩
        obtain ⟨g, inside, name, params⟩ := exists_of_mem_left same member
        exact ⟨g, inside, name.trans named, params ▸ other⟩
  | _ => exact .rfl

theorem badCalls_of_keeps {functions : List Function} {body code : List Stmt} (keeps : Keeps body code) :
    (∀ s ∈ code, ¬ BadCall functions s.action) ↔ ∀ s ∈ body, ¬ BadCall functions s.action := by
  have stays : ∀ s, BadCall functions s.action → (s ∈ code ↔ s ∈ body) := by
    rintro ⟨label, action⟩ bad
    cases action with
    | call callee args result => exact keeps.calls _ callee args result rfl
    | _ => exact bad.elim
  exact ⟨fun good s member bad => good s ((stays s bad).2 member) bad,
    fun good s member bad => good s ((stays s bad).1 member) bad⟩

end MiniC.Assembly
