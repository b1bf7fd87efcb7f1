import MiniC.Proofs.Faults
import MiniC.Proofs.Storage.Settling
import Mathlib.Data.List.Dedup
import Mathlib.Data.List.Perm.Basic

namespace MiniC.Storage

open Code

variable {l : Layout}

namespace Layout

def keys (l : Layout) : List Name :=
  l.vars.map Prod.fst

theorem keys_put (name : Name) (place : Location) (vars : List (Name × Location)) :
    (put name place vars).map Prod.fst =
      if name ∈ vars.map Prod.fst then vars.map Prod.fst else vars.map Prod.fst ++ [name] := by
  induction vars with
  | nil => rfl
  | cons head vars ih =>
    obtain ⟨n, p⟩ := head
    unfold put
    by_cases same : n = name
    · simp [same]
    · simp only [if_neg same, List.map_cons, ih, List.mem_cons, Ne.symm same, false_or]
      split <;> rfl

theorem nodup_set (nodup : l.keys.Nodup) (name : Name) (place : Location) : (l.set name place).keys.Nodup := by
  rw [keys, set, keys_put]
  split
  · exact nodup
  · rename_i isNew
    rw [List.nodup_append]
    refine ⟨nodup, List.nodup_singleton _, ?_⟩
    rintro x member y isName rfl
    rw [List.mem_singleton.1 isName] at member
    exact isNew member

theorem lookup_eq_some_iff {vars : List (Name × Location)} (nodup : (vars.map Prod.fst).Nodup) {x : Name} {place : Location} :
    vars.lookup x = some place ↔ (x, place) ∈ vars := by
  induction vars with
  | nil => exact ⟨nofun, nofun⟩
  | cons head vars ih =>
    obtain ⟨n, p⟩ := head
    rw [List.map_cons, List.nodup_cons] at nodup
    rw [lookup_cons, List.mem_cons, Prod.mk.injEq]
    by_cases same : x = n
    · subst same
      have absent : (x, place) ∉ vars := fun found => nodup.1 (List.mem_map.2 ⟨_, found, rfl⟩)
      rw [if_pos rfl, Option.some.injEq, eq_self, true_and, or_iff_left absent]
      exact eq_comm
    · rw [if_neg same, ih nodup.2, eq_false same, false_and, false_or]

def needsSlot : Location → Bool
  | .register _ | .stack _ _ => true
  | _ => false

def registers (l : Layout) : List Register :=
  l.vars.filterMap fun
    | (_, .register r) => some r
    | _ => none

theorem mem_registers {r : Register} : l.usesRegister r = true ↔ r ∈ l.registers := by
  rw [usesRegister, List.any_eq_true, registers, List.mem_filterMap]
  refine exists_congr fun entry => and_congr_right fun _ => ?_
  obtain ⟨n, place⟩ := entry
  cases place <;> simp

theorem placeVars_end (n : Nat) {vars : List (Name × Location)}
    (sized : ∀ entry ∈ vars, ∀ offset size, entry.2 = .stack offset size → size = slotSize) :
    (placeVars (Int64.ofNat n) vars).2.2 = Int64.ofNat (n + 8 * vars.countP fun entry => inFrame entry.2) ∧
      (placeVars (Int64.ofNat n) vars).2.1.length = vars.countP fun entry => inFrame entry.2 := by
  induction vars generalizing n with
  | nil => exact ⟨rfl, rfl⟩
  | cons head vars ih =>
    obtain ⟨name, place⟩ := head
    have others := fun entry member => sized entry (List.mem_cons_of_mem _ member)
    cases place with
    | stack offset size =>
      obtain rfl : size = slotSize := sized _ (List.mem_cons_self ..) offset size rfl
      obtain ⟨stop, length⟩ := ih (n + 8) others
      rw [placeVars, ofNat_add_slotSize, List.countP_cons_of_pos rfl]
      dsimp only
      rw [stop, List.length_cons, length, Nat.mul_add_one, Nat.add_assoc, Nat.add_comm 8]
      exact ⟨rfl, rfl⟩
    | _ =>
      rw [List.countP_cons_of_neg Bool.false_ne_true]
      exact ih n others

theorem size_withFrame (sized : l.Sized) : l.withFrame.size = Int64.ofNat (8 * l.withFrame.slots.length) ∧
      l.withFrame.slots.length = l.registersToSave.length + l.vars.countP fun entry => inFrame entry.2 := by
  obtain ⟨saves, count⟩ := saveSlots_end 0 l.registersToSave
  rw [Nat.zero_add] at saves
  obtain ⟨stop, count'⟩ := placeVars_end (8 * l.registersToSave.length) sized
  rw [← saves] at stop count'
  have slots : l.withFrame.slots.length = l.registersToSave.length + l.vars.countP fun entry => inFrame entry.2 := by
    change ((saveSlots (Int64.ofNat 0) l.registersToSave).1 ++
      (placeVars (saveSlots (Int64.ofNat 0) l.registersToSave).2 l.vars).2.1).length = _
    rw [List.length_append, count, count']
  refine ⟨?_, slots⟩
  change (placeVars (saveSlots (Int64.ofNat 0) l.registersToSave).2 l.vars).2.2 = _
  rw [stop, slots, Nat.mul_add]

theorem length_registersToSave {rest : List Register} (taken : Register.locals = l.registers ++ rest) :
    l.registersToSave.length = 2 + l.registers.length := by
  have all : Register.calleeSaved = .ra :: .fp :: Register.locals := by decide
  have apart : ∀ r ∈ Register.locals, ¬ (r = .ra ∨ r = .fp) := by decide
  have nodup := locals_nodup
  rw [taken, List.nodup_append] at nodup
  have used : (Register.locals.filter fun r => decide (r = .ra ∨ r = .fp ∨ l.usesRegister r = true)) = l.registers := by
    have inside : ∀ r ∈ l.registers, decide (r = .ra ∨ r = .fp ∨ l.usesRegister r = true) = true :=
      fun r member => decide_eq_true (.inr (.inr (mem_registers.2 member)))
    have outside : ∀ r ∈ rest, ¬ decide (r = .ra ∨ r = .fp ∨ l.usesRegister r = true) = true := by
      intro r member keeps
      have isLocal : r ∈ Register.locals := by
        rw [taken]
        exact List.mem_append_right _ member
      rw [decide_eq_true_iff, ← or_assoc, or_iff_right (apart r isLocal), mem_registers] at keeps
      exact nodup.2.2 r keeps r member rfl
    rw [taken, List.filter_append, List.filter_eq_self.2 inside, List.filter_eq_nil_iff.2 outside, List.append_nil]
  rw [registersToSave, all, List.filter_cons_of_pos (by simp), List.filter_cons_of_pos (by simp), used,
    List.length_cons, List.length_cons]
  omega

theorem countP_needsSlot (l : Layout) :
    l.vars.countP (fun entry => needsSlot entry.2) = l.registers.length + l.vars.countP fun entry => inFrame entry.2 := by
  unfold registers
  induction l.vars with
  | nil => rfl
  | cons head vars ih =>
    obtain ⟨name, place⟩ := head
    cases place with
    | register r =>
      rw [List.countP_cons_of_pos rfl, List.countP_cons_of_neg Bool.false_ne_true, ih]
      exact (Nat.add_right_comm ..).symm
    | stack offset size =>
      rw [List.countP_cons_of_pos rfl, List.countP_cons_of_pos rfl, ih]
      rfl
    | _ =>
      rw [List.countP_cons_of_neg Bool.false_ne_true, List.countP_cons_of_neg Bool.false_ne_true, ih]
      rfl

theorem put_eq_append {name : Name} {vars : List (Name × Location)} (isNew : vars.lookup name = none) (place : Location) :
    put name place vars = vars ++ [(name, place)] := by
  induction vars with
  | nil => rfl
  | cons head vars ih =>
    obtain ⟨n, p⟩ := head
    rw [lookup_cons] at isNew
    split at isNew
    · cases isNew
    · rename_i other
      rw [put, if_neg (Ne.symm other), ih isNew, List.cons_append]

theorem vars_set {name : Name} (isNew : l.get? name = none) (place : Location) :
    (l.set name place).vars = l.vars ++ [(name, place)] :=
  put_eq_append isNew place

theorem registers_set {name : Name} {place : Location} (other : ∀ r, place ≠ .register r)
    (none : l.registers = []) : (l.set name place).registers = [] := by
  unfold registers at none ⊢
  rw [List.filterMap_eq_nil_iff] at none ⊢
  rintro ⟨n, p⟩ member
  rcases mem_put member with rfl | old
  · cases p with
    | register r => exact absurd rfl (other r)
    | _ => rfl
  · exact none _ old

end Layout

open Layout

variable {queue : Queue Usage Usage.less}

theorem placeGlobals_keys {gs : List Global} {l' : Layout} (ok : placeGlobals l gs = .ok l') (nodup : l.keys.Nodup)
    (none : l.registers = []) : l'.keys.Nodup ∧ l'.registers = [] := by
  induction gs generalizing l with
  | nil =>
    cases ok
    exact ⟨nodup, none⟩
  | cons g gs ih =>
    rw [placeGlobals] at ok
    split at ok
    · cases ok
    · exact ih ok (nodup_set nodup _ _) (registers_set (by simp) none)

theorem placeParams_keys (params : List Param) (nodup : l.keys.Nodup) (none : l.registers = []) :
    (placeParams l params).keys.Nodup ∧ (placeParams l params).registers = [] := by
  induction params generalizing l with
  | nil => exact ⟨nodup, none⟩
  | cons p params ih => exact ih (nodup_set nodup _ _) (registers_set (by simp) none)

theorem placeLocals_keys {free : List Register} (us : List Usage) (nodup : l.keys.Nodup) :
    (placeLocals l free us).keys.Nodup ∧
      ∃ taken rest, free = taken ++ rest ∧ (placeLocals l free us).registers = l.registers ++ taken := by
  induction us generalizing l free with
  | nil =>
    rw [placeLocals]
    exact ⟨nodup, [], free, rfl, (List.append_nil _).symm⟩
  | cons u us ih =>
    unfold placeLocals
    split
    · exact ih nodup
    · rename_i isNew
      have isNew : l.get? u.name = none := contains_eq_false.1 (by simpa using isNew)
      have inFrame : (l.set u.name (.stack 0 slotSize)).registers = l.registers := by
        rw [registers, vars_set isNew, List.filterMap_append]
        exact List.append_nil _
      split
      · rename_i r others
        split
        · rw [← inFrame]
          exact ih (nodup_set nodup _ _)
        · obtain ⟨nodup', taken, rest, rfl, registers⟩ := @ih (l.set u.name (.register r)) others (nodup_set nodup _ _)
          refine ⟨nodup', r :: taken, rest, rfl, ?_⟩
          rw [registers, Layout.registers, vars_set isNew, List.filterMap_append, List.append_assoc]
          rfl
      · rw [← inFrame]
        exact ih (nodup_set nodup _ _)

/-- The names for which there is a slot: parameters, and names of the body that are no globals. -/
def frameNames (globals : List Global) (params : List Param) (body : List Stmt) : List Name :=
  (params.map (·.name) ++ (body.flatMap fun s => s.action.inputs ++ s.action.outputs).filter
    fun x => x ∉ globals.map (·.name)).dedup

theorem frameNames_congr {globals globals' : List Global} {body body' : List Stmt} (params : List Param)
    (operands : (body'.flatMap fun s => s.action.inputs ++ s.action.outputs) =
      body.flatMap fun s => s.action.inputs ++ s.action.outputs)
    (known : ∀ s ∈ body, ∀ x ∈ s.action.inputs ++ s.action.outputs,
      x ∈ globals'.map (·.name) ↔ x ∈ globals.map (·.name)) :
    frameNames globals' params body' = frameNames globals params body := by
  unfold frameNames
  rw [operands]
  congr 2
  refine List.filter_congr fun x member => ?_
  obtain ⟨s, inBody, isOperand⟩ := List.mem_flatMap.1 member
  rw [decide_eq_decide, not_iff_not]
  exact known s inBody x isOperand

section

variable {globals : List Global} {params : List Param} {body : List Stmt} {l : Layout}

theorem needsSlot_iff (ok : place queue globals params body = .ok l) (x : Name) :
    (∃ place, needsSlot place = true ∧ l.get? x = some place) ↔ x ∈ frameNames globals params body := by
  obtain ⟨named, isGlobals, _, locals⟩ := get?_place ok
  have start := get?_placeParams named params x
  rw [get?_placeGlobals isGlobals] at start
  have isParam : (params.any fun p => p.name = x) = true ↔ x ∈ params.map (·.name) := by simp
  have isGlobal : (globals.find? fun g => g.name = x) = none ↔ x ∉ globals.map (·.name) := by
    simp [List.find?_eq_none]
  rw [frameNames, List.mem_dedup, List.mem_append, List.mem_filter, decide_eq_true_iff, ← isParam, ← isGlobal,
    ← Usage.mem_ofBody]
  by_cases param : (params.any fun p => p.name = x) = true
  · rw [if_pos param] at start
    refine ⟨fun _ => .inl param, fun _ => ⟨.stack 0 slotSize, rfl, ?_⟩⟩
    rw [locals.old (by rw [start]; simp), start]
  · rw [if_neg param] at start
    cases found : globals.find? fun g => g.name = x with
    | some g =>
      rw [found] at start
      constructor
      · rintro ⟨place, needs, has⟩
        rw [locals.old (by rw [start]; simp), start] at has
        cases has
        cases needs
      · rintro (isParam | ⟨_, never⟩)
        · exact absurd isParam param
        · cases never
    | none =>
      rw [found] at start
      have new : (placeParams named params).get? x = none := start
      by_cases used : x ∈ (queue.sort (Usage.ofBody body)).map (·.name)
      · refine ⟨fun _ => .inr ⟨used, rfl⟩, fun _ => ?_⟩
        rcases locals.new new used with ⟨r, _, has⟩ | has
        · exact ⟨_, rfl, has⟩
        · exact ⟨_, rfl, has⟩
      · constructor
        · rintro ⟨place, _, has⟩
          rw [locals.outside new used] at has
          cases has
        · rintro (isParam | ⟨isUsed, _⟩)
          · exact absurd isParam param
          · exact absurd isUsed used

theorem place_keys (ok : place queue globals params body = .ok l) :
    l.keys.Nodup ∧ ∃ rest, Register.locals = l.registers ++ rest := by
  unfold place at ok
  obtain ⟨named, isGlobals, done⟩ := bind_eq_ok.1 ok
  cases done
  obtain ⟨nodup, none⟩ := placeGlobals_keys isGlobals List.nodup_nil rfl
  obtain ⟨nodup, none⟩ := placeParams_keys params nodup none
  obtain ⟨nodup, taken, rest, free, registers⟩ := placeLocals_keys _ nodup
  refine ⟨nodup, rest, ?_⟩
  rw [registers, none, List.nil_append]
  exact free

theorem length_slots (ok : place queue globals params body = .ok l) :
    l.withFrame.slots.length = 2 + (frameNames globals params body).length := by
  obtain ⟨_, _, sized, _⟩ := get?_place ok
  obtain ⟨nodup, rest, taken⟩ := place_keys ok
  have slots : l.vars.countP (fun entry => needsSlot entry.2) = (frameNames globals params body).length := by
    have names : ((l.vars.filter fun entry => needsSlot entry.2).map Prod.fst).Perm (frameNames globals params body) := by
      have distinct : (frameNames globals params body).Nodup := List.nodup_dedup _
      refine (List.perm_ext_iff_of_nodup (nodup.sublist (List.filter_sublist.map _)) distinct).2 fun x => ?_
      rw [← needsSlot_iff ok x, List.mem_map]
      constructor
      · rintro ⟨⟨n, place⟩, member, rfl⟩
        obtain ⟨member, needs⟩ := List.mem_filter.1 member
        exact ⟨place, needs, (lookup_eq_some_iff nodup).2 member⟩
      · rintro ⟨place, needs, has⟩
        exact ⟨(x, place), List.mem_filter.2 ⟨(lookup_eq_some_iff nodup).1 has, needs⟩, rfl⟩
    rw [List.countP_eq_length_filter, ← names.length_eq, List.length_map]
  rw [(size_withFrame sized).2, length_registersToSave taken, Nat.add_assoc, ← countP_needsSlot, slots]

end

end MiniC.Storage
