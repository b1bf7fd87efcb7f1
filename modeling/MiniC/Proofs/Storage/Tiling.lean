import MiniC.Proofs.Machine.RegisterSets
import MiniC.Proofs.Storage.FrameSize
import MiniC.Proofs.Storage.Slots
import Mathlib.Algebra.Order.BigOperators.Group.List
import Mathlib.Data.List.Induction
import Mathlib.Logic.ExistsUnique

namespace MiniC.Storage

variable {vars : List (Name × Location)} {l : Layout}

theorem toInt_add_of_fits {a b : Int64} (low : 0 ≤ a.toInt) (low' : 0 ≤ b.toInt) (fits : a.toInt + b.toInt < 2 ^ 63) :
    (a + b).toInt = a.toInt + b.toInt := by
  rw [Int64.toInt_add]
  exact Int.bmod_eq_of_le (by omega) (by omega)

def Slot.Covers (s : Slot) (x : Int) : Prop :=
  s.offset.toInt ≤ x ∧ x < s.offset.toInt + s.size.toInt

/-- Slots that follow each other from `start` to `stop`. -/
inductive Tiles : Int → List Slot → Int → Prop
  | nil {start} : Tiles start [] start
  | cons {start slot slots stop} : slot.offset.toInt = start → 0 ≤ slot.size.toInt →
    Tiles (start + slot.size.toInt) slots stop → Tiles start (slot :: slots) stop

namespace Tiles

variable {start middle stop : Int} {slots more : List Slot}

theorem append (first : Tiles start slots middle) (second : Tiles middle more stop) : Tiles start (slots ++ more) stop := by
  induction first with
  | nil => exact second
  | cons here wide _ ih => exact .cons here wide (ih second)

theorem stop_eq (tiles : Tiles start slots stop) : stop = start + (slots.map fun s => s.size.toInt).sum := by
  induction tiles with
  | nil => simp
  | cons _ _ _ ih =>
    rw [List.map_cons, List.sum_cons, ih]
    omega

theorem le_offset (tiles : Tiles start slots stop) {slot : Slot} (member : slot ∈ slots) : start ≤ slot.offset.toInt := by
  induction tiles with
  | nil => cases member
  | cons here wide _ ih =>
    rcases List.mem_cons.1 member with rfl | later
    · exact Int.le_of_eq here.symm
    · have behind := ih later
      omega

theorem existsUnique_covers (tiles : Tiles start slots stop) {x : Int} (above : start ≤ x) (below : x < stop) :
    ∃! i : Nat, ∃ slot : Slot, slots[i]? = some slot ∧ slot.Covers x := by
  induction tiles with
  | nil => omega
  | @cons start slot slots stop here wide rest ih =>
    by_cases first : x < start + slot.size.toInt
    · refine ⟨0, ⟨slot, rfl, by omega, by omega⟩, ?_⟩
      rintro i ⟨other, found, covers⟩
      cases i with
      | zero => rfl
      | succ i =>
        have behind := rest.le_offset (List.mem_of_getElem? found)
        have before := covers.1
        omega
    · obtain ⟨i, inside, only⟩ := ih (by omega) below
      refine ⟨i + 1, inside, ?_⟩
      rintro j ⟨other, found, covers⟩
      cases j with
      | zero =>
        cases found
        have behind := covers.2
        omega
      | succ j => rw [only j ⟨other, found, covers⟩]

end Tiles

namespace Layout

/-- The layout in which names have got places one after the other. -/
def ofSets (sets : List (Name × Location)) : Layout :=
  sets.foldl (fun l entry => l.set entry.1 entry.2) .empty

theorem ofSets_concat (sets : List (Name × Location)) (x : Name) (place : Location) :
    ofSets (sets ++ [(x, place)]) = (ofSets sets).set x place := by
  simp [ofSets]

theorem keys_foldl_set (l : Layout) (sets : List (Name × Location)) :
    (sets.foldl (fun l entry => l.set entry.1 entry.2) l).keys =
      l.keys ++ ((sets.map Prod.fst).filter fun x => x ∉ l.keys).eraseDups := by
  induction sets generalizing l with
  | nil => exact (List.append_nil _).symm
  | cons entry sets ih =>
    obtain ⟨x, place⟩ := entry
    have first : (l.set x place).keys = if x ∈ l.keys then l.keys else l.keys ++ [x] := keys_put x place l.vars
    rw [List.foldl_cons, ih, List.map_cons, first]
    by_cases old : x ∈ l.keys
    · rw [if_pos old, List.filter_cons_of_neg (by simpa using old)]
    · rw [if_neg old, List.filter_cons_of_pos (by simpa using old), List.eraseDups_cons, List.filter_filter,
        List.append_assoc, List.singleton_append]
      congr 4
      funext y
      by_cases same : y = x <;> simp [same]

theorem keys_ofSets (sets : List (Name × Location)) : (ofSets sets).keys = (sets.map Prod.fst).eraseDups := by
  rw [ofSets, keys_foldl_set]
  simp [keys, empty]

theorem nodup_ofSets (sets : List (Name × Location)) : (ofSets sets).keys.Nodup := by
  induction sets using List.reverseRecOn with
  | nil => exact List.nodup_nil
  | append_singleton sets entry ih =>
    rw [ofSets_concat]
    exact nodup_set ih _ _

/-- How much of the frame a variable takes. -/
def spaceOf : Location → Int
  | .stack _ size => size.toInt
  | _ => 0

def space (vars : List (Name × Location)) : Int :=
  (vars.map fun entry => spaceOf entry.2).sum

theorem space_cons (x : Name) (place : Location) (vars : List (Name × Location)) :
    space ((x, place) :: vars) = spaceOf place + space vars := by
  simp [space]

theorem space_nonneg (wide : ∀ entry ∈ vars, 0 ≤ spaceOf entry.2) : 0 ≤ space vars := by
  apply List.sum_nonneg
  intro n member
  obtain ⟨entry, inside, rfl⟩ := List.mem_map.1 member
  exact wide entry inside

theorem tiles_saveSlots (offset : Int64) (rs : List Register) (low : 0 ≤ offset.toInt)
    (fits : offset.toInt + 8 * rs.length < 2 ^ 63) :
    Tiles offset.toInt (saveSlots offset rs).1 (saveSlots offset rs).2.toInt ∧
      (saveSlots offset rs).2.toInt = offset.toInt + 8 * rs.length := by
  induction rs generalizing offset with
  | nil => exact ⟨.nil, by simp [saveSlots]⟩
  | cons r rs ih =>
    rw [List.length_cons] at fits ⊢
    have eight : slotSize.toInt = 8 := rfl
    have next : (offset + slotSize).toInt = offset.toInt + slotSize.toInt := toInt_add_of_fits low (by omega) (by omega)
    have rest := ih (offset + slotSize) (by omega) (by omega)
    refine ⟨.cons rfl (Int.le_of_lt (by decide : 0 < slotSize.toInt)) ?_, ?_⟩
    · rw [← next]
      exact rest.1
    · change (saveSlots (offset + slotSize) rs).2.toInt = _
      rw [rest.2]
      omega

theorem entries_saveSlots (offset : Int64) (rs : List Register) :
    (saveSlots offset rs).1.map (fun s => (s.name, s.size, s.saves)) = rs.map fun r => (r.name, slotSize, some r) := by
  induction rs generalizing offset with
  | nil => rfl
  | cons r rs ih => rw [saveSlots, List.map_cons, List.map_cons, ih]

theorem tiles_placeVars (offset : Int64) (low : 0 ≤ offset.toInt)
    (wide : ∀ entry ∈ vars, 0 ≤ spaceOf entry.2) (fits : offset.toInt + space vars < 2 ^ 63) :
    Tiles offset.toInt (placeVars offset vars).2.1 (placeVars offset vars).2.2.toInt := by
  induction vars generalizing offset with
  | nil => exact .nil
  | cons head vars ih =>
    obtain ⟨x, place⟩ := head
    rw [space_cons] at fits
    have others := fun entry member => wide entry (List.mem_cons_of_mem _ member)
    cases place with
    | stack o size =>
      have here : 0 ≤ size.toInt := wide _ List.mem_cons_self
      have behind := space_nonneg others
      rw [spaceOf] at fits
      have next : (offset + size).toInt = offset.toInt + size.toInt := toInt_add_of_fits low here (by omega)
      rw [placeVars_stack]
      apply Tiles.cons
      · rfl
      · exact here
      · rw [← next]
        exact ih _ (by omega) others (by omega)
    | nowhere | register | memory =>
      exact ih _ low others (by simpa only [spaceOf, Int.zero_add] using fits)

theorem keys_placeVars (offset : Int64) (vars : List (Name × Location)) :
    (placeVars offset vars).1.map Prod.fst = vars.map Prod.fst := by
  induction vars generalizing offset with
  | nil => rfl
  | cons head vars ih =>
    obtain ⟨x, place⟩ := head
    cases place with
    | stack o size => rw [placeVars_stack, List.map_cons, List.map_cons, ih]
    | nowhere | register | memory => rw [placeVars_other _ _ _ (by simp), List.map_cons, List.map_cons, ih]

theorem keys_withFrame (l : Layout) : l.withFrame.keys = l.keys :=
  keys_placeVars _ _

theorem lookup_placeVars_cases (offset : Int64) (x : Name) (vars : List (Name × Location)) :
    (∃ o o' size, vars.lookup x = some (.stack o size) ∧ (placeVars offset vars).1.lookup x = some (.stack o' size)) ∨
      (∀ o size, vars.lookup x ≠ some (.stack o size)) ∧ (placeVars offset vars).1.lookup x = vars.lookup x := by
  induction vars generalizing offset with
  | nil => exact .inr ⟨by simp, rfl⟩
  | cons head vars ih =>
    obtain ⟨y, place⟩ := head
    by_cases same : x = y
    · cases place with
      | stack o size =>
        rw [placeVars_stack, lookup_cons, lookup_cons, if_pos same, if_pos same]
        exact .inl ⟨o, offset, size, rfl, rfl⟩
      | nowhere | register | memory =>
        rw [placeVars_other _ _ _ (by simp), lookup_cons, lookup_cons, if_pos same, if_pos same]
        exact .inr ⟨by simp, rfl⟩
    · cases place with
      | stack o size =>
        rw [placeVars_stack, lookup_cons, lookup_cons, if_neg same, if_neg same]
        exact ih _
      | nowhere | register | memory =>
        rw [placeVars_other _ _ _ (by simp), lookup_cons, lookup_cons, if_neg same, if_neg same]
        exact ih _

theorem placeVars_placeVars (offset : Int64) (vars : List (Name × Location)) :
    placeVars offset (placeVars offset vars).1 = placeVars offset vars := by
  induction vars generalizing offset with
  | nil => rfl
  | cons head vars ih =>
    obtain ⟨x, place⟩ := head
    cases place with
    | stack o size => rw [placeVars_stack, placeVars_stack, ih]
    | nowhere | register | memory =>
      rw [placeVars_other _ _ _ (by simp), placeVars_other _ _ _ (by simp), ih]

theorem placeVars_append_registers (offset : Int64) (vars : List (Name × Location)) {more : List (Name × Location)}
    (registers : ∀ entry ∈ more, ∃ r, entry.2 = .register r) :
    placeVars offset (vars ++ more) =
      ((placeVars offset vars).1 ++ more, (placeVars offset vars).2.1, (placeVars offset vars).2.2) := by
  induction vars generalizing offset with
  | nil =>
    induction more with
    | nil => rfl
    | cons head more ih =>
      obtain ⟨x, place⟩ := head
      obtain ⟨r, rfl⟩ : ∃ r, place = .register r := registers _ List.mem_cons_self
      have rest := ih fun entry member => registers entry (List.mem_cons_of_mem _ member)
      rw [List.nil_append] at rest ⊢
      rw [placeVars_other _ _ _ (by simp), rest]
      rfl
  | cons head vars ih =>
    obtain ⟨x, place⟩ := head
    rw [List.cons_append]
    cases place with
    | stack o size => rw [placeVars_stack, placeVars_stack, ih, List.cons_append]
    | nowhere | register | memory =>
      rw [placeVars_other _ _ _ (by simp), placeVars_other _ _ _ (by simp), ih, List.cons_append]

theorem isSaved?_eq (used : RegisterSet) {r : Register} (valid : 0 ≤ r.number) :
    isSaved? used r = some (decide (r = .ra ∨ r = .fp ∨ r ∈ used.members)) := by
  rw [isSaved?, RegisterSet.contains?_eq_some used valid]
  by_cases always : r = .ra ∨ r = .fp
  · rw [if_pos always, decide_eq_true (or_assoc.1 (.inl always))]
  · rw [if_neg always, Option.some.injEq, decide_eq_decide, ← or_assoc, or_iff_right always]

theorem toSave?_eq (used : RegisterSet) {rs : List Register} (valid : ∀ r ∈ rs, 0 ≤ r.number) :
    toSave? used rs = some (rs.filter fun r => r = .ra ∨ r = .fp ∨ r ∈ used.members) := by
  induction rs with
  | nil => rfl
  | cons r rs ih =>
    rw [toSave?, isSaved?_eq used (valid r List.mem_cons_self), ih fun r member => valid r (List.mem_cons_of_mem _ member),
      List.filter_cons]
    cases decide (r = .ra ∨ r = .fp ∨ r ∈ used.members) <;> rfl

theorem withFrame?_eq (valid : ∀ r ∈ l.registers, 0 ≤ r.number) : l.withFrame? = some l.withFrame := by
  have known : ∀ r ∈ Register.calleeSaved, 0 ≤ r.number ∧ r.number < 64 := by decide
  obtain ⟨used, found, bits⟩ := RegisterSet.foldlM_insert? valid .empty
  have members : ∀ r ∈ Register.calleeSaved, r ∈ used.members ↔ l.usesRegister r = true := by
    intro r member
    obtain ⟨n, is⟩ := Int.eq_ofNat_of_zero_le (known r member).1
    obtain rfl : r = ⟨n⟩ := congrArg Register.mk is
    have small : n < 64 := Int.ofNat_lt.1 (known ⟨n⟩ member).2
    rw [mem_registers, RegisterSet.mem_members]
    constructor
    · intro ⟨m, _, held, same⟩
      obtain rfl : n = m := by simpa using same
      rw [bits n small] at held
      simpa [RegisterSet.holds, RegisterSet.empty] using held
    · intro inside
      exact ⟨n, small, by rw [bits n small, decide_eq_true inside, Bool.true_or], rfl⟩
  have same : Register.calleeSaved.filter (fun r => r = .ra ∨ r = .fp ∨ r ∈ used.members) = l.registersToSave := by
    apply List.filter_congr
    intro r member
    rw [decide_eq_decide, members r member]
  have saved : toSave? used Register.calleeSaved = some l.registersToSave := by
    rw [toSave?_eq used fun r member => (known r member).1, same]
  rw [withFrame?, show l.registers? = some used from found, Option.bind_eq_bind, Option.bind_some, saved]
  rfl

theorem mem_registers_iff (nodup : l.keys.Nodup) {r : Register} :
    r ∈ l.registers ↔ ∃ x, l.get? x = some (.register r) := by
  rw [← mem_registers, usesRegister, List.any_eq_true]
  constructor
  · rintro ⟨⟨x, place⟩, member, is⟩
    obtain rfl : place = .register r := by simpa using is
    exact ⟨x, (lookup_eq_some_iff nodup).2 member⟩
  · rintro ⟨x, found⟩
    exact ⟨(x, .register r), (lookup_eq_some_iff nodup).1 found, by simp⟩

theorem registersToSave_congr {l' : Layout} (same : ∀ r ∈ Register.calleeSaved, r ∈ l'.registers ↔ r ∈ l.registers) :
    l'.registersToSave = l.registersToSave := by
  apply List.filter_congr
  intro r member
  rw [decide_eq_decide, mem_registers, mem_registers, same r member]

theorem registers_placeVars (offset : Int64) (vars : List (Name × Location)) (slots slots' : List Slot) (size size' : Int64) :
    (⟨(placeVars offset vars).1, slots, size⟩ : Layout).registers = (⟨vars, slots', size'⟩ : Layout).registers := by
  unfold registers
  induction vars generalizing offset with
  | nil => rfl
  | cons head vars ih =>
    obtain ⟨x, place⟩ := head
    cases place with
    | stack o size =>
      rw [placeVars_stack, List.filterMap_cons, List.filterMap_cons]
      exact ih _
    | nowhere | register | memory =>
      rw [placeVars_other _ _ _ (by simp), List.filterMap_cons, List.filterMap_cons, ih offset]

theorem registers_withFrame (l : Layout) : l.withFrame.registers = l.registers :=
  registers_placeVars ..

theorem registersToSave_pairwise (l : Layout) : l.registersToSave.Pairwise fun r r' => r.number < r'.number := by
  have ascending : Register.calleeSaved.Pairwise fun r r' => r.number < r'.number := by decide
  exact ascending.sublist List.filter_sublist

theorem mem_registersToSave_iff (nodup : l.keys.Nodup) {r : Register} : r ∈ l.registersToSave ↔
    r = .ra ∨ r = .fp ∨ r ∈ Register.calleeSaved ∧ ∃ x, l.get? x = some (.register r) := by
  have always : Register.ra ∈ Register.calleeSaved ∧ Register.fp ∈ Register.calleeSaved := by decide
  rw [registersToSave, List.mem_filter, decide_eq_true_iff, mem_registers, mem_registers_iff nodup]
  constructor
  · rintro ⟨member, isRa | isFp | held⟩
    · exact .inl isRa
    · exact .inr (.inl isFp)
    · exact .inr (.inr ⟨member, held⟩)
  · rintro (rfl | rfl | ⟨member, held⟩)
    · exact ⟨always.1, .inl rfl⟩
    · exact ⟨always.2, .inr (.inl rfl)⟩
    · exact ⟨member, .inr (.inr held)⟩

/-- The layout after some names have got registers. -/
def withRegisters (l : Layout) (added : List (Name × Register)) : Layout :=
  added.foldl (fun l entry => l.set entry.1 (.register entry.2)) l

theorem put_append {x : Name} (place : Location) (more : List (Name × Location))
    (isNew : vars.lookup x = none) : put x place (vars ++ more) = vars ++ put x place more := by
  induction vars with
  | nil => rfl
  | cons head vars ih =>
    obtain ⟨y, p⟩ := head
    rw [lookup_cons] at isNew
    by_cases same : x = y
    · rw [if_pos same] at isNew
      cases isNew
    · rw [if_neg same] at isNew
      rw [List.cons_append, put, if_neg (Ne.symm same), ih isNew, List.cons_append]

theorem withRegisters_eq {added : List (Name × Register)} (isNew : ∀ entry ∈ added, l.get? entry.1 = none) :
    ∃ more, l.withRegisters added = { l with vars := l.vars ++ more } ∧
      ∀ entry ∈ more, ∃ r ∈ added.map Prod.snd, entry.2 = .register r := by
  induction added using List.reverseRecOn with
  | nil => exact ⟨[], by rw [List.append_nil]; rfl, by simp⟩
  | append_singleton added last ih =>
    obtain ⟨more, same, inRegisters⟩ := ih fun entry member => isNew entry (List.mem_append_left _ member)
    refine ⟨put last.1 (.register last.2) more, ?_, ?_⟩
    · rw [withRegisters, List.foldl_concat]
      change (l.withRegisters added).set last.1 (.register last.2) = _
      rw [same, set, put_append _ _ (isNew last (by simp))]
    · intro entry member
      rcases mem_put member with here | old
      · exact ⟨last.2, by simp, here⟩
      · obtain ⟨r, known, is⟩ := inRegisters entry old
        exact ⟨r, by simp at known ⊢; exact .inl known, is⟩

theorem withFrame_eq {saved : List Register} (same : l.registersToSave = saved) :
    l.withFrame = ⟨(placeVars (saveSlots 0 saved).2 l.vars).1,
      (saveSlots 0 saved).1 ++ (placeVars (saveSlots 0 saved).2 l.vars).2.1, (placeVars (saveSlots 0 saved).2 l.vars).2.2⟩ := by
  subst same
  rfl

theorem mem_registers_withRegisters {added : List (Name × Register)}
    (isNew : ∀ entry ∈ added, l.get? entry.1 = none) {r : Register} (member : r ∈ (l.withRegisters added).registers) :
    r ∈ l.registers ∨ ∃ entry ∈ added, entry.2 = r := by
  obtain ⟨more, same, inRegisters⟩ := withRegisters_eq isNew
  rw [same, registers, List.filterMap_append, List.mem_append] at member
  refine member.imp_right fun inMore => ?_
  obtain ⟨⟨x, place⟩, inside, is⟩ := List.mem_filterMap.1 inMore
  obtain ⟨r', known, rfl⟩ := inRegisters _ inside
  obtain rfl : r' = r := by simpa using is
  exact List.mem_map.1 known

theorem withFrame_withRegisters {added : List (Name × Register)}
    (isNew : ∀ entry ∈ added, l.withFrame.get? entry.1 = none)
    (unsaved : ∀ entry ∈ added, entry.2 ∉ Register.calleeSaved) :
    (l.withFrame.withRegisters added).withFrame = l.withFrame.withRegisters added := by
  obtain ⟨more, same, inRegisters⟩ := withRegisters_eq isNew
  have saves : (l.withFrame.withRegisters added).registersToSave = l.registersToSave := by
    apply registersToSave_congr
    intro r isSaved
    rw [← registers_withFrame l]
    constructor
    · intro member
      rcases mem_registers_withRegisters isNew member with old | ⟨entry, inside, rfl⟩
      · exact old
      · exact absurd isSaved (unsaved entry inside)
    · intro old
      rw [same, registers, List.filterMap_append]
      exact List.mem_append_left _ old
  have registers : ∀ entry ∈ more, ∃ r, entry.2 = .register r := by
    intro entry member
    obtain ⟨r, _, is⟩ := inRegisters entry member
    exact ⟨r, is⟩
  have vars : l.withFrame.vars = (placeVars (saveSlots 0 l.registersToSave).2 l.vars).1 := rfl
  rw [withFrame_eq saves, same]
  dsimp only
  rw [vars, placeVars_append_registers _ _ registers, placeVars_placeVars]
  rfl

/-- What laying out the frame makes of the layout `l`. -/
structure Framed (l l' : Layout) : Prop where
  tiles : Tiles 0 l'.slots l'.size.toInt
  covered : ∀ x, 0 ≤ x → x < l'.size.toInt → ∃! i : Nat, ∃ slot : Slot, l'.slots[i]? = some slot ∧ slot.Covers x
  total : l'.size.toInt = (l'.slots.map fun s => s.size.toInt).sum
  slots : ∃ (saved : List Register) (saves : List Slot), l'.slots = saves ++ l'.vars.filterMap varSlot ∧
    saves.map (fun s => (s.name, s.size, s.saves)) = saved.map (fun r => (r.name, slotSize, some r)) ∧
    saved.Pairwise (fun r r' => r.number < r'.number) ∧
    ∀ r, r ∈ saved ↔ r = .ra ∨ r = .fp ∨ r ∈ Register.calleeSaved ∧ ∃ x, l.get? x = some (.register r)
  vars : ∀ x offset size, l.get? x = some (.stack offset size) → ∃ offset', l'.get? x = some (.stack offset' size) ∧
    l'.slots.filter (fun s => s.saves = none ∧ s.name = x) = [⟨x, offset', size, none⟩]
  others : ∀ x, (∀ offset size, l.get? x ≠ some (.stack offset size)) → l'.get? x = l.get? x
  keys : l'.keys = l.keys

theorem filter_varSlots (nodup : (vars.map Prod.fst).Nodup) {x : Name} {offset size : Int64}
    (found : vars.lookup x = some (.stack offset size)) :
    (vars.filterMap varSlot).filter (fun s => s.saves = none ∧ s.name = x) = [⟨x, offset, size, none⟩] := by
  induction vars with
  | nil => cases found
  | cons head vars ih =>
    obtain ⟨y, place⟩ := head
    rw [List.map_cons, List.nodup_cons] at nodup
    rw [lookup_cons] at found
    by_cases same : x = y
    · subst same
      rw [if_pos rfl] at found
      cases found
      have none : (vars.filterMap varSlot).filter (fun s => s.saves = none ∧ s.name = x) = [] := by
        rw [List.filter_eq_nil_iff]
        intro slot member isHere
        obtain ⟨⟨z, place⟩, inside, is⟩ := List.mem_filterMap.1 member
        cases place with
        | stack o s =>
          cases is
          obtain rfl : z = x := by simpa using isHere
          exact nodup.1 (List.mem_map.2 ⟨_, inside, rfl⟩)
        | nowhere | register | memory => cases is
      rw [List.filterMap_cons, varSlot]
      dsimp only
      rw [List.filter_cons_of_pos (by simp), none]
    · rw [if_neg same] at found
      have rest := ih nodup.2 found
      cases place with
      | stack o s =>
        rw [List.filterMap_cons, varSlot]
        dsimp only
        rwa [List.filter_cons_of_neg (by simpa using Ne.symm same)]
      | nowhere | register | memory => exact rest

theorem filter_saveSlots (offset : Int64) (rs : List Register) (x : Name) :
    (saveSlots offset rs).1.filter (fun s => s.saves = none ∧ s.name = x) = [] := by
  induction rs generalizing offset with
  | nil => rfl
  | cons r rs ih => rw [saveSlots, List.filter_cons_of_neg (by simp), ih]

theorem framed_withFrame (nodup : l.keys.Nodup) (wide : ∀ entry ∈ l.vars, 0 ≤ spaceOf entry.2)
    (fits : 8 * l.registersToSave.length + space l.vars < 2 ^ 63) : Framed l l.withFrame := by
  have room := space_nonneg wide
  have zero : (0 : Int64).toInt = 0 := rfl
  obtain ⟨first, stop⟩ := tiles_saveSlots 0 l.registersToSave (by omega) (by omega)
  rw [zero] at first stop
  have second := tiles_placeVars (saveSlots 0 l.registersToSave).2 (by omega) wide (by omega)
  have tiles : Tiles 0 l.withFrame.slots l.withFrame.size.toInt := first.append second
  have slots : l.withFrame.slots = (saveSlots 0 l.registersToSave).1 ++ l.withFrame.vars.filterMap varSlot := by
    change _ ++ (placeVars _ l.vars).2.1 = _
    rw [slots_placeVars]
    rfl
  have keys := keys_withFrame l
  have cases := fun x => lookup_placeVars_cases (saveSlots 0 l.registersToSave).2 x l.vars
  constructor
  case tiles => exact tiles
  case covered => exact fun x above below => tiles.existsUnique_covers above below
  case total =>
    rw [tiles.stop_eq, Int.zero_add]
  case slots =>
    exact ⟨_, _, slots, entries_saveSlots _ _, registersToSave_pairwise l, fun r => mem_registersToSave_iff nodup⟩
  case vars =>
    intro x offset size found
    rcases cases x with ⟨o, offset', size', before, after⟩ | ⟨never, _⟩
    · cases before.symm.trans found
      refine ⟨offset', after, ?_⟩
      rw [slots, List.filter_append, filter_saveSlots, List.nil_append]
      apply filter_varSlots _ after
      change l.withFrame.keys.Nodup
      rwa [keys]
    · exact absurd found (never offset size)
  case others =>
    intro x elsewhere
    rcases cases x with ⟨o, _, size, before, _⟩ | ⟨_, same⟩
    · exact absurd before (elsewhere o size)
    · exact same
  case keys => exact keys

/-- Whatever places names get, and however often, their frame is tiled by its slots, and laying it out again changes
nothing, also when names are added that live in registers which are not saved. -/
theorem framed_ofSets (sets : List (Name × Location))
    (valid : ∀ x r, (ofSets sets).get? x = some (.register r) → 0 ≤ r.number)
    (wide : ∀ x offset size, (ofSets sets).get? x = some (.stack offset size) → 0 ≤ size.toInt)
    (fits : 8 * (ofSets sets).registersToSave.length + space (ofSets sets).vars < 2 ^ 63) :
    ∃ l, (ofSets sets).withFrame? = some l ∧ Framed (ofSets sets) l ∧ l.keys = (sets.map Prod.fst).eraseDups ∧
      ∀ added : List (Name × Register), (∀ entry ∈ added, l.get? entry.1 = none ∧ 0 ≤ entry.2.number ∧
          entry.2 ∉ Register.calleeSaved) →
        (l.withRegisters added).withFrame? = some (l.withRegisters added) := by
  have nodup := nodup_ofSets sets
  have valid' : ∀ r ∈ (ofSets sets).registers, 0 ≤ r.number := by
    intro r member
    obtain ⟨x, found⟩ := (mem_registers_iff nodup).1 member
    exact valid x r found
  have wide' : ∀ entry ∈ (ofSets sets).vars, 0 ≤ spaceOf entry.2 := by
    rintro ⟨x, place⟩ member
    cases place with
    | stack offset size => exact wide x offset size ((lookup_eq_some_iff nodup).2 member)
    | nowhere | register | memory => exact Int.le_refl 0
  have framed := framed_withFrame nodup wide' fits
  refine ⟨_, withFrame?_eq valid', framed, ?_, ?_⟩
  · rw [framed.keys, keys_ofSets]
  · intro added isNew
    have again := withFrame_withRegisters (l := ofSets sets) (fun entry member => (isNew entry member).1)
      fun entry member => (isNew entry member).2.2
    rw [withFrame?_eq, again]
    intro r member
    rcases mem_registers_withRegisters (fun entry inside => (isNew entry inside).1) member with old | ⟨entry, inside, rfl⟩
    · rw [registers_withFrame] at old
      exact valid' r old
    · exact (isNew entry inside).2.1

def moving : List (Name × Location) :=
  [("g", .memory "g" 8), ("a", .stack 0 8), ("s", .register .s3), ("b", .stack 5 24), ("s", .stack 0 8),
    ("a", .register .s1), ("t", .register .t2)]

theorem framed_ofSets_moving :
    (∀ x r, (ofSets moving).get? x = some (.register r) → 0 ≤ r.number) ∧
      (∀ x offset size, (ofSets moving).get? x = some (.stack offset size) → 0 ≤ size.toInt) ∧
      8 * (ofSets moving).registersToSave.length + space (ofSets moving).vars < 2 ^ 63 ∧
      ∃ l, (ofSets moving).withFrame? = some l ∧ Framed (ofSets moving) l ∧ l.keys = ["g", "a", "s", "b", "t"] ∧
        l.slots = [⟨"ra", 0, 8, some .ra⟩, ⟨"fp", 8, 8, some .fp⟩, ⟨"s1", 16, 8, some .s1⟩, ⟨"s", 24, 8, none⟩,
          ⟨"b", 32, 24, none⟩] ∧
        (l.set "u" (.register .t3)).withFrame? = some (l.set "u" (.register .t3)) := by
  have nodup := nodup_ofSets moving
  have valid : ∀ x r, (ofSets moving).get? x = some (.register r) → 0 ≤ r.number := by
    have each : ∀ r ∈ (ofSets moving).registers, 0 ≤ r.number := by decide
    exact fun x r found => each r ((mem_registers_iff nodup).2 ⟨x, found⟩)
  have wide : ∀ x offset size, (ofSets moving).get? x = some (.stack offset size) → 0 ≤ size.toInt := by
    have each : ∀ entry ∈ (ofSets moving).vars, 0 ≤ spaceOf entry.2 := by decide
    exact fun x offset size found => each _ ((lookup_eq_some_iff nodup).1 found)
  have fits : 8 * (ofSets moving).registersToSave.length + space (ofSets moving).vars < 2 ^ 63 := by decide
  obtain ⟨l, laid, framed, keys, again⟩ := framed_ofSets moving valid wide fits
  have frame : (ofSets moving).withFrame? = some (ofSets moving).withFrame := by decide
  obtain rfl : (ofSets moving).withFrame = l := Option.some.inj (frame.symm.trans laid)
  refine ⟨valid, wide, fits, _, laid, framed, keys.trans (by decide), by decide, ?_⟩
  exact again [("u", .t3)] (by decide)

end Layout

end MiniC.Storage
