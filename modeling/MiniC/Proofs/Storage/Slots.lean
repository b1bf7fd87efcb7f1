import MiniC.Proofs.Storage.Frames

namespace MiniC.Storage

open Code

variable {queue : Queue Usage Usage.less} {x : Name} {slot : Slot} {l : Layout}

namespace Layout

def Slotted (saved : List Register) (slots : List Slot) : Prop :=
  ∀ slot ∈ slots, (∃ k, slot.offset = Int64.ofNat (8 * k)) ∧ ∀ r, slot.saves = some r → r ∈ saved

def varSlot : Name × Location → Option Slot
  | (x, .stack offset size) => some ⟨x, offset, size, none⟩
  | _ => none

theorem placeVars_stack (offset o size : Int64) (x : Name) (vars : List (Name × Location)) :
    placeVars offset ((x, .stack o size) :: vars) =
      ((x, .stack offset size) :: (placeVars (offset + size) vars).1,
        ⟨x, offset, size, none⟩ :: (placeVars (offset + size) vars).2.1, (placeVars (offset + size) vars).2.2) :=
  rfl

theorem placeVars_other (offset : Int64) (x : Name) {place : Location} (vars : List (Name × Location))
    (other : ∀ o size, place ≠ .stack o size) :
    placeVars offset ((x, place) :: vars) = ((x, place) :: (placeVars offset vars).1, (placeVars offset vars).2) := by
  cases place with
  | stack o size => exact absurd rfl (other o size)
  | nowhere | register | memory => rfl

theorem slots_placeVars (offset : Int64) (vars : List (Name × Location)) :
    (placeVars offset vars).2.1 = (placeVars offset vars).1.filterMap varSlot := by
  induction vars generalizing offset with
  | nil => rfl
  | cons head vars ih =>
    obtain ⟨x, place⟩ := head
    cases place with
    | stack o size =>
      rw [placeVars_stack, List.filterMap_cons, ih]
      rfl
    | nowhere | register | memory => exact ih offset

theorem exists_slot_placeVars {start : Int64} {vars : List (Name × Location)} {offset size : Int64}
    (found : (placeVars start vars).1.lookup x = some (.stack offset size)) :
    ∃ slot ∈ (placeVars start vars).2.1, slot.offset = offset ∧ slot.saves = none := by
  obtain ⟨before, behind, split, _⟩ := List.lookup_eq_some_iff.1 found
  have member : (x, Location.stack offset size) ∈ (placeVars start vars).1 := by simp [split]
  rw [slots_placeVars]
  exact ⟨⟨x, offset, size, none⟩, List.mem_filterMap.2 ⟨_, member, rfl⟩, rfl, rfl⟩

theorem saves_placeVars {start : Int64} {vars : List (Name × Location)}
    (member : slot ∈ (placeVars start vars).2.1) : slot.saves = none := by
  rw [slots_placeVars] at member
  obtain ⟨⟨x, place⟩, _, isSlot⟩ := List.mem_filterMap.1 member
  cases place with
  | stack offset size =>
    cases isSlot
    rfl
  | nowhere | register | memory => cases isSlot

theorem exists_slot_withFrame {offset size : Int64} (found : l.withFrame.get? x = some (.stack offset size)) :
    ∃ slot ∈ l.withFrame.slots, slot.offset = offset ∧ slot.saves = none := by
  obtain ⟨slot, member, same⟩ := exists_slot_placeVars found
  exact ⟨slot, List.mem_append_right _ member, same⟩

theorem offset_saveSlots (n : Nat) (rs : List Register) {i : Nat}
    (found : (saveSlots (Int64.ofNat n) rs).1[i]? = some slot) : slot.offset = Int64.ofNat (n + 8 * i) := by
  induction rs generalizing n i with
  | nil => cases found
  | cons r rs ih =>
    rw [saveSlots, ofNat_add_slotSize] at found
    cases i with
    | zero =>
      cases found
      rfl
    | succ i => rw [ih (n + 8) found, show n + 8 + 8 * i = n + 8 * (i + 1) by omega]

theorem offset_placeVars (n : Nat) {vars : List (Name × Location)}
    (sized : ∀ entry ∈ vars, ∀ offset size, entry.2 = .stack offset size → size = slotSize) {i : Nat}
    (found : (placeVars (Int64.ofNat n) vars).2.1[i]? = some slot) : slot.offset = Int64.ofNat (n + 8 * i) := by
  induction vars generalizing n i with
  | nil => cases found
  | cons head vars ih =>
    obtain ⟨name, place⟩ := head
    have others := fun entry member => sized entry (List.mem_cons_of_mem _ member)
    cases place with
    | stack offset size =>
      obtain rfl : size = slotSize := sized _ (List.mem_cons_self ..) offset size rfl
      rw [placeVars, ofNat_add_slotSize] at found
      cases i with
      | zero =>
        cases found
        rfl
      | succ i => rw [ih (n + 8) others found, show n + 8 + 8 * i = n + 8 * (i + 1) by omega]
    | _ => exact ih n others found

theorem offset_withFrame (sized : l.Sized) {i : Nat} (found : l.withFrame.slots[i]? = some slot) :
    slot.offset = Int64.ofNat (8 * i) := by
  obtain ⟨stop, count⟩ := saveSlots_end 0 l.registersToSave
  rw [Nat.zero_add] at stop
  change ((saveSlots (Int64.ofNat 0) l.registersToSave).1 ++
    (placeVars (saveSlots (Int64.ofNat 0) l.registersToSave).2 l.vars).2.1)[i]? = some slot at found
  rw [List.getElem?_append, count] at found
  split at found
  · rw [offset_saveSlots 0 _ found, Nat.zero_add]
  · rw [stop] at found
    rw [offset_placeVars _ sized found, ← Nat.mul_add]
    congr 2
    omega

theorem saves_saveSlots (offset : Int64) (rs : List Register) : (saveSlots offset rs).1.map Slot.saves = rs.map some := by
  induction rs generalizing offset with
  | nil => rfl
  | cons r rs ih => rw [saveSlots, List.map_cons, List.map_cons, ih]

theorem slotted_withFrame (sized : l.Sized) : Slotted Register.calleeSaved l.withFrame.slots := by
  intro slot member
  constructor
  · obtain ⟨i, found⟩ := List.getElem?_of_mem member
    exact ⟨i, offset_withFrame sized found⟩
  · intro r saves
    rcases List.mem_append.1 member with save | inVars
    · have saved : some r ∈ (saveSlots 0 l.registersToSave).1.map Slot.saves := List.mem_map.2 ⟨slot, save, saves⟩
      rw [saves_saveSlots] at saved
      obtain ⟨r', inside, same⟩ := List.mem_map.1 saved
      cases same
      exact (List.mem_filter.1 inside).1
    · cases (saves_placeVars inVars).symm.trans saves

theorem exists_save {r : Register} (member : r ∈ l.registersToSave) :
    ∃ slot ∈ l.withFrame.slots, slot.saves = some r := by
  have saved : some r ∈ (saveSlots 0 l.registersToSave).1.map Slot.saves := by
    rw [saves_saveSlots]
    exact List.mem_map_of_mem member
  obtain ⟨slot, inside, saves⟩ := List.mem_map.1 saved
  exact ⟨slot, List.mem_append_left _ inside, saves⟩

theorem usesRegister_of_get? {r : Register} (found : l.get? x = some (.register r)) : l.usesRegister r = true := by
  unfold get? at found
  unfold usesRegister
  generalize l.vars = vars at found
  induction vars with
  | nil => cases found
  | cons head vars ih =>
    obtain ⟨name, place⟩ := head
    rw [lookup_cons] at found
    rw [List.any_cons, Bool.or_eq_true]
    split at found
    · cases found
      exact .inl (beq_self_eq_true _)
    · exact .inr (ih found)

theorem mem_registersToSave {r : Register} (isLocal : r ∈ Register.locals)
    (found : l.get? x = some (.register r)) : r ∈ l.registersToSave := by
  have known : ∀ r ∈ Register.locals, r ∈ Register.calleeSaved := by decide
  exact List.mem_filter.2 ⟨known r isLocal, decide_eq_true (.inr (.inr (usesRegister_of_get? found)))⟩

theorem ra_mem_registersToSave (l : Layout) : .ra ∈ l.registersToSave :=
  List.mem_filter.2 ⟨by decide, by simp⟩

end Layout

section

variable {globals : List Global} {params : List Param} {body : List Stmt} {l : Layout} {x : Name}

theorem get?_withFrame_cases (ok : place queue globals params body = .ok l) {place : Location}
    (found : l.withFrame.get? x = some place) :
    (∃ r ∈ Register.locals, place = .register r ∧ ∃ slot ∈ l.withFrame.slots, slot.saves = some r) ∨
      (∃ slot ∈ l.withFrame.slots, slot.saves = none ∧ ∃ size, place = .stack slot.offset size) ∨
      ∃ g, (globals.find? fun g => g.name = x) = some g ∧ place = .memory x g.ty.size := by
  obtain ⟨_, _, sized, _⟩ := get?_place ok
  have frame := found
  rw [Layout.get?_withFrame sized] at frame
  cases placed ok x with
  | param _ before | frame _ _ before =>
    rw [before] at frame
    cases frame
    obtain ⟨slot, member, offset, isVar⟩ := Layout.exists_slot_withFrame found
    exact .inr (.inl ⟨slot, member, isVar, _, by rw [offset]⟩)
  | global _ isGlobal before =>
    rw [before] at frame
    cases frame
    exact .inr (.inr ⟨_, isGlobal, rfl⟩)
  | register _ _ free before =>
    rw [before] at frame
    cases frame
    exact .inl ⟨_, free, rfl, Layout.exists_save (Layout.mem_registersToSave free before)⟩
  | unused _ _ before =>
    rw [before] at frame
    cases frame

theorem get?_withFrame_param (ok : place queue globals params body = .ok l) (isParam : params.any fun p => p.name = x) :
    ∃ slot ∈ l.withFrame.slots, ∃ size, l.withFrame.get? x = some (.stack slot.offset size) := by
  obtain ⟨_, _, sized, _⟩ := get?_place ok
  have frame := Layout.get?_withFrame sized x
  cases placed ok x with
  | param _ before =>
    rw [before] at frame
    obtain ⟨slot, member, offset, _⟩ := Layout.exists_slot_withFrame frame
    exact ⟨slot, member, _, by rw [frame, offset]⟩
  | global noParam | register noParam | frame noParam => exact absurd isParam noParam
  | unused _ notUsed =>
    obtain ⟨p, member, same⟩ := List.any_eq_true.1 isParam
    obtain rfl : p.name = x := by simpa using same
    exact absurd (List.mem_append_left _ (List.mem_map_of_mem member)) notUsed

theorem get?_withFrame_ne_none (ok : place queue globals params body = .ok l) (used : x ∈ usedNames params body) :
    l.withFrame.get? x ≠ none := by
  obtain ⟨_, _, sized, _⟩ := get?_place ok
  rw [Layout.get?_withFrame sized]
  cases placed ok x with
  | param _ before | frame _ _ before | global _ _ before | register _ _ _ before =>
    rw [before]
    simp
  | unused _ notUsed => exact absurd used notUsed

end

end MiniC.Storage
