import MiniC.Proofs.Storage.Agreement
import MiniC.Proofs.Storage.Layouts
import Mathlib.Tactic.Tauto

namespace MiniC.Storage

open Code

variable {queue : Queue Usage Usage.less} {vars : List (Name × Location)} {l : Layout}

namespace Layout

def Sized (l : Layout) : Prop :=
  ∀ entry ∈ l.vars, ∀ offset size, entry.2 = .stack offset size → size = slotSize

theorem mem_put {name : Name} {place : Location} {entry : Name × Location}
    (member : entry ∈ put name place vars) : entry.2 = place ∨ entry ∈ vars := by
  induction vars with
  | nil =>
    rw [put, List.mem_singleton] at member
    exact .inl (by rw [member])
  | cons head vars ih =>
    obtain ⟨n, p⟩ := head
    unfold put at member
    split at member
    · rcases List.mem_cons.1 member with rfl | member
      · exact .inl rfl
      · exact .inr (List.mem_cons_of_mem _ member)
    · rcases List.mem_cons.1 member with rfl | member
      · exact .inr (List.mem_cons_self ..)
      · rcases ih member with found | found
        · exact .inl found
        · exact .inr (List.mem_cons_of_mem _ found)

theorem Sized.set (sized : l.Sized) {name : Name} {place : Location}
    (fits : ∀ offset size, place = .stack offset size → size = slotSize) : (l.set name place).Sized := by
  intro entry member offset size stack
  rcases mem_put member with found | found
  · exact fits offset size (found.symm.trans stack)
  · exact sized entry found offset size stack

def inFrame : Location → Bool
  | .stack _ _ => true
  | _ => false

def rank (x : Name) : List (Name × Location) → Nat
  | [] => 0
  | (n, place) :: vars => if x = n then 0 else rank x vars + (inFrame place).toNat

theorem ofNat_add_slotSize (n : Nat) : Int64.ofNat n + slotSize = Int64.ofNat (n + 8) := by
  rw [Int64.ofNat_add]
  rfl

theorem lookup_placeVars (x : Name) {n : Nat}
    (sized : ∀ entry ∈ vars, ∀ offset size, entry.2 = .stack offset size → size = slotSize) :
    (placeVars (Int64.ofNat n) vars).1.lookup x = match vars.lookup x with
      | some (.stack _ _) => some (.stack (Int64.ofNat (n + 8 * rank x vars)) slotSize) | place => place := by
  induction vars generalizing n with
  | nil => rfl
  | cons head vars ih =>
    obtain ⟨name, place⟩ := head
    have others := fun entry member => sized entry (List.mem_cons_of_mem _ member)
    cases place with
    | stack offset size =>
      obtain rfl : size = slotSize := sized _ (List.mem_cons_self ..) offset size rfl
      have next := ih (n := n + 8) others
      rw [← ofNat_add_slotSize] at next
      change ((name, Location.stack (Int64.ofNat n) slotSize) ::
        (placeVars (Int64.ofNat n + slotSize) vars).1).lookup x = _
      rw [lookup_cons, lookup_cons, rank]
      by_cases same : x = name
      · simp [same]
      · simp only [if_neg same, next, inFrame, Bool.toNat_true]
        rw [show n + 8 + 8 * rank x vars = n + 8 * (rank x vars + 1) by omega]
    | _ =>
      have next := ih (n := n) others
      simp only [placeVars, lookup_cons, rank, next]
      by_cases same : x = name <;> simp [same, inFrame]

theorem rank_lt {x : Name} (offset : Int64) {o s : Int64}
    (found : vars.lookup x = some (.stack o s)) : rank x vars < (placeVars offset vars).2.1.length := by
  induction vars generalizing offset with
  | nil => cases found
  | cons head vars ih =>
    obtain ⟨name, place⟩ := head
    rw [lookup_cons] at found
    rw [rank]
    by_cases same : x = name
    · rw [if_pos same] at found ⊢
      cases found
      exact Nat.zero_lt_succ _
    · rw [if_neg same] at found ⊢
      cases place with
      | stack o' s' => exact Nat.succ_lt_succ (ih _ found)
      | _ => exact ih _ found

theorem rank_injective {x y : Name} {o s o' s' : Int64}
    (foundX : vars.lookup x = some (.stack o s)) (foundY : vars.lookup y = some (.stack o' s'))
    (same : rank x vars = rank y vars) : x = y := by
  induction vars with
  | nil => cases foundX
  | cons head vars ih =>
    obtain ⟨name, place⟩ := head
    rw [lookup_cons] at foundX foundY
    rw [rank, rank] at same
    by_cases isX : x = name <;> by_cases isY : y = name
    · rw [isX, isY]
    · rw [if_pos isX] at foundX same
      cases foundX
      rw [if_neg isY, inFrame] at same
      cases same
    · rw [if_pos isY] at foundY same
      cases foundY
      rw [if_neg isX, inFrame] at same
      cases same
    · rw [if_neg isX] at foundX same
      rw [if_neg isY] at foundY same
      exact ih foundX foundY (Nat.add_right_cancel same)

theorem saveSlots_end (n : Nat) (rs : List Register) :
    (saveSlots (Int64.ofNat n) rs).2 = Int64.ofNat (n + 8 * rs.length) ∧
      (saveSlots (Int64.ofNat n) rs).1.length = rs.length := by
  induction rs generalizing n with
  | nil => exact ⟨rfl, rfl⟩
  | cons r rs ih =>
    have next := ih (n + 8)
    rw [← ofNat_add_slotSize] at next
    refine ⟨?_, by simp only [saveSlots, List.length_cons, next.2]⟩
    simp only [saveSlots, next.1, List.length_cons]
    rw [show n + 8 + 8 * rs.length = n + 8 * (rs.length + 1) by omega]

def offsetOf (l : Layout) (x : Name) : Nat :=
  8 * l.registersToSave.length + 8 * rank x l.vars

theorem get?_withFrame (sized : l.Sized) (x : Name) : l.withFrame.get? x = match l.get? x with
      | some (.stack _ _) => some (.stack (Int64.ofNat (l.offsetOf x)) slotSize) | place => place := by
  have ends := (saveSlots_end 0 l.registersToSave).1
  rw [Nat.zero_add] at ends
  change (placeVars (saveSlots (Int64.ofNat 0) l.registersToSave).2 l.vars).1.lookup x = _
  rw [ends, lookup_placeVars x sized]
  rfl

theorem offsetOf_lt {x : Name} {o s : Int64} (found : l.get? x = some (.stack o s)) :
    l.offsetOf x < 8 * l.withFrame.slots.length := by
  have before := rank_lt (saveSlots 0 l.registersToSave).2 found
  have saves := (saveSlots_end 0 l.registersToSave).2
  have slots : l.withFrame.slots = (saveSlots (Int64.ofNat 0) l.registersToSave).1 ++
    (placeVars (saveSlots (Int64.ofNat 0) l.registersToSave).2 l.vars).2.1 := rfl
  rw [slots, List.length_append, saves, offsetOf]
  change rank x l.vars < (placeVars (saveSlots (Int64.ofNat 0) l.registersToSave).2 l.vars).2.1.length at before
  omega

end Layout

section

variable {l : Layout} {x : Name}

theorem sized_placeGlobals {l' : Layout} {gs : List Global} (ok : placeGlobals l gs = .ok l')
    (sized : l.Sized) : l'.Sized := by
  induction gs generalizing l with
  | nil => cases ok; exact sized
  | cons g gs ih =>
    rw [placeGlobals] at ok
    split at ok
    · cases ok
    · exact ih ok (sized.set fun _ _ never => by cases never)

theorem sized_slot (offset size : Int64) (stack : Location.stack 0 slotSize = .stack offset size) :
    size = slotSize := by
  cases stack
  rfl

theorem sized_placeParams (sized : l.Sized) (params : List Param) : (placeParams l params).Sized := by
  induction params generalizing l with
  | nil => exact sized
  | cons p params ih => exact ih (sized.set sized_slot)

theorem sized_placeLocals (sized : l.Sized) (free : List Register) (us : List Usage) :
    (placeLocals l free us).Sized := by
  induction us generalizing l free with
  | nil => rw [placeLocals]; exact sized
  | cons u us ih =>
    unfold placeLocals
    split
    · exact ih sized free
    · split
      · split
        · exact ih (sized.set sized_slot) _
        · exact ih (sized.set fun _ _ never => by cases never) _
      · exact ih (sized.set sized_slot) _

end

namespace Usage

variable {us : List Usage} {x name : Name}

theorem mem_note {count : Usage → Usage} (keeps : ∀ u, (count u).name = u.name) :
    x ∈ (note count name us).map (·.name) ↔ x = name ∨ x ∈ us.map (·.name) := by
  unfold note
  split
  · rename_i known
    have names : (us.map fun u => if u.name = name then count u else u).map (·.name) = us.map (·.name) := by
      rw [List.map_map]
      apply List.map_congr_left
      intro u _
      rw [Function.comp_apply]
      split
      · exact keeps u
      · rfl
    rw [names]
    constructor
    · exact .inr
    · rintro (rfl | inside)
      · obtain ⟨u, member, same⟩ := List.any_eq_true.1 known
        exact List.mem_map.2 ⟨u, member, of_decide_eq_true same⟩
      · exact inside
  · simp [keeps, or_comm]

theorem mem_foldl_note {f : List Usage → Name → List Usage}
    (notes : ∀ us name, x ∈ (f us name).map (·.name) ↔ x = name ∨ x ∈ us.map (·.name)) (names : List Name) :
    x ∈ (names.foldl f us).map (·.name) ↔ x ∈ names ∨ x ∈ us.map (·.name) := by
  induction names generalizing us with
  | nil => simp
  | cons name names ih =>
    rw [List.foldl_cons, ih, notes, List.mem_cons]
    tauto

theorem mem_noteAction (a : Action) :
    x ∈ (noteAction us a).map (·.name) ↔ x ∈ a.inputs ++ a.outputs ∨ x ∈ us.map (·.name) := by
  have reads : ∀ us name, x ∈ (noteRead us name).map (·.name) ↔ x = name ∨ x ∈ us.map (·.name) :=
    fun _ _ => mem_note fun _ => rfl
  have writes : ∀ us name, x ∈ (noteWrite us name).map (·.name) ↔ x = name ∨ x ∈ us.map (·.name) :=
    fun _ _ => mem_note fun _ => rfl
  rw [noteAction, mem_foldl_note writes, mem_foldl_note reads, List.mem_append]
  tauto

theorem mem_ofBody (body : List Stmt) :
    x ∈ (queue.sort (ofBody body)).map (·.name) ↔ x ∈ body.flatMap fun s => s.action.inputs ++ s.action.outputs := by
  have all : ∀ us, x ∈ (body.foldl (fun us s => noteAction us s.action) us).map (·.name) ↔
      x ∈ (body.flatMap fun s => s.action.inputs ++ s.action.outputs) ∨ x ∈ us.map (·.name) := by
    induction body with
    | nil => simp
    | cons s body ih =>
      intro us
      rw [List.foldl_cons, ih, mem_noteAction, List.flatMap_cons, List.mem_append (s := s.action.inputs ++ _)]
      tauto
  rw [((queue.perm_sort (ofBody body)).map _).mem_iff, ofBody, all]
  simp

end Usage

theorem locals_nodup : Register.locals.Nodup := by
  decide

theorem get?_place {globals : List Global} {params : List Param} {body : List Stmt}
    (ok : place queue globals params body = .ok l) : ∃ named : Layout, placeGlobals .empty globals = .ok named ∧
      l.Sized ∧ PlacesLocals (placeParams named params) Register.locals (queue.sort (Usage.ofBody body)) l := by
  unfold place at ok
  cases globals_ok : placeGlobals .empty globals with
  | error name => rw [globals_ok] at ok; cases ok
  | ok named =>
    rw [globals_ok] at ok
    cases ok
    have sized : named.Sized := sized_placeGlobals globals_ok fun _ member => by cases member
    exact ⟨named, rfl, sized_placeLocals (sized_placeParams sized params) _ _, placesLocals _ locals_nodup _⟩

section

variable {globals : List Global} {params : List Param} {body : List Stmt} {l : Layout} {x y : Name}

/-- The place of a name, before the frame is laid out. -/
inductive Placed (globals : List Global) (params : List Param) (body : List Stmt) (l : Layout) (x : Name) : Prop
  | param : params.any (fun p => p.name = x) → l.get? x = some (.stack 0 slotSize) → Placed globals params body l x
  | global {g} : ¬ params.any (fun p => p.name = x) → (globals.find? fun g => g.name = x) = some g →
    l.get? x = some (.memory x g.ty.size) → Placed globals params body l x
  | register {r} : ¬ params.any (fun p => p.name = x) → (globals.find? fun g => g.name = x) = none →
    r ∈ Register.locals → l.get? x = some (.register r) → Placed globals params body l x
  | frame : ¬ params.any (fun p => p.name = x) → (globals.find? fun g => g.name = x) = none →
    l.get? x = some (.stack 0 slotSize) → Placed globals params body l x
  | unused : (globals.find? fun g => g.name = x) = none → x ∉ usedNames params body → l.get? x = none →
    Placed globals params body l x

theorem placed (ok : place queue globals params body = .ok l) (x : Name) : Placed globals params body l x := by
  obtain ⟨named, globals_ok, _, locals⟩ := get?_place ok
  have start := get?_placeParams named params x
  rw [get?_placeGlobals globals_ok] at start
  by_cases param : params.any fun p => p.name = x
  · rw [if_pos param] at start
    exact .param param (by rw [locals.old (by rw [start]; simp), start])
  · rw [if_neg param] at start
    cases found : globals.find? fun g => g.name = x with
    | some g =>
      obtain rfl : g.name = x := by simpa using List.find?_some found
      rw [found] at start
      exact .global param found (by rw [locals.old (by rw [start]; simp), start])
    | none =>
      rw [found] at start
      by_cases inBody : x ∈ body.flatMap fun s => s.action.inputs ++ s.action.outputs
      · rcases locals.new start ((Usage.mem_ofBody body).2 inBody) with ⟨r, free, register⟩ | frame
        · exact .register param found free register
        · exact .frame param found frame
      · refine .unused found (fun used => ?_) (locals.outside start (mt (Usage.mem_ofBody body).1 inBody))
        rcases List.mem_append.1 used with isParam | operand
        · obtain ⟨p, member, rfl⟩ := List.mem_map.1 isParam
          exact param (List.any_eq_true.2 ⟨p, member, by simp⟩)
        · exact inBody operand

theorem register_injective (ok : place queue globals params body = .ok l) {r : Register}
    (foundX : l.get? x = some (.register r)) (foundY : l.get? y = some (.register r)) : x = y := by
  obtain ⟨named, globals_ok, _, locals⟩ := get?_place ok
  have isNew : ∀ {z}, l.get? z = some (.register r) → (placeParams named params).get? z = none := by
    intro z found
    by_contra old
    have place := locals.old old
    rw [found, get?_placeParams, get?_placeGlobals globals_ok] at place
    split at place
    · cases place
    · split at place <;> cases place
  exact locals.apart (isNew foundX) (isNew foundY) foundX foundY

theorem register_of_withFrame (ok : place queue globals params body = .ok l) {r : Register}
    (found : l.withFrame.get? x = some (.register r)) : l.get? x = some (.register r) := by
  obtain ⟨_, _, sized, _⟩ := get?_place ok
  rw [Layout.get?_withFrame sized] at found
  split at found
  · cases found
  · exact found

theorem stack_of_withFrame (ok : place queue globals params body = .ok l) {offset size : Int64}
    (found : l.withFrame.get? x = some (.stack offset size)) :
    (∃ o s, l.get? x = some (.stack o s)) ∧ Int64.ofNat (l.offsetOf x) = offset := by
  obtain ⟨_, _, sized, _⟩ := get?_place ok
  rw [Layout.get?_withFrame sized] at found
  split at found
  · rename_i o s place
    cases found
    exact ⟨⟨o, s, place⟩, rfl⟩
  · rename_i other
    exact absurd found (other offset size)

theorem offset_injective (ok : place queue globals params body = .ok l) (few : 8 * l.withFrame.slots.length < 2 ^ 64)
    {offset size size' : Int64} (foundX : l.withFrame.get? x = some (.stack offset size))
    (foundY : l.withFrame.get? y = some (.stack offset size')) : x = y := by
  obtain ⟨⟨o, s, foundX⟩, offsetX⟩ := stack_of_withFrame ok foundX
  obtain ⟨⟨o', s', foundY⟩, offsetY⟩ := stack_of_withFrame ok foundY
  have same := ofNat_inj_of_lt (Nat.lt_trans (Layout.offsetOf_lt foundX) few)
    (Nat.lt_trans (Layout.offsetOf_lt foundY) few) (offsetX.trans offsetY.symm)
  unfold Layout.offsetOf at same
  exact Layout.rank_injective foundX foundY (by omega)

theorem get?_withFrame_global {g : Global} (ok : place queue globals params body = .ok l)
    (found : (globals.find? fun g => g.name = x) = some g) (noParam : ¬ params.any fun p => p.name = x) :
    l.withFrame.get? x = some (.memory x g.ty.size) := by
  obtain ⟨_, _, sized, _⟩ := get?_place ok
  rw [Layout.get?_withFrame sized]
  cases placed ok x with
  | param isParam => exact absurd isParam noParam
  | global _ found' place =>
    cases found.symm.trans found'
    rw [place]
  | register _ none | frame _ none | unused none => cases found.symm.trans none

theorem housed_withFrame {sizes : Name → Option Int64} (ok : place queue globals params body = .ok l)
    (known : ∀ x ∈ usedNames params body, sizes x = if params.any fun p => p.name = x then none
      else (globals.find? fun g => g.name = x).map fun g => g.ty.size)
    (few : 8 * l.withFrame.slots.length < 2 ^ 64) : Housed l.withFrame sizes (usedNames params body) := by
  obtain ⟨_, _, sized, _⟩ := get?_place ok
  have frame := Layout.get?_withFrame sized
  constructor
  case inMemory =>
    intro x size used isGlobal
    rw [known x used] at isGlobal
    rw [frame]
    cases placed ok x with
    | param isParam =>
      rw [if_pos isParam] at isGlobal
      cases isGlobal
    | global noParam found place =>
      rw [if_neg noParam, found] at isGlobal
      cases isGlobal
      rw [place]
    | register noParam none | frame noParam none =>
      rw [if_neg noParam, none] at isGlobal
      cases isGlobal
    | unused _ notUsed => exact absurd used notUsed
  case elsewhere =>
    intro x used isLocal
    rw [known x used] at isLocal
    rw [frame]
    cases placed ok x with
    | param _ place | frame _ _ place => exact .inr ⟨_, by rw [place]⟩
    | global noParam found =>
      rw [if_neg noParam, found] at isLocal
      cases isLocal
    | register _ _ free place => exact .inl ⟨_, free, by rw [place]⟩
    | unused _ notUsed => exact absurd used notUsed
  case registers =>
    intro x y r _ _ placeX placeY
    exact register_injective ok (register_of_withFrame ok placeX) (register_of_withFrame ok placeY)
  case offsets =>
    intro x y offset _ _ placeX placeY
    exact offset_injective ok few placeX placeY

end

end MiniC.Storage
