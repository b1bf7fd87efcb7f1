import MiniC.Proofs.Naming.Notes
import MiniC.Proofs.Storage.Places

namespace MiniC.Storage

open Code

variable {body : List Stmt}

def Loan.notes (loan : Loan) : List Note :=
  loan.lent.map fun entry => .makes entry.2

/-- What is noted when moves are put around a statement. -/
def stmtNotes (names : Namer) (l : Layout) (stmt : Stmt) : List Note :=
  (if stmt.action.isLocal then (loansIn names l stmt.action).notes ++ (loansOut names l stmt.action).notes else []) ++
    (moveStmt names l stmt).code.map .writes

def bodyNotes (names : Namer) (l : Layout) : List Stmt → List Note
  | [] => []
  | stmt :: body =>
    stmtNotes names l stmt ++ bodyNotes (moveStmt names l stmt).names (moveStmt names l stmt).layout body

/-- What is noted when string constants are put into globals. -/
def stringNotes (names : Namer) : List Stmt → List Note
  | [] => []
  | ⟨label, .store dest (some (.str text))⟩ :: body =>
    let (name, names) := names.fresh Name.string
    .makes name :: .declares ⟨name, .string, some (.str text)⟩ ::
      .writes ⟨label, .store dest (some (.symbol name))⟩ :: stringNotes names body
  | _ :: body => stringNotes names body

def functionNotes (names : Namer) (globals : List Global) (f : Function) : List Note :=
  let strings := extractStrings names globals f.body
  stringNotes names f.body ++
    match place Usage.queue strings.globals f.params strings.body with
    | .ok l => bodyNotes strings.names l.withFrame strings.body
    | .error _ => []

def functionsNotes (names : Namer) (globals : List Global) : List Function → List Note
  | [] => []
  | f :: fs =>
    if f.external then functionsNotes names globals fs
    else
      let first := assignFunction Usage.queue names globals f
      functionNotes names globals f ++ functionsNotes first.names first.globals fs

variable {start : Namer} {own : Nat → Prop} {a : Nat} {l : Layout}

theorem orderly_lend {loan : Loan} (made : Made start a l loan)
    (orderly : Orderly start own a loan.notes (a + loan.places.length)) (mine : ∀ j, a < j → own j) (x : Name) :
    Orderly start own a (loan.lend x).notes (a + (loan.lend x).places.length) := by
  rcases lend_cases loan x with ⟨same, _⟩ | ⟨place, r, pool, _, _, _, _, gives⟩
  · rwa [same]
  · have next : (loan.lend x).notes =
        loan.notes ++ [Note.makes (start.made Name.scratch (a + loan.places.length + 1))] := by
      rw [gives, Loan.notes, List.map_append, made.names, Namer.after_succ]
      rfl
    rw [next, gives, List.length_append]
    exact orderly.append (.makes (by decide) (.inr (mine _ (by omega))) .nil)

theorem orderly_foldl {loan : Loan} (made : Made start a l loan)
    (orderly : Orderly start own a loan.notes (a + loan.places.length)) (mine : ∀ j, a < j → own j) (xs : List Name) :
    Orderly start own a (xs.foldl Loan.lend loan).notes (a + (xs.foldl Loan.lend loan).places.length) := by
  induction xs generalizing loan with
  | nil => exact orderly
  | cons x xs ih => exact ih (made.lend x) (orderly_lend made orderly mine x)

section

variable (start : Namer) (mine : ∀ j, a < j → own j) (l : Layout) (action : Action)

include mine

theorem orderly_loansIn : Orderly start own a (loansIn (start.after a) l action).notes
    (a + (loansIn (start.after a) l action).places.length) :=
  orderly_foldl (.of_start start a l _) .nil mine _

theorem orderly_loansOut : Orderly start own (a + (loansIn (start.after a) l action).places.length)
    (loansOut (start.after a) l action).notes (a + (loansIn (start.after a) l action).places.length +
      (loansOut (start.after a) l action).places.length) := by
  unfold loansOut
  rw [(made_loansIn start a l action).names]
  exact orderly_foldl (.of_start ..) .nil (fun j above => mine j (by omega)) _

end

theorem known_apply {loan : Loan} {b c : Nat} (orderly : Orderly start own b loan.notes c) {x : Name}
    (known : Known start own x c) : Known start own (loan.lent.apply x) c := by
  unfold Renaming.apply
  cases found : loan.lent.lookup x with
  | none => exact known
  | some tmp =>
    obtain ⟨_, _, split, _⟩ := List.lookup_eq_some_iff.1 found
    have entry : (x, tmp) ∈ loan.lent := by
      rw [split]
      exact List.mem_append_right _ List.mem_cons_self
    exact orderly.known tmp (List.mem_flatMap.2 ⟨.makes tmp, List.mem_map_of_mem entry, List.mem_singleton_self tmp⟩)

theorem refers_substitute (ins outs : Renaming) (action : Action) :
    (action.substitute ins outs).refers = action.refers := by
  cases action with
  | store dest value =>
    unfold Action.substitute Action.refers
    split <;> simp_all
  | _ => rfl

def KnownPlaces (start : Namer) (own : Nat → Prop) (l : Layout) (a : Nat) : Prop :=
  ∀ {x place}, l.get? x = some place → ∀ y ∈ place.names, Known start own y a

theorem KnownPlaces.later {l' : Layout} {b : Nat} (known : KnownPlaces start own l a) (later : Later l l')
    (le : a ≤ b) : KnownPlaces start own l' b := by
  intro x place found y member
  have notRegister (r : Register) : place ≠ .register r := by
    rintro rfl
    cases member
  exact (known (later.of_other found notRegister) y member).mono le

theorem orderly_writes {code : List Stmt} (known : ∀ s ∈ code, ∀ x ∈ s.names, Known start own x a) :
    Orderly start own a (code.map .writes) a := by
  induction code with
  | nil => exact .nil
  | cons s code ih =>
    have ⟨first, rest⟩ := List.forall_mem_cons.1 known
    exact .writes first (ih rest)

variable {stmt : Stmt}

theorem known_movedBlock {b c : Nat} {ins outs : Loan} (here : stmt.action.isLocal = true)
    (known : ∀ x ∈ stmt.names, Known start own x a) (places : KnownPlaces start own l a)
    (isIns : Orderly start own a ins.notes b) (isOuts : Orderly start own b outs.notes c)
    (lends : Lends l ins) (lends' : Lends ins.layout outs) :
    ∀ s ∈ (movedBlock stmt ins outs).code, ∀ x ∈ s.names, Known start own x c := by
  intro s member
  have le := isIns.le
  have le' := isOuts.le
  obtain ⟨label, action⟩ := mem_movedBlock member
  refine known_stmt ?_ ?_
  · rcases label with empty | same
    · rw [empty]
      exact .nil
    · rw [same]
      exact (known _ List.mem_cons_self).mono (by omega)
  · rcases action with ⟨⟨place, r⟩, lent, isLoad⟩ | same | ⟨⟨place, r⟩, lent, isUnload⟩
    · rw [isLoad]
      intro x member
      obtain ⟨_, _, y, found⟩ := lends.places lent
      have inPlace : x ∈ place.names := by
        simpa [load, Action.inputs, Action.outputs, Action.refers, Location.names] using member
      exact (places found x inPlace).mono (by omega)
    · rw [same]
      intro x member
      rcases List.mem_append.1 member with operand | refers
      · rcases List.mem_append.1 operand with input | output
        · obtain ⟨y, isInput, rfl⟩ := mem_inputs_substitute here input
          have isName : y ∈ stmt.names := by simp [Stmt.names, isInput]
          exact (known_apply isIns ((known y isName).mono le)).mono le'
        · rw [Action.outputs_substitute here] at output
          obtain ⟨y, isOutput, rfl⟩ := List.mem_map.1 output
          have isName : y ∈ stmt.names := by simp [Stmt.names, isOutput]
          exact known_apply isOuts ((known y isName).mono (by omega))
      · rw [refers_substitute] at refers
        exact (known x (List.mem_cons_of_mem _ (List.mem_append_right _ refers))).mono (by omega)
    · rw [isUnload]
      intro x member
      obtain ⟨_, _, y, found⟩ := lends'.places lent
      have inPlace : x ∈ place.names := by
        simpa [unload, Action.inputs, Action.outputs, Action.refers, Location.names] using member
      exact (places.later lends.later le found x inPlace).mono le'

theorem orderly_moveStmt (mine : ∀ j, a < j → own j) (known : ∀ x ∈ stmt.names, Known start own x a)
    (places : KnownPlaces start own l a) : ∃ made, (moveStmt (start.after a) l stmt).code.length = 1 + made ∧
      Orderly start own a (stmtNotes (start.after a) l stmt) (a + made) := by
  unfold stmtNotes
  by_cases here : stmt.action.isLocal = true
  · rw [if_pos here, moveStmt_of_isLocal _ _ here]
    refine ⟨_, length_movedBlock _ _, ?_⟩
    have ins := orderly_loansIn start mine l stmt.action
    have outs := orderly_loansOut start mine l stmt.action
    rw [← Nat.add_assoc]
    refine (ins.append outs).append (orderly_writes ?_)
    exact known_movedBlock here known places ins outs (lends_loansIn ..) (lends_loansOut ..)
  · have stays : (moveStmt (start.after a) l stmt).code = [stmt] := by
      obtain ⟨label, action⟩ := stmt
      cases action with
      | call | move => rfl
      | _ => exact absurd rfl here
    rw [if_neg here, stays]
    exact ⟨0, rfl, .writes known .nil⟩

theorem orderly_moveBody (mine : ∀ j, a < j → own j)
    (known : ∀ s ∈ body, ∀ x ∈ s.names, Known start own x a) (places : KnownPlaces start own l a) :
    ∃ made, (moveBody (start.after a) l body).code.length = body.length + made ∧
      Orderly start own a (bodyNotes (start.after a) l body) (a + made) := by
  induction body generalizing a l with
  | nil => exact ⟨0, rfl, .nil⟩
  | cons stmt body ih =>
    obtain ⟨made, length, orderly⟩ := orderly_moveStmt mine (known stmt List.mem_cons_self) places
    obtain ⟨made', length', since⟩ := moveStmt_since start a l stmt
    obtain rfl : made = made' := by omega
    have le := orderly.le
    obtain ⟨more, length', orderly'⟩ := ih (fun j above => mine j (by omega))
      (fun s member x inStmt => (known s (List.mem_cons_of_mem _ member) x inStmt).mono le)
      (places.later (moveStmt_later (start.after a) l stmt) le)
    refine ⟨made + more, ?_, ?_⟩
    · rw [moveBody, since.names, List.length_append, List.length_cons]
      omega
    · rw [bodyNotes, since.names, ← Nat.add_assoc]
      exact orderly.append orderly'

theorem writes_moveBody {names : Namer} {s : Stmt} (member : s ∈ (moveBody names l body).code) :
    .writes s ∈ bodyNotes names l body := by
  induction body generalizing names l with
  | nil => cases member
  | cons stmt body ih =>
    rcases List.mem_append.1 member with here | there
    · exact List.mem_append_left _ (List.mem_append_right _ (List.mem_map_of_mem here))
    · exact List.mem_append_right _ (ih there)

theorem stringNotes_other (names : Namer) {stmt : Stmt} (body : List Stmt)
    (other : ∀ dest text, stmt.action ≠ .store dest (some (.str text))) :
    stringNotes names (stmt :: body) = stringNotes names body := by
  rw [stringNotes]
  intro label dest text same
  exact other dest text (by rw [same])

theorem orderly_extractStrings {globals : List Global}
    (ok : (extractStrings (start.after a) globals body).collision = none)
    (known : ∀ s ∈ body, ∀ x ∈ s.names, Known start own x a) :
    ∃ made, (extractStrings (start.after a) globals body).globals.length = globals.length + made ∧
      Orderly start own a (stringNotes (start.after a) body) (a + made) ∧
      (∀ s ∈ (extractStrings (start.after a) globals body).body, ∀ x ∈ s.names, Known start own x (a + made)) ∧
      ∀ g ∈ (extractStrings (start.after a) globals body).globals,
        g ∈ globals ∨ .declares g ∈ stringNotes (start.after a) body := by
  induction body generalizing a globals with
  | nil => exact ⟨0, rfl, .nil, known, fun _ => .inl⟩
  | cons stmt body ih =>
    have ⟨first, rest⟩ := List.forall_mem_cons.1 known
    by_cases string : ∃ dest text, stmt.action = .store dest (some (.str text))
    · obtain ⟨label, action⟩ := stmt
      obtain ⟨dest, text, rfl⟩ := string
      rw [extractStrings, Namer.fresh_after] at ok ⊢
      rw [stringNotes, Namer.fresh_after]
      dsimp only at ok ⊢
      split at ok
      · cases ok
      · rename_i taken
        rw [if_neg taken]
        have le := Nat.le_succ a
        obtain ⟨made, length, orderly, known', declared⟩ :=
          ih ok fun s member x inStmt => (rest s member x inStmt).mono le
        have isName : Known start own (start.made Name.string (a + 1)) (a + 1) :=
          .inr ⟨_, by decide, a + 1, Nat.le_refl _, .inl rfl, rfl⟩
        have isStore : ∀ x ∈ (Stmt.mk label (.store dest (some (.symbol (start.made Name.string (a + 1)))))).names,
            Known start own x (a + 1) := by
          refine known_stmt ((first label List.mem_cons_self).mono le) fun x member => ?_
          have operands : x = dest ∨ x = start.made Name.string (a + 1) := by
            simpa [Action.inputs, Action.outputs, Action.refers] using member
          rcases operands with rfl | rfl
          · exact (first x (by simp [Stmt.names, Action.outputs])).mono le
          · exact isName
        rw [Nat.add_assoc, Nat.add_comm 1] at orderly known'
        refine ⟨made + 1, ?_, .makes (by decide) (.inl rfl) (.declares isName (.writes isStore orderly)), ?_, ?_⟩
        · rw [length, List.length_append, List.length_singleton]
          omega
        · exact List.forall_mem_cons.2 ⟨fun x inStmt => (isStore x inStmt).mono (by omega), known'⟩
        · intro g member
          rcases declared g member with old | noted
          · rcases List.mem_append.1 old with old | new
            · exact .inl old
            · exact .inr (by simp [List.mem_singleton.1 new])
          · exact .inr (List.mem_cons_of_mem _ (List.mem_cons_of_mem _ (List.mem_cons_of_mem _ noted)))
    · have other : ∀ dest text, stmt.action ≠ .store dest (some (.str text)) :=
        fun dest text same => string ⟨dest, text, same⟩
      rw [extractStrings_other _ _ _ other] at ok ⊢
      rw [stringNotes_other _ _ other]
      obtain ⟨made, length, orderly, known', declared⟩ := ih ok rest
      refine ⟨made, length, orderly, ?_, declared⟩
      exact List.forall_mem_cons.2 ⟨fun x inStmt => (first x inStmt).mono orderly.le, known'⟩

def KnownGlobals (start : Namer) (globals : List Global) (a : Nat) : Prop :=
  ∀ g ∈ globals, Known start (fun _ => False) g.name a

variable {moves : Nat} {globals new : List Global} {f g : Function} {strings : Nat → Name}

theorem knownGlobals_of_assigns (assigns : Assigns Usage.queue start a moves globals new f g strings l)
    (known : KnownGlobals start globals a) : KnownGlobals start (globals ++ new) (a + new.length) := by
  intro h member
  rcases List.mem_append.1 member with old | added
  · exact (known h old).mono (by omega)
  · obtain ⟨j, _, below, name⟩ := assigns.extracts.made h added
    exact .inr ⟨_, by decide, j, below, .inl rfl, name⟩

theorem known_layout {params : List Param} (ok : place Usage.queue globals params body = .ok l)
    (isGlobals : KnownGlobals start globals a) (isUsed : ∀ x ∈ usedNames params body, Known start own x a) {x : Name}
    (found : l.withFrame.get? x ≠ none) : Known start own x a := by
  by_cases isGlobal : x ∈ globals.map (·.name)
  · obtain ⟨h, member, rfl⟩ := List.mem_map.1 isGlobal
    exact (isGlobals h member).imp fun _ _ => False.elim
  · by_cases used : x ∈ usedNames params body
    · exact isUsed x used
    · exact absurd (get?_withFrame_unseen ok isGlobal used) found

theorem knownPlaces_withFrame {params : List Param} (ok : place Usage.queue globals params body = .ok l)
    (isGlobals : KnownGlobals start globals a) : KnownPlaces start own l.withFrame a := by
  intro x place found y member
  rcases get?_withFrame_cases ok found with ⟨_, _, rfl, _⟩ | ⟨_, _, _, _, rfl⟩ | ⟨h, isGlobal, rfl⟩
  · cases member
  · cases member
  · obtain rfl : y = x := List.mem_singleton.1 member
    obtain rfl : h.name = y := by simpa using List.find?_some isGlobal
    exact (isGlobals h (List.mem_of_find?_eq_some isGlobal)).imp fun _ _ => False.elim

theorem Layout.slot_placeVars {offset : Int64} {vars : List (Name × Location)} {slot : Slot}
    (member : slot ∈ (placeVars offset vars).2.1) : slot.name ∈ (placeVars offset vars).1.map (·.1) := by
  induction vars generalizing offset with
  | nil => cases member
  | cons var vars ih =>
    obtain ⟨name, place⟩ := var
    cases place with
    | stack _ size =>
      rcases List.mem_cons.1 member with rfl | later
      · exact List.mem_cons_self
      · exact List.mem_cons_of_mem _ (ih later)
    | _ => exact List.mem_cons_of_mem _ (ih member)

theorem Layout.slot_saveSlots {offset : Int64} {rs : List Register} {slot : Slot}
    (member : slot ∈ (saveSlots offset rs).1) : ∃ r ∈ rs, slot.name = r.name := by
  induction rs generalizing offset with
  | nil => cases member
  | cons r rs ih =>
    rcases List.mem_cons.1 member with rfl | later
    · exact ⟨r, List.mem_cons_self, rfl⟩
    · obtain ⟨r', inRest, name⟩ := ih later
      exact ⟨r', List.mem_cons_of_mem _ inRest, name⟩

theorem Layout.slot_withFrame {l : Layout} {slot : Slot} (member : slot ∈ l.withFrame.slots) :
    slot.name ∈ l.withFrame.vars.map (·.1) ∨ ∃ r ∈ Register.calleeSaved, slot.name = r.name := by
  change slot ∈ (saveSlots 0 l.registersToSave).1 ++ (placeVars (saveSlots 0 l.registersToSave).2 l.vars).2.1 at member
  rcases List.mem_append.1 member with saves | var
  · obtain ⟨r, isSaved, name⟩ := slot_saveSlots saves
    exact .inr ⟨r, (List.mem_filter.1 isSaved).1, name⟩
  · exact .inl (slot_placeVars var)

theorem get?_ne_none_of_mem {x : Name} (member : x ∈ l.vars.map (·.1)) : l.get? x ≠ none := by
  obtain ⟨entry, inVars, rfl⟩ := List.mem_map.1 member
  rw [← Option.isSome_iff_ne_none, Layout.get?, List.lookup_isSome_iff]
  exact ⟨entry, inVars, beq_self_eq_true _⟩

theorem isGenerated_calleeSaved : ∀ r ∈ Register.calleeSaved, Name.isGenerated r.name = false := by
  decide

theorem known_final {params : List Param} (mine : ∀ j, a < j → own j)
    (ok : place Usage.queue globals params body = .ok l) (isGlobals : KnownGlobals start globals a)
    (isUsed : ∀ x ∈ usedNames params body, Known start own x a) {moves : Nat} {final : Layout}
    (extends_ : Extends start a (a + moves) l.withFrame final) (slots : final.slots = l.withFrame.slots) :
    ∀ x ∈ final.names, Known start own x (a + moves) := by
  have inFrame (x : Name) (found : l.withFrame.get? x ≠ none) : Known start own x (a + moves) :=
    (known_layout ok isGlobals isUsed found).mono (Nat.le_add_right a moves)
  intro x member
  rcases List.mem_append.1 member with key | slot
  · by_cases made : ∃ j, a < j ∧ j ≤ a + moves ∧ x = start.made Name.scratch j
    · obtain ⟨j, above, below, rfl⟩ := made
      exact .inr ⟨_, by decide, j, below, .inr (mine j above), rfl⟩
    · refine inFrame x ?_
      rw [← extends_ x fun j above below same => made ⟨j, above, below, same⟩]
      exact get?_ne_none_of_mem key
  · rw [slots] at slot
    obtain ⟨slot, inSlots, rfl⟩ := List.mem_map.1 slot
    rcases Layout.slot_withFrame inSlots with var | ⟨r, saved, name⟩
    · exact inFrame _ (get?_ne_none_of_mem var)
    · rw [name]
      exact .inl (isGenerated_calleeSaved r saved)

theorem collision_of_assignFunction (ok : (assignFunction Usage.queue (start.after a) globals f).error = none) :
    (extractStrings (start.after a) globals f.body).collision = none := by
  unfold assignFunction at ok
  dsimp only at ok
  cases collision : (extractStrings (start.after a) globals f.body).collision with
  | none => rfl
  | some label =>
    rw [collision] at ok
    cases ok

theorem noted_assignFunction (ok : (assignFunction Usage.queue (start.after a) globals f).error = none) (mine : ∀ j, a < j → own j)
    (known : ∀ x ∈ f.names, Known start own x a) (isGlobals : KnownGlobals start globals a) :
    ∃ b new g, assignFunction Usage.queue (start.after a) globals f = ⟨start.after b, globals ++ new, g, none⟩ ∧
      Orderly start own a (functionNotes (start.after a) globals f) b ∧
      (∀ s ∈ g.body, .writes s ∈ functionNotes (start.after a) globals f) ∧
      (∀ h ∈ globals ++ new, h ∈ globals ∨ .declares h ∈ functionNotes (start.after a) globals f) ∧
      (∀ x ∈ g.names, Known start own x b) ∧ KnownGlobals start (globals ++ new) b := by
  obtain ⟨moves, new, g, strings, l, assigns, done⟩ := assignFunction_spec ok
  obtain ⟨isName, inParams, inBody, _⟩ := Function.forall_names.1 known
  obtain ⟨made, length, first, inBody', declared⟩ := orderly_extractStrings (collision_of_assignFunction ok) inBody
  rw [assigns.extracts.declared] at length declared
  rw [assigns.extracts.code] at inBody'
  obtain rfl : made = new.length := by
    rw [List.length_append] at length
    omega
  have isGlobals' := knownGlobals_of_assigns assigns isGlobals
  have mine' : ∀ j, a + new.length < j → own j := fun j above => mine j (by omega)
  obtain ⟨moves', length', second⟩ := orderly_moveBody mine' inBody' (knownPlaces_withFrame assigns.places isGlobals')
  obtain rfl : moves' = moves := by
    have length := assigns.length
    rw [assigns.code, length', length_withStrings] at length
    omega
  have notes : functionNotes (start.after a) globals f = stringNotes (start.after a) f.body ++
      bodyNotes (start.after (a + new.length)) l.withFrame (withStrings strings f.body) := by
    unfold functionNotes
    dsimp only
    rw [assigns.extracts.declared, assigns.extracts.code, assigns.extracts.names, assigns.places]
  rw [notes]
  refine ⟨_, new, g, done, first.append second, ?_, ?_, ?_, ?_⟩
  · intro s member
    rw [assigns.code] at member
    exact List.mem_append_right _ (writes_moveBody member)
  · exact fun h member => (declared h member).imp_right (List.mem_append_left _)
  · have since := assigns.since.2
    have isUsed : ∀ x ∈ usedNames f.params (withStrings strings f.body), Known start own x (a + new.length) := by
      intro x used
      rcases List.mem_append.1 used with param | operand
      · obtain ⟨p, isParam, rfl⟩ := List.mem_map.1 param
        exact (inParams p isParam).mono first.le
      · obtain ⟨s, member, operand⟩ := List.mem_flatMap.1 operand
        exact inBody' s member x (List.mem_cons_of_mem _ (List.mem_append_left _ operand))
    have le := first.le
    rw [assigns.others]
    refine Function.forall_names.2 ⟨isName.mono (by omega), ?_, ?_, ?_⟩
    · exact fun p isParam => (inParams p isParam).mono (by omega)
    · intro s member x inStmt
      rw [assigns.code] at member
      exact second.known x (List.mem_flatMap.2 ⟨.writes s, writes_moveBody member, inStmt⟩)
    · rw [assigns.layout]
      rintro _ ⟨⟩
      exact known_final mine' assigns.places isGlobals' isUsed since.places since.slots
  · exact fun h member => (isGlobals' h member).mono (Nat.le_add_right _ _)

theorem noted_assignFunctions {fs : List Function} {old : Nat → Nat → Prop}
    (ok : (assignFunctions Usage.queue (start.after a) globals fs).error = none)
    (known : ∀ {i f}, fs[i]? = some f → ∀ x ∈ f.names, Known start (old i) x a)
    (isGlobals : KnownGlobals start globals a) (empty : ∀ f ∈ fs, f.external = true → f.body = []) :
    ∃ b more gs spans, assignFunctions Usage.queue (start.after a) globals fs = ⟨start.after b, more, gs, none⟩ ∧
      Orderly start (fun _ => True) a (functionsNotes (start.after a) globals fs) b ∧
      (∀ g ∈ gs, ∀ s ∈ g.body, .writes s ∈ functionsNotes (start.after a) globals fs) ∧
      (∀ h ∈ more, h ∈ globals ∨ .declares h ∈ functionsNotes (start.after a) globals fs) ∧
      Shares start old a b gs spans := by
  induction fs generalizing a globals old with
  | nil => exact ⟨a, globals, [], _, rfl, .nil, List.forall_mem_nil _, fun _ => .inl, .nil start old a⟩
  | cons f fs ih =>
    have ⟨noBody, empty⟩ := List.forall_mem_cons.1 empty
    have known' {i : Nat} {f' : Function} (found : fs[i]? = some f') := known (i := i + 1) (f := f') found
    have widen {b : Nat} {x : Name} (isKnown : Known start (old 0) x b) : Known start (fun n => old 0 n ∨ a < n) x b :=
      isKnown.imp fun _ _ => .inl
    rw [assignFunctions] at ok ⊢
    rw [functionsNotes]
    split
    · rename_i external
      rw [if_pos external] at ok
      obtain ⟨b, more, gs, spans, done, orderly, written, declared, shares⟩ := ih ok known' isGlobals empty
      have first (x : Name) (member : x ∈ f.names) := widen (known (i := 0) rfl x member)
      refine ⟨b, more, f :: gs, _, by rw [done], orderly, ?_, declared, .cons first (Nat.le_refl a) orderly.le shares⟩
      refine List.forall_mem_cons.2 ⟨?_, written⟩
      rw [noBody external]
      exact List.forall_mem_nil _
    · rename_i hasBody
      rw [if_neg hasBody] at ok
      cases failed : (assignFunction Usage.queue (start.after a) globals f).error with
      | some e =>
        dsimp only at ok
        rw [failed] at ok
        cases ok
      | none =>
        obtain ⟨b, new, g, processed, orderly, written, declared, first, isGlobals'⟩ :=
          noted_assignFunction failed (fun _ => .inr) (fun x member => widen (known (i := 0) rfl x member)) isGlobals
        dsimp only at ok ⊢
        rw [processed] at ok ⊢
        dsimp only at ok ⊢
        have le := orderly.le
        obtain ⟨c, more, gs, spans, done, orderly', written', declared', shares⟩ :=
          ih ok (fun found x member => (known' found x member).mono le) isGlobals' empty
        refine ⟨c, more, g :: gs, _, by rw [done], (orderly.imp fun _ _ _ => trivial).append orderly', ?_, ?_,
          .cons first le orderly'.le shares⟩
        · refine List.forall_mem_cons.2 ⟨fun s member => List.mem_append_left _ (written s member), ?_⟩
          exact fun g' inRest s member => List.mem_append_right _ (written' g' inRest s member)
        · intro h member
          rcases declared' h member with earlier | noted
          · exact (declared h earlier).imp_right (List.mem_append_left _)
          · exact .inr (List.mem_append_right _ noted)

end MiniC.Storage
