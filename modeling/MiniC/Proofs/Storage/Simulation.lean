import MiniC.Proofs.Storage.Bodies

namespace MiniC.Storage

open Code

/-- A body whose string constants are kept in the globals `strings`, one for each statement. -/
def withStrings (strings : Nat → Name) (body : List Stmt) : List Stmt :=
  body.mapIdx fun i stmt => { stmt with action := symbolic (strings i) stmt.action }

variable {l : Layout} {sizes : Name → Option Int64} {names : List Name} {callees : Callees} {s : Named}
  {t : Store} {strings : Nat → Name} {stmt : Stmt} {label : Name} {b : Block Stmt}

section

variable {places : Name → Option Location} {pairs : List (Location × Register)} {k : Nat}

theorem quiet_moves {part : List Stmt} {move : Location × Register → Action}
    (moves : part.map Stmt.action = pairs.map move) (isMove : ∀ p, ∃ src dst, move p = .move src dst) :
    ∀ instr ∈ part, (Store.setting callees places).language.Quiet instr := by
  intro instr member
  have action : instr.action ∈ pairs.map move := by
    rw [← moves]
    exact List.mem_map_of_mem member
  obtain ⟨p, _, same⟩ := List.mem_map.1 action
  obtain ⟨src, dst, isMove⟩ := isMove p
  exact quiet_move (same.symm.trans isMove)

theorem flows_unload_nonempty (somewhere : ∀ p ∈ pairs, p.1 ≠ .nowhere) :
    ((Store.setting callees places).language.flows k (pairs.map fun p => .plain (unload p)) t).Nonempty := by
  induction pairs generalizing k t with
  | nil => exact ⟨t, rfl⟩
  | cons p pairs ih =>
    obtain ⟨place, r⟩ := p
    have moved : ∃ t', t.put (t.regs r) place = some t' := by
      cases place with
      | nowhere => exact absurd rfl (somewhere _ (List.mem_cons_self ..))
      | _ => exact ⟨_, rfl⟩
    obtain ⟨t', moved⟩ := moved
    obtain ⟨t'', rest⟩ := ih (k := k + 1) (t := t') fun p member => somewhere p (List.mem_cons_of_mem _ member)
    refine ⟨t'', t', ?_, rest⟩
    have isMove : (Stmt.plain (unload (place, r))).action = .move (.register r) place := rfl
    rw [nexts_move isMove]
    exact moved

end

namespace StmtBlock

theorem marks {action : Action} (block : StmtBlock l { stmt with action } b) :
    Language.Marks (Named.setting sizes callees strings).language (Store.setting callees l.get?).language stmt b := by
  cases block with
  | call calls => exact ⟨rfl, fun other member => by cases member⟩
  | @moved ins outs places places' before main _ _ _ _ _ _ first others =>
    have behind : ∀ other ∈ places'.map (fun p => Stmt.plain (unload p)), other.label = [] := by
      intro other member
      obtain ⟨p, _, rfl⟩ := List.mem_map.1 member
      rfl
    cases before with
    | nil => exact ⟨first main rfl, behind⟩
    | cons head before =>
      refine ⟨first head rfl, fun other member => ?_⟩
      rcases List.mem_append.1 member with inBefore | rest
      · exact others other (List.mem_append_left _ inBefore)
      · rcases List.mem_cons.1 rest with rfl | after
        · exact others _ (List.mem_append_right _ (List.mem_singleton.2 rfl))
        · exact behind other after

theorem calm (block : StmtBlock l stmt b) (housed : Housed l sizes names)
    (used : ∀ x ∈ stmt.action.outputs, x ∈ names) : b.Calm (Store.setting callees l.get?).language := by
  cases block with
  | call calls =>
    have nothing : ∀ {p : Stmt → Prop}, ∀ instr ∈ ([] : List Stmt), p instr := fun _ member => by cases member
    exact ⟨nothing, nothing, fun _ t => ⟨t, rfl⟩⟩
  | @moved ins outs places places' before main _ _ writes _ moves _ _ _ =>
    have unloads : (places'.map fun p => Stmt.plain (unload p)).map Stmt.action = places'.map unload := by
      simp [Stmt.plain]
    refine ⟨quiet_moves moves fun p => ⟨p.1, .register p.2, rfl⟩,
      quiet_moves unloads fun p => ⟨.register p.2, p.1, rfl⟩, fun k t => ?_⟩
    apply flows_unload_nonempty
    rintro ⟨place, r⟩ member nowhere
    obtain ⟨_, x, written, found⟩ := writes.source member
    rw [show place = .nowhere from nowhere] at found
    rcases housed.cases (used x written) with ⟨_, _, found'⟩ | ⟨_, ⟨_, _, found'⟩ | ⟨_, found'⟩⟩ <;>
      rw [found] at found' <;> cases found'

theorem follows {i k : Nat} (block : StmtBlock l { stmt with action := symbolic (strings i) stmt.action } b)
    (housed : Housed l sizes names)
    (used : ∀ x ∈ stmt.action.inputs ++ stmt.action.outputs, x ∈ names) (plain : isNamed stmt.action = true)
    (kept : ∀ dest text, stmt.action = .store dest (some (.str text)) →
      ∃ size, l.get? (strings i) = some (.memory (strings i) size)) :
    Language.Follows (Named.setting sizes callees strings).language (Store.setting callees l.get?).language
      (Agrees l sizes names) (LeavesAlike l sizes names) i stmt k b := by
  cases block with
  | @call callee args result calls =>
    have original : stmt.action = .call callee args result := by
      obtain ⟨_, action⟩ := stmt
      unfold symbolic at calls
      split at calls
      · cases calls
      · exact calls
    exact call_follows housed used original calls
  | moved here reads writes few moves main first others =>
    rw [isLocal_symbolic] at here
    rw [inputs_symbolic] at reads
    rw [outputs_symbolic] at writes
    exact moved_follows housed used plain kept here reads writes few moves main

end StmtBlock

theorem simulates {body : List Stmt} {blocks : List (Block Stmt)} (housed : Housed l sizes names)
    (used : ∀ stmt ∈ body, ∀ x ∈ stmt.action.inputs ++ stmt.action.outputs, x ∈ names)
    (plain : ∀ stmt ∈ body, isNamed stmt.action = true)
    (kept : ∀ {i label dest text}, body[i]? = some ⟨label, .store dest (some (.str text))⟩ →
      ∃ size, l.get? (strings i) = some (.memory (strings i) size))
    (areBlocks : List.Forall₂ (StmtBlock l) (withStrings strings body) blocks) :
    Language.Simulates (Named.setting sizes callees strings).language (Store.setting callees l.get?).language
      body blocks (Agrees l sizes names) (LeavesAlike l sizes names) := by
  have length := areBlocks.length_eq
  rw [withStrings, List.length_mapIdx] at length
  refine .of_each length fun {i stmt b} at_ block_at => ?_
  have block : StmtBlock l { stmt with action := symbolic (strings i) stmt.action } b := by
    obtain ⟨inside, rfl⟩ := List.getElem?_eq_some_iff.1 at_
    obtain ⟨inside', rfl⟩ := List.getElem?_eq_some_iff.1 block_at
    have related := areBlocks.get (i := i) (by rw [withStrings, List.length_mapIdx]; exact inside) inside'
    simpa [withStrings] using related
  have member := List.mem_of_getElem? at_
  refine ⟨?_, ?_, ?_⟩
  · exact block.marks
  · refine block.calm housed fun x written => ?_
    rw [outputs_symbolic] at written
    exact used stmt member x (List.mem_append_right _ written)
  · exact block.follows housed (used stmt member) (plain stmt member)
      fun dest text isStore => kept (at_.trans (by rw [← isStore]))

end MiniC.Storage
