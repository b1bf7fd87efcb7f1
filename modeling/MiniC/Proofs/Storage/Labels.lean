import MiniC.Proofs.Lowering.Writing
import MiniC.Proofs.Storage.Settling

namespace MiniC.Storage

open Code

variable {action : Action} {globals : List Global}

/-- Code that has the labels and the calls of a body and jumps where the body jumps. What does nothing is in the body. -/
structure Keeps (body code : List Stmt) : Prop where
  labels : labels code = labels body
  targets : ∀ s ∈ code, ∀ t, s.action.target? = some t → ∃ original ∈ body, original.action.target? = some t
  idle : ∀ s ∈ code, s.action = .nop → s ∈ body
  calls : ∀ s callee args result, s.action = .call callee args result → (s ∈ code ↔ s ∈ body)

namespace Keeps

variable {body code first second first' second' : List Stmt}

theorem refl (body : List Stmt) : Keeps body body :=
  ⟨rfl, fun s member _ isTarget => ⟨s, member, isTarget⟩, fun _ member _ => member, fun _ _ _ _ _ => .rfl⟩

theorem trans (left : Keeps body first) (right : Keeps first second) : Keeps body second := by
  refine ⟨right.labels.trans left.labels, ?_, ?_, ?_⟩
  · intro s member t isTarget
    obtain ⟨s', member', isTarget'⟩ := right.targets s member t isTarget
    exact left.targets s' member' t isTarget'
  · exact fun s member idle => left.idle s (right.idle s member idle) idle
  · exact fun s _ _ _ isCall => (right.calls s _ _ _ isCall).trans (left.calls s _ _ _ isCall)

theorem append (left : Keeps first first') (right : Keeps second second') : Keeps (first ++ second) (first' ++ second') := by
  refine ⟨by rw [labels_append, labels_append, left.labels, right.labels], ?_, ?_, ?_⟩
  · intro s member t isTarget
    rcases List.mem_append.1 member with inFirst | inSecond
    · obtain ⟨original, inside, same⟩ := left.targets s inFirst t isTarget
      exact ⟨original, List.mem_append_left _ inside, same⟩
    · obtain ⟨original, inside, same⟩ := right.targets s inSecond t isTarget
      exact ⟨original, List.mem_append_right _ inside, same⟩
  · intro s member idle
    rcases List.mem_append.1 member with inFirst | inSecond
    · exact List.mem_append_left _ (left.idle s inFirst idle)
    · exact List.mem_append_right _ (right.idle s inSecond idle)
  · intro s callee args result isCall
    rw [List.mem_append, List.mem_append, left.calls s _ _ _ isCall, right.calls s _ _ _ isCall]

end Keeps

@[simp] theorem target?_substitute (ins outs : Renaming) (action : Action) :
    (action.substitute ins outs).target? = action.target? := by
  cases action <;> rfl

theorem substitute_eq_nop {ins outs : Renaming} (same : action.substitute ins outs = .nop) : action = .nop := by
  cases action <;> cases same
  rfl

theorem substitute_eq_call {ins outs : Renaming} {callee result : Name} {args : List Name}
    (same : action.substitute ins outs = .call callee args result) : ∃ args' result', action = .call callee args' result' := by
  cases action <;> cases same
  exact ⟨_, _, rfl⟩

theorem labels_movedBlock (stmt : Stmt) (ins outs : Loan) : labels (movedBlock stmt ins outs).code = labels [stmt] := by
  have plain : ∀ (moves : List (Location × Register)) (action : Location × Register → Action),
      labels (moves.map fun p => Stmt.plain (action p)) = [] := by
    intro moves action
    apply labels_eq_nil
    intro s member
    obtain ⟨p, _, rfl⟩ := List.mem_map.1 member
    rfl
  have none := plain ins.places load
  have none' := plain outs.places unload
  unfold movedBlock
  dsimp only
  split
  · rw [Block.code, List.nil_append, labels_cons, none', List.append_nil]
    rfl
  · rename_i first more before
    rw [before, labels_cons, List.append_eq_nil_iff] at none
    have moved : labels [first.withLabel stmt.label] = labels [stmt] := rfl
    have core : labels [(stmt.substitute ins.lent outs.lent).withLabel []] = [] := rfl
    rw [Block.code, labels_append, labels_cons, labels_cons (Stmt.withLabel _ []), moved, core, none.2, none']
    simp

theorem keeps_moveStmt (names : Namer) (l : Layout) (stmt : Stmt) : Keeps [stmt] (moveStmt names l stmt).code := by
  by_cases here : stmt.action.isLocal = true
  · rw [moveStmt_of_isLocal names l here]
    dsimp only
    refine ⟨labels_movedBlock _ _ _, ?_, ?_, ?_⟩
    · intro s member t isTarget
      obtain ⟨_, ⟨p, _, isLoad⟩ | isCore | ⟨p, _, isUnload⟩⟩ := mem_movedBlock member
      · rw [isLoad] at isTarget
        cases isTarget
      · rw [isCore, target?_substitute] at isTarget
        exact ⟨stmt, List.mem_singleton_self _, isTarget⟩
      · rw [isUnload] at isTarget
        cases isTarget
    · intro s member idle
      obtain ⟨_, ⟨p, _, isLoad⟩ | isCore | ⟨p, _, isUnload⟩⟩ := mem_movedBlock member
      · cases isLoad.symm.trans idle
      · obtain ⟨label, action⟩ := stmt
        obtain rfl : action = .nop := substitute_eq_nop (isCore.symm.trans idle)
        exact member
      · cases isUnload.symm.trans idle
    · intro s callee args result isCall
      constructor
      · intro member
        obtain ⟨_, ⟨p, _, isLoad⟩ | isCore | ⟨p, _, isUnload⟩⟩ := mem_movedBlock member
        · cases isLoad.symm.trans isCall
        · obtain ⟨_, _, original⟩ := substitute_eq_call (isCore.symm.trans isCall)
          rw [original] at here
          cases here
        · cases isUnload.symm.trans isCall
      · intro member
        rw [← List.mem_singleton.1 member, isCall] at here
        cases here
  · obtain ⟨label, action⟩ := stmt
    cases action with
    | call | move => exact .refl _
    | _ => exact absurd rfl here

theorem keeps_moveBody (names : Namer) (l : Layout) (body : List Stmt) : Keeps body (moveBody names l body).code := by
  induction body generalizing names l with
  | nil => exact .refl []
  | cons s body ih => exact (keeps_moveStmt names l s).append (ih _ _)

theorem symbolic_eq_nop {label : Name} (same : symbolic label action = .nop) : action = .nop := by
  unfold symbolic at same
  split at same
  · cases same
  · exact same

theorem symbolic_eq_call {label : Name} {callee result : Name} {args : List Name} :
    symbolic label action = .call callee args result ↔ action = .call callee args result := by
  unfold symbolic
  split
  · exact ⟨nofun, nofun⟩
  · exact .rfl

theorem target?_symbolic (label : Name) (action : Action) : (symbolic label action).target? = action.target? := by
  unfold symbolic
  split <;> rfl

theorem keeps_withStrings (strings : Nat → Name) (body : List Stmt) : Keeps body (withStrings strings body) := by
  refine ⟨?_, ?_, ?_, ?_⟩
  · have same : (withStrings strings body).map Stmt.label = body.map Stmt.label := by
      apply List.ext_getElem <;> simp [withStrings]
    rw [labels, labels, same]
  · intro s member t isTarget
    obtain ⟨i, original, inBody, rfl⟩ := mem_withStrings member
    exact ⟨original, List.mem_of_getElem? inBody, by rwa [← target?_symbolic (strings i)]⟩
  · intro s member idle
    obtain ⟨i, original, inBody, rfl⟩ := mem_withStrings member
    obtain ⟨label, action⟩ := original
    obtain rfl : action = .nop := symbolic_eq_nop idle
    exact List.mem_of_getElem? inBody
  · intro s callee args result isCall
    constructor
    · intro member
      obtain ⟨i, ⟨label, action⟩, inBody, rfl⟩ := mem_withStrings member
      obtain rfl := symbolic_eq_call.1 isCall
      exact List.mem_of_getElem? inBody
    · intro member
      obtain ⟨i, inside, rfl⟩ := List.mem_iff_getElem.1 member
      refine List.mem_mapIdx.2 ⟨i, inside, ?_⟩
      rw [symbolic_eq_call.2 isCall, ← isCall]

/-- A function to which storage is assigned, with the globals that were declared and those that there are in the end,
or an external one as it was. -/
def AssignsTo (declared globals : List Global) (f g : Function) : Prop :=
  (f.external = true ∧ g = f) ∨ f.external = false ∧ ∃ start a moves earlier new later strings l,
    globals = declared ++ earlier ++ new ++ later ∧ Assigns Usage.queue start a moves (declared ++ earlier) new f g strings l

theorem AssignsTo.mono {declared more : List Global} {f g : Function}
    (assigns : AssignsTo (declared ++ more) globals f g) : AssignsTo declared globals f g := by
  refine assigns.imp_right (And.imp_right ?_)
  rintro ⟨start, a, moves, earlier, new, later, strings, l, final, assigns⟩
  rw [List.append_assoc declared] at final assigns
  exact ⟨start, a, moves, more ++ earlier, new, later, strings, l, final, assigns⟩

theorem assignFunctions_each {names : Namer} {fs : List Function}
    (ok : (assignFunctions Usage.queue names globals fs).error = none) :
    (∃ new, (assignFunctions Usage.queue names globals fs).globals = globals ++ new) ∧
      List.Forall₂ (AssignsTo globals (assignFunctions Usage.queue names globals fs).globals) fs
        (assignFunctions Usage.queue names globals fs).result := by
  induction fs generalizing names globals with
  | nil => exact ⟨⟨[], (List.append_nil _).symm⟩, .nil⟩
  | cons f fs ih =>
    rw [assignFunctions] at ok ⊢
    split
    · rename_i external
      rw [if_pos external] at ok
      obtain ⟨more, others⟩ := ih ok
      exact ⟨more, .cons (.inl ⟨external, rfl⟩) others⟩
    · rename_i hasBody
      rw [if_neg hasBody] at ok
      dsimp only at ok ⊢
      split
      · rename_i e failed
        rw [failed] at ok
        cases ok
      · rename_i done
        rw [done] at ok
        rw [← Namer.after_zero names] at done
        obtain ⟨moves, new, g, strings, l, assigns, same⟩ := assignFunction_spec done
        rw [Namer.after_zero] at same
        rw [same] at ok ⊢
        dsimp only at ok ⊢
        obtain ⟨⟨later, final⟩, others⟩ := ih ok
        refine ⟨⟨new ++ later, by rw [final, List.append_assoc]⟩, .cons (.inr ⟨by simpa using hasBody, ?_⟩) ?_⟩
        · rw [← List.append_nil globals] at assigns
          exact ⟨_, _, _, [], new, later, _, _, by rw [final, List.append_nil], assigns⟩
        · exact others.imp fun _ _ assignsTo => assignsTo.mono

theorem keeps_of_assignsTo {declared : List Global} {f g : Function} (assigns : AssignsTo declared globals f g) :
    g.name = f.name ∧ g.params = f.params ∧ g.external = f.external ∧ Keeps f.body g.body := by
  rcases assigns with ⟨_, rfl⟩ | ⟨_, start, a, moves, earlier, new, later, strings, l, _, assigns⟩
  · exact ⟨rfl, rfl, rfl, .refl _⟩
  · refine ⟨?_, ?_, ?_, ?_⟩
    · rw [assigns.others]
    · rw [assigns.others]
    · rw [assigns.others]
    · rw [assigns.code]
      exact (keeps_withStrings strings f.body).trans (keeps_moveBody _ _ _)

theorem names_of_assignsTo {declared : List Global} {fs gs : List Function}
    (assigns : List.Forall₂ (AssignsTo declared globals) fs gs) : gs.map (·.name) = fs.map (·.name) := by
  induction assigns with
  | nil => rfl
  | cons here _ ih => rw [List.map_cons, List.map_cons, ih, (keeps_of_assignsTo here).1]

theorem assignsTo_of_assign {p q : Program} (assigned : p.assign = ⟨q, none⟩) :
    List.Forall₂ (AssignsTo p.globals q.globals) p.functions q.functions := by
  unfold Program.assign Program.assignBy at assigned
  rw [Assigned.mk.injEq] at assigned
  obtain ⟨rfl, ok⟩ := assigned
  exact (assignFunctions_each ok).2

end MiniC.Storage
