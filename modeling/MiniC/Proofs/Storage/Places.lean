import MiniC.Proofs.Storage.FrameSize
import MiniC.Proofs.Storage.Programs
import MiniC.Proofs.Storage.Slots

namespace MiniC.Storage

open Code

variable {queue : Queue Usage Usage.less}

theorem find?_of_mem {gs : List Global} {l l' : Layout} (ok : placeGlobals l gs = .ok l') {h : Global} (member : h ∈ gs) :
    (gs.find? fun g => g.name = h.name) = some h := by
  induction gs generalizing l with
  | nil => cases member
  | cons g gs ih =>
    rw [placeGlobals] at ok
    split at ok
    · cases ok
    · rcases List.mem_cons.1 member with rfl | inRest
      · exact List.find?_cons_of_pos (by simp)
      · have found := ih ok inRest
        have other : g.name ≠ h.name := by
          intro same
          have none := find?_of_placeGlobals (x := g.name) ok (by rw [Layout.get?_set_same]; simp)
          rw [same, found] at none
          cases none
        rw [List.find?_cons_of_neg (by simpa using other), found]

theorem mem_inputs_substitute {ins outs : Renaming} {action : Action} (here : action.isLocal = true) {x : Name}
    (member : x ∈ (action.substitute ins outs).inputs) : ∃ y ∈ action.inputs, x = ins.apply y := by
  cases action with
  | ret var =>
    by_cases empty : var = []
    · simp [Action.substitute, Action.inputs, empty] at member
    · simp only [Action.substitute, Action.inputs, empty, if_false] at member ⊢
      split at member
      · cases member
      · exact ⟨var, by simp, List.mem_singleton.1 member⟩
  | call | move => cases here
  | nop | store | jump => cases member
  | binary | unary | branch => simpa [Action.substitute, Action.inputs] using member

theorem Becomes.placed {l final : Layout} {action action' : Action} (becomes : Becomes l final action action')
    (later : Later l final) (placed : ∀ x ∈ action.inputs ++ action.outputs, l.get? x ≠ none) :
    ∀ x ∈ action'.inputs ++ action'.outputs, final.get? x ≠ none := by
  cases becomes with
  | load | unload => exact fun x never => by cases never
  | call => exact fun x operand => later.get?_ne_none (placed x operand)
  | other here reads writes =>
    intro x operand
    rcases List.mem_append.1 operand with input | output
    · obtain ⟨y, inAction, rfl⟩ := mem_inputs_substitute here input
      obtain ⟨r, found⟩ := reads y inAction (placed y (List.mem_append_left _ inAction))
      rw [found]
      simp
    · rw [Action.outputs_substitute here] at output
      obtain ⟨y, inAction, rfl⟩ := List.mem_map.1 output
      obtain ⟨r, found⟩ := writes y inAction (placed y (List.mem_append_right _ inAction))
      rw [found]
      simp

section

variable {start : Namer} {a moves : Nat} {globals new : List Global} {f g : Function} {strings : Nat → Name}
  {l final : Layout} (assigns : Assigns queue start a moves globals new f g strings l) (layout : g.layout = some final)

include assigns layout

theorem later_of_assigns : Later l.withFrame final := by
  rw [assigns.layout, Option.some.injEq] at layout
  rw [← layout]
  exact moveBody_later _ _ _

theorem get?_of_unmade {x : Name} (unmade : ∀ j, a + new.length < j → j ≤ a + new.length + moves →
    x ≠ start.made Name.scratch j) : final.get? x = l.withFrame.get? x := by
  rw [assigns.layout, Option.some.injEq] at layout
  rw [← layout]
  exact assigns.since.2.places x unmade

theorem becomes_of_plain (plain : ∀ s ∈ f.body, ∀ src dst, s.action ≠ .move src dst) {s : Stmt} (member : s ∈ g.body) :
    ∃ (i : Nat) (original : Stmt), f.body[i]? = some original ∧ (s.label = [] ∨ s.label = original.label) ∧
      (∀ x ∈ original.action.inputs ++ original.action.outputs, l.withFrame.get? x ≠ none) ∧
      Becomes l.withFrame final (symbolic (strings i) original.action) s.action := by
  rw [assigns.code] at member
  have stays : Later (moveBody (start.after (a + new.length)) l.withFrame (withStrings strings f.body)).layout
      final := by
    rw [assigns.layout, Option.some.injEq] at layout
    rw [layout]
    exact .refl final
  have noMove : ∀ stmt ∈ withStrings strings f.body, ∀ src dst, stmt.action ≠ .move src dst := by
    intro stmt inBody src dst isMove
    obtain ⟨i, original, isOriginal, rfl⟩ := mem_withStrings inBody
    exact plain original (List.mem_of_getElem? isOriginal) src dst (symbolic_eq_move.1 isMove)
  obtain ⟨stmt, inBody, label, becomes⟩ := moveBody_becomes noMove stays member
  have placed : ∀ x ∈ stmt.action.inputs ++ stmt.action.outputs, l.withFrame.get? x ≠ none :=
    fun x operand => get?_withFrame_ne_none assigns.places (mem_usedNames inBody operand)
  obtain ⟨i, original, isOriginal, rfl⟩ := mem_withStrings inBody
  refine ⟨i, original, isOriginal, label, ?_, becomes⟩
  simpa only [inputs_symbolic, outputs_symbolic] using placed

end

/-- The names that a function has seen: those of globals and its own. -/
def seenNames (globals : List Global) (f : Function) : List Name :=
  globals.map (·.name) ++ usedNames f.params f.body

/-- Places under the layout `l` of a function that was `f` when there were the globals `globals`, and whose body
is `body` now. Of the globals, those in `declared` are the program's own. -/
structure Settled (declared globals : List Global) (f : Function) (body : List Stmt) (l : Layout) : Prop where
  inMemory : ∀ h ∈ globals, (∀ param ∈ f.params, param.name ≠ h.name) →
    l.get? h.name = some (.memory h.name h.ty.size)
  inFrame : ∀ param ∈ f.params, ∃ offset, l.get? param.name = some (.stack offset slotSize)
  operands : ∀ s ∈ body, ∀ x ∈ s.action.inputs ++ s.action.outputs, l.get? x ≠ none
  locals : ∀ x ∈ seenNames globals f, ∀ r, l.get? x = some (.register r) → r ∈ Register.locals
  registers : ∀ x ∈ seenNames globals f, ∀ y ∈ seenNames globals f, ∀ r,
    l.get? x = some (.register r) → l.get? y = some (.register r) → x = y
  offsets : 8 * l.slots.length < 2 ^ 64 → ∀ x ∈ seenNames globals f, ∀ y ∈ seenNames globals f, ∀ offset size size',
    l.get? x = some (.stack offset size) → l.get? y = some (.stack offset size') → x = y
  scratch : ∀ x ∉ seenNames globals f, ∀ place, l.get? x = some place →
    (∃ n, x = Name.generated Name.scratch n) ∧ ∃ r ∈ Register.scratchPool, place = .register r
  unreserved : ∀ x r, l.get? x = some (.register r) → r ≠ .t0 ∧ r ∉ Register.args
  size : l.size = Int64.ofNat (16 + 8 * (frameNames declared f.params f.body).length)

example : Register.locals = [.s1, .s2, .s3, .s4, .s5, .s6, .s7, .s8, .s9, .s10, .s11] := by decide
example : Register.scratchPool = [.t2, .t3, .t4, .t5, .t6] := by decide
example : [Ty.char, Ty.int, Ty.string].map Ty.size = [1, 8, 8] := by decide

section

variable {globals : List Global} {params : List Param} {body : List Stmt} {l : Layout} {x : Name}

theorem inFrame_of_param (ok : place queue globals params body = .ok l) (isParam : x ∈ params.map (·.name)) :
    ∃ offset, l.withFrame.get? x = some (.stack offset slotSize) := by
  obtain ⟨_, _, sized, _⟩ := get?_place ok
  have isParam' : params.any fun p => p.name = x := by simpa using isParam
  rw [Layout.get?_withFrame sized]
  cases placed ok x with
  | param _ place => exact ⟨_, by rw [place]⟩
  | global noParam | register noParam | frame noParam => exact absurd isParam' noParam
  | unused _ notUsed => exact absurd (List.mem_append_left _ isParam) notUsed

theorem get?_withFrame_local (ok : place queue globals params body = .ok l) (noGlobal : x ∉ globals.map (·.name))
    (used : x ∈ usedNames params body) : (∃ r ∈ Register.locals, l.withFrame.get? x = some (.register r)) ∨
      ∃ offset, l.withFrame.get? x = some (.stack offset slotSize) := by
  obtain ⟨_, _, sized, _⟩ := get?_place ok
  rw [Layout.get?_withFrame sized]
  cases placed ok x with
  | param _ place | frame _ _ place => exact .inr ⟨_, by rw [place]⟩
  | register _ _ free place => exact .inl ⟨_, free, by rw [place]⟩
  | global _ found _ =>
    obtain rfl : _ = x := by simpa using List.find?_some found
    exact absurd (List.mem_map_of_mem (List.mem_of_find?_eq_some found)) noGlobal
  | unused _ notUsed => exact absurd used notUsed

theorem get?_withFrame_unseen (ok : place queue globals params body = .ok l) (noGlobal : x ∉ globals.map (·.name))
    (unused : x ∉ usedNames params body) :
    l.withFrame.get? x = none := by
  obtain ⟨_, _, sized, _⟩ := get?_place ok
  have nowhere : l.get? x = none := by
    -- a place outside memory takes a slot, and only names in use do
    have noSlot : ¬ ∃ place, Layout.needsSlot place = true ∧ l.get? x = some place := by
      rw [needsSlot_iff ok, frameNames, List.mem_dedup]
      intro member
      exact unused ((List.mem_append.1 member).elim (List.mem_append_left _)
        fun operand => List.mem_append_right _ (List.mem_filter.1 operand).1)
    cases placed ok x with
    | param _ place | frame _ _ place | register _ _ _ place => exact absurd ⟨_, rfl, place⟩ noSlot
    | global _ found _ =>
      obtain rfl : _ = x := by simpa using List.find?_some found
      exact absurd (List.mem_map_of_mem (List.mem_of_find?_eq_some found)) noGlobal
    | unused _ _ none => exact none
  rw [Layout.get?_withFrame sized, nowhere]

end

section

variable {start : Namer} {a moves total : Nat} {declared earlier new : List Global} {f g : Function}
  {strings : Nat → Name} {l final : Layout} (assigns : Assigns queue start a moves (declared ++ earlier) new f g strings l)
  (bound : a + new.length + moves ≤ total)
  (old : ∀ x ∈ usedNames f.params f.body, ∀ j, 0 < j → j ≤ total →
    x ≠ start.made Name.scratch j ∧ x ≠ start.made Name.string j)
  (added : ∀ h ∈ earlier, ∃ j, 0 < j ∧ j ≤ total ∧ h.name = start.made Name.string j)

include assigns bound old added

variable (layout : g.layout = some final)
  (kept : ∀ h ∈ declared, ∀ j, 0 < j → j ≤ total → h.name ≠ start.made Name.scratch j)

include layout kept

end

end MiniC.Storage

namespace MiniC.Code.Program

open Storage

variable {p q : Program} {i : Nat} {f : Function}

end MiniC.Code.Program
