import MiniC.Proofs.Emission.Frames
import MiniC.Proofs.Emission.Pieces
import MiniC.Proofs.Emission.Statements

namespace MiniC.Assembly

open Code Storage

variable {lines : List Line}

def Instr.IsInner (exit : Name) : Instr → Prop
  | .jumpRegister _ => False
  | .branch _ _ target => target ≠ exit
  | _ => True

theorem Instr.isInner_of_isData (exit : Name) {i : Instr} (data : i.isData = true) : i.IsInner exit := by
  cases i with
  | jumpRegister | branch => cases data
  | _ => trivial

variable {p : Program} {l : Layout} {exit : Name}

theorem isData_of_store {scope : Scope} {dest : Name} {value : Option Value} {code : List Instr}
    (emitted : store scope dest value = .ok code) : ∀ i ∈ code, i.isData = true := by
  refine forall_of_pieces (a := .store dest value) emitted fun piece => ?_
  cases piece with
  | move moved => exact isData_of_move moved
  | constant => exact List.forall_mem_singleton.2 rfl
  | binary _ computed => exact isData_of_binary computed
  | unary _ computed => exact isData_of_unary computed
  | jump jumps => rcases jumps with never | ⟨_, never, _⟩ <;> cases never
  | branch never | call never => cases never

theorem isInner_of_action {a : Action} {code : List Instr} (emitted : action (scopeOf p l exit) a = .ok code)
    (settled : Settled p l exit a) : ∀ i ∈ code, i.IsInner exit := by
  have ofData : ∀ {piece : List Instr}, (∀ i ∈ piece, i.isData = true) → ∀ i ∈ piece, i.IsInner exit :=
    fun data i member => Instr.isInner_of_isData exit (data i member)
  refine forall_of_pieces emitted fun piece => ?_
  cases piece with
  | move moved => exact ofData (isData_of_move moved)
  | binary _ computed => exact ofData (isData_of_binary computed)
  | unary _ computed => exact ofData (isData_of_unary computed)
  | branch branches =>
    subst branches
    exact List.forall_mem_singleton.2 settled
  | constant | jump | call => exact List.forall_mem_singleton.2 trivial

theorem exitLabel_ne_nil (g : Function) : g.exitLabel ≠ [] :=
  List.append_ne_nil_of_left_ne_nil (by decide) _

structure Prepared (p : Program) (g : Function) (l : Layout) : Prop where
  resolves : Resolves p l g.exitLabel
  aligned : Aligned l
  saves : ∀ slot ∈ l.slots, ∀ r, slot.saves = some r → r ∈ Register.calleeSaved
  labels : ∀ s ∈ g.body, s.label ≠ g.exitLabel
  settled : ∀ s ∈ g.body, Settled p l g.exitLabel s.action

def Line.IsInner (exit : Name) (line : Line) : Prop :=
  (∃ name, name ≠ exit ∧ line = .label name) ∨ ∃ i : Instr, i.IsInner exit ∧ line = .instr i

theorem isInner_of_stmt {s : Stmt} (emitted : stmt (scopeOf p l exit) s = .ok lines)
    (other : s.label ≠ exit) (settled : Settled p l exit s.action) : ∀ line ∈ lines, line.IsInner exit := by
  unfold stmt at emitted
  obtain ⟨code, inside, done⟩ := bind_eq_ok.1 emitted
  cases done
  intro line member
  rcases List.mem_append.1 member with label | instr
  · split at label
    · cases label
    · exact .inl ⟨s.label, other, List.mem_singleton.1 label⟩
  · obtain ⟨i, inCode, rfl⟩ := List.mem_map.1 instr
    exact .inr ⟨i, isInner_of_action (within_eq_ok.1 inside) settled i inCode, rfl⟩

theorem realized_stmts {body : List Stmt} (emitted : stmts (scopeOf p l exit) body = .ok lines)
    (resolves : Resolves p l exit) (aligned : Aligned l) (labels : ∀ s ∈ body, s.label ≠ exit)
    (settled : ∀ s ∈ body, Settled p l exit s.action) :
    (∀ line ∈ lines, line.IsInner exit) ∧ ∃ blocks, Language.joined blocks = lines ∧
      List.Forall₂ (fun s b => stmt (scopeOf p l exit) s = .ok b.code ∧
        ∀ (host : Host p) (base : Word), host.Clear l base → Realizes host l exit base s b) body blocks := by
  induction body generalizing lines with
  | nil =>
    cases emitted
    exact ⟨by simp, [], rfl, .nil⟩
  | cons s body ih =>
    obtain ⟨first, here, emitted⟩ := bind_eq_ok.1 emitted
    obtain ⟨rest, there, done⟩ := bind_eq_ok.1 emitted
    cases done
    obtain ⟨inner, blocks, joined, realized⟩ := ih there (fun other member => labels other (List.mem_cons_of_mem _ member))
      (fun other member => settled other (List.mem_cons_of_mem _ member))
    obtain ⟨b, rfl, realizes⟩ := realized_stmt here resolves aligned (settled s (by simp))
    refine ⟨?_, b :: blocks, by rw [Language.joined_cons, joined], .cons ⟨here, realizes⟩ realized⟩
    intro line member
    rcases List.mem_append.1 member with inFirst | inRest
    · exact isInner_of_stmt here (labels s (by simp)) (settled s (by simp)) line inFirst
    · exact inner line inRest

theorem simulates_of_realizes {host : Host p} {base : Word} {body : List Stmt} {blocks : List (Block Line)}
    (realized : List.Forall₂ (Realizes host l exit base) body blocks) :
    Language.Simulates (onPlaces host l exit).language (ofBody host l exit) body blocks (Holds host l base)
      (LeavesWith host l base) := by
  refine .of_each realized.length_eq fun {i s b} at_ block_at => ?_
  obtain ⟨inside, rfl⟩ := List.getElem?_eq_some_iff.1 at_
  obtain ⟨inside', rfl⟩ := List.getElem?_eq_some_iff.1 block_at
  have realizes := (List.forall₂_iff_get.1 realized).2 i inside inside'
  exact ⟨realizes.marks, realizes.calm, realizes.follows i _⟩

theorem encloses {host : Host p} (named : exit ≠ []) (inner : ∀ line ∈ lines, line.IsInner exit)
    (params : List Param) :
    (host.language l exit).Encloses exit ((entering l params).map .instr) lines (lastLines l exit) where
  named := named
  entering line member := by
    obtain ⟨i, _, rfl⟩ := List.mem_map.1 member
    rfl
  inner line member := by
    rcases inner line member with ⟨name, other, rfl⟩ | ⟨i, _, rfl⟩
    · exact other
    · exact named.symm
  leaving := by
    rw [Language.labelled, if_neg named, lastLines, List.findIdx?_cons]
    simp [Host.language, Line.mark]
  others line member := by
    rcases List.mem_cons.1 member with rfl | other
    · exact .inr rfl
    · obtain ⟨i, _, rfl⟩ := List.mem_map.1 other
      exact .inl rfl
  uniform acts := acts
  stays {line} member i m events value m' acts := by
    rcases inner line member with ⟨name, _, rfl⟩ | ⟨i, isInner, rfl⟩
    · cases acts
    · cases acts
      exact isInner
  unseen {line} member i m events m' acts := by
    rcases inner line member with ⟨name, _, rfl⟩ | ⟨i, isInner, rfl⟩
    · cases acts
    · cases i with
      | jump target =>
        obtain ⟨seen, same, _⟩ := jump_cases acts
        cases same
        rw [seen, if_pos rfl]
      | branch condition r target =>
        cases acts
        exact absurd rfl isInner
      | _ => cases acts

theorem function_cases {g : Function} (emitted : function p g = .ok lines) :
    ∃ l body, g.layout = some l ∧ g.params.length ≤ maxArgs ∧ stmts (scopeOf p l g.exitLabel) g.body = .ok body ∧
      lines = [Line.blank, .label g.name] ++
        ((entering l g.params).map Line.instr ++ (body ++ lastLines l g.exitLabel)) := by
  unfold function at emitted
  split at emitted
  · cases emitted
  · rename_i l layout
    split at emitted
    · cases emitted
    · split at emitted
      · cases emitted
      · rename_i few
        obtain ⟨body, inside, done⟩ := bind_eq_ok.1 emitted
        cases done
        refine ⟨l, body, layout, by omega, inside, ?_⟩
        simp [entering, lastLines, leaving]

/-- A function on places and its code end together: the result is in its register, and the globals hold
the same. -/
def ReturnAlike (host : Host p) (out : Outcome × Store) (out' : Outcome × Machine) : Prop :=
  out'.1 = .returned none ∧ (∀ w, out.1 = .returned (some w) → out'.2.get resultRegister = w) ∧
    host.cells out'.2.memory = out.2.cells

theorem returnAlike_of_final {host : Host p} {base : Word}
    (saves : ∀ slot ∈ l.slots, ∀ r, slot.saves = some r → r ∈ Register.calleeSaved) {out : Outcome × Store}
    {middle : Outcome × Machine} (final : Language.Final (Holds host l base) (LeavesWith host l base) out middle) :
    ReturnAlike host out (.returned none, afterAll host.symbols middle.2 (leaving l)) := by
  have keeps : ∀ m : Machine, _ := @leaving_keeps p host l saves
  cases final with
  | @fell t m holds =>
    refine ⟨rfl, by simp, ?_⟩
    rw [(keeps m).2]
    exact holds.cells
  | @returned t m v v' left =>
    obtain ⟨_, gives, holds⟩ := left
    refine ⟨rfl, fun w given => ?_, ?_⟩
    · rw [(keeps m).1]
      exact gives w (by cases given; rfl)
    · rw [(keeps m).2]
      exact holds.cells

theorem Prepared.runs {g : Function} {body : List Line} {blocks : List (Block Line)} (prepared : Prepared p g l)
    (inner : ∀ line ∈ body, line.IsInner g.exitLabel) (joined : Language.joined blocks = body) {host : Host p}
    {base : Word} {t : Store} {m : Machine} (realized : List.Forall₂ (Realizes host l g.exitLabel base) g.body blocks)
    (holds : Holds host l base t (afterAll host.symbols m (entering l g.params))) :
    (onPlaces host l g.exitLabel).language.Traces g.body t =
        (host.language l g.exitLabel).Traces
          ((entering l g.params).map .instr ++ (body ++ lastLines l g.exitLabel)) m ∧
      ∀ events, Matches (ReturnAlike host) ((onPlaces host l g.exitLabel).language.Outcomes g.body t events)
        ((host.language l g.exitLabel).Outcomes
          ((entering l g.params).map .instr ++ (body ++ lastLines l g.exitLabel)) m events) := by
  have simulates := simulates_of_realizes realized
  have enclosed : (host.language l g.exitLabel).Encloses _ _ body _ := encloses (exitLabel_ne_nil g) inner g.params
  have quiet : ∀ line ∈ (entering l g.params).map Line.instr, (host.language l g.exitLabel).Quiet line := by
    intro line member
    obtain ⟨i, inside, rfl⟩ := List.mem_map.1 member
    exact quiet_data (isData_of_entering l g.params i inside)
  have enters : (host.language l g.exitLabel).flows 0 _ m = _ := flows_data (isData_of_entering l g.params) 0 m
  constructor
  · rw [simulates.traces holds, joined]
    exact enclosed.traces finishes quiet enters
  · intro events
    have inside := simulates.runs holds events
    rw [joined] at inside
    refine (inside.trans (enclosed.outcomes finishes quiet enters events)).mono ?_
    rintro out _ out' _ ⟨middle, final, rfl⟩
    exact returnAlike_of_final prepared.saves final

end MiniC.Assembly
