import MiniC.Proofs.Emission.Calls

namespace MiniC.Assembly

open Code Storage

variable {scope : Scope} {a : Action} {code : List Instr}

inductive Gives (scope : Scope) (a : Action) : Location → Prop
  | place {x : Name} {place : Location} (found : scope.resolve x = .ok place) : Gives scope a place
  | temporary : Gives scope a (.register .temporary)
  | result : Gives scope a (.register resultRegister)
  | own {src dst : Location} (isMove : a = .move src dst) : Gives scope a src

inductive Gets (scope : Scope) (a : Action) : Location → Prop
  | place {x : Name} {place : Location} (found : scope.resolve x = .ok place) : Gets scope a place
  | arg {r : Register} (isArg : r ∈ Register.args) : Gets scope a (.register r)
  | own {src dst : Location} (isMove : a = .move src dst) : Gets scope a dst

inductive Piece (scope : Scope) (a : Action) : List Instr → Prop
  | move {src dst : Location} {code : List Instr} (moved : move src dst = .ok code) (gives : Gives scope a src)
      (gets : Gets scope a dst) : Piece scope a code
  | constant (n : Int64) : Piece scope a [.li .temporary n]
  | binary {op : BinOp} {x : Name} {d l r : Register} {code : List Instr} (found : scope.register x = .ok d)
      (computed : binary op d l r = .ok code) : Piece scope a code
  | unary {op : UnOp} {x : Name} {d s : Register} {code : List Instr} (found : scope.register x = .ok d)
      (computed : unary op d s = .ok code) : Piece scope a code
  | jump {target : Name} (jumps : a = .jump target ∨ ∃ var, a = .ret var ∧ target = scope.exit) :
      Piece scope a [.jump target]
  | branch {check : Check} {var target : Name} {condition : Condition} {r : Register}
      (branches : a = .branch check var target) : Piece scope a [.branch condition r target]
  | call {callee result : Name} {args : List Name} {f : Function} (calls : a = .call callee args result)
      (found : (scope.functions.find? fun f => f.name = callee) = some f) : Piece scope a [.call callee]

theorem move_ne_nil {src dst : Location} (emitted : move src dst = .ok code) : code ≠ [] := by
  rintro rfl
  unfold move at emitted
  split at emitted
  case h_2 | h_4 => split at emitted <;> cases emitted
  all_goals cases emitted

theorem Piece.ne_nil (piece : Piece scope a code) : code ≠ [] := by
  cases piece with
  | move moved => exact move_ne_nil moved
  | @binary op _ _ _ _ _ _ computed => cases op <;> cases computed <;> nofun
  | @unary op _ _ _ _ _ computed => cases op <;> cases computed <;> nofun
  | constant | jump | branch | call => nofun

inductive Pieces (scope : Scope) (a : Action) : List Instr → Prop
  | one {piece : List Instr} (last : Piece scope a piece) : Pieces scope a piece
  | cons {piece rest : List Instr} (first : Piece scope a piece) (others : Pieces scope a rest) :
      Pieces scope a (piece ++ rest)

theorem pieces_of_moveArgs {index : Nat} {xs : List Name} {rs : List Register} (isArgs : ∀ r ∈ rs, r ∈ Register.args)
    (emitted : moveArgs scope index xs rs = .ok code) {rest : List Instr} (others : Pieces scope a rest) :
    Pieces scope a (code ++ rest) := by
  fun_induction moveArgs scope index xs rs generalizing code with
  | case1 index arg args r rs ih =>
    obtain ⟨src, found, emitted⟩ := bind_eq_ok.1 emitted
    obtain ⟨first, moved, emitted⟩ := bind_eq_ok.1 emitted
    obtain ⟨more, there, done⟩ := bind_eq_ok.1 emitted
    cases done
    obtain ⟨isArg, areArgs⟩ := List.forall_mem_cons.1 isArgs
    rw [List.append_assoc]
    exact .cons (.move (within_eq_ok.1 moved) (.place found) (.arg isArg)) (ih areArgs there)
  | case2 =>
    cases emitted
    exact others

theorem pieces_of_action (emitted : action scope a = .ok code) (acts : a ≠ .nop) : Pieces scope a code := by
  have isArg : resultRegister ∈ Register.args := by decide
  cases a with
  | nop => exact absurd rfl acts
  | move src dst => exact .one (.move emitted (.own rfl) (.own rfl))
  | store dest value =>
    obtain ⟨dst, found, emitted⟩ := bind_eq_ok.1 emitted
    split at emitted
    case h_1 | h_2 =>
      obtain ⟨rest, moved, done⟩ := bind_eq_ok.1 emitted
      cases done
      exact .cons (.constant _) (.one (.move moved .temporary (.place found)))
    case h_3 =>
      obtain ⟨src, found', moved⟩ := bind_eq_ok.1 emitted
      exact .one (.move moved (.place found') (.place found))
    all_goals cases emitted
  | binary op dest left right =>
    obtain ⟨d, found, emitted⟩ := bind_eq_ok.1 emitted
    obtain ⟨_, _, emitted⟩ := bind_eq_ok.1 emitted
    obtain ⟨_, _, computed⟩ := bind_eq_ok.1 emitted
    exact .one (.binary found computed)
  | unary op dest arg =>
    obtain ⟨d, found, emitted⟩ := bind_eq_ok.1 emitted
    obtain ⟨_, _, computed⟩ := bind_eq_ok.1 emitted
    exact .one (.unary found computed)
  | jump target =>
    cases emitted
    exact .one (.jump (.inl rfl))
  | branch check var target =>
    obtain ⟨r, _, emitted⟩ := bind_eq_ok.1 emitted
    cases check <;> cases emitted <;> exact .one (.branch rfl)
  | call callee args result =>
    obtain ⟨f, before, behind, found, _, _, moved, rfl, kept⟩ := call_cases emitted
    refine pieces_of_moveArgs (fun _ => id) moved ?_
    rcases kept with ⟨_, rfl⟩ | ⟨_, dst, resolved, stored⟩
    · exact .one (.call rfl found)
    · exact .cons (.call rfl found) (.one (.move stored .result (.place resolved)))
  | ret var =>
    have leaves : Pieces scope (.ret var) [.jump scope.exit] := .one (.jump (.inr ⟨var, rfl, rfl⟩))
    rw [action] at emitted
    split at emitted
    · cases emitted
      exact leaves
    · obtain ⟨src, found, emitted⟩ := bind_eq_ok.1 emitted
      obtain ⟨before, moved, done⟩ := bind_eq_ok.1 emitted
      cases done
      exact .cons (.move moved (.place found) (.arg isArg)) leaves

theorem action_ne_nil (emitted : action scope a = .ok code) (acts : a ≠ .nop) : code ≠ [] := by
  cases pieces_of_action emitted acts with
  | one last => exact last.ne_nil
  | cons first => exact List.append_ne_nil_of_left_ne_nil first.ne_nil _

theorem of_pieces {P : List Instr → Prop} (emitted : action scope a = .ok code) (nil : P [])
    (append : ∀ {first second}, P first → P second → P (first ++ second)) (each : ∀ {piece}, Piece scope a piece → P piece) :
    P code := by
  by_cases acts : a = .nop
  · subst acts
    cases emitted
    exact nil
  · have pieces := pieces_of_action emitted acts
    clear emitted
    induction pieces with
    | one last => exact each last
    | cons first _ ih => exact append (each first) ih

theorem forall_of_pieces {P : Instr → Prop} (emitted : action scope a = .ok code)
    (each : ∀ {piece}, Piece scope a piece → ∀ i ∈ piece, P i) : ∀ i ∈ code, P i :=
  of_pieces (P := fun code => ∀ i ∈ code, P i) emitted (List.forall_mem_nil _)
    (fun left right => List.forall_mem_append.2 ⟨left, right⟩) each

end MiniC.Assembly
