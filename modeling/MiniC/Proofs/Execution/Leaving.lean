import MiniC.Proofs.Execution.Quiet

namespace MiniC.Language

variable {I S : Type}

/-- The language in which a jump to `exit` leaves the code. -/
def cut (L : Language I S) (exit : Name) : Language I S where
  label := L.label
  acts i s instr events flow s' :=
    ∃ way, L.acts i s instr events way s' ∧ flow = if way = .goto exit then .leave none else way

section

variable {L : Language I S} {exit : Name}

theorem nexts_cut (i : Nat) (instr : I) (s : S) : (L.cut exit).nexts i instr s = L.nexts i instr s := by
  ext s'
  constructor
  · rintro ⟨events, way, acts, next⟩
    split at next
    · cases next
    · exact ⟨events, next ▸ acts⟩
  · rintro ⟨events, acts⟩
    exact ⟨events, .next, acts, rfl⟩

theorem flows_cut (i : Nat) (code : List I) (s : S) : (L.cut exit).flows i code s = L.flows i code s := by
  induction code generalizing i s with
  | nil => rfl
  | cons instr code ih =>
    rw [flows, flows, nexts_cut]
    congr 1
    funext s'
    exact ih (i + 1) s'

theorem Quiet.cut {instr : I} (quiet : L.Quiet instr) : (L.cut exit).Quiet instr := by
  rintro i s events flow s' ⟨way, acts, rfl⟩
  obtain ⟨rfl, rfl⟩ := quiet _ _ _ _ _ acts
  exact ⟨rfl, rfl⟩

end

/-- A body that only jumps to `exit` leave, and the code around it with no label but `exit`. -/
structure Encloses (L : Language I S) (exit : Name) (enter body behind : List I) : Prop where
  named : exit ≠ []
  entering : ∀ instr ∈ enter, L.label instr = []
  inner : ∀ instr ∈ body, L.label instr ≠ exit
  leaving : L.labelled behind exit = some 0
  others : ∀ instr ∈ behind, L.label instr = [] ∨ L.label instr = exit
  uniform : ∀ {i j s instr events flow s'}, L.acts i s instr events flow s' → L.acts j s instr events flow s'
  stays : ∀ {instr}, instr ∈ body → ∀ {i s events value s'}, ¬ L.acts i s instr events (.leave value) s'
  unseen : ∀ {instr}, instr ∈ body → ∀ {i s events s'}, L.acts i s instr events (.goto exit) s' → events = []

theorem labelled_append (L : Language I S) (first second : List I) (label : Name) :
    L.labelled (first ++ second) label =
      (L.labelled first label).or ((L.labelled second label).map (first.length + ·)) := by
  unfold labelled
  split
  · rfl
  · simp [List.findIdx?_append, Nat.add_comm]

theorem labelled_eq_none {L : Language I S} {code : List I} {label : Name}
    (other : ∀ instr ∈ code, L.label instr ≠ label) : L.labelled code label = none := by
  unfold labelled
  split
  · rfl
  · simpa using other

namespace Encloses

variable {L : Language I S} {exit : Name} {enter body behind : List I}
  (encloses : L.Encloses exit enter body behind)

include encloses

theorem labelled_exit : L.labelled (enter ++ (body ++ behind)) exit = some (enter.length + body.length) := by
  have before : L.labelled enter exit = none :=
    labelled_eq_none fun instr member => by
      rw [encloses.entering instr member]
      exact encloses.named.symm
  rw [labelled_append, labelled_append, before, labelled_eq_none encloses.inner, encloses.leaving]
  rfl

theorem labelled_inner {label : Name} (other : label ≠ exit) :
    L.labelled (enter ++ (body ++ behind)) label = (L.labelled body label).map (enter.length + ·) := by
  by_cases empty : label = []
  · simp [labelled, empty]
  · have before : L.labelled enter label = none :=
      labelled_eq_none fun instr member => by
        rw [encloses.entering instr member]
        exact Ne.symm empty
    have after : L.labelled behind label = none :=
      labelled_eq_none fun instr member => by
        rcases encloses.others instr member with unmarked | marked
        · rw [unmarked]
          exact Ne.symm empty
        · rw [marked]
          exact Ne.symm other
    rw [labelled_append, labelled_append, before, after]
    simp

theorem exists_target {pc pc' : Nat} {way : Flow} (other : way ≠ .goto exit)
    (goes : L.target (enter ++ (body ++ behind)) (enter.length + pc) way = some pc') :
    ∃ pc₁, pc' = enter.length + pc₁ ∧ (L.cut exit).target body pc way = some pc₁ := by
  cases way with
  | next => exact ⟨pc + 1, (Option.some.inj goes).symm, rfl⟩
  | goto label =>
    have different : label ≠ exit := fun same => other (by rw [same])
    rw [target, encloses.labelled_inner different, Option.map_eq_some_iff] at goes
    obtain ⟨pc₁, found, rfl⟩ := goes
    exact ⟨pc₁, rfl, found⟩
  | leave value => cases goes

theorem target_inner {pc pc₁ : Nat} {way : Flow} (other : way ≠ .goto exit) :
    (L.cut exit).target body pc way = some pc₁ ↔
      L.target (enter ++ (body ++ behind)) (enter.length + pc) way = some (enter.length + pc₁) := by
  cases way with
  | next => simp [target, Nat.add_assoc]
  | goto label =>
    have different : label ≠ exit := fun same => other (by rw [same])
    change L.labelled body label = _ ↔ L.labelled _ label = _
    rw [encloses.labelled_inner different]
    simp
  | leave value => simp [target]

end Encloses

section

variable {L : Language I S} {exit : Name} {enter body behind : List I} {count pc : Nat} {s s' : S}
  {events : List Event}

theorem at_body (enter behind : List I) {instr : I} (inside : body[pc]? = some instr) :
    (enter ++ (body ++ behind))[enter.length + pc]? = some instr := by
  obtain ⟨bound, _⟩ := List.getElem?_eq_some_iff.1 inside
  rw [List.getElem?_append_right (Nat.le_add_right ..), Nat.add_sub_cancel_left,
    List.getElem?_append_left bound, inside]

namespace Encloses

theorem steps_forth (encloses : L.Encloses exit enter body behind) {pc' : Nat}
    (steps : (L.cut exit).Steps body count pc s events pc' s') :
    L.Steps (enter ++ (body ++ behind)) count (enter.length + pc) s events (enter.length + pc') s' := by
  induction steps with
  | none => exact .none
  | one at_ acts goes _ ih =>
    obtain ⟨way, acts, rfl⟩ := acts
    split at goes
    · cases goes
    · rename_i other
      exact .one (at_body _ _ at_) (encloses.uniform acts) ((encloses.target_inner other).1 goes) ih

theorem ends_forth (encloses : L.Encloses exit enter body behind) {outcome : Outcome}
    (ends : (L.cut exit).Ends body count pc s events outcome s') :
    ∃ count', L.Steps (enter ++ (body ++ behind)) count' (enter.length + pc) s events
      (enter.length + body.length) s' := by
  induction ends with
  | halt halts =>
    cases halts with
    | fell => exact ⟨0, .none⟩
    | returned at_ acts =>
      obtain ⟨way, acts, leaves⟩ := acts
      split at leaves
      · rename_i exits
        subst exits
        exact ⟨1, .single (at_body _ _ at_) (encloses.uniform acts) encloses.labelled_exit⟩
      · subst leaves
        exact absurd acts (encloses.stays (List.mem_of_getElem? at_))
  | step at_ acts goes _ ih =>
    obtain ⟨way, acts, rfl⟩ := acts
    obtain ⟨count', rest⟩ := ih
    split at goes
    · cases goes
    · rename_i other
      exact ⟨_, .one (at_body _ _ at_) (encloses.uniform acts) ((encloses.target_inner other).1 goes) rest⟩

theorem ends_back (encloses : L.Encloses exit enter body behind) {outcome : Outcome} (before : pc ≤ body.length)
    (ends : L.Ends (enter ++ (body ++ behind)) count (enter.length + pc) s events outcome s') :
    ∃ count₁ count₂ ended seen rest s₁, (L.cut exit).Ends body count₁ pc s seen ended s₁ ∧
      L.Ends (enter ++ (body ++ behind)) count₂ (enter.length + body.length) s₁ rest outcome s' ∧
      events = seen ++ rest := by
  generalize start : enter.length + pc = k at ends
  induction ends generalizing pc with
  | halt halts =>
    subst start
    rcases Nat.eq_or_lt_of_le before with rfl | inside
    · exact ⟨0, 0, .fell, [], _, _, .halt .fell, .halt halts, rfl⟩
    · have here := at_body enter behind (List.getElem?_eq_getElem inside)
      generalize enter.length + pc = k at halts here
      cases halts with
      | fell => simp at here
      | returned at_ acts =>
        cases here.symm.trans at_
        exact absurd acts (encloses.stays (List.getElem_mem inside))
  | @step _ _ _ _ way _ _ _ _ _ _ at_ acts goes rest ih =>
    subst start
    rcases Nat.eq_or_lt_of_le before with rfl | inside
    · exact ⟨0, _, .fell, [], _, _, .halt .fell, .step at_ acts goes rest, rfl⟩
    · have here := List.getElem?_eq_getElem inside
      cases (at_body enter behind here).symm.trans at_
      by_cases exits : way = .goto exit
      · subst exits
        cases encloses.labelled_exit.symm.trans goes
        have leaves : (L.cut exit).acts pc _ _ _ (.leave none) _ :=
          ⟨.goto exit, encloses.uniform acts, by rw [if_pos rfl]⟩
        exact ⟨0, _, .returned none, _, _, _, .halt (.returned here leaves), rest, rfl⟩
      · obtain ⟨pc₁, rfl, goes'⟩ := encloses.exists_target exits goes
        obtain ⟨count₁, count₂, ended, seen, rest, s₁, first, second, rfl⟩ := ih (target_le inside goes') rfl
        have on : (L.cut exit).acts pc _ _ _ way _ := ⟨way, encloses.uniform acts, by rw [if_neg exits]⟩
        exact ⟨_, _, ended, _, _, s₁, .step here on goes' first, second, by rw [List.append_assoc]⟩

theorem steps_back (encloses : L.Encloses exit enter body behind) {pc' : Nat} (before : pc ≤ body.length)
    (silent : ∀ {count s events pc' s'},
      L.Steps (enter ++ (body ++ behind)) count (enter.length + body.length) s events pc' s' → events = [])
    (steps : L.Steps (enter ++ (body ++ behind)) count (enter.length + pc) s events pc' s') :
    ∃ count₁ pc₁ s₁, (L.cut exit).Steps body count₁ pc s events pc₁ s₁ := by
  generalize start : enter.length + pc = k at steps
  induction steps generalizing pc with
  | none => exact ⟨0, pc, _, .none⟩
  | @one _ _ _ _ _ way _ _ _ _ _ at_ acts goes rest ih =>
    subst start
    rcases Nat.eq_or_lt_of_le before with rfl | inside
    · rw [silent (.one at_ acts goes rest)]
      exact ⟨0, _, _, .none⟩
    · have here := List.getElem?_eq_getElem inside
      cases (at_body enter behind here).symm.trans at_
      by_cases exits : way = .goto exit
      · subst exits
        cases encloses.labelled_exit.symm.trans goes
        rw [encloses.unseen (List.getElem_mem inside) acts, silent rest]
        exact ⟨0, _, _, .none⟩
      · obtain ⟨pc₁, rfl, goes'⟩ := encloses.exists_target exits goes
        obtain ⟨count₁, pc₂, s₁, run⟩ := ih (target_le inside goes') rfl
        have on : (L.cut exit).acts pc _ _ _ way _ := ⟨way, encloses.uniform acts, by rw [if_neg exits]⟩
        exact ⟨_, pc₂, s₁, .one here on goes' run⟩

end Encloses

end

structure Finishes (L : Language I S) (behind : List I) (f : S → S) : Prop where
  split : ∃ quiet last, behind = quiet ++ [last] ∧ (∀ instr ∈ quiet, L.Quiet instr) ∧
    (∀ k s, L.flows k quiet s = {f s}) ∧
    ∀ {i s events flow s'}, L.acts i s last events flow s' ↔ events = [] ∧ flow = .leave none ∧ s' = s

section

variable {L : Language I S} {code behind : List I} {f : S → S} {k : Nat} {s s' : S} {events : List Event}

theorem Finishes.silent (finishes : L.Finishes behind f) (placed : CodeAt code k behind) {count pc : Nat}
    (steps : L.Steps code count k s events pc s') : events = [] := by
  obtain ⟨part, last, rfl, quiet, _, leaves⟩ := finishes
  rcases steps.quiet placed.left quiet with stopped | ⟨s₁, _, count', _, later⟩
  · exact stopped
  · cases later with
    | none => rfl
    | one at_ acts goes _ =>
      cases placed.right.head.symm.trans at_
      obtain ⟨_, rfl, _⟩ := leaves.1 acts
      cases goes

theorem Finishes.ends_iff (finishes : L.Finishes behind f) (placed : CodeAt code k behind) {outcome : Outcome} :
    (∃ count, L.Ends code count k s events outcome s') ↔
      events = [] ∧ outcome = .returned none ∧ s' = f s := by
  obtain ⟨part, last, rfl, quiet, flow, leaves⟩ := finishes
  constructor
  · rintro ⟨count, ends⟩
    obtain ⟨s₁, passed, count', _, later⟩ := ends.quiet placed.left quiet
    rw [flow] at passed
    obtain rfl : s₁ = f s := passed
    have here := placed.right.head
    generalize k + part.length = pc at later here
    cases later with
    | halt halts =>
      cases halts with
      | fell => simp at here
      | returned at_ acts =>
        cases here.symm.trans at_
        obtain ⟨rfl, way, rfl⟩ := leaves.1 acts
        cases way
        exact ⟨rfl, rfl, rfl⟩
    | step at_ acts goes _ =>
      cases here.symm.trans at_
      obtain ⟨_, rfl, _⟩ := leaves.1 acts
      cases goes
  · rintro ⟨rfl, rfl, rfl⟩
    have run : L.Steps code _ k s [] _ (f s) := steps_of_flows placed.left quiet (by rw [flow]; rfl)
    have final : L.Ends code 0 (k + part.length) (f s) [] (.returned none) (f s) :=
      .halt (.returned placed.right.head (leaves.2 ⟨rfl, rfl, rfl⟩))
    exact ⟨_, run.ends final⟩

end

namespace Encloses

variable {L : Language I S} {exit : Name} {enter body behind : List I} {f : S → S} {s s₁ : S}

theorem traces (encloses : L.Encloses exit enter body behind) (finishes : L.Finishes behind f)
    (quiet : ∀ instr ∈ enter, L.Quiet instr) (enters : L.flows 0 enter s = {s₁}) :
    (L.cut exit).Traces body s₁ = L.Traces (enter ++ (body ++ behind)) s := by
  have placed : CodeAt (enter ++ (body ++ behind)) 0 (enter ++ (body ++ behind)) := .whole _
  have first := steps_of_flows placed.left quiet (show s₁ ∈ L.flows 0 enter s by rw [enters]; rfl)
  have last := placed.right.right
  rw [Nat.zero_add] at first last
  ext events
  constructor
  · rintro ⟨count, pc, s', steps⟩
    exact ⟨_, _, s', first.trans (encloses.steps_forth steps)⟩
  · rintro ⟨count, pc, s', steps⟩
    rcases steps.quiet placed.left quiet with rfl | ⟨s₂, passed, count', _, later⟩
    · exact ⟨0, 0, s₁, .none⟩
    · rw [enters] at passed
      obtain rfl : s₂ = s₁ := passed
      rw [Nat.zero_add] at later
      exact encloses.steps_back (Nat.zero_le _) (finishes.silent last) later

theorem outcomes (encloses : L.Encloses exit enter body behind) (finishes : L.Finishes behind f)
    (quiet : ∀ instr ∈ enter, L.Quiet instr) (enters : L.flows 0 enter s = {s₁}) (events : List Event) :
    Matches (fun out out' => out' = (.returned none, f out.2)) ((L.cut exit).Outcomes body s₁ events)
      (L.Outcomes (enter ++ (body ++ behind)) s events) := by
  have placed : CodeAt (enter ++ (body ++ behind)) 0 (enter ++ (body ++ behind)) := .whole _
  have first := steps_of_flows placed.left quiet (show s₁ ∈ L.flows 0 enter s by rw [enters]; rfl)
  have last := placed.right.right
  rw [Nat.zero_add] at first last
  constructor
  · rintro ⟨outcome, s₂⟩ ⟨count, ends⟩
    obtain ⟨_, run⟩ := encloses.ends_forth ends
    obtain ⟨_, final⟩ := (finishes.ends_iff last).2 ⟨rfl, rfl, rfl⟩
    exact ⟨(.returned none, f s₂), ⟨_, by simpa using first.ends (run.ends final)⟩, rfl⟩
  · rintro ⟨outcome, s'⟩ ⟨count, ends⟩
    obtain ⟨s₂, passed, count', _, later⟩ := ends.quiet placed.left quiet
    rw [enters] at passed
    obtain rfl : s₂ = s₁ := passed
    rw [Nat.zero_add] at later
    obtain ⟨_, _, ended, seen, rest, s₃, body_run, tail_run, rfl⟩ := encloses.ends_back (Nat.zero_le _) later
    obtain ⟨rfl, rfl, rfl⟩ := (finishes.ends_iff last).1 ⟨_, tail_run⟩
    rw [List.append_nil]
    exact ⟨(ended, s₃), ⟨_, body_run⟩, rfl⟩

end Encloses

end MiniC.Language
