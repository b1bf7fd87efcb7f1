import MiniC.Proofs.Faults
import MiniC.Proofs.Storage.Programs
import MiniC.Proofs.Storage.Settling
import Mathlib.Data.List.Nodup

namespace MiniC.Storage

open Code

variable {start : Namer} {a : Nat} {user globals : List Global}

def Old (user : List Global) (start : Namer) (a : Nat) (globals : List Global) : Prop :=
  ∀ g ∈ globals, g ∈ user ∨ ∃ j ≤ a, ∃ text, g = ⟨start.made Name.string j, .string, some (.str text)⟩

theorem Old.mono {b : Nat} (old : Old user start a globals) (le : a ≤ b) : Old user start b globals := by
  intro g member
  refine (old g member).imp_right ?_
  rintro ⟨j, below, isString⟩
  exact ⟨j, by omega, isString⟩

theorem Old.notMem (old : Old user start a globals) (written : ∀ g ∈ user, Name.isGenerated g.name = false)
    (small : a + 1 < 2 ^ 64) : start.made Name.string (a + 1) ∉ globals.map (·.name) := by
  intro member
  obtain ⟨g, inside, same⟩ := List.mem_map.1 member
  rcases old g inside with ofUser | ⟨j, below, text, rfl⟩
  · exact Name.ne_generated (written g ofUser) _ _ same
  · have again := Namer.made_injective (by omega) small same
    omega

theorem Old.snoc (old : Old user start a globals) (text : Bytes) :
    Old user start (a + 1) (globals ++ [⟨start.made Name.string (a + 1), .string, some (.str text)⟩]) := by
  intro h member
  rcases List.mem_append.1 member with inside | isNew
  · exact old.mono (Nat.le_succ a) h inside
  · exact .inr ⟨a + 1, Nat.le_refl _, text, List.mem_singleton.1 isNew⟩

/-- Names and globals when `b` names are made, where globals stay distinct. -/
structure Advances (user : List Global) (start : Namer) (globals : List Global) (b : Nat) (names : Namer)
    (globals' : List Global) : Prop where
  names : names = start.after b
  old : Old user start b globals'
  distinct : (globals.map (·.name)).Nodup → (globals'.map (·.name)).Nodup

section

variable (written : ∀ g ∈ user, Name.isGenerated g.name = false)

include written

theorem advances_extractStrings {body : List Stmt} (old : Old user start a globals) (small : a + body.length < 2 ^ 64) :
    (extractStrings (start.after a) globals body).collision = none ∧ ∃ b ≤ a + body.length,
      Advances user start globals b (extractStrings (start.after a) globals body).names
        (extractStrings (start.after a) globals body).globals := by
  induction body generalizing a globals with
  | nil => exact ⟨rfl, a, Nat.le_refl a, rfl, old, id⟩
  | cons stmt body ih =>
    rw [List.length_cons] at small
    by_cases string : ∃ dest text, stmt.action = .store dest (some (.str text))
    · obtain ⟨label, action⟩ := stmt
      obtain ⟨dest, text, rfl⟩ := string
      have isNew := old.notMem written (by omega)
      have free : ¬ (globals.any fun g => g.name == start.made Name.string (a + 1)) = true := by
        simpa using isNew
      rw [extractStrings, Namer.fresh_after]
      dsimp only
      rw [if_neg free]
      obtain ⟨fine, b, below, advances⟩ := ih (old.snoc text) (by omega)
      refine ⟨fine, b, by rw [List.length_cons]; omega, advances.names, advances.old, fun distinct => advances.distinct ?_⟩
      rw [List.map_append, List.nodup_append]
      refine ⟨distinct, List.nodup_singleton _, ?_⟩
      rintro x member y isName rfl
      rw [List.map_singleton, List.mem_singleton] at isName
      rw [isName] at member
      exact isNew member
    · rw [extractStrings_other _ _ _ fun dest text same => string ⟨dest, text, same⟩]
      obtain ⟨fine, b, below, advances⟩ := ih old (by omega)
      exact ⟨fine, b, by rw [List.length_cons]; omega, advances⟩

end

theorem places_foldl_le (loan : Loan) (xs : List Name) :
    (xs.foldl Loan.lend loan).places.length ≤ loan.places.length + xs.length := by
  induction xs generalizing loan with
  | nil => exact Nat.le_refl _
  | cons x xs ih =>
    have rest := ih (loan.lend x)
    rw [List.foldl_cons, List.length_cons]
    rcases lend_cases loan x with ⟨same, _⟩ | ⟨_, _, _, _, _, _, _, gives⟩
    · rw [same] at rest ⊢
      omega
    · rw [gives] at rest ⊢
      rw [List.length_append, List.length_singleton] at rest
      omega

theorem length_moveStmt (names : Namer) (l : Layout) (stmt : Stmt) : (moveStmt names l stmt).code.length ≤ 4 := by
  by_cases here : stmt.action.isLocal = true
  · rw [moveStmt_of_isLocal _ _ here, length_movedBlock]
    have ins : (loansIn names l stmt.action).places.length ≤ 0 + stmt.action.inputs.length := places_foldl_le _ _
    have outs : (loansOut names l stmt.action).places.length ≤ 0 + stmt.action.outputs.length := places_foldl_le _ _
    have few := inputs_length here
    have few' := outputs_length stmt.action
    omega
  · obtain ⟨label, action⟩ := stmt
    cases action with
    | call | move => exact (by decide : 1 ≤ 4)
    | _ => exact absurd rfl here

theorem length_moveBody (names : Namer) (l : Layout) (body : List Stmt) :
    (moveBody names l body).code.length ≤ 4 * body.length := by
  induction body generalizing names l with
  | nil => exact Nat.le_refl 0
  | cons stmt body ih =>
    have first := length_moveStmt names l stmt
    have rest := ih (moveStmt names l stmt).names (moveStmt names l stmt).layout
    rw [moveBody, List.length_append, List.length_cons]
    omega

theorem placeGlobals_error {l : Layout} {gs : List Global} {name : Name} (failed : placeGlobals l gs = .error name)
    (free : ∀ g ∈ gs, l.get? g.name = none) : ¬ (gs.map (·.name)).Nodup := by
  induction gs generalizing l with
  | nil => cases failed
  | cons g gs ih =>
    rw [placeGlobals] at failed
    split at failed
    · rename_i taken
      rw [Layout.contains_eq_false.2 (free g List.mem_cons_self)] at taken
      cases taken
    · intro nodup
      rw [List.map_cons, List.nodup_cons] at nodup
      refine ih failed (fun h member => ?_) nodup.2
      have other : h.name ≠ g.name := fun same => nodup.1 (same ▸ List.mem_map_of_mem member)
      rw [Layout.get?_set_other other]
      exact free h (List.mem_cons_of_mem g member)

theorem place_error {params : List Param} {body : List Stmt} {name : Name} (failed : place Usage.queue globals params body = .error name) :
    ¬ (globals.map (·.name)).Nodup := by
  rcases bind_eq_error.1 failed with inGlobals | ⟨_, _, never⟩
  · exact placeGlobals_error inGlobals fun _ _ => rfl
  · cases never

structure Proceeds {α : Type} (user : List Global) (start : Namer) (a count : Nat) (globals : List Global)
    (progress : Progress α) : Prop where
  advances : progress.error = none → ∃ b ≤ a + count, Advances user start globals b progress.names progress.globals
  fails : ∀ e, progress.error = some e → (∃ name, e.cause = .redeclared name) ∧ ¬ (globals.map (·.name)).Nodup

section

variable (written : ∀ g ∈ user, Name.isGenerated g.name = false)

include written

theorem proceeds_assignFunction {f : Function} (old : Old user start a globals) (small : a + 4 * f.body.length < 2 ^ 64) :
    Proceeds user start a (4 * f.body.length) globals (assignFunction Usage.queue (start.after a) globals f) := by
  obtain ⟨fine, b, below, advances⟩ := @advances_extractStrings start a user globals written f.body old (by omega)
  obtain ⟨strings, new, extracted⟩ := extracts fine
  unfold assignFunction
  dsimp only
  rw [fine]
  cases placed : place Usage.queue (extractStrings (start.after a) globals f.body).globals f.params
      (extractStrings (start.after a) globals f.body).body with
  | error name =>
    refine ⟨by simp, fun e failed => ?_⟩
    cases failed
    exact ⟨⟨name, rfl⟩, fun distinct => place_error placed (advances.distinct distinct)⟩
  | ok l =>
    refine ⟨fun _ => ?_, by simp⟩
    obtain ⟨made, length, since⟩ := moveBody_since start b l.withFrame (extractStrings (start.after a) globals f.body).body
    have longer := length_moveBody (start.after b) l.withFrame (extractStrings (start.after a) globals f.body).body
    rw [length, extracted.code, length_withStrings] at longer
    dsimp only
    rw [advances.names]
    exact ⟨b + made, by omega, since.names, advances.old.mono (Nat.le_add_right b made), advances.distinct⟩

theorem proceeds_assignFunctions {fs : List Function} (old : Old user start a globals) (small : a + 4 * lines fs < 2 ^ 64) :
    Proceeds user start a (4 * lines fs) globals (assignFunctions Usage.queue (start.after a) globals fs) := by
  induction fs generalizing a globals with
  | nil => exact ⟨fun _ => ⟨a, Nat.le_refl a, rfl, old, id⟩, by simp [assignFunctions]⟩
  | cons f fs ih =>
    have total : lines (f :: fs) = f.body.length + lines fs := rfl
    rw [total] at small ⊢
    rw [assignFunctions]
    split
    · have rest := ih old (by omega)
      refine ⟨fun fine => ?_, rest.fails⟩
      obtain ⟨b, below, advances⟩ := rest.advances fine
      exact ⟨b, by omega, advances⟩
    · have first := @proceeds_assignFunction start a user globals written f old (by omega)
      dsimp only
      cases failed : (assignFunction Usage.queue (start.after a) globals f).error with
      | some e =>
        refine ⟨by simp, fun e' same => ?_⟩
        cases same
        exact first.fails e failed
      | none =>
        obtain ⟨b, below, advances⟩ := first.advances failed
        dsimp only
        rw [advances.names]
        have rest := ih advances.old (by omega)
        refine ⟨fun fine => ?_, fun e failed => ?_⟩
        · obtain ⟨c, below', advances'⟩ := rest.advances fine
          exact ⟨c, by omega, advances'.names, advances'.old, fun distinct => advances'.distinct (advances.distinct distinct)⟩
        · obtain ⟨cause, twice⟩ := rest.fails e failed
          exact ⟨cause, fun distinct => twice (advances.distinct distinct)⟩

end

end MiniC.Storage
