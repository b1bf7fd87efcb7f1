import MiniC.Proofs.Storage.Simulation
import MiniC.Storage.Strings

namespace MiniC.Storage

open Code

theorem scratch_ne_string (start : Namer) (i j : Nat) :
    start.made Name.scratch i ≠ start.made Name.string j := by
  intro same
  exact absurd (Name.kind_injective (by decide) (by decide) same) (by decide)

theorem usedNames_withStrings (strings : Nat → Name) (params : List Param) (body : List Stmt) :
    usedNames params (withStrings strings body) = usedNames params body := by
  unfold usedNames withStrings
  congr 1
  induction body generalizing strings with
  | nil => rfl
  | cons stmt body ih =>
    rw [List.mapIdx_cons, List.flatMap_cons, List.flatMap_cons, ih fun i => strings (i + 1)]
    simp

/-- The string constants of `body` are in the globals `new`, behind those there were. -/
structure Extracts (start : Namer) (a : Nat) (globals : List Global) (body : List Stmt) (out : Extraction)
    (strings : Nat → Name) (new : List Global) : Prop where
  code : out.body = withStrings strings body
  declared : out.globals = globals ++ new
  names : out.names = start.after (a + new.length)
  made : ∀ g ∈ new, ∃ j, a < j ∧ j ≤ a + new.length ∧ g.name = start.made Name.string j
  kept : ∀ {i label dest text}, body[i]? = some ⟨label, .store dest (some (.str text))⟩ →
    (globals.find? fun g => g.name = strings i) = none ∧
      (new.find? fun g => g.name = strings i) = some ⟨strings i, .string, some (.str text)⟩

namespace Extracts

variable {start : Namer} {a : Nat} {globals new : List Global} {body : List Stmt} {out : Extraction}
  {strings : Nat → Name}

theorem cons_other {stmt : Stmt} (rest : Extracts start a globals body out strings new)
    (other : ∀ dest text, stmt.action ≠ .store dest (some (.str text))) :
    Extracts start a globals (stmt :: body) { out with body := stmt :: out.body } (fun i => strings (i - 1)) new where
  code := by
    have same : symbolic (strings (0 - 1)) stmt.action = stmt.action := by
      unfold symbolic
      split
      · exact absurd ‹_› (other _ _)
      · rfl
    rw [withStrings, List.mapIdx_cons, same, rest.code]
    rfl
  declared := rest.declared
  names := rest.names
  made := rest.made
  kept {i label dest text} at_ := by
    cases i with
    | zero =>
      cases at_
      exact absurd rfl (other dest text)
    | succ i => exact rest.kept at_

theorem keep {label dest : Name} {text : Bytes} {g : Global}
    (rest : Extracts start (a + 1) (globals ++ [g]) body out strings new)
    (isNew : g = ⟨start.made Name.string (a + 1), .string, some (.str text)⟩)
    (unused : (globals.find? fun g' => g'.name = g.name) = none) :
    Extracts start a globals (⟨label, .store dest (some (.str text))⟩ :: body)
      { out with body := ⟨label, .store dest (some (.symbol g.name))⟩ :: out.body }
      (fun i => if i = 0 then g.name else strings (i - 1)) (g :: new) where
  code := by
    rw [withStrings, List.mapIdx_cons, rest.code]
    rfl
  declared := by rw [rest.declared, List.append_assoc]; rfl
  names := by rw [rest.names, List.length_cons, Nat.add_assoc, Nat.add_comm 1]
  made g' member := by
    rw [List.length_cons]
    rcases List.mem_cons.1 member with rfl | member
    · exact ⟨a + 1, by omega, by omega, by rw [isNew]⟩
    · obtain ⟨j, above, below, name⟩ := rest.made g' member
      exact ⟨j, by omega, by omega, name⟩
  kept {i label' dest' text'} at_ := by
    cases i with
    | zero =>
      cases at_
      refine ⟨unused, ?_⟩
      rw [if_pos rfl, List.find?_cons_of_pos (by simp), isNew]
    | succ i =>
      obtain ⟨before, found⟩ := rest.kept at_
      rw [List.find?_append, Option.or_eq_none_iff] at before
      refine ⟨before.1, ?_⟩
      have other : g.name ≠ strings i := by simpa using before.2
      rw [if_neg (Nat.succ_ne_zero i), Nat.add_sub_cancel, List.find?_cons_of_neg (by simp [other]), found]

end Extracts

theorem extractStrings_other (names : Namer) (globals : List Global) {stmt : Stmt} (body : List Stmt)
    (other : ∀ dest text, stmt.action ≠ .store dest (some (.str text))) :
    extractStrings names globals (stmt :: body) =
      { extractStrings names globals body with body := stmt :: (extractStrings names globals body).body } := by
  rw [extractStrings]
  intro label dest text same
  exact other dest text (by rw [same])

theorem extracts {start : Namer} {a : Nat} {globals : List Global} {body : List Stmt}
    (ok : (extractStrings (start.after a) globals body).collision = none) :
    ∃ strings new, Extracts start a globals body (extractStrings (start.after a) globals body) strings new := by
  induction body generalizing a globals with
  | nil =>
    refine ⟨fun _ => [], [], rfl, by simp [extractStrings], rfl, ?_, ?_⟩
    · intro g member
      cases member
    · intro i label dest text at_
      cases at_
  | cons stmt body ih =>
    by_cases string : ∃ dest text, stmt.action = .store dest (some (.str text))
    · obtain ⟨label, action⟩ := stmt
      obtain ⟨dest, text, rfl⟩ := string
      rw [extractStrings, Namer.fresh_after] at ok ⊢
      dsimp only at ok ⊢
      split at ok
      · cases ok
      · rename_i taken
        rw [if_neg taken]
        obtain ⟨strings, new, rest⟩ := ih ok
        refine ⟨_, _, rest.keep rfl ?_⟩
        simpa using taken
    · have other : ∀ dest text, stmt.action ≠ .store dest (some (.str text)) :=
        fun dest text same => string ⟨dest, text, same⟩
      rw [extractStrings_other _ _ _ other] at ok ⊢
      obtain ⟨strings, new, rest⟩ := ih ok
      exact ⟨_, _, rest.cons_other other⟩

end MiniC.Storage
