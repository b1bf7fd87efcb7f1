import MiniC.Proofs.GeneratedNames
import MiniC.Storage.Frame
import MiniC.Storage.Placement

namespace MiniC.Storage

open Code

namespace Layout

theorem lookup_cons (x n : Name) (p : Location) (vars : List (Name × Location)) :
    ((n, p) :: vars).lookup x = if x = n then some p else vars.lookup x := by
  rw [List.lookup_cons]
  by_cases same : x = n
  · rw [if_pos same, same, beq_self_eq_true]
  · rw [if_neg same, beq_false_of_ne same]

theorem lookup_put (name x : Name) (place : Location) (vars : List (Name × Location)) :
    (put name place vars).lookup x = if x = name then some place else vars.lookup x := by
  induction vars with
  | nil => exact lookup_cons x name place []
  | cons head vars ih =>
    obtain ⟨n, p⟩ := head
    unfold put
    split
    · rename_i found
      subst found
      rw [lookup_cons, lookup_cons]
      by_cases same : x = n <;> simp [same]
    · rename_i other
      rw [lookup_cons, lookup_cons, ih]
      by_cases same : x = n
      · rw [if_pos same, if_pos same, if_neg (same ▸ other)]
      · rw [if_neg same, if_neg same]

theorem get?_set (l : Layout) (name x : Name) (place : Location) :
    (l.set name place).get? x = if x = name then some place else l.get? x :=
  lookup_put name x place l.vars

theorem get?_set_same (l : Layout) (name : Name) (place : Location) :
    (l.set name place).get? name = some place := by
  rw [get?_set, if_pos rfl]

theorem get?_set_other {name x : Name} (other : x ≠ name) (l : Layout) (place : Location) :
    (l.set name place).get? x = l.get? x := by
  rw [get?_set, if_neg other]

theorem contains_eq_false {l : Layout} {x : Name} : l.contains x = false ↔ l.get? x = none := by
  simp [contains]

end Layout

section

variable {l l' : Layout} {x y : Name}

theorem find?_of_placeGlobals {gs : List Global} (ok : placeGlobals l gs = .ok l')
    (has : l.get? x ≠ none) : (gs.find? fun g => g.name = x) = none := by
  induction gs generalizing l with
  | nil => rfl
  | cons g gs ih =>
    rw [placeGlobals] at ok
    split at ok
    · cases ok
    · rename_i free
      have other : g.name ≠ x := by
        rintro rfl
        exact free (by simpa [Layout.contains, Option.isSome_iff_ne_none] using has)
      have later : (l.set g.name (.memory g.name g.ty.size)).get? x ≠ none := by
        rw [Layout.get?_set_other (Ne.symm other)]
        exact has
      simp [other, ih ok later]

theorem get?_placeGlobals {gs : List Global} (ok : placeGlobals l gs = .ok l') (x : Name) :
    l'.get? x = match gs.find? fun g => g.name = x with
      | some g => some (.memory g.name g.ty.size)
      | none => l.get? x := by
  induction gs generalizing l with
  | nil => cases ok; rfl
  | cons g gs ih =>
    rw [placeGlobals] at ok
    split at ok
    · cases ok
    · rw [ih ok]
      by_cases same : g.name = x
      · subst same
        have none := find?_of_placeGlobals ok (x := g.name) (by rw [Layout.get?_set_same]; simp)
        simp [none, Layout.get?_set_same]
      · simp [same, Layout.get?_set_other (Ne.symm same)]

theorem get?_placeParams (l : Layout) (params : List Param) (x : Name) :
    (placeParams l params).get? x =
      if params.any fun p => p.name = x then some (.stack 0 slotSize) else l.get? x := by
  induction params generalizing l with
  | nil => rfl
  | cons p params ih =>
    change (placeParams (l.set p.name (.stack 0 slotSize)) params).get? x = _
    rw [ih, Layout.get?_set]
    by_cases same : p.name = x
    · subst same
      simp
    · simp [same, Ne.symm same]

structure PlacesLocals (l : Layout) (free : List Register) (us : List Usage) (l' : Layout) : Prop where
  old : ∀ {x}, l.get? x ≠ none → l'.get? x = l.get? x
  new : ∀ {x}, l.get? x = none → x ∈ us.map (·.name) →
    (∃ r ∈ free, l'.get? x = some (.register r)) ∨ l'.get? x = some (.stack 0 slotSize)
  outside : ∀ {x}, l.get? x = none → x ∉ us.map (·.name) → l'.get? x = none
  apart : ∀ {x y r}, l.get? x = none → l.get? y = none →
    l'.get? x = some (.register r) → l'.get? y = some (.register r) → x = y

theorem PlacesLocals.cons {free others : List Register} {u : Usage} {us : List Usage} {place : Location}
    (rest : PlacesLocals (l.set u.name place) others us l') (isNew : l.get? u.name = none)
    (fresh : place = .stack 0 slotSize ∧ others = free ∨ ∃ r, place = .register r ∧ free = r :: others)
    (distinct : free.Nodup) : PlacesLocals l free (u :: us) l' := by
  have here : l'.get? u.name = some place := by
    rw [rest.old (by rw [Layout.get?_set_same]; simp), Layout.get?_set_same]
  have unset : ∀ {x}, x ≠ u.name → (l.set u.name place).get? x = l.get? x :=
    fun other => Layout.get?_set_other other _ _
  have fewer : ∀ r ∈ others, r ∈ free := by
    rcases fresh with ⟨_, rfl⟩ | ⟨r, _, rfl⟩
    · exact fun r member => member
    · exact fun r member => List.mem_cons_of_mem _ member
  have taken : ∀ {y r}, y ≠ u.name → l.get? y = none → l'.get? y = some (.register r) → r ∈ others := by
    intro y r other none found
    by_cases named : y ∈ us.map (·.name)
    · rcases rest.new (by rw [unset other, none]) named with ⟨r', member, place'⟩ | place'
      · cases place'.symm.trans found
        exact member
      · cases place'.symm.trans found
    · rw [rest.outside (by rw [unset other, none]) named] at found
      cases found
  have notTaken : ∀ {r}, place = .register r → r ∉ others := by
    intro r register
    rcases fresh with ⟨rfl, _⟩ | ⟨r', rfl, rfl⟩
    · cases register
    · cases register
      exact (List.nodup_cons.1 distinct).1
  refine ⟨?_, ?_, ?_, ?_⟩
  · intro x has
    have other : x ≠ u.name := fun same => has (same ▸ isNew)
    rw [rest.old (by rw [unset other]; exact has), unset other]
  · intro x none named
    by_cases same : x = u.name
    · subst same
      rw [here]
      rcases fresh with ⟨rfl, _⟩ | ⟨r, rfl, rfl⟩
      · exact .inr rfl
      · exact .inl ⟨r, by simp, rfl⟩
    · rcases rest.new (by rw [unset same, none]) (by simpa [same] using named) with ⟨r, member, found⟩ | found
      · exact .inl ⟨r, fewer r member, found⟩
      · exact .inr found
  · intro x none unnamed
    simp only [List.map_cons, List.mem_cons, not_or] at unnamed
    exact rest.outside (by rw [unset unnamed.1, none]) unnamed.2
  · intro x y r noneX noneY foundX foundY
    by_cases sameX : x = u.name
    · by_cases sameY : y = u.name
      · rw [sameX, sameY]
      · rw [sameX, here] at foundX
        exact absurd (taken sameY noneY foundY) (notTaken (Option.some.inj foundX))
    · by_cases sameY : y = u.name
      · rw [sameY, here] at foundY
        exact absurd (taken sameX noneX foundX) (notTaken (Option.some.inj foundY))
      · exact rest.apart (by rw [unset sameX, noneX]) (by rw [unset sameY, noneY]) foundX foundY

theorem placesLocals (l : Layout) {free : List Register} (distinct : free.Nodup) (us : List Usage) :
    PlacesLocals l free us (placeLocals l free us) := by
  induction us generalizing l free with
  | nil =>
    rw [placeLocals]
    refine ⟨fun _ => rfl, fun _ named => by simp at named, fun none _ => none, ?_⟩
    intro x y r none _ found
    rw [none] at found
    cases found
  | cons u us ih =>
    unfold placeLocals
    split
    · rename_i has
      have rest := ih l distinct
      refine ⟨rest.old, ?_, ?_, rest.apart⟩
      · intro x none named
        have other : x ≠ u.name := by
          rintro rfl
          rw [Layout.contains_eq_false.2 none] at has
          cases has
        exact rest.new none (by simpa [other] using named)
      · intro x none unnamed
        simp only [List.map_cons, List.mem_cons, not_or] at unnamed
        exact rest.outside none unnamed.2
    · rename_i new
      have isNew : l.get? u.name = none := Layout.contains_eq_false.1 (by simpa using new)
      split
      · rename_i r others
        split
        · exact (ih _ distinct).cons isNew (.inl ⟨rfl, rfl⟩) distinct
        · exact (ih _ (List.nodup_cons.1 distinct).2).cons isNew (.inr ⟨r, rfl, rfl⟩) distinct
      · exact (ih _ distinct).cons isNew (.inl ⟨rfl, rfl⟩) distinct

end

end MiniC.Storage
