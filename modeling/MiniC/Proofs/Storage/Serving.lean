import MiniC.Proofs.Code.Effects
import MiniC.Proofs.Storage.Agreement

namespace MiniC.Storage

open Code

structure Served (l : Layout) (xs : List Name) (lent : Renaming) (places : List (Location × Register)) :
    Prop where
  distinct : (places.map Prod.snd).Nodup
  scratch : ∀ {place r}, (place, r) ∈ places → r ∉ Register.locals
  source : ∀ {place r}, (place, r) ∈ places → (∀ q, place ≠ .register q) ∧ ∃ x ∈ xs, l.get? x = some place
  operand : ∀ x ∈ xs, (∃ r, l.get? x = some (.register r) ∧ lent.apply x = x) ∨
    ∃ place r, l.get? x = some place ∧ (place, r) ∈ places ∧ l.get? (lent.apply x) = some (.register r)
  named : ∀ x, x ≠ [] → lent.apply x ≠ []

def load : Location × Register → Action
  | (place, r) => .move place (.register r)

def unload : Location × Register → Action
  | (place, r) => .move (.register r) place

section

variable {callees : Callees} {places : Name → Option Location} {k : Nat} {t : Store}

theorem nexts_move {stmt : Stmt} {src dst : Location} (moves : stmt.action = .move src dst) :
    (Store.setting callees places).language.nexts k stmt t =
      {t' | (t.get src).bind (fun w => t.put w dst) = some t'} := by
  ext t'
  constructor
  · rintro ⟨events, acts⟩
    cases (language_acts_iff moves).1 acts with
    | move moved => exact moved
  · intro moved
    exact ⟨[], (language_acts_iff moves).2 (.move moved)⟩

theorem quiet_move {stmt : Stmt} {src dst : Location} (moves : stmt.action = .move src dst) :
    (Store.setting callees places).language.Quiet stmt := by
  intro i s events flow s' acts
  cases (language_acts_iff moves).1 acts
  exact ⟨rfl, rfl⟩

end

variable {l : Layout} {sizes : Name → Option Int64} {names : List Name} {callees : Callees} {s : Named}
  {t : Store}

theorem flows_load {k : Nat} {places : List (Location × Register)} {before : List Stmt}
    (housed : Housed l sizes names) (agrees : Agrees l sizes names s t)
    (moves : before.map Stmt.action = places.map load) (distinct : (places.map Prod.snd).Nodup)
    (scratch : ∀ {place r}, (place, r) ∈ places → r ∉ Register.locals)
    (source : ∀ {place r}, (place, r) ∈ places → (∀ q, place ≠ .register q) ∧ (t.get place).isSome) :
    ∃ t', (Store.setting callees l.get?).language.flows k before t = {t'} ∧ Agrees l sizes names s t' ∧
      (∀ {place r}, (place, r) ∈ places → t.get place = some (t'.regs r)) ∧
      ∀ r ∉ places.map Prod.snd, t'.regs r = t.regs r := by
  induction places generalizing before k t with
  | nil =>
    obtain rfl : before = [] := by simpa using moves
    exact ⟨t, rfl, agrees, fun member => (by cases member), fun _ _ => rfl⟩
  | cons entry places ih =>
    obtain ⟨place, r⟩ := entry
    obtain _ | ⟨first, before⟩ := before
    · cases moves
    · rw [List.map_cons, List.map_cons, List.cons.injEq] at moves
      obtain ⟨first_moves, moves⟩ := moves
      obtain ⟨notAgain, distinct⟩ := List.nodup_cons.1 distinct
      obtain ⟨w, held⟩ := Option.isSome_iff_exists.1 (source (List.mem_cons_self ..)).2
      have unchanged : ∀ {place' r'}, (place', r') ∈ places →
          ({ t with regs := Function.update t.regs r w } : Store).get place' = t.get place' := by
        intro place' r' member
        have plain := (source (List.mem_cons_of_mem _ member)).1
        cases place' with
        | register q => exact absurd rfl (plain q)
        | _ => rfl
      obtain ⟨t', flow, agrees', loaded, others⟩ := ih (k := k + 1)
        (agrees.scratch housed w (scratch (List.mem_cons_self ..))) moves distinct
        (fun member => scratch (List.mem_cons_of_mem _ member))
        (fun member => ⟨(source (List.mem_cons_of_mem _ member)).1, by
          rw [unchanged member]
          exact (source (List.mem_cons_of_mem _ member)).2⟩)
      have step : (Store.setting callees l.get?).language.nexts k first t =
          {{ t with regs := Function.update t.regs r w }} := by
        rw [nexts_move first_moves]
        ext t''
        simp [held, Store.put, eq_comm]
      refine ⟨t', ?_, agrees', ?_, ?_⟩
      · rw [Language.flows, step, andThen_singleton, flow]
      · intro place' r' member
        rcases List.mem_cons.1 member with same | member
        · obtain ⟨rfl, rfl⟩ := Prod.mk.inj same
          rw [others r' notAgain, held]
          simp
        · rw [← loaded member, unchanged member]
      · intro r' outside
        simp only [List.map_cons, List.mem_cons, not_or] at outside
        rw [others r' outside.2]
        simp [outside.1]

namespace Served

variable {xs : List Name} {lent : Renaming} {places : List (Location × Register)}

theorem reads (callees : Callees) (served : Served l xs lent places) (housed : Housed l sizes names)
    (agrees : Agrees l sizes names s t) (used : ∀ x ∈ xs, x ∈ names) {before : List Stmt}
    (moves : before.map Stmt.action = places.map load) (k : Nat) :
    ∃ t', (Store.setting callees l.get?).language.flows k before t = {t'} ∧ Agrees l sizes names s t' ∧
      (xs.map lent.apply).mapM ((Store.setting callees l.get?).read t') = some (xs.map (s.get sizes)) := by
  have source : ∀ {place r}, (place, r) ∈ places →
      (∀ q, place ≠ .register q) ∧ (t.get place).isSome := by
    intro place r member
    obtain ⟨plain, x, named, found⟩ := served.source member
    have value := agrees.values x (used x named)
    rw [found, Option.bind_some] at value
    exact ⟨plain, by rw [value]; rfl⟩
  obtain ⟨t', flow, agrees', loaded, _⟩ := flows_load housed agrees moves served.distinct served.scratch source
  refine ⟨t', flow, agrees', ?_⟩
  have value : ∀ x ∈ xs, (l.get? (lent.apply x)).bind t'.get = some (s.get sizes x) := by
    intro x member
    rcases served.operand x member with ⟨r, found, same⟩ | ⟨place, r, found, lentPlace, register⟩
    · rw [same]
      exact agrees'.values x (used x member)
    · have held := agrees.values x (used x member)
      rw [found, Option.bind_some, loaded lentPlace] at held
      rw [register]
      exact held
  clear moves flow loaded source used served
  induction xs with
  | nil => rfl
  | cons x xs ih =>
    have first := value x (List.mem_cons_self ..)
    rw [List.map_cons, List.map_cons, List.mapM_cons, ih fun y member => value y (List.mem_cons_of_mem _ member)]
    change (do let a ← (l.get? (lent.apply x)).bind t'.get; _) = _
    rw [first]
    rfl

theorem places_nil (served : Served l [] lent places) : places = [] := by
  cases places with
  | nil => rfl
  | cons entry places =>
    obtain ⟨_, x, member, _⟩ := served.source (List.mem_cons_self ..)
    cases member

theorem writes {x : Name} (served : Served l [x] lent places) (housed : Housed l sizes names)
    (agrees : Agrees l sizes names s t) (used : x ∈ names) (few : places.length ≤ 1) (w : Word) (k : Nat) :
    ∃ t₁ t', (Store.setting callees l.get?).write t (lent.apply x) w = some t₁ ∧
      (Store.setting callees l.get?).language.flows k (places.map fun p => .plain (unload p)) t₁ = {t'} ∧
      Agrees l sizes names (s.put sizes x w) t' := by
  rcases served.operand x (by simp) with ⟨r, found, same⟩ | ⟨place, r, found, member, register⟩
  · have empty : places = [] := by
      cases places with
      | nil => rfl
      | cons entry places =>
        obtain ⟨place', r'⟩ := entry
        obtain ⟨plain, y, named, found'⟩ := served.source (List.mem_cons_self ..)
        rw [List.mem_singleton.1 named, found] at found'
        exact absurd (Option.some.inj found').symm (plain r)
    obtain ⟨place, t', found', written, agrees'⟩ := agrees.put housed used w
    subst empty
    refine ⟨t', t', ?_, rfl, agrees'⟩
    rw [same]
    change (l.get? x).bind (t.put w) = some t'
    rw [found']
    exact written
  · obtain rfl : places = [(place, r)] := by
      match places, few with
      | [entry], _ => rw [← List.mem_singleton.1 member]
    have unused := served.scratch member
    obtain ⟨place', t', found', written, agrees'⟩ := (agrees.scratch housed w unused).put housed used w
    cases found.symm.trans found'
    refine ⟨{ t with regs := Function.update t.regs r w }, t', ?_, ?_, agrees'⟩
    · change (l.get? (lent.apply x)).bind (t.put w) = _
      rw [register]
      rfl
    · rw [List.map_cons, List.map_nil, Language.flows_singleton, nexts_move rfl]
      ext t''
      simp [Store.get, written, eq_comm]

end Served

end MiniC.Storage
