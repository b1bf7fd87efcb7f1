import MiniC.Proofs.Lowering.Operands

/-!
Code that performs statements. A part of the code performs what a statement does if each way the
statement may end is met by the runs from the start of the part that go on where this end leads, and
the other way round. The rules for parts one after another, for conditions and for loops follow the
shape of the statements and do not depend on the code.
-/

namespace MiniC.Code.OfSource

open Source (Completion)

section

variable (w : World) (code : List Stmt)

/-- How a run goes on when a statement has ended: behind it, at a label of the loop, or not at all. -/
inductive Rest (loop : Option Loop) (next count : Nat) (τ : Valuation) :
    Completion → Outcome → Valuation → Prop
  | normal {outcome τ'} :
    w.setting.language.Closes code count next τ outcome τ' → Rest loop next count τ .normal outcome τ'
  | broke {l pc outcome τ'} :
    loop = some l → w.setting.language.labelled code l.exit = some pc →
    w.setting.language.Closes code count pc τ outcome τ' → Rest loop next count τ .broke outcome τ'
  | continued {l pc outcome τ'} :
    loop = some l → w.setting.language.labelled code l.check = some pc →
    w.setting.language.Closes code count pc τ outcome τ' → Rest loop next count τ .continued outcome τ'
  | returned {value} : Rest loop next count τ (.returned value) (.returned value) τ

/-- The code from `k` on does what a statement does, and goes on at `next` if it ends normally. -/
structure Performs (loop : Option Loop) (results : Valuation → Set (Completion × Valuation))
    (k next : Nat) : Prop where
  forth : ∀ {σ τ completion σ'}, τ.user = σ.user → (completion, σ') ∈ results σ →
    ∃ τ', τ'.user = σ'.user ∧ ∀ {count outcome τ''},
      Rest w code loop next count τ' completion outcome τ'' →
      ∃ count', w.setting.language.Closes code count' k τ outcome τ''
  back : ∀ {σ τ count outcome τ''}, τ.user = σ.user → w.setting.language.Closes code count k τ outcome τ'' →
    ∃ completion σ' τ' count', (completion, σ') ∈ results σ ∧ τ'.user = σ'.user ∧ count' ≤ count ∧
      Rest w code loop next count' τ' completion outcome τ''

structure Tests (values : Valuation → Set (Word × Valuation)) (k no yes : Nat) : Prop where
  forth : ∀ {σ τ c σ'}, τ.user = σ.user → (c, σ') ∈ values σ →
    ∃ τ', τ'.user = σ'.user ∧ ∀ {count outcome τ''},
      w.setting.language.Closes code count (if c = 0 then no else yes) τ' outcome τ'' →
      ∃ count', w.setting.language.Closes code count' k τ outcome τ''
  back : ∀ {σ τ count outcome τ''}, τ.user = σ.user → w.setting.language.Closes code count k τ outcome τ'' →
    ∃ c σ' τ' count', (c, σ') ∈ values σ ∧ τ'.user = σ'.user ∧ count' < count ∧
      w.setting.language.Closes code count' (if c = 0 then no else yes) τ' outcome τ''

/-- From `k` on the run goes to `next` and changes nothing. -/
def Passes (k next : Nat) : Prop :=
  ∀ {count τ outcome τ'}, w.setting.language.Closes code count k τ outcome τ' ↔
    ∃ count', count = count' + 1 ∧ w.setting.language.Closes code count' next τ outcome τ'

end

variable {w : World} {code part : List Stmt} {loop : Option Loop} {k mid next : Nat}
  {results : Valuation → Set (Completion × Valuation)}

namespace Rest

variable {count : Nat} {τ τ' : Valuation} {completion : Completion} {outcome : Outcome}

theorem broke_iff : Rest w code loop next count τ .broke outcome τ' ↔
    ∃ l pc, loop = some l ∧ w.setting.language.labelled code l.exit = some pc ∧
      w.setting.language.Closes code count pc τ outcome τ' := by
  constructor
  · rintro ⟨⟩
    exact ⟨_, _, ‹_›, ‹_›, ‹_›⟩
  · rintro ⟨l, pc, inside, found, closes⟩
    exact .broke inside found closes

theorem continued_iff : Rest w code loop next count τ .continued outcome τ' ↔
    ∃ l pc, loop = some l ∧ w.setting.language.labelled code l.check = some pc ∧
      w.setting.language.Closes code count pc τ outcome τ' := by
  constructor
  · rintro ⟨⟩
    exact ⟨_, _, ‹_›, ‹_›, ‹_›⟩
  · rintro ⟨l, pc, inside, found, closes⟩
    exact .continued inside found closes

theorem elsewhere (abrupt : completion ≠ .normal)
    (rest : Rest w code loop next count τ completion outcome τ') (mid : Nat) :
    Rest w code loop mid count τ completion outcome τ' := by
  cases rest with
  | normal _ => exact absurd rfl abrupt
  | broke inside found closes => exact .broke inside found closes
  | continued inside found closes => exact .continued inside found closes
  | returned => exact .returned

end Rest

namespace Passes

theorem mark {label : Name} (placed : CodeAt code k (.mark label :: part)) : Passes w code k (k + 1) := by
  intro count τ outcome τ'
  rw [Language.closes_step placed.head fun _ _ _ acts => by cases acts]
  constructor
  · rintro ⟨count', flow, s₁, pc₁, rfl, ⟨events, acts⟩, target, rest⟩
    cases acts
    obtain rfl : k + 1 = pc₁ := Option.some.inj target
    exact ⟨count', rfl, rest⟩
  · rintro ⟨count', rfl, rest⟩
    exact ⟨count', .next, τ, k + 1, rfl, ⟨[], .nop⟩, rfl, rest⟩

theorem jump {label : Name} (placed : CodeAt code k (.plain (.jump label) :: part))
    (found : w.setting.language.labelled code label = some next) : Passes w code k next := by
  intro count τ outcome τ'
  rw [closes_jump placed.head rfl]
  constructor
  · rintro ⟨count', pc', rfl, target, rest⟩
    cases found.symm.trans target
    exact ⟨count', rfl, rest⟩
  · rintro ⟨count', rfl, rest⟩
    exact ⟨count', next, rfl, found, rest⟩

end Passes

namespace Tests

variable {values : Valuation → Set (Word × Valuation)} {no yes : Nat}

theorem before (passes : Passes w code k mid) (tests : Tests w code values mid no yes) :
    Tests w code values k no yes where
  forth same computed := by
    obtain ⟨τ', same', go⟩ := tests.forth same computed
    refine ⟨τ', same', fun closes => ?_⟩
    obtain ⟨count', closes⟩ := go closes
    exact ⟨count' + 1, passes.2 ⟨count', rfl, closes⟩⟩
  back same closes := by
    obtain ⟨count', rfl, later⟩ := passes.1 closes
    obtain ⟨c, σ', τ', count'', computed, same', fewer, rest⟩ := tests.back same later
    exact ⟨c, σ', τ', count'', computed, same', by omega, rest⟩

end Tests

namespace Performs

theorem before (passes : Passes w code k mid) (performs : Performs w code loop results mid next) :
    Performs w code loop results k next where
  forth same ended := by
    obtain ⟨τ', same', go⟩ := performs.forth same ended
    refine ⟨τ', same', fun rest => ?_⟩
    obtain ⟨count', closes⟩ := go rest
    exact ⟨count' + 1, passes.2 ⟨count', rfl, closes⟩⟩
  back same closes := by
    obtain ⟨count', rfl, later⟩ := passes.1 closes
    obtain ⟨completion, σ', τ', count'', ended, same', fewer, rest⟩ := performs.back same later
    exact ⟨completion, σ', τ', count'', ended, same', by omega, rest⟩

theorem after (performs : Performs w code loop results k mid) (passes : Passes w code mid next) :
    Performs w code loop results k next where
  forth same ended := by
    obtain ⟨τ', same', go⟩ := performs.forth same ended
    refine ⟨τ', same', fun {count _ _} rest => ?_⟩
    cases rest with
    | normal closes => exact go (.normal (passes.2 ⟨count, rfl, closes⟩))
    | broke inside found closes => exact go (.broke inside found closes)
    | continued inside found closes => exact go (.continued inside found closes)
    | returned => exact @go 0 _ _ .returned
  back same closes := by
    obtain ⟨completion, σ', τ', count', ended, same', fewer, rest⟩ := performs.back same closes
    cases rest with
    | normal closes =>
      obtain ⟨count'', rfl, later⟩ := passes.1 closes
      exact ⟨_, σ', τ', count'', ended, same', by omega, .normal later⟩
    | broke inside found closes =>
      exact ⟨_, σ', τ', count', ended, same', fewer, .broke inside found closes⟩
    | continued inside found closes =>
      exact ⟨_, σ', τ', count', ended, same', fewer, .continued inside found closes⟩
    | returned => exact ⟨_, σ', _, count', ended, same', fewer, .returned⟩

theorem straight (placed : CodeAt code k part) (plain : ∀ stmt ∈ part, stmt.IsStraight)
    (runs : ∀ σ τ, τ.user = σ.user →
      Matches (fun out τ' => out.1 = .normal ∧ τ'.user = out.2.user) (results σ) (w.setting.language.flows k part τ)) :
    Performs w code loop results k (k + part.length) where
  forth {σ τ completion σ'} same ended := by
    obtain ⟨τ', flow, rfl, same'⟩ := (runs σ τ same).1 _ ended
    refine ⟨τ', same', fun {count _ _} rest => ?_⟩
    cases rest with
    | normal closes =>
      refine ⟨count + part.length, ?_⟩
      rw [Language.closes_straight placed fun stmt member => (plain stmt member).straight]
      exact ⟨τ', flow, count, rfl, closes⟩
  back {σ τ count outcome τ''} same closes := by
    rw [Language.closes_straight placed fun stmt member => (plain stmt member).straight] at closes
    obtain ⟨τ', flow, count', rfl, closes⟩ := closes
    obtain ⟨⟨completion, σ'⟩, ended, rfl, same'⟩ := (runs σ τ same).2 _ flow
    exact ⟨_, σ', τ', count', ended, same', by omega, .normal closes⟩

theorem andThen {second : Valuation → Set (Completion × Valuation)}
    (first : Performs w code loop results k mid) (rest : Performs w code loop second mid next) :
    Performs w code loop (fun σ => MiniC.andThen (results σ) fun (completion, σ) =>
      if completion = .normal then second σ else {(completion, σ)}) k next where
  forth {σ τ completion σ'} same ended := by
    obtain ⟨⟨completion₁, σ₁⟩, ended₁, ended⟩ := ended
    obtain ⟨τ₁, same₁, go₁⟩ := first.forth same ended₁
    dsimp only at ended
    split at ended
    · rename_i normal
      subst normal
      obtain ⟨τ', same', go⟩ := rest.forth same₁ ended
      refine ⟨τ', same', fun final => ?_⟩
      obtain ⟨count', closes⟩ := go final
      exact go₁ (.normal closes)
    · rename_i abrupt
      obtain ⟨rfl, rfl⟩ := Prod.mk.inj ended
      exact ⟨τ₁, same₁, fun final => go₁ (final.elsewhere abrupt mid)⟩
  back {σ τ count outcome τ''} same closes := by
    obtain ⟨completion, σ₁, τ₁, count₁, ended₁, same₁, fewer₁, middle⟩ := first.back same closes
    by_cases normal : completion = .normal
    · subst normal
      cases middle with
      | normal closes =>
        obtain ⟨completion, σ', τ', count', ended, same', fewer, final⟩ := rest.back same₁ closes
        exact ⟨completion, σ', τ', count', ⟨(.normal, σ₁), ended₁, ended⟩, same', by omega, final⟩
    · refine ⟨completion, σ₁, τ₁, count₁, ⟨(completion, σ₁), ended₁, ?_⟩, same₁, fewer₁,
        middle.elsewhere normal next⟩
      dsimp only
      rw [if_neg normal]
      rfl

theorem choice {values : Valuation → Set (Word × Valuation)} {no yes : Nat}
    {otherwise : Valuation → Set (Completion × Valuation)} (tests : Tests w code values k no yes)
    (whenTrue : Performs w code loop results yes next) (whenFalse : Performs w code loop otherwise no next) :
    Performs w code loop (fun σ => MiniC.andThen (values σ) fun (c, σ) =>
      if c ≠ 0 then results σ else otherwise σ) k next where
  forth {σ τ completion σ'} same ended := by
    obtain ⟨⟨c, σ₁⟩, computed, ended⟩ := ended
    obtain ⟨τ₁, same₁, go₁⟩ := tests.forth same computed
    dsimp only at ended
    split at ended
    · rename_i nonzero
      obtain ⟨τ', same', go⟩ := whenTrue.forth same₁ ended
      refine ⟨τ', same', fun rest => ?_⟩
      obtain ⟨count', closes⟩ := go rest
      rw [if_neg nonzero] at go₁
      exact go₁ closes
    · rename_i isZero
      obtain ⟨τ', same', go⟩ := whenFalse.forth same₁ ended
      refine ⟨τ', same', fun rest => ?_⟩
      obtain ⟨count', closes⟩ := go rest
      rw [if_pos (not_not.1 isZero)] at go₁
      exact go₁ closes
  back {σ τ count outcome τ''} same closes := by
    obtain ⟨c, σ₁, τ₁, count₁, computed, same₁, fewer₁, closes⟩ := tests.back same closes
    by_cases isZero : c = 0
    · rw [if_pos isZero] at closes
      obtain ⟨completion, σ', τ', count', ended, same', fewer, rest⟩ := whenFalse.back same₁ closes
      refine ⟨completion, σ', τ', count', ⟨(c, σ₁), computed, ?_⟩, same', by omega, rest⟩
      dsimp only
      rw [if_neg (not_not.2 isZero)]
      exact ended
    · rw [if_neg isZero] at closes
      obtain ⟨completion, σ', τ', count', ended, same', fewer, rest⟩ := whenTrue.back same₁ closes
      refine ⟨completion, σ', τ', count', ⟨(c, σ₁), computed, ?_⟩, same', by omega, rest⟩
      dsimp only
      rw [if_pos isZero]
      exact ended

theorem of_loop {values : Valuation → Set (Word × Valuation)} {again exit : Name} {inner : Nat} {outer : Option Loop}
    (tests : Tests w code values k next inner)
    (body : Performs w code (some ⟨again, exit⟩) results inner k)
    (start : w.setting.language.labelled code again = some k) (stop : w.setting.language.labelled code exit = some next) :
    Performs w code outer (fun σ => {out | Source.Loop values results σ out.1 out.2}) k next where
  forth {σ τ completion σ'} same ended := by
    change Source.Loop values results σ completion σ' at ended
    induction ended generalizing τ with
    | done computed =>
      obtain ⟨τ', same', go⟩ := tests.forth same computed
      refine ⟨τ', same', fun rest => ?_⟩
      cases rest with
      | normal closes => exact go (by rw [if_pos rfl]; exact closes)
    | again computed nonzero ended goesOn _ ih =>
      obtain ⟨τ₁, same₁, go₁⟩ := tests.forth same computed
      obtain ⟨τ₂, same₂, go₂⟩ := body.forth same₁ ended
      obtain ⟨τ', same', go⟩ := ih same₂
      refine ⟨τ', same', fun rest => ?_⟩
      obtain ⟨count', closes⟩ := go rest
      rw [if_neg nonzero] at go₁
      rcases goesOn with rfl | rfl
      · obtain ⟨count'', closes⟩ := go₂ (.normal closes)
        exact go₁ closes
      · obtain ⟨count'', closes⟩ := go₂ (.continued rfl start closes)
        exact go₁ closes
    | broke computed nonzero ended =>
      obtain ⟨τ₁, same₁, go₁⟩ := tests.forth same computed
      obtain ⟨τ', same', go⟩ := body.forth same₁ ended
      rw [if_neg nonzero] at go₁
      refine ⟨τ', same', fun rest => ?_⟩
      cases rest with
      | normal closes =>
        obtain ⟨count', closes⟩ := go (.broke rfl stop closes)
        exact go₁ closes
    | returned computed nonzero ended =>
      obtain ⟨τ₁, same₁, go₁⟩ := tests.forth same computed
      obtain ⟨τ', same', go⟩ := body.forth same₁ ended
      rw [if_neg nonzero] at go₁
      refine ⟨τ', same', fun rest => ?_⟩
      cases rest with
      | returned =>
        obtain ⟨count', closes⟩ := @go 0 _ _ .returned
        exact go₁ closes
  back {σ τ count outcome τ''} same closes := by
    -- each round takes at least the step of the test, so the steps that are left get fewer
    induction count using Nat.strongRecOn generalizing σ τ with
    | ind count ih =>
      obtain ⟨c, σ₁, τ₁, count₁, computed, same₁, fewer₁, closes⟩ := tests.back same closes
      by_cases isZero : c = 0
      · subst isZero
        rw [if_pos rfl] at closes
        exact ⟨.normal, σ₁, τ₁, count₁, .done computed, same₁, by omega, .normal closes⟩
      · rw [if_neg isZero] at closes
        obtain ⟨completion, σ₂, τ₂, count₂, ended, same₂, fewer₂, rest⟩ := body.back same₁ closes
        cases rest with
        | normal closes =>
          obtain ⟨completion, σ', τ', count', loops, same', fewer, rest⟩ :=
            ih count₂ (by omega) same₂ closes
          exact ⟨completion, σ', τ', count', .again computed isZero ended (.inl rfl) loops, same',
            by omega, rest⟩
        | continued inside found closes =>
          cases inside
          cases start.symm.trans found
          obtain ⟨completion, σ', τ', count', loops, same', fewer, rest⟩ :=
            ih count₂ (by omega) same₂ closes
          exact ⟨completion, σ', τ', count', .again computed isZero ended (.inr rfl) loops, same',
            by omega, rest⟩
        | broke inside found closes =>
          cases inside
          cases stop.symm.trans found
          exact ⟨.normal, σ₂, τ₂, count₂, .broke computed isZero ended, same₂, by omega, .normal closes⟩
        | returned =>
          exact ⟨_, σ₂, _, count₂, .returned computed isZero ended, same₂, by omega, .returned⟩

end Performs

end MiniC.Code.OfSource
