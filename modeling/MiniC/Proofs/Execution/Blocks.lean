import MiniC.Proofs.Execution.Quiet
import Mathlib.Data.List.Forall2

namespace MiniC

inductive Block (J : Type)
  | quiet (code : List J)
  | around (before : List J) (core : J) (behind : List J)

namespace Block

variable {J T : Type}

def code : Block J → List J
  | quiet code => code
  | around before core behind => before ++ core :: behind

/-- The ways through a block that stands at `k`. -/
def Passes (L : Language J T) (k : Nat) (t : T) (events : List Event) (flow : Flow) (t' : T) :
    Block J → Prop
  | quiet code => events = [] ∧ flow = .next ∧ t' ∈ L.flows k code t
  | around before core behind =>
    ∃ t₁ ∈ L.flows k before t, ∃ t₂, L.acts (k + before.length) t₁ core events flow t₂ ∧
      if flow = .next then t' ∈ L.flows (k + before.length + 1) behind t₂ else t' = t₂

/-- Nothing is seen of the instructions around the core, and those behind it are never stuck. -/
def Calm (L : Language J T) : Block J → Prop
  | quiet code => ∀ instr ∈ code, L.Quiet instr
  | around before _ behind =>
    (∀ instr ∈ before, L.Quiet instr) ∧ (∀ instr ∈ behind, L.Quiet instr) ∧
      ∀ k t, (L.flows k behind t).Nonempty

def target (L : Language J T) (code : List J) (k : Nat) (b : Block J) : Flow → Option Nat
  | .next => some (k + b.code.length)
  | flow => L.target code k flow

variable {L : Language J T} {code : List J} {k : Nat} {b : Block J} {t t' : T} {events : List Event}
  {flow : Flow}

theorem around_length (k : Nat) (before : List J) (core : J) (behind : List J) :
    k + before.length + 1 + behind.length = k + (around before core behind).code.length := by
  simp only [Block.code, List.length_append, List.length_cons]
  omega

theorem steps_of_passes {pc : Nat} (placed : CodeAt code k b.code) (calm : b.Calm L)
    (passes : b.Passes L k t events flow t') (goes : b.target L code k flow = some pc) :
    ∃ count, L.Steps code count k t events pc t' := by
  cases b with
  | quiet part =>
    obtain ⟨rfl, rfl, flow⟩ := passes
    obtain rfl : k + part.length = pc := Option.some.inj goes
    exact ⟨_, Language.steps_of_flows placed calm flow⟩
  | around before core behind =>
    obtain ⟨t₁, first, t₂, acts, last⟩ := passes
    have run := Language.steps_of_flows placed.left calm.1 first
    have core_at := placed.right.head
    split at last
    · rename_i on
      subst on
      rw [target, ← around_length] at goes
      obtain rfl := Option.some.inj goes
      have rest := Language.steps_of_flows placed.right.tail calm.2.1 last
      have core_run : L.Steps code 1 _ t₁ events _ t₂ := .single core_at acts rfl
      exact ⟨_, by simpa using run.trans (core_run.trans rest)⟩
    · rename_i off
      subst last
      have away : L.target code (k + before.length) flow = some pc := by
        cases flow with
        | next => exact absurd rfl off
        | _ => exact goes
      have core_run : L.Steps code 1 _ t₁ events pc t' := .single core_at acts away
      exact ⟨_, by simpa using run.trans core_run⟩

theorem ends_of_passes {value : Option Word} (placed : CodeAt code k b.code) (calm : b.Calm L)
    (passes : b.Passes L k t events (.leave value) t') :
    ∃ count, L.Ends code count k t events (.returned value) t' := by
  cases b with
  | quiet part =>
    obtain ⟨_, never, _⟩ := passes
    cases never
  | around before core behind =>
    obtain ⟨t₁, first, t₂, acts, last⟩ := passes
    rw [if_neg (by simp)] at last
    subst last
    have run := Language.steps_of_flows placed.left calm.1 first
    have final : L.Ends code 0 _ t₁ events (.returned value) t' := .halt (.returned placed.right.head acts)
    exact ⟨_, by simpa using run.ends final⟩

theorem passes_of_steps {count pc : Nat} {t'' : T} (placed : CodeAt code k b.code) (calm : b.Calm L)
    (steps : L.Steps code count k t events pc t'') :
    events = [] ∨ ∃ seen flow t' next count' rest pc' t₂, b.Passes L k t seen flow t' ∧
      b.target L code k flow = some next ∧ events = seen ++ rest ∧
      L.Steps code count' next t' rest pc' t₂ ∧ count' ≤ count ∧ (flow ≠ .next → count' < count) := by
  cases b with
  | quiet part =>
    rcases steps.quiet placed calm with stopped | ⟨t', flow, count', rfl, later⟩
    · exact .inl stopped
    · exact .inr ⟨[], .next, t', _, count', events, pc, t'', ⟨rfl, rfl, flow⟩, rfl, rfl, later, by omega,
        fun off => absurd rfl off⟩
  | around before core behind =>
    rcases steps.quiet placed.left calm.1 with stopped | ⟨t₁, first, count₁, rfl, later⟩
    · exact .inl stopped
    · cases later with
      | none => exact .inl rfl
      | @one count₂ _ pc₁ _ instr flow seen rest _ t₂ _ at_ acts goes later =>
        obtain rfl : core = _ := Option.some.inj (placed.right.head.symm.trans at_)
        right
        by_cases on : flow = .next
        · subst on
          obtain rfl : k + before.length + 1 = _ := Option.some.inj goes
          rcases later.quiet placed.right.tail calm.2.1 with stopped | ⟨t', last, count', rfl, final⟩
          · obtain ⟨t', last⟩ := calm.2.2 (k + before.length + 1) t₂
            exact ⟨seen, .next, t', _, 0, [], _, t', ⟨t₁, first, t₂, acts, last⟩, rfl, by rw [stopped],
              .none, by omega, fun off => absurd rfl off⟩
          · rw [around_length] at final
            exact ⟨seen, .next, t', _, count', rest, pc, t'', ⟨t₁, first, t₂, acts, last⟩, rfl, rfl, final,
              by omega, fun off => absurd rfl off⟩
        · have away : (around before core behind).target L code k flow = some pc₁ := by
            cases flow with
            | next => exact absurd rfl on
            | _ => exact goes
          refine ⟨seen, flow, t₂, pc₁, count₂, rest, pc, t'', ⟨t₁, first, t₂, acts, ?_⟩, away, rfl, later,
            by omega, fun _ => by omega⟩
          rw [if_neg on]

theorem passes_of_ends {count : Nat} {outcome : Outcome} {t'' : T} (placed : CodeAt code k b.code)
    (calm : b.Calm L) (ends : L.Ends code count k t events outcome t'') :
    (∃ value, outcome = .returned value ∧ b.Passes L k t events (.leave value) t'') ∨
      ∃ seen flow t' next count' rest, b.Passes L k t seen flow t' ∧
        b.target L code k flow = some next ∧ events = seen ++ rest ∧
        L.Ends code count' next t' rest outcome t'' ∧ count' ≤ count ∧ (flow ≠ .next → count' < count) := by
  cases b with
  | quiet part =>
    obtain ⟨t', flow, count', rfl, later⟩ := ends.quiet placed calm
    exact .inr ⟨[], .next, t', _, count', events, ⟨rfl, rfl, flow⟩, rfl, rfl, later, by omega,
      fun off => absurd rfl off⟩
  | around before core behind =>
    obtain ⟨t₁, first, count₁, rfl, later⟩ := ends.quiet placed.left calm.1
    have core_at := placed.right.head
    cases later with
    | halt halts =>
      generalize stop : k + before.length = pc at halts core_at
      cases halts with
      | fell => simp at core_at
      | returned at_ acts =>
        obtain rfl : core = _ := Option.some.inj (core_at.symm.trans at_)
        subst stop
        exact .inl ⟨_, rfl, t₁, first, t'', acts, by simp⟩
    | @step count₂ _ pc₁ instr flow seen rest _ _ t₂ _ at_ acts goes later =>
      obtain rfl : core = _ := Option.some.inj (core_at.symm.trans at_)
      right
      by_cases on : flow = .next
      · subst on
        obtain rfl : k + before.length + 1 = _ := Option.some.inj goes
        obtain ⟨t', last, count', rfl, final⟩ := later.quiet placed.right.tail calm.2.1
        rw [around_length] at final
        exact ⟨seen, .next, t', _, count', rest, ⟨t₁, first, t₂, acts, last⟩, rfl, rfl, final, by omega,
          fun off => absurd rfl off⟩
      · have away : (around before core behind).target L code k flow = some pc₁ := by
          cases flow with
          | next => exact absurd rfl on
          | _ => exact goes
        refine ⟨seen, flow, t₂, pc₁, count₂, rest, ⟨t₁, first, t₂, acts, ?_⟩, away, rfl, later, by omega,
          fun _ => by omega⟩
        rw [if_neg on]

end Block

namespace Language

variable {I J S T : Type}

def joined (blocks : List (Block J)) : List J :=
  blocks.flatMap Block.code

def place (blocks : List (Block J)) (i : Nat) : Nat :=
  (joined (blocks.take i)).length

/-- How an instruction and its block end: both go on, both jump to a label, or both leave. -/
inductive Lands (R : S → T → Prop) (X : Option Word → S → Option Word → T → Prop) :
    Flow → S → Flow → T → Prop
  | next {s t} : R s t → Lands R X .next s .next t
  | goto {s t label} : R s t → Lands R X (.goto label) s (.goto label) t
  | leave {s t v v'} : X v s v' t → Lands R X (.leave v) s (.leave v') t

inductive Final (R : S → T → Prop) (X : Option Word → S → Option Word → T → Prop) :
    Outcome × S → Outcome × T → Prop
  | fell {s t} : R s t → Final R X (.fell, s) (.fell, t)
  | returned {s t v v'} : X v s v' t → Final R X (.returned v, s) (.returned v', t)

/-- The label of an instruction stands on the first instruction of its block and nowhere else. -/
def Marks (L₁ : Language I S) (L₂ : Language J T) (instr : I) (b : Block J) : Prop :=
  match b.code with
  | [] => L₁.label instr = []
  | first :: rest => L₂.label first = L₁.label instr ∧ ∀ other ∈ rest, L₂.label other = []

/-- The block at `k` does what the instruction numbered `i` does: the same is seen, and both end alike. -/
def Follows (L₁ : Language I S) (L₂ : Language J T) (R : S → T → Prop)
    (X : Option Word → S → Option Word → T → Prop) (i : Nat) (instr : I) (k : Nat) (b : Block J) : Prop :=
  ∀ s t, R s t → Matches (fun out out' : List Event × Flow × _ => out.1 = out'.1 ∧
      Lands R X out.2.1 out.2.2 out'.2.1 out'.2.2)
    {out | L₁.acts i s instr out.1 out.2.1 out.2.2} {out | b.Passes L₂ k t out.1 out.2.1 out.2.2}

/-- Blocks that do what the instructions of `body` do. -/
structure Simulates (L₁ : Language I S) (L₂ : Language J T) (body : List I) (blocks : List (Block J))
    (R : S → T → Prop) (X : Option Word → S → Option Word → T → Prop) : Prop where
  marks : List.Forall₂ (Marks L₁ L₂) body blocks
  calm : ∀ b ∈ blocks, b.Calm L₂
  follows : ∀ {i instr b}, body[i]? = some instr → blocks[i]? = some b →
    Follows L₁ L₂ R X i instr (place blocks i) b

theorem joined_cons (b : Block J) (blocks : List (Block J)) : joined (b :: blocks) = b.code ++ joined blocks :=
  List.flatMap_cons

theorem joined_append (first second : List (Block J)) : joined (first ++ second) = joined first ++ joined second :=
  List.flatMap_append

theorem place_succ {blocks : List (Block J)} {i : Nat} {b : Block J} (at_ : blocks[i]? = some b) :
    place blocks (i + 1) = place blocks i + b.code.length := by
  rw [place, place, List.take_add_one, at_]
  simp [joined]

theorem codeAt_place {blocks : List (Block J)} {i : Nat} {b : Block J} (at_ : blocks[i]? = some b) :
    CodeAt (joined blocks) (place blocks i) b.code := by
  obtain ⟨bound, rfl⟩ := List.getElem?_eq_some_iff.1 at_
  have whole : CodeAt (joined blocks) 0 (joined (blocks.take i) ++ joined (blocks.drop i)) := by
    rw [← joined_append, List.take_append_drop]
    exact .whole _
  have rest := whole.right
  rw [List.drop_eq_getElem_cons bound, joined_cons, Nat.zero_add] at rest
  exact rest.left

theorem place_length {blocks : List (Block J)} : place blocks blocks.length = (joined blocks).length := by
  rw [place, List.take_length]

theorem labelled_joined {L₁ : Language I S} {L₂ : Language J T} {body : List I} {blocks : List (Block J)}
    (marks : List.Forall₂ (Marks L₁ L₂) body blocks) (label : Name) :
    L₂.labelled (joined blocks) label = (L₁.labelled body label).map (place blocks) := by
  unfold labelled
  split
  · rfl
  · rename_i named
    induction marks with
    | nil => rfl
    | @cons instr b body blocks mark _ ih =>
      have first : b.code.findIdx? (fun other => decide (L₂.label other = label)) =
          if L₁.label instr = label then some 0 else none := by
        unfold Marks at mark
        split at mark
        · rename_i empty
          rw [empty, mark, if_neg (Ne.symm named)]
          rfl
        · rename_i first rest code
          have none : rest.findIdx? (fun other => decide (L₂.label other = label)) = none := by
            rw [List.findIdx?_eq_none_iff]
            intro other member
            simp [mark.2 other member, Ne.symm named]
          rw [code, List.findIdx?_cons, none, mark.1]
          simp
      have shift : ∀ i, place (b :: blocks) (i + 1) = place blocks i + b.code.length := by
        intro i
        simp [place, joined, Nat.add_comm]
      rw [joined_cons, List.findIdx?_append, List.findIdx?_cons, first, ih]
      by_cases here : L₁.label instr = label
      · simp [here, place, joined]
      · simp [here, Option.map_map, Function.comp_def, shift]

namespace Simulates

variable {L₁ : Language I S} {L₂ : Language J T} {body : List I} {blocks : List (Block J)}
  {R : S → T → Prop} {X : Option Word → S → Option Word → T → Prop} {s s' : S} {t t' : T} {i : Nat}
  {events : List Event} {flow flow' : Flow} {count : Nat}

theorem of_each (length : body.length = blocks.length)
    (each : ∀ {i instr b}, body[i]? = some instr → blocks[i]? = some b →
      Marks L₁ L₂ instr b ∧ b.Calm L₂ ∧ Follows L₁ L₂ R X i instr (place blocks i) b) :
    Simulates L₁ L₂ body blocks R X where
  marks := by
    refine List.forall₂_iff_get.2 ⟨length, fun i inside inside' => ?_⟩
    exact (each (List.getElem?_eq_getElem inside) (List.getElem?_eq_getElem inside')).1
  calm b member := by
    obtain ⟨i, inside, rfl⟩ := List.getElem_of_mem member
    have inside' : i < body.length := by omega
    exact (each (List.getElem?_eq_getElem inside') (List.getElem?_eq_getElem inside)).2.1
  follows at_ block_at := (each at_ block_at).2.2

theorem length (sim : Simulates L₁ L₂ body blocks R X) : body.length = blocks.length :=
  sim.marks.length_eq

theorem forth (sim : Simulates L₁ L₂ body blocks R X) {instr : I} {b : Block J} (at_ : body[i]? = some instr)
    (block_at : blocks[i]? = some b) (related : R s t) (acts : L₁.acts i s instr events flow s') :
    ∃ flow' t', b.Passes L₂ (place blocks i) t events flow' t' ∧ Lands R X flow s' flow' t' := by
  obtain ⟨⟨_, flow', t'⟩, passes, rfl, lands⟩ := (sim.follows at_ block_at s t related).1 (events, flow, s') acts
  exact ⟨flow', t', passes, lands⟩

theorem back (sim : Simulates L₁ L₂ body blocks R X) {instr : I} {b : Block J} (at_ : body[i]? = some instr)
    (block_at : blocks[i]? = some b) (related : R s t)
    (passes : b.Passes L₂ (place blocks i) t events flow' t') :
    ∃ flow s', L₁.acts i s instr events flow s' ∧ Lands R X flow s' flow' t' := by
  obtain ⟨⟨_, flow, s'⟩, acts, rfl, lands⟩ :=
    (sim.follows at_ block_at s t related).2 (events, flow', t') passes
  exact ⟨flow, s', acts, lands⟩

theorem exists_block (sim : Simulates L₁ L₂ body blocks R X) {instr : I} (at_ : body[i]? = some instr) :
    ∃ b, blocks[i]? = some b ∧ b.Calm L₂ := by
  obtain ⟨bound, _⟩ := List.getElem?_eq_some_iff.1 at_
  rw [sim.length] at bound
  exact ⟨blocks[i], List.getElem?_eq_getElem bound, sim.calm _ (List.getElem_mem bound)⟩

theorem exists_instr (sim : Simulates L₁ L₂ body blocks R X) (inside : i < body.length) :
    ∃ instr b, body[i]? = some instr ∧ blocks[i]? = some b ∧ b.Calm L₂ := by
  have at_ : body[i]? = some body[i] := List.getElem?_eq_getElem inside
  obtain ⟨b, block_at, calm⟩ := sim.exists_block at_
  exact ⟨_, b, at_, block_at, calm⟩

theorem place_end (sim : Simulates L₁ L₂ body blocks R X) : place blocks body.length = (joined blocks).length := by
  rw [sim.length, place_length]

theorem target_forth (sim : Simulates L₁ L₂ body blocks R X) {b : Block J} {next : Nat}
    (at_ : blocks[i]? = some b) (lands : Lands R X flow s flow' t)
    (goes : L₁.target body i flow = some next) :
    R s t ∧ b.target L₂ (joined blocks) (place blocks i) flow' = some (place blocks next) := by
  cases lands with
  | next related =>
    obtain rfl : i + 1 = next := Option.some.inj goes
    exact ⟨related, by rw [place_succ at_, Block.target]⟩
  | @goto _ _ label related =>
    refine ⟨related, ?_⟩
    change L₂.labelled (joined blocks) label = _
    change L₁.labelled body label = _ at goes
    rw [labelled_joined sim.marks, goes]
    rfl
  | leave _ => cases goes

theorem target_back (sim : Simulates L₁ L₂ body blocks R X) {b : Block J} {next : Nat}
    (at_ : blocks[i]? = some b) (lands : Lands R X flow s flow' t)
    (goes : b.target L₂ (joined blocks) (place blocks i) flow' = some next) :
    R s t ∧ ∃ j, next = place blocks j ∧ L₁.target body i flow = some j ∧ (flow' = .next → j = i + 1) := by
  cases lands with
  | next related =>
    rw [Block.target, ← place_succ at_] at goes
    exact ⟨related, i + 1, (Option.some.inj goes).symm, rfl, fun _ => rfl⟩
  | @goto _ _ label related =>
    change L₂.labelled (joined blocks) label = _ at goes
    rw [labelled_joined sim.marks, Option.map_eq_some_iff] at goes
    obtain ⟨j, found, rfl⟩ := goes
    exact ⟨related, j, rfl, found, fun never => by cases never⟩
  | leave _ => cases goes

theorem steps_forth (sim : Simulates L₁ L₂ body blocks R X) {pc : Nat} (related : R s t)
    (steps : L₁.Steps body count i s events pc s') :
    ∃ count' t', L₂.Steps (joined blocks) count' (place blocks i) t events (place blocks pc) t' ∧ R s' t' := by
  induction steps generalizing t with
  | none => exact ⟨0, t, .none, related⟩
  | one at_ acts goes _ ih =>
    obtain ⟨b, block_at, calm⟩ := sim.exists_block at_
    obtain ⟨flow', t₁, passes, lands⟩ := sim.forth at_ block_at related acts
    obtain ⟨related₁, goes'⟩ := sim.target_forth block_at lands goes
    obtain ⟨count₁, first⟩ := Block.steps_of_passes (codeAt_place block_at) calm passes goes'
    obtain ⟨count₂, t', rest, related'⟩ := ih related₁
    exact ⟨_, t', first.trans rest, related'⟩

theorem ends_forth (sim : Simulates L₁ L₂ body blocks R X) {outcome : Outcome} (related : R s t)
    (ends : L₁.Ends body count i s events outcome s') :
    ∃ count' outcome' t', L₂.Ends (joined blocks) count' (place blocks i) t events outcome' t' ∧
      Final R X (outcome, s') (outcome', t') := by
  induction ends generalizing t with
  | halt halts =>
    cases halts with
    | fell =>
      rw [sim.place_end]
      exact ⟨0, .fell, t, .halt .fell, .fell related⟩
    | returned at_ acts =>
      obtain ⟨b, block_at, calm⟩ := sim.exists_block at_
      obtain ⟨flow', t', passes, lands⟩ := sim.forth at_ block_at related acts
      cases lands with
      | leave left =>
        obtain ⟨count', run⟩ := Block.ends_of_passes (codeAt_place block_at) calm passes
        exact ⟨count', _, t', run, .returned left⟩
  | step at_ acts goes _ ih =>
    obtain ⟨b, block_at, calm⟩ := sim.exists_block at_
    obtain ⟨flow', t₁, passes, lands⟩ := sim.forth at_ block_at related acts
    obtain ⟨related₁, goes'⟩ := sim.target_forth block_at lands goes
    obtain ⟨count₁, first⟩ := Block.steps_of_passes (codeAt_place block_at) calm passes goes'
    obtain ⟨count₂, outcome', t', rest, final⟩ := ih related₁
    exact ⟨_, outcome', t', first.ends rest, final⟩

theorem decreases {count' j : Nat} (inside : i < body.length) (fewer : count' ≤ count)
    (less : flow' ≠ .next → count' < count) (on : flow' = .next → j = i + 1) :
    count' < count ∨ count' = count ∧ body.length - j < body.length - i := by
  by_cases next : flow' = .next
  · have := on next
    omega
  · exact .inl (less next)

theorem steps_back (sim : Simulates L₁ L₂ body blocks R X) {s : S} {t t' : T} {i count pc : Nat}
    {events : List Event} (inside : i ≤ body.length) (related : R s t)
    (steps : L₂.Steps (joined blocks) count (place blocks i) t events pc t') :
    ∃ count' pc' s', L₁.Steps body count' i s events pc' s' := by
  by_cases final : i = body.length
  · subst final
    rw [sim.place_end] at steps
    rw [steps.of_end]
    exact ⟨0, _, s, .none⟩
  · have before : i < body.length := by omega
    obtain ⟨instr, b, at_, block_at, calm⟩ := sim.exists_instr before
    rcases Block.passes_of_steps (codeAt_place block_at) calm steps with unseen |
      ⟨seen, flow', t₁, next, count', rest, pc', t₂, passes, goes, rfl, later, fewer, less⟩
    · rw [unseen]
      exact ⟨0, i, s, .none⟩
    · obtain ⟨flow, s₁, acts, lands⟩ := sim.back at_ block_at related passes
      obtain ⟨related₁, j, rfl, goes, on⟩ := sim.target_back block_at lands goes
      have smaller := decreases before fewer less on
      obtain ⟨count₁, pc₁, s₂, run⟩ := steps_back sim (target_le before goes) related₁ later
      exact ⟨_, pc₁, s₂, .one at_ acts goes run⟩
termination_by (count, body.length - i)
decreasing_by exact Prod.lex_def.2 smaller

theorem ends_back (sim : Simulates L₁ L₂ body blocks R X) {s : S} {t t' : T} {i count : Nat}
    {events : List Event} {outcome' : Outcome} (inside : i ≤ body.length) (related : R s t)
    (ends : L₂.Ends (joined blocks) count (place blocks i) t events outcome' t') :
    ∃ count' outcome s', L₁.Ends body count' i s events outcome s' ∧ Final R X (outcome, s') (outcome', t') := by
  by_cases final : i = body.length
  · subst final
    rw [sim.place_end] at ends
    obtain ⟨rfl, rfl, rfl⟩ := closes_end.1 ⟨events, ends⟩
    cases ends with
    | halt halts =>
      cases halts
      exact ⟨0, .fell, s, .halt .fell, .fell related⟩
  · have before : i < body.length := by omega
    obtain ⟨instr, b, at_, block_at, calm⟩ := sim.exists_instr before
    rcases Block.passes_of_ends (codeAt_place block_at) calm ends with ⟨value, rfl, passes⟩ |
      ⟨seen, flow', t₁, next, count', rest, passes, goes, rfl, later, fewer, less⟩
    · obtain ⟨flow, s', acts, lands⟩ := sim.back at_ block_at related passes
      cases lands with
      | leave left => exact ⟨0, _, s', .halt (.returned at_ acts), .returned left⟩
    · obtain ⟨flow, s₁, acts, lands⟩ := sim.back at_ block_at related passes
      obtain ⟨related₁, j, rfl, goes, on⟩ := sim.target_back block_at lands goes
      have smaller := decreases before fewer less on
      obtain ⟨count₁, outcome, s', run, final⟩ := ends_back sim (target_le before goes) related₁ later
      exact ⟨_, outcome, s', .step at_ acts goes run, final⟩
termination_by (count, body.length - i)
decreasing_by exact Prod.lex_def.2 smaller

theorem traces (sim : Simulates L₁ L₂ body blocks R X) (related : R s t) :
    L₁.Traces body s = L₂.Traces (joined blocks) t := by
  have start : place blocks 0 = 0 := rfl
  ext events
  constructor
  · rintro ⟨count, pc, s', steps⟩
    obtain ⟨count', t', run, _⟩ := sim.steps_forth related steps
    exact ⟨count', _, t', run⟩
  · rintro ⟨count, pc, t', steps⟩
    exact sim.steps_back (Nat.zero_le _) related steps

theorem runs (sim : Simulates L₁ L₂ body blocks R X) (related : R s t) (events : List Event) :
    Matches (Final R X) (L₁.Outcomes body s events) (L₂.Outcomes (joined blocks) t events) := by
  constructor
  · rintro ⟨outcome, s'⟩ ⟨count, ends⟩
    obtain ⟨count', outcome', t', run, final⟩ := sim.ends_forth related ends
    exact ⟨(outcome', t'), ⟨count', run⟩, final⟩
  · rintro ⟨outcome', t'⟩ ⟨count, ends⟩
    obtain ⟨count', outcome, s', run, final⟩ := sim.ends_back (Nat.zero_le _) related ends
    exact ⟨(outcome, s'), ⟨count', run⟩, final⟩

end Simulates

end Language

end MiniC
