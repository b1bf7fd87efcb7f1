import MiniC.Proofs.Storage.Frames
import MiniC.Proofs.Storage.Strings
import MiniC.Storage.Assign

namespace MiniC.Storage

open Code

structure Assigns (queue : Queue Usage Usage.less) (start : Namer) (a moves : Nat) (globals new : List Global)
    (f g : Function) (strings : Nat → Name) (l : Layout) : Prop where
  extracts : Extracts start a globals f.body (extractStrings (start.after a) globals f.body) strings new
  places : place queue (globals ++ new) f.params (withStrings strings f.body) = .ok l
  code : g.body = (moveBody (start.after (a + new.length)) l.withFrame (withStrings strings f.body)).code
  layout : g.layout = some (moveBody (start.after (a + new.length)) l.withFrame (withStrings strings f.body)).layout
  length : g.body.length = f.body.length + moves
  others : g = { f with body := g.body, layout := g.layout }

variable {queue : Queue Usage Usage.less} {start : Namer} {a : Nat} {globals : List Global}

@[simp] theorem length_withStrings (strings : Nat → Name) (body : List Stmt) :
    (withStrings strings body).length = body.length :=
  List.length_mapIdx

theorem assignFunction_spec {f : Function} (ok : (assignFunction queue (start.after a) globals f).error = none) :
    ∃ moves new g strings l, Assigns queue start a moves globals new f g strings l ∧
      assignFunction queue (start.after a) globals f =
        ⟨start.after (a + new.length + moves), globals ++ new, g, none⟩ := by
  unfold assignFunction at ok ⊢
  dsimp only at ok ⊢
  cases collision : (extractStrings (start.after a) globals f.body).collision with
  | some label =>
    rw [collision] at ok
    cases ok
  | none =>
    obtain ⟨strings, new, extracted⟩ := extracts collision
    rw [collision, extracted.declared, extracted.code, extracted.names] at ok
    dsimp only at ok ⊢
    rw [extracted.declared, extracted.code, extracted.names]
    cases placed : place queue (globals ++ new) f.params (withStrings strings f.body) with
    | error name =>
      rw [placed] at ok
      cases ok
    | ok l =>
      obtain ⟨moves, length, since⟩ :=
        moveBody_since start (a + new.length) l.withFrame (withStrings strings f.body)
      rw [length_withStrings] at length
      let moved := moveBody (start.after (a + new.length)) l.withFrame (withStrings strings f.body)
      refine ⟨moves, new, { f with body := moved.code, layout := some moved.layout }, strings, l,
        ⟨extracted, placed, rfl, rfl, length, rfl⟩, ?_⟩
      dsimp only
      rw [since.names]

/-- The number of statements in functions. -/
def lines (fs : List Function) : Nat :=
  (fs.map fun f => f.body.length).sum

theorem assignFunctions_spec {fs : List Function}
    (ok : (assignFunctions queue (start.after a) globals fs).error = none) :
    ∃ made new gs, assignFunctions queue (start.after a) globals fs =
        ⟨start.after (a + made), globals ++ new, gs, none⟩ ∧
      lines gs + new.length = lines fs + made ∧
      (∀ g ∈ new, ∃ j, a < j ∧ j ≤ a + made ∧ g.name = start.made Name.string j) ∧
      ∀ {i : Nat} {f}, fs[i]? = some f → f.external = false →
        ∃ b moves earlier own later g strings l, a ≤ b ∧ b + own.length + moves ≤ a + made ∧
          new = earlier ++ own ++ later ∧ gs[i]? = some g ∧
          Assigns queue start b moves (globals ++ earlier) own f g strings l := by
  induction fs generalizing a globals with
  | nil =>
    refine ⟨0, [], [], by simp [assignFunctions], rfl, ?_, ?_⟩
    · intro g member
      cases member
    · intro i f at_
      cases at_
  | cons f fs ih =>
    rw [assignFunctions] at ok ⊢
    split
    · rename_i external
      rw [if_pos external] at ok
      obtain ⟨made, new, gs, done, length, names, each⟩ := ih ok
      refine ⟨made, new, f :: gs, by rw [done], ?_, names, ?_⟩
      · simp only [lines, List.map_cons, List.sum_cons] at length ⊢
        omega
      · intro i f' at_ hasBody
        cases i with
        | zero =>
          cases at_
          rw [external] at hasBody
          cases hasBody
        | succ i => exact each at_ hasBody
    · rename_i hasBody
      rw [if_neg hasBody] at ok
      cases failed : (assignFunction queue (start.after a) globals f).error with
      | some e =>
        dsimp only at ok
        rw [failed] at ok
        cases ok
      | none =>
        obtain ⟨moves, own, g, strings, l, assigns, processed⟩ := assignFunction_spec failed
        dsimp only at ok ⊢
        rw [processed] at ok ⊢
        dsimp only at ok ⊢
        obtain ⟨made, new, gs, done, length, names, each⟩ := ih ok
        have ownLength := assigns.length
        refine ⟨own.length + moves + made, own ++ new, g :: gs, ?_, ?_, ?_, ?_⟩
        · rw [done, ← Nat.add_assoc, ← Nat.add_assoc, List.append_assoc]
        · simp only [lines, List.map_cons, List.sum_cons, List.length_append] at length ⊢
          omega
        · intro g' member
          rcases List.mem_append.1 member with inOwn | later
          · obtain ⟨j, above, below, name⟩ := assigns.extracts.made g' inOwn
            exact ⟨j, above, by omega, name⟩
          · obtain ⟨j, above, below, name⟩ := names g' later
            exact ⟨j, by omega, by omega, name⟩
        · intro i f' at_ hasBody'
          cases i with
          | zero =>
            cases at_
            refine ⟨a, moves, [], own, new, g, strings, l, Nat.le_refl _, by omega, rfl, rfl, ?_⟩
            rwa [List.append_nil]
          | succ i =>
            obtain ⟨b, moves', earlier, own', later, g', strings', l', above, below, parts, found, assigns'⟩ :=
              each at_ hasBody'
            refine ⟨b, moves', own ++ earlier, own', later, g', strings', l', by omega, by omega, ?_, found, ?_⟩
            · rw [parts]
              simp
            · rw [← List.append_assoc]
              exact assigns'

variable {f g : Function} {new : List Global} {strings : Nat → Name} {l : Layout} {moves total : Nat}
  {sizes : Name → Option Int64}

theorem Housed.congr {l' : Layout} {names : List Name} (housed : Housed l sizes names)
    (same : ∀ x ∈ names, l'.get? x = l.get? x) : Housed l' sizes names where
  inMemory used known := by rw [same _ used]; exact housed.inMemory used known
  elsewhere used unknown := by rw [same _ used]; exact housed.elsewhere used unknown
  registers used used' := by rw [same _ used, same _ used']; exact housed.registers used used'
  offsets used used' := by rw [same _ used, same _ used']; exact housed.offsets used used'

theorem symbolic_eq_move {label : Name} {action : Action} {src dst : Location} :
    symbolic label action = .move src dst ↔ action = .move src dst := by
  unfold symbolic
  split
  · exact ⟨nofun, nofun⟩
  · exact .rfl

theorem symbolic_ne_move {action : Action} (label : Name) (plain : isNamed action = true) (src dst : Location) :
    symbolic label action ≠ .move src dst := by
  intro isMove
  rw [symbolic_eq_move.1 isMove] at plain
  cases plain

theorem mem_withStrings {body : List Stmt} {stmt : Stmt} (member : stmt ∈ withStrings strings body) :
    ∃ (i : Nat) (original : Stmt), body[i]? = some original ∧
      stmt = { original with action := symbolic (strings i) original.action } := by
  obtain ⟨i, inside, rfl⟩ := List.mem_mapIdx.1 member
  exact ⟨i, body[i], List.getElem?_eq_getElem inside, rfl⟩

theorem mem_usedNames {params : List Param} {body : List Stmt} {stmt : Stmt} (member : stmt ∈ body) {x : Name}
    (used : x ∈ stmt.action.inputs ++ stmt.action.outputs) : x ∈ usedNames params body :=
  List.mem_append_right _ (List.mem_flatMap.2 ⟨stmt, member, used⟩)

namespace Assigns

/-- The names that moves take are the next ones of the counter, and no other name changes its place. -/
theorem since (assigns : Assigns queue start a moves globals new f g strings l) :
    (moveBody (start.after (a + new.length)) l.withFrame (withStrings strings f.body)).code.length =
        (withStrings strings f.body).length + moves ∧
      (moveBody (start.after (a + new.length)) l.withFrame (withStrings strings f.body)).Since start (a + new.length)
        (a + new.length + moves) l.withFrame := by
  obtain ⟨moves', length, since⟩ := moveBody_since start (a + new.length) l.withFrame (withStrings strings f.body)
  obtain rfl : moves' = moves := by
    have grown := assigns.length
    rw [assigns.code, length, length_withStrings] at grown
    omega
  exact ⟨length, since⟩

section

variable (assigns : Assigns queue start a moves globals new f g strings l)
  (bound : a + new.length + moves ≤ total)
  (old : ∀ x ∈ usedNames f.params f.body, ∀ j, 0 < j → j ≤ total →
    x ≠ start.made Name.scratch j ∧ x ≠ start.made Name.string j)

include assigns bound old

theorem find?_append_new {x : Name} (used : x ∈ usedNames f.params f.body) :
    ((globals ++ new).find? fun g => g.name = x) = globals.find? fun g => g.name = x := by
  have none : (new.find? fun g => g.name = x) = none := by
    rw [List.find?_eq_none]
    intro g' member
    obtain ⟨j, above, below, name⟩ := assigns.extracts.made g' member
    have other := (old x used j (by omega) (by omega)).2
    rw [← name] at other
    simpa using other.symm
  rw [List.find?_append, none, Option.or_none]

theorem get?_string {i : Nat} {label dest : Name} {text : Bytes}
    (at_ : f.body[i]? = some ⟨label, .store dest (some (.str text))⟩) :
    l.withFrame.get? (strings i) = some (.memory (strings i) Ty.string.size) ∧
      ∃ j, strings i = start.made Name.string j := by
  obtain ⟨before, found⟩ := assigns.extracts.kept at_
  obtain ⟨j, above, below, name⟩ := assigns.extracts.made _ (List.mem_of_find?_eq_some found)
  refine ⟨get?_withFrame_global assigns.places (g := ⟨strings i, .string, some (.str text)⟩) ?_ ?_, j, name⟩
  · rw [List.find?_append, before, found]
    rfl
  · intro param
    obtain ⟨p, member, same⟩ := List.any_eq_true.1 param
    have used : p.name ∈ usedNames f.params f.body := List.mem_append_left _ (List.mem_map_of_mem member)
    exact (old p.name used j (by omega) (by omega)).2 ((by simpa using same : p.name = strings i).trans name)

end

theorem simulates {final : Layout} (assigns : Assigns queue start a moves globals new f g strings l)
    (layout : g.layout = some final) (few : 8 * final.slots.length < 2 ^ 64) (small : total < 2 ^ 64)
    (bound : a + new.length + moves ≤ total)
    (plain : ∀ s ∈ f.body, isNamed s.action = true)
    (old : ∀ x ∈ usedNames f.params f.body, ∀ j, 0 < j → j ≤ total →
      x ≠ start.made Name.scratch j ∧ x ≠ start.made Name.string j)
    (known : ∀ x ∈ usedNames f.params f.body, sizes x = if f.params.any fun p => p.name = x then none
      else (globals.find? fun g => g.name = x).map fun g => g.ty.size) :
    Housed final sizes (usedNames f.params f.body) ∧
      ∃ blocks, Language.joined blocks = g.body ∧ ∀ callees,
        Language.Simulates (Named.setting sizes callees strings).language
          (Store.setting callees final.get?).language f.body blocks
          (Agrees final sizes (usedNames f.params f.body)) (LeavesAlike final sizes (usedNames f.params f.body)) := by
  rw [assigns.layout, Option.some.injEq] at layout
  subst layout
  obtain ⟨length, since⟩ := assigns.since
  have housed : Housed l.withFrame sizes (usedNames f.params f.body) := by
    rw [since.slots] at few
    rw [← usedNames_withStrings strings]
    refine housed_withFrame assigns.places (fun x used => ?_) few
    rw [usedNames_withStrings] at used
    rw [known x used, assigns.find?_append_new bound old used]
  have housed' := housed.congr fun x used =>
    since.places x fun j above below => (old x used j (by omega) (by omega)).1
  have used : ∀ stmt ∈ withStrings strings f.body, ∀ x ∈ stmt.action.inputs ++ stmt.action.outputs,
      x ∈ usedNames f.params f.body := by
    intro stmt member x operand
    rw [← usedNames_withStrings strings]
    exact mem_usedNames member operand
  have noMove : ∀ stmt ∈ withStrings strings f.body, ∀ src dst, stmt.action ≠ .move src dst := by
    intro stmt member src dst
    obtain ⟨i, original, inBody, rfl⟩ := mem_withStrings member
    exact symbolic_ne_move _ (plain original (List.mem_of_getElem? inBody)) src dst
  have placed : ∀ stmt ∈ withStrings strings f.body, ∀ x ∈ stmt.action.inputs ++ stmt.action.outputs,
      l.withFrame.get? x ≠ none := by
    intro stmt member x operand
    rcases housed.cases (used stmt member x operand) with ⟨_, _, place⟩ | ⟨_, ⟨_, _, place⟩ | ⟨_, place⟩⟩ <;>
      rw [place] <;> simp
  obtain ⟨blocks, joined, areBlocks⟩ := moveBody_blocks small noMove placed
    (fun stmt member x operand j above below => (old x (used stmt member x operand) j (by omega) below).1)
    length bound fun _ _ => rfl
  refine ⟨housed', blocks, joined.trans assigns.code.symm, fun callees => ?_⟩
  refine Storage.simulates housed' (fun stmt member x operand => mem_usedNames member operand) plain ?_ areBlocks
  intro i label dest text at_
  obtain ⟨place, j, name⟩ := assigns.get?_string bound old at_
  refine ⟨_, (since.places _ fun j' _ _ => ?_).trans place⟩
  rw [name]
  exact (scratch_ne_string start j' j).symm

end Assigns

end MiniC.Storage

namespace MiniC.Code.Program

open Storage

def size (p : Program) : Nat :=
  p.globals.length + lines p.functions

variable {p q : Program} {i : Nat} {f : Function}

theorem assign_spec {queue : Queue Usage Usage.less} (assigned : p.assignBy queue = ⟨q, none⟩) :
    ∃ made new, q.globals = p.globals ++ new ∧ q.size = p.size + made ∧
      (∀ g ∈ new, ∃ j, 0 < j ∧ j ≤ made ∧ g.name = p.names.made Name.string j) ∧
      ∀ {i : Nat} {f}, p.functions[i]? = some f → f.external = false →
        ∃ b moves earlier own later g strings l, b + own.length + moves ≤ made ∧
          new = earlier ++ own ++ later ∧ q.functions[i]? = some g ∧
          Assigns queue p.names b moves (p.globals ++ earlier) own f g strings l := by
  unfold assignBy at assigned
  dsimp only at assigned
  rw [← Namer.after_zero p.names, Assigned.mk.injEq] at assigned
  obtain ⟨rfl, processed⟩ := assigned
  obtain ⟨made, new, gs, done, length, declared, each⟩ := assignFunctions_spec processed
  rw [done]
  rw [Nat.zero_add] at declared each
  refine ⟨made, new, rfl, ?_, declared, ?_⟩
  · simp only [size, List.length_append]
    omega
  · intro i f source hasBody
    obtain ⟨b, moves, earlier, own, later, g, strings, l, _, bound, parts, found, assigns⟩ := each source hasBody
    exact ⟨b, moves, earlier, own, later, g, strings, l, bound, parts, found, assigns⟩

/-- Two runs end alike, and each name's value is at its place. -/
def EndAlike (l : Layout) (sizes : Name → Option Int64) (names : List Name) (out : Outcome × Named)
    (out' : Outcome × Store) : Prop :=
  out.1 = out'.1 ∧ Agrees l sizes names out.2 out'.2

/-- Storage assignment keeps what functions do, as long as the counter of names does not overflow and
the frame can be addressed. -/
theorem runs_assign_matches (assigned : p.assign = ⟨q, none⟩) (source : p.functions[i]? = some f)
    (hasBody : f.external = false) (plain : ∀ s ∈ f.body, isNamed s.action = true)
    (old : ∀ x ∈ usedNames f.params f.body, ∀ kind ∈ [Name.scratch, Name.string], ∀ n,
      x = Name.generated kind n → n ≤ p.names.count)
    (room : p.names.count.toInt + q.size < p.size + 2 ^ 63) :
    ∃ g l, q.functions[i]? = some g ∧ g.layout = some l ∧ (8 * l.slots.length < 2 ^ 64 →
      ∃ strings : Nat → Name,
        (∀ j label dest text, f.body[j]? = some ⟨label, .store dest (some (.str text))⟩ →
          p.global? (strings j) = none ∧
            q.global? (strings j) = some ⟨strings j, .string, some (.str text)⟩) ∧
        ∀ callees t,
          (Named.setting (globalSizes p f) callees strings).language.Traces f.body (t.named l) =
              (Store.setting callees l.get?).language.Traces g.body t ∧
            ∀ events, Matches (EndAlike l (globalSizes p f) (usedNames f.params f.body))
              ((Named.setting (globalSizes p f) callees strings).language.Outcomes f.body (t.named l) events)
              ((Store.setting callees l.get?).language.Outcomes g.body t events)) := by
  obtain ⟨made, new, declared, grown, strings_made, each⟩ := assign_spec assigned
  obtain ⟨b, moves, earlier, own, later, g, strings, l, bound, parts, found, assigns⟩ := each source hasBody
  refine ⟨g, _, found, assigns.layout, fun few => ?_⟩
  have small : made < 2 ^ 64 := by
    have least := Int64.le_toInt p.names.count
    omega
  have isNew : ∀ x ∈ usedNames f.params f.body, ∀ j, 0 < j → j ≤ made →
      x ≠ p.names.made Name.scratch j ∧ x ≠ p.names.made Name.string j := by
    intro x used j above below
    have later : p.names.count.toInt + j < 2 ^ 63 := by omega
    exact ⟨Namer.ne_made later (old x used _ (by simp)) above, Namer.ne_made later (old x used _ (by simp)) above⟩
  have known : ∀ x ∈ usedNames f.params f.body, globalSizes p f x = if f.params.any fun p => p.name = x then none
      else ((p.globals ++ earlier).find? fun g => g.name = x).map fun g => g.ty.size := by
    intro x used
    have none : (earlier.find? fun g => g.name = x) = none := by
      rw [List.find?_eq_none]
      intro g' member
      obtain ⟨j, above, below, name⟩ := strings_made g' (by rw [parts]; simp [member])
      have other := (isNew x used j above below).2
      rw [← name] at other
      simpa using other.symm
    rw [globalSizes, List.find?_append, none, Option.or_none]
    rfl
  obtain ⟨housed, blocks, joined, simulates⟩ := assigns.simulates assigns.layout few small bound plain isNew known
  refine ⟨strings, ?_, fun callees t => ?_⟩
  · intro j label dest text at_
    obtain ⟨before, kept⟩ := assigns.extracts.kept at_
    rw [global?, global?, declared, parts, ← List.append_assoc, ← List.append_assoc, List.find?_append,
      List.find?_append, before, kept]
    rw [List.find?_append, Option.or_eq_none_iff] at before
    exact ⟨before.1, rfl⟩
  · have agrees := Agrees.named housed t
    rw [← joined]
    refine ⟨(simulates callees).traces agrees, fun events => ?_⟩
    refine ((simulates callees).runs agrees events).mono fun out _ out' _ final => ?_
    cases final with
    | fell agree => exact ⟨rfl, agree⟩
    | returned alike =>
      obtain ⟨rfl, agree⟩ := alike
      exact ⟨rfl, agree⟩

def mixed : Program :=
  let body : List Stmt :=
    [⟨[], .store "text" (some (.str "low"))⟩, ⟨"again", .binary .add "low" "p" "low"⟩, ⟨[], .binary .sub "d" "low" "limit"⟩,
      ⟨[], .branch .nonzero "d" "again"⟩, ⟨[], .call "show" ["text", "low"] "d"⟩, ⟨[], .ret "d"⟩]
  ⟨⟨0⟩, [⟨"low", .char, none⟩, ⟨"limit", .int, none⟩], [⟨"f", .int, [⟨.int, "p"⟩], false, body, none⟩]⟩

theorem assigned_mixed : mixed.assign = ⟨mixed.assign.program, none⟩ :=
  assign_of_error (by decide +kernel)

theorem room_mixed : mixed.names.count.toInt + mixed.assign.program.size < mixed.size + 2 ^ 63 := by
  have grown : mixed.assign.program.size = 14 := by decide +kernel
  rw [grown, show mixed.size = 8 from rfl, show mixed.names.count.toInt = 0 from rfl]
  omega

theorem user_mixed : ∀ f ∈ mixed.functions, ∀ x ∈ usedNames f.params f.body, Name.isGenerated x = false := by
  decide +kernel

theorem runs_assign_mixed :
    ∃ q, ∃ f g : Function, ∃ l, mixed.assign = ⟨q, none⟩ ∧ mixed.functions[0]? = some f ∧ f.external = false ∧
      mixed.names.count.toInt + q.size < mixed.size + 2 ^ 63 ∧ q.functions[0]? = some g ∧ g.layout = some l ∧
      8 * l.slots.length < 2 ^ 64 ∧ ∃ strings, q.global? (strings 0) = some ⟨strings 0, .string, some (.str "low")⟩ ∧
        ∀ callees t, (Named.setting (globalSizes mixed f) callees strings).language.Traces f.body (t.named l) =
            (Store.setting callees l.get?).language.Traces g.body t ∧
          ∀ events, Matches (EndAlike l (globalSizes mixed f) (usedNames f.params f.body))
            ((Named.setting (globalSizes mixed f) callees strings).language.Outcomes f.body (t.named l) events)
            ((Store.setting callees l.get?).language.Outcomes g.body t events) := by
  have frames : (mixed.assign.program.functions.map fun f => f.layout.map fun l => l.slots.length) = [some 5] := by
    decide +kernel
  obtain ⟨g, l, found, layout, same⟩ := runs_assign_matches (i := 0) assigned_mixed rfl rfl (by decide)
    (fun x used kind _ n generated =>
      absurd generated (Name.ne_generated (user_mixed _ (List.mem_cons_self ..) x used) kind n)) room_mixed
  have few : 8 * l.slots.length < 2 ^ 64 := by
    have slots := List.mem_map_of_mem (f := fun f : Function => f.layout.map fun l => l.slots.length)
      (List.mem_of_getElem? found)
    rw [frames, layout, List.mem_singleton, Option.map_some, Option.some.injEq] at slots
    omega
  obtain ⟨strings, kept, runs⟩ := same few
  exact ⟨_, _, g, l, assigned_mixed, rfl, rfl, room_mixed, found, layout, few, strings, (kept 0 _ _ _ rfl).2, runs⟩

def overlap : Name :=
  Name.generated Name.scratch Int64.minValue

def adding : Function :=
  ⟨"f", .int, [⟨.int, "p"⟩], false, [⟨[], .binary .add overlap overlap "p"⟩, ⟨[], .ret overlap⟩], none⟩

def overflowing : Program :=
  ⟨⟨Int64.maxValue⟩, [], [adding]⟩

def overflowed : Layout :=
  ⟨[("p", .stack 24 8), (overlap, .register .t6)],
    [⟨"ra", 0, 8, some .ra⟩, ⟨"fp", 8, 8, some .fp⟩, ⟨"s1", 16, 8, some .s1⟩, ⟨"p", 24, 8, none⟩], 32⟩

def doubling : Function :=
  let body : List Stmt :=
    [⟨[], .move (.stack 24 8) (.register .t6)⟩, ⟨[], .binary .add overlap overlap overlap⟩, ⟨[], .ret overlap⟩]
  { adding with body, layout := some overflowed }

theorem assigned_overflowing : overflowing.assign = ⟨⟨⟨Int64.minValue⟩, [], [doubling]⟩, none⟩ := by
  rfl

theorem runs_adding (callees : Callees) (strings : Nat → Name) (s : Named) :
    ∃ s', (Named.setting (globalSizes overflowing adding) callees strings).language.Runs adding.body s []
      (.returned (some (s.vars overlap + s.vars "p"))) s' := by
  let s' : Named := { s with vars := Function.update s.vars overlap (s.vars overlap + s.vars "p") }
  have adds : Acts (Named.setting (globalSizes overflowing adding) callees strings) 0 s
      (.binary .add overlap overlap "p") [] .next s' := .binary rfl rfl rfl rfl
  have gives : Acts (Named.setting (globalSizes overflowing adding) callees strings) 1 s' (.ret overlap) []
      (.leave (some (s'.vars overlap))) s' := .give (by decide) rfl
  have value : s'.vars overlap = s.vars overlap + s.vars "p" := by simp [s']
  rw [← value]
  have final : (Named.setting (globalSizes overflowing adding) callees strings).language.Ends adding.body 0 1 s' []
      (.returned (some (s'.vars overlap))) s' := .halt (.returned rfl gives)
  have first : (Named.setting (globalSizes overflowing adding) callees strings).language.Steps adding.body 1 0 s []
      1 s' := .single rfl adds rfl
  exact ⟨s', _, first.ends final⟩

theorem returned_doubling {callees : Callees} {t t' : Store} {count : Nat} {outcome : Outcome}
    (closes : (Store.setting callees overflowed.get?).language.Closes doubling.body count 0 t outcome t') :
    outcome = .returned (some (t.frame 24 + t.frame 24)) := by
  have placed : CodeAt doubling.body 0 (doubling.body.take 2 ++ doubling.body.drop 2) := .whole _
  have straight : ∀ stmt ∈ doubling.body.take 2, (Store.setting callees overflowed.get?).language.Straight stmt := by
    have plain : ∀ stmt ∈ doubling.body.take 2, stmt.label = [] ∧ stmt.action.isStraight = true := by decide
    exact fun stmt member => Stmt.IsStraight.straight (plain stmt member)
  obtain ⟨t₂, ⟨t₁, ⟨_, moves⟩, _, ⟨_, adds⟩, rfl⟩, _, _, rest⟩ := (Language.closes_straight placed.left straight).1 closes
  cases moves with
  | move moved =>
    cases moved
    cases adds with
    | binary left right sum written =>
      cases left
      cases right
      cases sum
      cases written
      obtain ⟨_, _, _, gives, rfl⟩ := (closes_return rfl rfl).1 rest
      cases gives with
      | give _ read =>
        rw [← read]
        change Outcome.returned (some _) = _
        simp

theorem runs_assign_overflowing :
    overflowing.assign = ⟨⟨⟨Int64.minValue⟩, [], [doubling]⟩, none⟩ ∧
      (∀ s ∈ adding.body, s.label = [] ∧ isNamed s.action = true) ∧
      (∀ x ∈ usedNames adding.params adding.body, ∀ kind n, x = Name.generated kind n →
        n ≤ overflowing.names.count) ∧
      ∃ t, ∀ callees strings,
        (∃ s', (Named.setting (globalSizes overflowing adding) callees strings).language.Runs adding.body
          (t.named overflowed) [] (.returned (some 3)) s') ∧
        ¬ ∃ t', (Store.setting callees overflowed.get?).language.Runs doubling.body t [] (.returned (some 3)) t' := by
  refine ⟨assigned_overflowing, by decide, fun x _ kind n _ => Int64.le_maxValue n, ⟨fun _ => 1, fun _ => 2, fun _ => 0⟩, ?_⟩
  intro callees strings
  refine ⟨runs_adding callees strings _, ?_⟩
  rintro ⟨t', count, ends⟩
  cases returned_doubling ⟨_, ends⟩

end MiniC.Code.Program
