import MiniC.Compile
import MiniC.Proofs.Snapshot.Records
import MiniC.Snapshot.OfCode

namespace MiniC.Code

def Value.Short : Value → Prop
  | .str text => text.length < 2 ^ 32
  | .symbol name => name.length < 2 ^ 32
  | .int _ | .char _ => True

def Action.Short : Action → Prop
  | .nop | .move .. => True
  | .store dest value => dest.length < 2 ^ 32 ∧ ∀ v ∈ value, v.Short
  | .binary _ dest left right => dest.length < 2 ^ 32 ∧ left.length < 2 ^ 32 ∧ right.length < 2 ^ 32
  | .unary _ dest arg => dest.length < 2 ^ 32 ∧ arg.length < 2 ^ 32
  | .jump target => target.length < 2 ^ 32
  | .branch _ var target => var.length < 2 ^ 32 ∧ target.length < 2 ^ 32
  | .call callee args result =>
    callee.length < 2 ^ 32 ∧ args.length < 2 ^ 32 ∧ (∀ name ∈ args, name.length < 2 ^ 32) ∧ result.length < 2 ^ 32
  | .ret var => var.length < 2 ^ 32

@[mk_iff]
structure Function.Short (f : Function) : Prop where
  name : f.name.length < 2 ^ 32
  params : f.params.length < 2 ^ 32
  eachParam : ∀ p ∈ f.params, p.name.length < 2 ^ 32
  body : f.body.length < 2 ^ 32
  eachLabel : ∀ s ∈ f.body, s.label.length < 2 ^ 32
  eachAction : ∀ s ∈ f.body, s.action.Short

@[mk_iff]
structure Global.Short (g : Global) : Prop where
  name : g.name.length < 2 ^ 32
  init : ∀ v ∈ g.init, v.Short

@[mk_iff]
structure Program.Short (p : Program) : Prop where
  globals : p.globals.length < 2 ^ 32
  eachGlobal : ∀ g ∈ p.globals, g.Short
  functions : p.functions.length < 2 ^ 32
  eachFunction : ∀ f ∈ p.functions, f.Short

instance (v : Value) : Decidable v.Short :=
  match v with
  | .str text => inferInstanceAs (Decidable (text.length < 2 ^ 32))
  | .symbol name => inferInstanceAs (Decidable (name.length < 2 ^ 32))
  | .int _ | .char _ => .isTrue trivial

instance (a : Action) : Decidable a.Short :=
  match a with
  | .nop | .move .. => .isTrue trivial
  | .store .. | .binary .. | .unary .. | .branch .. | .call .. => inferInstanceAs (Decidable (_ ∧ _))
  | .jump _ | .ret _ => inferInstanceAs (Decidable (_ < _))

instance (f : Function) : Decidable f.Short :=
  decidable_of_iff' _ (Function.short_iff f)

instance (g : Global) : Decidable g.Short :=
  decidable_of_iff' _ (Global.short_iff g)

instance (p : Program) : Decidable p.Short :=
  decidable_of_iff' _ (Program.short_iff p)

def Function.withoutLayout (f : Function) : Function :=
  { f with layout := none }

def Program.withoutLayouts (p : Program) : Program :=
  { p with functions := p.functions.map Function.withoutLayout }

theorem Program.withoutLayouts_of_none {p : Program} (bare : ∀ f ∈ p.functions, f.layout = none) :
    p.withoutLayouts = p := by
  have same : p.functions.map Function.withoutLayout = p.functions.map id := by
    apply List.map_congr_left
    intro f member
    rw [Function.withoutLayout, ← bare f member]
    rfl
  rw [withoutLayouts, same, List.map_id]

end MiniC.Code

namespace MiniC.Snapshot

open MessagePack

variable {f : Code.Function} {r : Function} {p : Code.Program}

def Unwritten (a : Code.Action) : Prop :=
  (∃ src dst, a = .move src dst) ∨ ∃ dest, a = .store dest none

theorem Value.toCode_ofCode (v : Code.Value) : (Value.ofCode v).toCode = v := by
  cases v with
  | char c =>
    have small := c.toNat_lt
    have same : (Int64.ofNat c.toNat).toUInt64.toUInt8 = c := by
      apply UInt8.toNat_inj.1
      change (BitVec.ofNat 64 c.toNat).toNat % 256 = c.toNat
      rw [BitVec.toNat_ofNat]
      omega
    exact congrArg Code.Value.char same
  | _ => rfl

theorem Value.short_ofCode {v : Code.Value} (short : v.Short) : (Value.ofCode v).Short := by
  cases v with
  | int | char => exact Nat.pow_pos (by decide)
  | str | symbol => exact short

theorem Value.short_toCode {v : Value} (short : v.Short) : v.toCode.Short := by
  unfold Value.toCode
  split
  · trivial
  · exact short
  · exact short
  · trivial

theorem Stmt.ofCode_eq_error_iff {s : Code.Stmt} : (∃ e, Stmt.ofCode s = .error e) ↔ Unwritten s.action := by
  obtain ⟨label, action⟩ := s
  cases action with
  | store dest value => cases value <;> simp [Stmt.ofCode, Unwritten, fail]
  | _ => simp [Stmt.ofCode, Unwritten, fail]

theorem Stmt.toAction_ofCode {s : Code.Stmt} {r : Stmt} (ok : Stmt.ofCode s = .ok r) :
    r.label = s.label ∧ r.toAction = .ok s.action := by
  obtain ⟨label, action⟩ := s
  cases action with
  | store dest value =>
    cases value with
    | none => cases ok
    | some v =>
      cases ok
      refine ⟨rfl, ?_⟩
      simp only [Stmt.toAction, Value.toCode_ofCode]
  | binary op dest left right =>
    cases ok
    exact ⟨rfl, by simp only [Stmt.toAction, Code.BinOp.ofCode_code]⟩
  | unary op dest arg =>
    cases ok
    exact ⟨rfl, by simp only [Stmt.toAction, Code.UnOp.ofCode_code]⟩
  | branch check var target =>
    cases ok
    exact ⟨rfl, by simp only [Stmt.toAction, Code.Check.ofCode_code]⟩
  | move => cases ok
  | _ =>
    cases ok
    exact ⟨rfl, rfl⟩

theorem Stmt.short_ofCode {s : Code.Stmt} {r : Stmt} (label : s.label.length < 2 ^ 32) (short : s.action.Short)
    (ok : Stmt.ofCode s = .ok r) : r.Short := by
  obtain ⟨name, action⟩ := s
  have blank : ([] : Bytes).length < 2 ^ 32 := by simp
  cases action with
  | store dest value =>
    cases value with
    | none => cases ok
    | some v =>
      cases ok
      refine ⟨label, short.1, blank, blank, by simp, by simp, ?_⟩
      rintro u ⟨⟩
      exact Value.short_ofCode (short.2 v rfl)
  | binary =>
    cases ok
    exact ⟨label, short.1, short.2.1, short.2.2, by simp, by simp, by simp⟩
  | unary =>
    cases ok
    exact ⟨label, short.1, short.2, blank, by simp, by simp, by simp⟩
  | jump | ret =>
    cases ok
    exact ⟨label, blank, short, blank, by simp, by simp, by simp⟩
  | branch =>
    cases ok
    exact ⟨label, blank, short.1, short.2, by simp, by simp, by simp⟩
  | call =>
    cases ok
    exact ⟨label, short.2.2.2, short.1, blank, short.2.1, short.2.2.1, by simp⟩
  | nop =>
    cases ok
    exact ⟨label, blank, blank, blank, by simp, by simp, by simp⟩
  | move => cases ok

theorem Stmt.toAction_written {r : Stmt} {a : Code.Action} (ok : r.toAction = .ok a) : ¬ Unwritten a := by
  unfold Stmt.toAction at ok
  rintro (⟨src, dst, rfl⟩ | ⟨dest, rfl⟩) <;> split at ok <;> try split at ok
  all_goals cases ok

theorem Stmt.short_toAction {r : Stmt} {a : Code.Action} (short : r.Short) (ok : r.toAction = .ok a) : a.Short := by
  unfold Stmt.toAction at ok
  split at ok
  · cases ok
    trivial
  · split at ok
    · rename_i v found
      cases ok
      refine ⟨short.dest, ?_⟩
      rintro u ⟨⟩
      exact Value.short_toCode (short.value v found)
    · cases ok
  · cases ok
    exact ⟨short.dest, short.a, short.b⟩
  · cases ok
    exact ⟨short.dest, short.a⟩
  · cases ok
    exact short.a
  · cases ok
    exact ⟨short.a, short.b⟩
  · cases ok
    exact ⟨short.a, short.args, short.each, short.dest⟩
  · cases ok
    exact short.a
  · cases ok

theorem bodyOfCode_eq_ok {function : Name} {index : Nat} {body : List Code.Stmt} {records : List Stmt} :
    bodyOfCode function index body = .ok records ↔ List.Forall₂ (fun s r => Stmt.ofCode s = .ok r) body records := by
  induction body generalizing index records with
  | nil =>
    rw [List.forall₂_nil_left_iff]
    constructor
    · rintro ⟨⟩
      rfl
    · rintro rfl
      rfl
  | cons s body ih =>
    rw [bodyOfCode, bind_eq_ok, List.forall₂_cons_left_iff]
    constructor
    · rintro ⟨first, here, made⟩
      obtain ⟨rest, others, done⟩ := bind_eq_ok.1 made
      cases done
      exact ⟨first, rest, within_eq_ok.1 here, ih.1 others, rfl⟩
    · rintro ⟨first, rest, here, others, rfl⟩
      exact ⟨first, within_eq_ok.2 here, bind_eq_ok.2 ⟨rest, ih.2 others, rfl⟩⟩

theorem bodyToCode_eq_ok {function : Name} {index : Nat} {records : List Stmt} {body : List Code.Stmt} :
    bodyToCode function index records = .ok body ↔
      List.Forall₂ (fun r s => r.label = s.label ∧ r.toAction = .ok s.action) records body := by
  induction records generalizing index body with
  | nil =>
    rw [List.forall₂_nil_left_iff]
    constructor
    · rintro ⟨⟩
      rfl
    · rintro rfl
      rfl
  | cons r records ih =>
    rw [bodyToCode, bind_eq_ok, List.forall₂_cons_left_iff]
    constructor
    · rintro ⟨first, here, made⟩
      obtain ⟨rest, others, done⟩ := bind_eq_ok.1 made
      cases done
      exact ⟨_, rest, ⟨rfl, within_eq_ok.1 here⟩, ih.1 others, rfl⟩
    · rintro ⟨⟨label, action⟩, rest, ⟨same, here⟩, others, rfl⟩
      refine ⟨action, within_eq_ok.2 here, bind_eq_ok.2 ⟨rest, ih.2 others, ?_⟩⟩
      rw [show r.label = label from same]

theorem Function.ofCode_eq_ok : Function.ofCode f = .ok r ↔
      ∃ body, List.Forall₂ (fun s r => Stmt.ofCode s = .ok r) f.body body ∧
        r = ⟨f.name, f.result, f.params.map Param.ofCode, f.external, body⟩ := by
  rw [Function.ofCode, bind_eq_ok]
  constructor
  · rintro ⟨body, made, done⟩
    cases done
    exact ⟨body, bodyOfCode_eq_ok.1 made, rfl⟩
  · rintro ⟨body, made, rfl⟩
    exact ⟨body, bodyOfCode_eq_ok.2 made, rfl⟩

theorem Function.exists_ofCode_iff : (∃ r, Function.ofCode f = .ok r) ↔ ∀ s ∈ f.body, ¬ Unwritten s.action := by
  constructor
  · rintro ⟨r, ok⟩ s member unwritten
    obtain ⟨body, made, -⟩ := Function.ofCode_eq_ok.1 ok
    obtain ⟨t, -, written⟩ := exists_of_mem_left made member
    obtain ⟨e, failed⟩ := Stmt.ofCode_eq_error_iff.2 unwritten
    rw [failed] at written
    cases written
  · intro each
    have made : ∃ body, List.Forall₂ (fun s r => Stmt.ofCode s = .ok r) f.body body := by
      apply exists_forall₂
      intro s member
      cases result : Stmt.ofCode s with
      | ok r => exact ⟨r, rfl⟩
      | error e => exact absurd (Stmt.ofCode_eq_error_iff.1 ⟨e, result⟩) (each s member)
    obtain ⟨body, made⟩ := made
    exact ⟨_, Function.ofCode_eq_ok.2 ⟨body, made, rfl⟩⟩

theorem Function.toCode_ofCode (ok : Function.ofCode f = .ok r) : r.toCode = .ok f.withoutLayout := by
  obtain ⟨body, made, rfl⟩ := Function.ofCode_eq_ok.1 ok
  have back : bodyToCode f.name 0 body = .ok f.body := by
    apply bodyToCode_eq_ok.2
    refine List.Forall₂.flip (made.imp ?_)
    intro s r written
    exact Stmt.toAction_ofCode written
  have params : (f.params.map Param.ofCode).map Param.toCode = f.params := by
    rw [List.map_map]
    exact List.map_id f.params
  refine bind_eq_ok.2 ⟨f.body, back, ?_⟩
  rw [params]
  rfl

theorem Function.short_ofCode (short : f.Short) (ok : Function.ofCode f = .ok r) : r.Short := by
  obtain ⟨body, made, rfl⟩ := Function.ofCode_eq_ok.1 ok
  refine ⟨short.name, ?_, ?_, ?_, ?_⟩
  · rw [List.length_map]
    exact short.params
  · intro p member
    obtain ⟨q, inside, rfl⟩ := List.mem_map.1 member
    exact short.eachParam q inside
  · rw [← made.length_eq]
    exact short.body
  · intro s member
    obtain ⟨t, inside, written⟩ := exists_of_mem_right made member
    exact Stmt.short_ofCode (short.eachLabel t inside) (short.eachAction t inside) written

theorem Function.toCode_written (ok : r.toCode = .ok f) :
    f.layout = none ∧ ∀ s ∈ f.body, ¬ Unwritten s.action := by
  obtain ⟨body, made, done⟩ := bind_eq_ok.1 ok
  cases done
  refine ⟨rfl, fun s member => ?_⟩
  obtain ⟨t, -, -, action⟩ := exists_of_mem_right (bodyToCode_eq_ok.1 made) member
  exact Stmt.toAction_written action

theorem Function.short_toCode (short : r.Short) (ok : r.toCode = .ok f) : f.Short := by
  obtain ⟨body, made, done⟩ := bind_eq_ok.1 ok
  cases done
  have made := bodyToCode_eq_ok.1 made
  refine ⟨short.name, ?_, ?_, ?_, ?_, ?_⟩
  · rw [List.length_map]
    exact short.params
  · intro p member
    obtain ⟨q, inside, rfl⟩ := List.mem_map.1 member
    exact short.eachParam q inside
  · rw [← made.length_eq]
    exact short.body
  · intro s member
    obtain ⟨t, inside, same, -⟩ := exists_of_mem_right made member
    rw [← same]
    exact (short.eachStmt t inside).label
  · intro s member
    obtain ⟨t, inside, -, action⟩ := exists_of_mem_right made member
    exact Stmt.short_toAction (short.eachStmt t inside) action

theorem Program.ofCode_eq_ok {r : Program} : Program.ofCode p = .ok r ↔
      ∃ functions, List.Forall₂ (fun f r => Function.ofCode f = .ok r) p.functions functions ∧
        r = ⟨currentVersion, p.names.count, p.globals.map Global.ofCode, functions⟩ := by
  rw [Program.ofCode, bind_eq_ok]
  constructor
  · rintro ⟨functions, made, done⟩
    cases done
    exact ⟨functions, mapM_eq_ok.1 made, rfl⟩
  · rintro ⟨functions, made, rfl⟩
    exact ⟨functions, mapM_eq_ok.2 made, rfl⟩

theorem Program.exists_ofCode_iff :
    (∃ r, Program.ofCode p = .ok r) ↔ ∀ f ∈ p.functions, ∀ s ∈ f.body, ¬ Unwritten s.action := by
  constructor
  · rintro ⟨r, ok⟩ f member
    obtain ⟨functions, made, -⟩ := Program.ofCode_eq_ok.1 ok
    obtain ⟨g, -, written⟩ := exists_of_mem_left made member
    exact Function.exists_ofCode_iff.1 ⟨g, written⟩
  · intro each
    obtain ⟨functions, made⟩ := exists_forall₂ fun f member => Function.exists_ofCode_iff.2 (each f member)
    exact ⟨_, Program.ofCode_eq_ok.2 ⟨functions, made, rfl⟩⟩

theorem Global.toCode_ofCode (g : Code.Global) : (Global.ofCode g).toCode = g := by
  obtain ⟨name, ty, init⟩ := g
  cases init with
  | none => rfl
  | some v =>
    have same : (Global.ofCode ⟨name, ty, some v⟩).toCode = ⟨name, ty, some (Value.ofCode v).toCode⟩ := rfl
    rw [same, Value.toCode_ofCode]

theorem Program.toCode_ofCode {r : Program} (ok : Program.ofCode p = .ok r) : r.toCode = .ok p.withoutLayouts := by
  obtain ⟨functions, made, rfl⟩ := Program.ofCode_eq_ok.1 ok
  have back : functions.mapM Function.toCode = .ok (p.functions.map Code.Function.withoutLayout) := by
    apply mapM_eq_ok.2
    rw [List.forall₂_map_right_iff]
    refine List.Forall₂.flip (made.imp ?_)
    intro f r written
    exact Function.toCode_ofCode written
  have globals : (p.globals.map Global.ofCode).map Global.toCode = p.globals := by
    rw [List.map_map, show Global.toCode ∘ Global.ofCode = id from funext Global.toCode_ofCode]
    exact List.map_id p.globals
  refine bind_eq_ok.2 ⟨_, back, ?_⟩
  rw [globals]
  rfl

theorem Global.short_ofCode {g : Code.Global} (short : g.Short) : (Global.ofCode g).Short := by
  refine ⟨short.name, ?_⟩
  intro v given
  obtain ⟨u, init, rfl⟩ := Option.map_eq_some_iff.1 given
  exact Value.short_ofCode (short.init u init)

theorem Program.short_ofCode {r : Program} (short : p.Short) (ok : Program.ofCode p = .ok r) : r.Short := by
  obtain ⟨functions, made, rfl⟩ := Program.ofCode_eq_ok.1 ok
  refine ⟨?_, ?_, ?_, ?_⟩
  · rw [List.length_map]
    exact short.globals
  · intro g member
    obtain ⟨h, inside, rfl⟩ := List.mem_map.1 member
    exact Global.short_ofCode (short.eachGlobal h inside)
  · rw [← made.length_eq]
    exact short.functions
  · intro f member
    obtain ⟨g, inside, written⟩ := exists_of_mem_right made member
    exact Function.short_ofCode (short.eachFunction g inside) written

theorem Global.short_toCode {g : Global} (short : g.Short) : g.toCode.Short := by
  refine ⟨short.name, ?_⟩
  intro v given
  obtain ⟨u, init, rfl⟩ := Option.map_eq_some_iff.1 given
  exact Value.short_toCode (short.init u init)

theorem Program.toCode_written {r : Program} (ok : r.toCode = .ok p) :
    (∀ f ∈ p.functions, f.layout = none) ∧ ∀ f ∈ p.functions, ∀ s ∈ f.body, ¬ Unwritten s.action := by
  obtain ⟨functions, made, done⟩ := bind_eq_ok.1 ok
  cases done
  have each : ∀ f ∈ functions, f.layout = none ∧ ∀ s ∈ f.body, ¬ Unwritten s.action := by
    intro f member
    obtain ⟨g, -, written⟩ := exists_of_mem_right (mapM_eq_ok.1 made) member
    exact Function.toCode_written written
  exact ⟨fun f member => (each f member).1, fun f member => (each f member).2⟩

theorem Program.short_toCode {r : Program} (short : r.Short) (ok : r.toCode = .ok p) : p.Short := by
  obtain ⟨functions, made, done⟩ := bind_eq_ok.1 ok
  cases done
  have made := mapM_eq_ok.1 made
  refine ⟨?_, ?_, ?_, ?_⟩
  · rw [List.length_map]
    exact short.globals
  · intro g member
    obtain ⟨h, inside, rfl⟩ := List.mem_map.1 member
    exact Global.short_toCode (short.eachGlobal h inside)
  · rw [← made.length_eq]
    exact short.functions
  · intro f member
    obtain ⟨g, inside, written⟩ := exists_of_mem_right made member
    exact Function.short_toCode (short.eachFunction g inside) written

/-- A codec that gives back the records it is given, if their texts and lists can be counted with 32 bits. -/
def Codec.Faithful (codec : Codec) : Prop :=
  ∀ r : Program, r.Short → codec.decode (codec.encode r) = .ok r

section

variable {codec : Codec} {bytes : Bytes}

theorem pack_eq_ok : pack codec p = .ok bytes ↔ ∃ r, Program.ofCode p = .ok r ∧ codec.encode r = bytes := by
  rw [pack, bind_eq_ok]
  constructor
  · rintro ⟨r, made, done⟩
    cases done
    exact ⟨r, made, rfl⟩
  · rintro ⟨r, made, rfl⟩
    exact ⟨r, made, rfl⟩

theorem unpack_eq_ok : unpack codec bytes = .ok p ↔
    ∃ r, codec.decode bytes = .ok r ∧ r.version = currentVersion ∧ r.toCode = .ok p := by
  unfold unpack
  cases codec.decode bytes with
  | error e => simp [Except.mapError, bind, Except.bind]
  | ok r =>
    by_cases version : r.version = currentVersion
    · cases result : r.toCode <;> simp [Except.mapError, bind, Except.bind, version, result]
    · simp [Except.mapError, bind, Except.bind, version]

theorem exists_pack_iff : (∃ bytes, pack codec p = .ok bytes) ↔ ∀ f ∈ p.functions, ∀ s ∈ f.body, ¬ Unwritten s.action := by
  rw [← Program.exists_ofCode_iff]
  constructor
  · rintro ⟨bytes, packed⟩
    obtain ⟨r, made, -⟩ := pack_eq_ok.1 packed
    exact ⟨r, made⟩
  · rintro ⟨r, made⟩
    exact ⟨codec.encode r, pack_eq_ok.2 ⟨r, made, rfl⟩⟩

theorem pack_eq_error_iff (codec : Codec) (p : Code.Program) :
    (∃ e, pack codec p = .error e) ↔ ∃ f ∈ p.functions, ∃ s ∈ f.body, Unwritten s.action := by
  have succeeds := @exists_pack_iff p codec
  cases result : pack codec p with
  | error e =>
    rw [result] at succeeds
    simpa using succeeds
  | ok bytes =>
    rw [result] at succeeds
    simpa using succeeds

theorem Codec.Faithful.unpack (faithful : codec.Faithful) (short : p.Short) (packed : pack codec p = .ok bytes) :
    Snapshot.unpack codec bytes = .ok p.withoutLayouts := by
  obtain ⟨r, made, rfl⟩ := pack_eq_ok.1 packed
  apply unpack_eq_ok.2
  refine ⟨r, faithful r (Program.short_ofCode short made), ?_, Program.toCode_ofCode made⟩
  obtain ⟨functions, -, rfl⟩ := Program.ofCode_eq_ok.1 made
  rfl

end

theorem faithful_messagePack : messagePack.Faithful := by
  intro r short
  have read : Program.read r.write = .ok r := by
    simpa using Program.read_write short []
  change (Program.read r.write).mapError _ = _
  rw [read, mapError_ok]

theorem short_of_decode {bytes : Bytes} {r : Program} (decoded : messagePack.decode bytes = .ok r) : r.Short := by
  change (Program.read bytes).mapError _ = _ at decoded
  cases read : Program.read bytes with
  | error e =>
    rw [read] at decoded
    cases decoded
  | ok r' =>
    rw [read] at decoded
    cases decoded
    exact Program.short_of_read read

/--
A program has a snapshot unless it holds a move or a store of nothing. With any codec that reads back what
it writes, its snapshot gives it back without layouts, so nothing is lost for a program that has no layouts
yet; and whatever bytes give a program, that program has a snapshot that gives it back. The codec in use is
one of these, and gives no program that is too long for it.
-/
theorem pack_then_unpack :
    (∀ codec p, (∃ e, pack codec p = .error e) ↔
      ∃ f ∈ p.functions, ∃ s ∈ f.body, (∃ src dst, s.action = .move src dst) ∨ ∃ dest, s.action = .store dest none) ∧
    (∀ codec : Codec, codec.Faithful →
      (∀ p bytes, p.Short → pack codec p = .ok bytes →
        unpack codec bytes = .ok p.withoutLayouts ∧
          ((∀ f ∈ p.functions, f.layout = none) →
            ∀ startup, (unpack codec bytes).toOption.map (compileCode startup) = some (compileCode startup p))) ∧
      ∀ bytes p, unpack codec bytes = .ok p →
        ∃ again, pack codec p = .ok again ∧ (p.Short → unpack codec again = .ok p)) ∧
    messagePack.Faithful ∧ ∀ bytes p, unpack messagePack bytes = .ok p → p.Short := by
  refine ⟨pack_eq_error_iff, ?_, faithful_messagePack, ?_⟩
  · intro codec faithful
    constructor
    · intro p bytes short packed
      have back := faithful.unpack short packed
      refine ⟨back, fun bare startup => ?_⟩
      rw [back, Code.Program.withoutLayouts_of_none bare]
      rfl
    · intro bytes p unpacked
      obtain ⟨r, -, -, back⟩ := unpack_eq_ok.1 unpacked
      obtain ⟨bare, written⟩ := Program.toCode_written back
      obtain ⟨again, packed⟩ := exists_pack_iff.2 written
      refine ⟨again, packed, fun short => ?_⟩
      rw [faithful.unpack short packed, Code.Program.withoutLayouts_of_none bare]
  · intro bytes p unpacked
    obtain ⟨r, decoded, -, back⟩ := unpack_eq_ok.1 unpacked
    exact Program.short_toCode (short_of_decode decoded) back

def everyKind : Code.Program where
  names := ⟨-7⟩
  globals := [⟨"flag", .char, some (.char 255)⟩, ⟨"text", .string, some (.str "a\nb")⟩, ⟨"total", .int, none⟩]
  functions := [
    ⟨"put", .void, [⟨.int, "x"⟩], true, [], none⟩,
    ⟨"main", .int, [], false, [
      ⟨"", .store "i" (some (.int (-5)))⟩,
      ⟨"", .store "s" (some (.symbol "text"))⟩,
      ⟨"__L1", .nop⟩,
      ⟨"", .binary .add "" "i" "i"⟩,
      ⟨"", .unary .minus "i" "i"⟩,
      ⟨"", .branch .zero "i" "__L1"⟩,
      ⟨"", .call "put" ["i"] ""⟩,
      ⟨"", .call "put" [] "i"⟩,
      ⟨"", .jump "__L1"⟩,
      ⟨"", .ret "i"⟩], none⟩]

theorem pack_then_unpack_everyKind : messagePack.Faithful ∧ everyKind.Short ∧
    ∃ bytes, pack messagePack everyKind = .ok bytes ∧ unpack messagePack bytes = .ok everyKind := by
  have faithful := pack_then_unpack.2.2.1
  have short : everyKind.Short := by decide
  obtain ⟨bytes, packed⟩ : ∃ bytes, pack messagePack everyKind = .ok bytes := ⟨_, rfl⟩
  exact ⟨faithful, short, bytes, packed, ((pack_then_unpack.2.1 messagePack faithful).1 everyKind bytes short packed).1⟩

end MiniC.Snapshot
