import MiniC.Proofs.Snapshot.Items
import MiniC.Snapshot.Packed

namespace MiniC.Snapshot

open MessagePack

variable {i : Item}

section

variable {α : Type} {fields : Fields α} {r r' r'' : α}

theorem readEntries_append (first second : List (Item × Item)) (r : α) :
    readEntries fields (first ++ second) r = (readEntries fields first r).bind (readEntries fields second) := by
  induction first generalizing r with
  | nil => rfl
  | cons entry first ih =>
    obtain ⟨key, item⟩ := entry
    simp only [List.cons_append, readEntries, Option.bind_eq_bind]
    cases readText key with
    | none => rfl
    | some name =>
      simp only [Option.bind_some]
      split
      · rename_i read _
        cases read item r with
        | none => rfl
        | some r => exact ih r
      · exact ih r

def Carries (fields : Fields α) (written : List (Bytes × Bytes)) (r r' : α) : Prop :=
  ∃ entries, List.Forall₂ WritesField written entries ∧
    readEntries fields (entries.map fun e => (.text e.1, e.2)) r = some r'

namespace Carries

theorem nil : Carries fields [] r r :=
  ⟨[], .nil, rfl⟩

theorem append {first second : List (Bytes × Bytes)} (here : Carries fields first r r')
    (there : Carries fields second r' r'') : Carries fields (first ++ second) r r'' := by
  obtain ⟨entries, written, read⟩ := here
  obtain ⟨entries', written', read'⟩ := there
  refine ⟨entries ++ entries', List.rel_append written written', ?_⟩
  rw [List.map_append, readEntries_append, read, Option.bind_some, read']

theorem field {name value : Bytes} {item : Item} {read : Item → α → Option α} (short : name.length < 2 ^ 32)
    (found : fields.lookup name = some read) (reads : Reads value item) (ok : read item r = some r') :
    Carries fields [(name, value)] r r' := by
  refine ⟨[(name, item)], .cons ⟨rfl, short, reads⟩ .nil, ?_⟩
  simp [readEntries, readText, found, ok]

theorem optional {given : Bool} {name value : Bytes} (present : given = true → Carries fields [(name, value)] r r')
    (absent : given = false → r' = r) : Carries fields (Snapshot.optional given name value) r r' := by
  unfold Snapshot.optional
  cases given with
  | false =>
    rw [absent rfl]
    exact nil
  | true => exact present rfl

end Carries

def Kept (empty : α) (fields : Fields α) (written : Bytes) (r : α) : Prop :=
  ∃ entries, Reads written (.map entries) ∧ readEntries fields entries empty = some r

theorem Carries.kept {empty : α} {written : List (Bytes × Bytes)} (few : written.length < 16)
    (carries : Carries fields written empty r) : Kept empty fields (record written) r := by
  obtain ⟨entries, written, read⟩ := carries
  exact ⟨_, reads_record few written, read⟩

theorem exists_reads_list {empty : α} {write : α → Bytes} {xs : List α} (short : xs.length < 2 ^ 32)
    (each : ∀ x ∈ xs, Kept empty fields (write x) x) :
    ∃ item, Reads (list write xs) item ∧ readList empty (readRecord empty fields) item [] = some xs := by
  have items : ∃ items, List.Forall₂ Reads (xs.map write) items ∧
      readElements empty (readRecord empty fields) items [] = some xs := by
    clear short
    induction xs with
    | nil => exact ⟨[], .nil, rfl⟩
    | cons x xs ih =>
      obtain ⟨entries, reads, read⟩ := each x (by simp)
      obtain ⟨items, written, rest⟩ := ih fun y member => each y (List.mem_cons_of_mem _ member)
      refine ⟨.map entries :: items, .cons reads written, ?_⟩
      simp [readElements, readRecord, read, rest]
  unfold list
  cases xs with
  | nil => exact ⟨.nil, reads_nil, rfl⟩
  | cons x xs =>
    obtain ⟨items, written, read⟩ := items
    refine ⟨.array items, reads_array (by simpa using short) written, read⟩

end

theorem readInt_toInt (n : Int64) : readInt (.int n.toInt) = some n := by
  rw [readInt, Int64.ofInt_toInt]

theorem readTy_code (ty : Ty) : readTy (.int ty.code.toInt) = some ty := by
  rw [readTy, readInt_toInt, Option.map_some, Ty.ofCode_code]

theorem readUInt8_toNat (n : UInt8) : readUInt8 (.int n.toNat) = some n := by
  have small := n.toNat_lt
  have same : (Int64.ofInt n.toNat).toUInt64.toUInt8 = n := by
    apply UInt8.toNat_inj.1
    change (Int64.ofInt n.toNat).toBitVec.toNat % 256 = n.toNat
    have bits : (Int64.ofInt n.toNat).toBitVec = BitVec.ofNat 64 n.toNat := BitVec.ofInt_natCast 64 n.toNat
    rw [bits, BitVec.toNat_ofNat]
    omega
  simp [readUInt8, readInt, same]

def Value.Short (v : Value) : Prop :=
  v.str.length < 2 ^ 32

def Param.Short (p : Param) : Prop :=
  p.name.length < 2 ^ 32

structure Global.Short (g : Global) : Prop where
  name : g.name.length < 2 ^ 32
  init : ∀ v ∈ g.init, v.Short

structure Stmt.Short (s : Stmt) : Prop where
  label : s.label.length < 2 ^ 32
  dest : s.dest.length < 2 ^ 32
  a : s.a.length < 2 ^ 32
  b : s.b.length < 2 ^ 32
  args : s.args.length < 2 ^ 32
  each : ∀ name ∈ s.args, name.length < 2 ^ 32
  value : ∀ v ∈ s.value, v.Short

structure Function.Short (f : Function) : Prop where
  name : f.name.length < 2 ^ 32
  params : f.params.length < 2 ^ 32
  eachParam : ∀ p ∈ f.params, p.Short
  body : f.body.length < 2 ^ 32
  eachStmt : ∀ s ∈ f.body, s.Short

structure Program.Short (p : Program) : Prop where
  globals : p.globals.length < 2 ^ 32
  eachGlobal : ∀ g ∈ p.globals, g.Short
  functions : p.functions.length < 2 ^ 32
  eachFunction : ∀ f ∈ p.functions, f.Short

theorem length_optional (given : Bool) (name value : Bytes) : (optional given name value).length ≤ 1 := by
  unfold optional
  split <;> simp

theorem length_valueField (name : Bytes) (v : Option Value) : (valueField name v).length ≤ 1 := by
  cases v <;> simp [valueField]

theorem isEmpty_eq_false {s : List α} (given : (!s.isEmpty) = false) : s = [] := by
  simpa using given

theorem Value.kept {v : Value} (short : v.Short) : Kept {} Value.fields v.write v := by
  obtain ⟨ty, symbol, int, str⟩ := v
  have carriesTy : Carries Value.fields [(("Type" : Bytes), MessagePack.int ty.code)] {} { ty } :=
    .field (by decide) rfl (reads_int _) (by simp [readTy_code])
  have carriesSymbol : Carries Value.fields (optional symbol "Sym" (MessagePack.bool symbol)) { ty } { ty, symbol } :=
    .optional (fun _ => .field (by decide) rfl (reads_bool _) rfl) (fun absent => by rw [absent])
  have carriesInt : Carries Value.fields [(("Int" : Bytes), MessagePack.int64 int)] { ty, symbol } { ty, symbol, int } :=
    .field (by decide) rfl (reads_int64 _) (by simp [readInt_toInt])
  have carriesStr : Carries Value.fields (optional (!str.isEmpty) "Str" (MessagePack.text str)) { ty, symbol, int }
      { ty, symbol, int, str } :=
    .optional (fun _ => .field (by decide) rfl (reads_text short) rfl) (fun absent => by rw [isEmpty_eq_false absent])
  refine (((carriesTy.append carriesSymbol).append carriesInt).append carriesStr).kept ?_
  have one := length_optional symbol "Sym" (MessagePack.bool symbol)
  have two := length_optional (!str.isEmpty) "Str" (MessagePack.text str)
  simp only [List.length_append, List.length_singleton]
  omega

theorem Carries.value {α : Type} {fields : Fields α} {r r' : α} {name : Bytes} {v : Option Value}
    {read : Item → α → Option α} (put : Option Value → α) (shortName : name.length < 2 ^ 32)
    (found : fields.lookup name = some read) (reads : ∀ i, read i r = (readValue i none).map put)
    (start : r = put none) (done : r' = put v) (short : ∀ u ∈ v, u.Short) :
    Carries fields (valueField name v) r r' := by
  subst done
  cases v with
  | none =>
    rw [← start]
    exact nil
  | some v =>
    obtain ⟨entries, written, kept⟩ := Value.kept (short v rfl)
    refine .field shortName found written ?_
    simp [reads, readValue, readRecord, kept]

theorem Param.kept {p : Param} (short : p.Short) : Kept {} Param.fields p.write p := by
  obtain ⟨name, ty⟩ := p
  have carriesName : Carries Param.fields [(("Name" : Bytes), MessagePack.text name)] {} { name } :=
    .field (by decide) rfl (reads_text short) rfl
  have carriesTy : Carries Param.fields [(("Type" : Bytes), MessagePack.int ty.code)] { name } { name, ty } :=
    .field (by decide) rfl (reads_int _) (by simp [readTy_code])
  exact (carriesName.append carriesTy).kept (by simp)

theorem Global.kept {g : Global} (short : g.Short) : Kept {} Global.fields g.write g := by
  obtain ⟨name, ty, init⟩ := g
  have carriesName : Carries Global.fields [(("Name" : Bytes), MessagePack.text name)] {} { name } :=
    .field (by decide) rfl (reads_text short.name) rfl
  have carriesTy : Carries Global.fields [(("Type" : Bytes), MessagePack.int ty.code)] { name } { name, ty } :=
    .field (by decide) rfl (reads_int _) (by simp [readTy_code])
  have carriesInit : Carries Global.fields (valueField "Init" init) { name, ty } { name, ty, init } :=
    .value (fun init => { name, ty, init }) (by decide) rfl (fun _ => rfl) rfl rfl short.init
  refine ((carriesName.append carriesTy).append carriesInit).kept ?_
  have one := length_valueField "Init" init
  simp only [List.length_append, List.length_singleton]
  omega

theorem forall₂_text {names : List Name} (each : ∀ name ∈ names, name.length < 2 ^ 32) :
    List.Forall₂ Reads (names.map MessagePack.text) (names.map Item.text) := by
  rw [List.forall₂_map_left_iff, List.forall₂_map_right_iff, List.forall₂_same]
  exact fun name member => reads_text (each name member)

theorem readNames_text (names old : List Name) : readNames (.array (names.map Item.text)) old = some names := by
  rw [readNames, List.mapM_map]
  have each : names.mapM (fun name => (pure name : Option Name)) = some (names.map id) := List.mapM_pure
  rwa [List.map_id] at each

theorem Carries.name {α : Type} {fields : Fields α} {r r' : α} {field : Bytes} {name : Name}
    {read : Item → α → Option α} (put : Name → α) (shortField : field.length < 2 ^ 32)
    (found : fields.lookup field = some read) (reads : read (.text name) r = some (put name))
    (start : r = put []) (done : r' = put name) (short : name.length < 2 ^ 32) :
    Carries fields (Snapshot.optional (!name.isEmpty) field (MessagePack.text name)) r r' := by
  subst done
  refine .optional (fun _ => .field shortField found (reads_text short) reads) fun absent => ?_
  rw [isEmpty_eq_false absent, start]

theorem Stmt.kept {s : Stmt} (short : s.Short) : Kept {} Stmt.fields s.write s := by
  obtain ⟨kind, label, op, dest, a, b, args, value⟩ := s
  have carriesKind : Carries Stmt.fields [(("Kind" : Bytes), MessagePack.uint8 kind)] {} { kind } :=
    .field (by decide) rfl (reads_uint8 _) (by simp [readUInt8_toNat])
  have carriesLabel : Carries Stmt.fields (optional (!label.isEmpty) "Label" (MessagePack.text label)) { kind }
      { kind, label } :=
    .name (fun label => { kind, label }) (by decide) rfl rfl rfl rfl short.label
  have carriesOp : Carries Stmt.fields (optional (op != 0) "Op" (MessagePack.int op)) { kind, label }
      { kind, label, op } := by
    refine .optional (fun _ => .field (by decide) rfl (reads_int _) (by simp [readInt_toInt])) fun absent => ?_
    have zero : op = 0 := by simpa using absent
    rw [zero]
  have carriesDest : Carries Stmt.fields (optional (!dest.isEmpty) "Dest" (MessagePack.text dest))
      { kind, label, op } { kind, label, op, dest } :=
    .name (fun dest => { kind, label, op, dest }) (by decide) rfl rfl rfl rfl short.dest
  have carriesA : Carries Stmt.fields (optional (!a.isEmpty) "A" (MessagePack.text a))
      { kind, label, op, dest } { kind, label, op, dest, a } :=
    .name (fun a => { kind, label, op, dest, a }) (by decide) rfl rfl rfl rfl short.a
  have carriesB : Carries Stmt.fields (optional (!b.isEmpty) "B" (MessagePack.text b))
      { kind, label, op, dest, a } { kind, label, op, dest, a, b } :=
    .name (fun b => { kind, label, op, dest, a, b }) (by decide) rfl rfl rfl rfl short.b
  have carriesArgs : Carries Stmt.fields
      (optional (!args.isEmpty) "Args" (MessagePack.array (args.map MessagePack.text)))
      { kind, label, op, dest, a, b } { kind, label, op, dest, a, b, args } := by
    have reads := reads_array (by simpa using short.args) (forall₂_text short.each)
    refine .optional (fun _ => .field (by decide) rfl reads (by simp [readNames_text])) fun absent => ?_
    rw [isEmpty_eq_false absent]
  have carriesValue : Carries Stmt.fields (valueField "Value" value)
      { kind, label, op, dest, a, b, args } { kind, label, op, dest, a, b, args, value } :=
    .value (fun value => { kind, label, op, dest, a, b, args, value }) (by decide) rfl (fun _ => rfl) rfl rfl short.value
  refine (((((((carriesKind.append carriesLabel).append carriesOp).append carriesDest).append carriesA).append
    carriesB).append carriesArgs).append carriesValue).kept ?_
  have atMost := length_optional
  have one := atMost (!label.isEmpty) "Label" (MessagePack.text label)
  have two := atMost (op != 0) "Op" (MessagePack.int op)
  have three := atMost (!dest.isEmpty) "Dest" (MessagePack.text dest)
  have four := atMost (!a.isEmpty) "A" (MessagePack.text a)
  have five := atMost (!b.isEmpty) "B" (MessagePack.text b)
  have six := atMost (!args.isEmpty) "Args" (MessagePack.array (args.map MessagePack.text))
  have seven := length_valueField "Value" value
  simp only [List.length_append, List.length_singleton]
  omega

theorem Carries.list {α β : Type} {fields : Fields α} {r r' : α} {name : Bytes} {read : Item → α → Option α}
    {empty : β} {inner : Fields β} {write : β → Bytes} {xs : List β} (shortName : name.length < 2 ^ 32)
    (found : fields.lookup name = some read) (short : xs.length < 2 ^ 32)
    (each : ∀ x ∈ xs, Kept empty inner (write x) x)
    (reads : ∀ i, readList empty (readRecord empty inner) i [] = some xs → read i r = some r') :
    Carries fields [(name, Snapshot.list write xs)] r r' := by
  obtain ⟨item, written, kept⟩ := exists_reads_list short each
  exact .field shortName found written (reads item kept)

theorem Function.kept {f : Function} (short : f.Short) : Kept {} Function.fields f.write f := by
  obtain ⟨name, result, params, external, body⟩ := f
  have carriesName : Carries Function.fields [(("Name" : Bytes), MessagePack.text name)] {} { name } :=
    .field (by decide) rfl (reads_text short.name) rfl
  have carriesResult : Carries Function.fields [(("Ret" : Bytes), MessagePack.int result.code)] { name }
      { name, result } :=
    .field (by decide) rfl (reads_int _) (by simp [readTy_code])
  have carriesParams : Carries Function.fields [(("Params" : Bytes), list Param.write params)] { name, result }
      { name, result, params } :=
    .list (by decide) rfl short.params (fun p member => Param.kept (short.eachParam p member))
      fun i kept => by simp [kept]
  have carriesExternal : Carries Function.fields [(("External" : Bytes), MessagePack.bool external)]
      { name, result, params } { name, result, params, external } :=
    .field (by decide) rfl (reads_bool _) rfl
  have carriesBody : Carries Function.fields [(("Body" : Bytes), list Stmt.write body)]
      { name, result, params, external } { name, result, params, external, body } :=
    .list (by decide) rfl short.body (fun s member => Stmt.kept (short.eachStmt s member))
      fun i kept => by simp [kept]
  exact ((((carriesName.append carriesResult).append carriesParams).append carriesExternal).append carriesBody).kept
    (by simp)

theorem Program.kept {p : Program} (short : p.Short) : Kept {} Program.fields p.write p := by
  obtain ⟨version, names, globals, functions⟩ := p
  have carriesVersion : Carries Program.fields [(("Version" : Bytes), MessagePack.int version)] {} { version } :=
    .field (by decide) rfl (reads_int _) (by simp [readInt_toInt])
  have carriesNames : Carries Program.fields [(("Names" : Bytes), MessagePack.int names)] { version }
      { version, names } :=
    .field (by decide) rfl (reads_int _) (by simp [readInt_toInt])
  have carriesGlobals : Carries Program.fields [(("Globals" : Bytes), list Global.write globals)]
      { version, names } { version, names, globals } :=
    .list (by decide) rfl short.globals (fun g member => Global.kept (short.eachGlobal g member))
      fun i kept => by simp [kept]
  have carriesFunctions : Carries Program.fields [(("Funcs" : Bytes), list Function.write functions)]
      { version, names, globals } { version, names, globals, functions } :=
    .list (by decide) rfl short.functions (fun f member => Function.kept (short.eachFunction f member))
      fun i kept => by simp [kept]
  exact (((carriesVersion.append carriesNames).append carriesGlobals).append carriesFunctions).kept (by simp)

theorem Program.read_write {p : Program} (short : p.Short) (rest : Bytes) : Program.read (p.write ++ rest) = .ok p := by
  obtain ⟨entries, written, kept⟩ := Program.kept short
  obtain ⟨_, reads⟩ := written _ rest rfl
  have first : (p.write ++ rest).head? = some 0x84 := rfl
  have starts : startsRecord 0x84 = true := by decide
  rw [Program.read, first]
  simp only [starts, if_true, reads, bind, Except.bind, readRecord, kept]

section

variable {α : Type} {P : α → Prop} {empty : α} {fields : Fields α}

def Preserve (P : α → Prop) (fields : Fields α) : Prop :=
  ∀ field ∈ fields, ∀ {i r r'}, i.Short → P r → field.2 i r = some r' → P r'

theorem Preserve.entries (preserve : Preserve P fields) {entries : List (Item × Item)} {r r' : α}
    (short : Item.EntriesShort entries) (start : P r) (read : readEntries fields entries r = some r') : P r' := by
  induction entries generalizing r with
  | nil =>
    cases read
    exact start
  | cons entry entries ih =>
    obtain ⟨key, item⟩ := entry
    obtain ⟨_, shortItem, rest⟩ := short
    obtain ⟨name, _, read⟩ := Option.bind_eq_some_iff.1 read
    cases found : fields.lookup name with
    | none =>
      rw [found] at read
      exact ih rest start read
    | some reader =>
      rw [found] at read
      obtain ⟨middle, first, read⟩ := Option.bind_eq_some_iff.1 read
      obtain ⟨before, _, inside, _⟩ := List.lookup_eq_some_iff.1 found
      have member : (name, reader) ∈ fields := by simp [inside]
      exact ih rest (preserve _ member shortItem start first) read

theorem Preserve.items (preserve : Preserve P fields) {items : List Item} {r r' : α} (short : Item.AllShort items)
    (start : P r) (read : readItems fields items r = some r') : P r' := by
  induction fields generalizing items r with
  | nil =>
    cases items with
    | nil =>
      cases read
      exact start
    | cons => cases read
  | cons field fields ih =>
    cases items with
    | nil => cases read
    | cons item items =>
      obtain ⟨middle, first, read⟩ := Option.bind_eq_some_iff.1 read
      have next := preserve field (by simp) short.1 start first
      exact ih (fun other member => preserve other (List.mem_cons_of_mem _ member)) short.2 next read

theorem Preserve.record (preserve : Preserve P fields) (blank : P empty) {old r : α} (short : i.Short)
    (start : P old) (read : readRecord empty fields i old = some r) : P r := by
  unfold readRecord at read
  split at read
  · cases read
    exact blank
  · cases read
    exact blank
  · exact preserve.items short.2 start read
  · exact preserve.entries short start read
  · cases read

theorem Preserve.list (preserve : Preserve P fields) (blank : P empty) {old xs : List α} (short : i.Short)
    (start : ∀ x ∈ old, P x) (read : readList empty (readRecord empty fields) i old = some xs) :
    xs.length < 2 ^ 32 ∧ ∀ x ∈ xs, P x := by
  have elements : ∀ {items : List Item} {old xs : List α}, Item.AllShort items → (∀ x ∈ old, P x) →
      readElements empty (readRecord empty fields) items old = some xs →
      xs.length = items.length ∧ ∀ x ∈ xs, P x := by
    intro items
    induction items with
    | nil =>
      intro old xs _ _ read
      cases read
      exact ⟨rfl, by simp⟩
    | cons item items ih =>
      intro old xs short start read
      obtain ⟨x, first, read⟩ := Option.bind_eq_some_iff.1 read
      obtain ⟨rest, more, read⟩ := Option.bind_eq_some_iff.1 read
      cases read
      have head : P (old.headD empty) := by
        cases old with
        | nil => exact blank
        | cons y ys => exact start y (by simp)
      have tail : ∀ y ∈ old.tail, P y := fun y member => start y (List.mem_of_mem_tail member)
      obtain ⟨count, each⟩ := ih short.2 tail more
      refine ⟨by simp [count], fun y member => ?_⟩
      rcases List.mem_cons.1 member with rfl | later
      · exact preserve.record blank short.1 head first
      · exact each y later
  unfold readList at read
  split at read
  · cases read
    exact ⟨by simp, by simp⟩
  · obtain ⟨count, each⟩ := elements short.2 start read
    exact ⟨count ▸ short.1, each⟩
  · cases read

end

theorem short_readText {s : Bytes} (short : i.Short) (read : readText i = some s) : s.length < 2 ^ 32 := by
  unfold readText at read
  split at read
  · cases read
    decide
  · cases read
    exact short
  · cases read

theorem short_readNames {old names : List Name} (short : i.Short)
    (start : old.length < 2 ^ 32 ∧ ∀ name ∈ old, name.length < 2 ^ 32) (read : readNames i old = some names) :
    names.length < 2 ^ 32 ∧ ∀ name ∈ names, name.length < 2 ^ 32 := by
  have texts : ∀ {items : List Item} {names : List Name}, Item.AllShort items → items.mapM readText = some names →
      names.length = items.length ∧ ∀ name ∈ names, name.length < 2 ^ 32 := by
    intro items
    induction items with
    | nil =>
      intro names _ read
      cases read
      exact ⟨rfl, by simp⟩
    | cons item items ih =>
      intro names short read
      rw [List.mapM_cons] at read
      obtain ⟨name, first, read⟩ := Option.bind_eq_some_iff.1 read
      obtain ⟨rest, more, read⟩ := Option.bind_eq_some_iff.1 read
      cases read
      obtain ⟨count, each⟩ := ih short.2 more
      refine ⟨by simp [count], fun other member => ?_⟩
      rcases List.mem_cons.1 member with rfl | later
      · exact short_readText short.1 first
      · exact each other later
  unfold readNames at read
  split at read
  · cases read
    exact start
  · obtain ⟨count, each⟩ := texts short.2 read
    exact ⟨count ▸ short.1, each⟩
  · cases read

theorem Value.preserve : Preserve Value.Short Value.fields := by
  intro field member i r r' short start read
  simp only [Value.fields, List.mem_cons, List.not_mem_nil, or_false] at member
  rcases member with rfl | rfl | rfl | rfl <;> obtain ⟨x, found, rfl⟩ := Option.map_eq_some_iff.1 read
  · exact start
  · exact start
  · exact start
  · exact short_readText short found

theorem short_readValue {old v : Option Value} (short : i.Short) (start : ∀ u ∈ old, u.Short)
    (read : readValue i old = some v) : ∀ u ∈ v, u.Short := by
  have blank : Value.Short {} := by simp [Value.Short]
  have before : Value.Short (old.getD {}) := by
    cases old with
    | none => exact blank
    | some u => exact start u rfl
  unfold readValue at read
  split at read
  · cases read
    simp
  · obtain ⟨u, found, rfl⟩ := Option.map_eq_some_iff.1 read
    have inside := Value.preserve.record blank short before found
    simpa using inside

theorem Param.preserve : Preserve Param.Short Param.fields := by
  intro field member i r r' short start read
  simp only [Param.fields, List.mem_cons, List.not_mem_nil, or_false] at member
  rcases member with rfl | rfl <;> obtain ⟨x, found, rfl⟩ := Option.map_eq_some_iff.1 read
  · exact short_readText short found
  · exact start

theorem Global.preserve : Preserve Global.Short Global.fields := by
  intro field member i r r' short start read
  simp only [Global.fields, List.mem_cons, List.not_mem_nil, or_false] at member
  rcases member with rfl | rfl | rfl <;> obtain ⟨x, found, rfl⟩ := Option.map_eq_some_iff.1 read
  · exact ⟨short_readText short found, start.init⟩
  · exact ⟨start.name, start.init⟩
  · exact ⟨start.name, short_readValue short start.init found⟩

theorem Stmt.preserve : Preserve Stmt.Short Stmt.fields := by
  intro field member i r r' short start read
  simp only [Stmt.fields, List.mem_cons, List.not_mem_nil, or_false] at member
  rcases member with rfl | rfl | rfl | rfl | rfl | rfl | rfl | rfl <;>
    obtain ⟨x, found, rfl⟩ := Option.map_eq_some_iff.1 read
  · exact { start with }
  · exact { start with label := short_readText short found }
  · exact { start with }
  · exact { start with dest := short_readText short found }
  · exact { start with a := short_readText short found }
  · exact { start with b := short_readText short found }
  · obtain ⟨args, each⟩ := short_readNames short ⟨start.args, start.each⟩ found
    exact { start with args, each }
  · exact { start with value := short_readValue short start.value found }

theorem Function.preserve : Preserve Function.Short Function.fields := by
  intro field member i r r' short start read
  simp only [Function.fields, List.mem_cons, List.not_mem_nil, or_false] at member
  rcases member with rfl | rfl | rfl | rfl | rfl <;> obtain ⟨x, found, rfl⟩ := Option.map_eq_some_iff.1 read
  · exact { start with name := short_readText short found }
  · exact { start with }
  · have blank : Param.Short {} := by simp [Param.Short]
    obtain ⟨params, eachParam⟩ := Param.preserve.list blank short start.eachParam found
    exact { start with params, eachParam }
  · exact { start with }
  · have blank : Stmt.Short {} := by constructor <;> simp
    obtain ⟨body, eachStmt⟩ := Stmt.preserve.list blank short start.eachStmt found
    exact { start with body, eachStmt }

theorem Program.preserve : Preserve Program.Short Program.fields := by
  intro field member i r r' short start read
  simp only [Program.fields, List.mem_cons, List.not_mem_nil, or_false] at member
  rcases member with rfl | rfl | rfl | rfl <;> obtain ⟨x, found, rfl⟩ := Option.map_eq_some_iff.1 read
  · exact { start with }
  · exact { start with }
  · have blank : Global.Short {} := by constructor <;> simp
    obtain ⟨globals, eachGlobal⟩ := Global.preserve.list blank short start.eachGlobal found
    exact { start with globals, eachGlobal }
  · have blank : Function.Short {} := by constructor <;> simp
    obtain ⟨functions, eachFunction⟩ := Function.preserve.list blank short start.eachFunction found
    exact { start with functions, eachFunction }

theorem Program.short_of_read {bytes : Bytes} {p : Program} (read : Program.read bytes = .ok p) : p.Short := by
  have blank : Program.Short {} := by constructor <;> simp
  unfold Program.read at read
  split at read
  · cases read
  split at read
  · obtain ⟨⟨item, _⟩, first, read⟩ := bind_eq_ok.1 read
    dsimp only at read
    split at read
    · rename_i found
      cases read
      exact Program.preserve.record blank (short_read bytes first) blank found
    · cases read
  · cases read

end MiniC.Snapshot
