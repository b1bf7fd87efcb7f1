import MiniC.Proofs.Emission.Symbols

namespace MiniC.Assembly

open Code Storage

variable {g : Global} {p : Program}

inductive Origin
  | declared
  | data
  | mark
  | exit
  deriving DecidableEq

def origin : Name → Origin
  | 0x2e :: _ => .data
  | 0x5f :: 0x5f :: 0x4c :: _ => .mark
  | 0x5f :: 0x5f :: 0x65 :: _ => .exit
  | _ => .declared

@[simp] theorem origin_dataLabel (name : Name) : origin (dataLabel name) = .data :=
  rfl

@[simp] theorem origin_exitLabel (g : Function) : origin g.exitLabel = .exit :=
  rfl

@[simp] theorem origin_mark (n : Int64) : origin (Name.generated Name.label n) = .mark :=
  rfl

@[simp] theorem origin_string (n : Int64) : origin (Name.generated Name.string n) = .declared :=
  rfl

theorem origin_of_userName {name : Name} (user : Source.IsUserName name) : origin name = .declared := by
  obtain ⟨c, rest, rfl, letter, _⟩ := user.spelled
  unfold origin
  split
  · rename_i same
    cases same
    exact absurd letter (by decide)
  · rename_i same
    cases same
    exact absurd user.notGenerated nofun
  · rename_i same
    cases same
    exact absurd user.notGenerated nofun
  · rfl

theorem nodup_of_origins {names : List Name} (each : ∀ o, (names.filter fun name => origin name = o).Nodup) :
    names.Nodup := by
  rw [List.nodup_iff_count_le_one]
  intro name
  have few := List.nodup_iff_count_le_one.1 (each (origin name)) name
  rwa [List.count_filter (by simp)] at few

def dataLabels (g : Global) : List Name :=
  if g.ty = .string then [dataLabel g.name, g.name] else [g.name]

theorem name_mem_dataLabels (g : Global) : g.name ∈ dataLabels g := by
  unfold dataLabels
  split <;> simp

theorem labels_globalData {part : List Line} (emitted : globalData g = .ok part) :
    labels part = dataLabels g ∧ ∀ line ∈ part, ∀ s, line.symbol? = some s → s ∈ dataLabels g := by
  unfold globalData at emitted
  split at emitted
  case h_1 | h_2 =>
    rename_i ty
    rw [dataLabels, if_neg (by rw [ty]; nofun)]
    split at emitted <;> cases emitted <;> exact ⟨rfl, by simp [Line.symbol?, Line.jump?]⟩
  case h_3 =>
    rename_i ty
    rw [dataLabels, if_pos ty]
    split at emitted <;> cases emitted
    exact ⟨rfl, by simp [Line.symbol?, Line.jump?]⟩
  case h_4 => cases emitted

structure IsFit (functions : List Function) (g : Global) : Prop where
  notFunction : ∀ f ∈ functions, f.name ≠ g.name
  notStartup : g.name ∉ startupLabels

theorem global_cases {functions : List Function} {seen : List Name} {part : List Line}
    (emitted : global functions seen g = .ok part) : g.name ∉ seen ∧ IsFit functions g ∧ globalData g = .ok part := by
  unfold global at emitted
  split at emitted
  · cases emitted
  rename_i new
  split at emitted
  · cases emitted
  rename_i other
  split at emitted
  · cases emitted
  rename_i free
  exact ⟨new, ⟨by simpa using other, free⟩, emitted⟩

/-- The data of globals: their names are fit, and it refers to labels of its own only. -/
structure DataOf (functions : List Function) (seen : List Name) (gs : List Global) (data : List Line) : Prop where
  names : (gs.map (·.name)).Nodup
  fit : ∀ g ∈ gs, g.name ∉ seen ∧ IsFit functions g
  marks : labels data = gs.flatMap dataLabels
  symbols : ∀ line ∈ data, ∀ s, line.symbol? = some s → s ∈ labels data

theorem dataOf_globals {functions : List Function} {seen : List Name} {gs : List Global} {data : List Line}
    (emitted : globals functions seen gs = .ok data) : DataOf functions seen gs data := by
  induction gs generalizing seen data with
  | nil =>
    cases emitted
    exact ⟨List.nodup_nil, by simp, rfl, by simp⟩
  | cons g gs ih =>
    obtain ⟨first, here, emitted⟩ := bind_eq_ok.1 emitted
    obtain ⟨rest, there, done⟩ := bind_eq_ok.1 emitted
    cases done
    obtain ⟨new, fit, isPart⟩ := global_cases (within_eq_ok.1 here)
    obtain ⟨marks, symbols⟩ := labels_globalData isPart
    have others := ih there
    have apart : ∀ h ∈ gs, h.name ≠ g.name ∧ h.name ∉ seen := by
      intro h member
      simpa using (others.fit h member).1
    refine ⟨?_, ?_, ?_, ?_⟩
    · rw [List.map_cons, List.nodup_cons]
      refine ⟨fun again => ?_, others.names⟩
      obtain ⟨h, member, same⟩ := List.mem_map.1 again
      exact (apart h member).1 same
    · intro h member
      rcases List.mem_cons.1 member with rfl | later
      · exact ⟨new, fit⟩
      · exact ⟨(apart h later).2, (others.fit h later).2⟩
    · rw [labels_append, marks, others.marks, List.flatMap_cons]
    · intro line member s refers
      rw [labels_append]
      rcases List.mem_append.1 member with inFirst | inRest
      · exact List.mem_append_left _ (marks ▸ symbols line inFirst s refers)
      · exact List.mem_append_right _ (others.symbols line inRest s refers)

theorem checkFunctions_cases {seen : List Name} {fs : List Function} (checked : checkFunctions seen fs = .ok ()) :
    (fs.map (·.name)).Nodup ∧ ∀ f ∈ fs, f.name ∉ seen ∧ f.name ∉ startupLabels := by
  induction fs generalizing seen with
  | nil => exact ⟨List.nodup_nil, by simp⟩
  | cons f fs ih =>
    rw [checkFunctions] at checked
    split at checked
    · cases checked
    rename_i new
    split at checked
    · cases checked
    rename_i free
    obtain ⟨nodup, others⟩ := ih checked
    have apart : ∀ g ∈ fs, g.name ≠ f.name ∧ g.name ∉ seen := by
      intro g member
      simpa using (others g member).1
    refine ⟨?_, ?_⟩
    · rw [List.map_cons, List.nodup_cons]
      refine ⟨fun again => ?_, nodup⟩
      obtain ⟨g, member, same⟩ := List.mem_map.1 again
      exact (apart g member).1 same
    · intro g member
      rcases List.mem_cons.1 member with rfl | later
      · exact ⟨new, free⟩
      · exact ⟨(apart g later).2, (others g later).2⟩

def bodies (fs : List Function) : List Function :=
  fs.filter fun f => !f.external

theorem mem_bodies {fs : List Function} {f : Function} : f ∈ bodies fs ↔ f ∈ fs ∧ f.external = false := by
  simp [bodies]

def functionLabels (g : Function) : List Name :=
  g.name :: (Code.labels g.body ++ [g.exitLabel])

def AllCoded (p : Program) (gs : List Function) : Prop :=
  ∀ g ∈ gs, ∀ lines, function p g = .ok lines → ∃ code, lines = .blank :: code ∧ IsFunctionCode p g code

theorem functions_cases {fs : List Function} {lines : List Line} (emitted : functions p fs = .ok lines)
    (coded : AllCoded p (bodies fs)) :
    ∃ codes, lines = codes.flatMap (.blank :: ·) ∧ List.Forall₂ (IsFunctionCode p) (bodies fs) codes := by
  induction fs generalizing lines with
  | nil =>
    cases emitted
    exact ⟨[], rfl, .nil⟩
  | cons f fs ih =>
    rw [functions] at emitted
    split at emitted
    · rename_i external
      rw [bodies, List.filter_cons_of_neg (by simp [external])] at coded ⊢
      exact ih emitted coded
    · rename_i hasBody
      rw [bodies, List.filter_cons_of_pos (by simp [hasBody])] at coded ⊢
      obtain ⟨first, here, emitted⟩ := bind_eq_ok.1 emitted
      obtain ⟨rest, there, done⟩ := bind_eq_ok.1 emitted
      cases done
      obtain ⟨code, rfl, isCode⟩ := coded f List.mem_cons_self first (within_eq_ok.1 here)
      obtain ⟨codes, rfl, others⟩ := ih there fun g member => coded g (List.mem_cons_of_mem f member)
      exact ⟨code :: codes, rfl, .cons isCode others⟩

theorem labels_codes {gs : List Function} {codes : List (List Line)}
    (coded : List.Forall₂ (IsFunctionCode p) gs codes) :
    labels (codes.flatMap (.blank :: ·)) = gs.flatMap functionLabels := by
  induction coded with
  | nil => rfl
  | cons isCode _ ih =>
    rw [List.flatMap_cons, List.flatMap_cons, labels_append, ih]
    exact congrArg (· ++ _) isCode.marks

theorem exists_code {gs : List Function} {codes : List (List Line)}
    (coded : List.Forall₂ (IsFunctionCode p) gs codes) {g : Function} (member : g ∈ gs) :
    ∃ before code behind, codes.flatMap (.blank :: ·) = before ++ code ++ behind ∧ IsFunctionCode p g code := by
  induction coded with
  | nil => cases member
  | @cons g' code gs codes isCode _ ih =>
    rcases List.mem_cons.1 member with rfl | later
    · exact ⟨[.blank], code, codes.flatMap (.blank :: ·), rfl, isCode⟩
    · obtain ⟨before, found, behind, parts, isFound⟩ := ih later
      refine ⟨.blank :: code ++ before, found, behind, ?_, isFound⟩
      rw [List.flatMap_cons, parts, List.append_assoc, List.append_assoc, List.append_assoc]

theorem mem_codes {gs : List Function} {codes : List (List Line)}
    (coded : List.Forall₂ (IsFunctionCode p) gs codes) {line : Line} (member : line ∈ codes.flatMap (.blank :: ·)) :
    line = .blank ∨ ∃ g ∈ gs, ∃ code, IsFunctionCode p g code ∧ line ∈ code := by
  induction coded with
  | nil => cases member
  | @cons g code gs codes isCode _ ih =>
    rcases List.mem_append.1 member with here | later
    · refine (List.mem_cons.1 here).imp_right fun inCode => ⟨g, List.mem_cons_self, code, isCode, inCode⟩
    · refine (ih later).imp_right ?_
      rintro ⟨g', inside, found⟩
      exact ⟨g', List.mem_cons_of_mem g inside, found⟩

structure IsAssembly (s : Startup) (q : Program) (data : List Line) (codes : List (List Line)) (lines : List Line) :
    Prop where
  parts : lines = [Line.directive (.align 2), .directive (.segment ".data")] ++ (data ++ (startup s ++
    (codes.flatMap (Line.blank :: ·) ++ [Line.label "halt", .instr (.jump "halt")])))
  isData : DataOf q.functions [] q.globals data
  names : (q.functions.map (·.name)).Nodup
  free : ∀ f ∈ q.functions, f.name ∉ startupLabels
  entry : ∃ f ∈ q.functions, f.name = s.entry ∧ f.external = false
  coded : List.Forall₂ (IsFunctionCode q) (bodies q.functions) codes

theorem isAssembly_of_ofProgram {s : Startup} {q : Program} {lines : List Line} (emitted : ofProgram s q = .ok lines)
    (coded : AllCoded q (bodies q.functions)) : ∃ data codes, IsAssembly s q data codes lines := by
  unfold ofProgram at emitted
  obtain ⟨_, checked, emitted⟩ := bind_eq_ok.1 emitted
  split at emitted
  · cases emitted
  rename_i entry
  obtain ⟨data, isData, emitted⟩ := bind_eq_ok.1 emitted
  obtain ⟨code, isFunctions, done⟩ := bind_eq_ok.1 emitted
  cases done
  obtain ⟨names, free⟩ := checkFunctions_cases checked
  obtain ⟨codes, rfl, each⟩ := functions_cases isFunctions coded
  refine ⟨data, codes, by simp, dataOf_globals isData, names, fun f member => (free f member).2, ?_, each⟩
  simpa using entry

structure WellNamed (q : Program) : Prop where
  globals : ∀ g ∈ q.globals, origin g.name = .declared
  functions : ∀ f ∈ q.functions, origin f.name = .declared
  marks : ∀ f ∈ q.functions, ∀ name ∈ Code.labels f.body, origin name = .mark
  apart : (q.functions.flatMap fun f => Code.labels f.body).Nodup

theorem filter_dataLabels (declared : origin g.name = .declared) (o : Origin) :
    (dataLabels g).filter (fun name => origin name = o) =
      if o = .declared then [g.name] else if o = .data ∧ g.ty = .string then [dataLabel g.name] else [] := by
  unfold dataLabels
  cases o <;> split <;> simp_all

theorem filter_functionLabels {g : Function} (declared : origin g.name = .declared)
    (marks : ∀ name ∈ Code.labels g.body, origin name = .mark) (o : Origin) :
    (functionLabels g).filter (fun name => origin name = o) =
      match o with
      | .declared => [g.name]
      | .mark => Code.labels g.body
      | .exit => [g.exitLabel]
      | .data => [] := by
  have inside : (Code.labels g.body).filter (fun name => origin name = o) = if o = .mark then Code.labels g.body else [] := by
    split
    · rename_i isMark
      rw [List.filter_eq_self]
      intro name member
      simp [marks name member, isMark]
    · rename_i other
      rw [List.filter_eq_nil_iff]
      intro name member
      simp [marks name member, Ne.symm other]
  unfold functionLabels
  rw [List.filter_cons, List.filter_append, inside]
  cases o <;> simp [declared]

def startLabels : List Name :=
  ["stack_bottom", "stack_top", "_start"]

def endLabels : List Name :=
  ["halt"]

theorem symbols_startup (s : Startup) : ∀ line ∈ startup s, ∀ name, line.symbol? = some name →
    name = s.entry ∨ name ∈ startupLabels := by
  simp [startup, Line.symbol?, Line.jump?, startupLabels]

section

variable {s : Startup} {q : Program} {data lines : List Line} {codes : List (List Line)}
  (isAssembly : IsAssembly s q data codes lines) (wellNamed : WellNamed q)

include isAssembly

theorem labels_assembly : labels lines =
    q.globals.flatMap dataLabels ++ (startLabels ++ ((bodies q.functions).flatMap functionLabels ++ endLabels)) := by
  rw [isAssembly.parts, labels_append, labels_append, labels_append, labels_append, isAssembly.isData.marks,
    labels_codes isAssembly.coded]
  rfl

include wellNamed

theorem filter_labels (o : Origin) : (labels lines).filter (fun name => origin name = o) =
    match o with
    | .declared => q.globals.map (·.name) ++ (startLabels ++ ((bodies q.functions).map (·.name) ++ endLabels))
    | .data => (q.globals.filter fun g => g.ty = .string).map fun g => dataLabel g.name
    | .mark => (bodies q.functions).flatMap fun g => Code.labels g.body
    | .exit => (bodies q.functions).map Function.exitLabel := by
  have inData : (q.globals.flatMap dataLabels).filter (fun name => origin name = o) = q.globals.flatMap fun g =>
      if o = .declared then [g.name] else if o = .data ∧ g.ty = .string then [dataLabel g.name] else [] := by
    rw [List.filter_flatMap]
    exact List.flatMap_congr fun g member => filter_dataLabels (wellNamed.globals g member) o
  have inCode : ((bodies q.functions).flatMap functionLabels).filter (fun name => origin name = o) =
      (bodies q.functions).flatMap fun g => match o with
        | .declared => [g.name]
        | .mark => Code.labels g.body
        | .exit => [g.exitLabel]
        | .data => [] := by
    rw [List.filter_flatMap]
    refine List.flatMap_congr fun g member => ?_
    have inside := (mem_bodies.1 member).1
    exact filter_functionLabels (wellNamed.functions g inside) (wellNamed.marks g inside) o
  rw [labels_assembly isAssembly, List.filter_append, List.filter_append, List.filter_append, inData, inCode]
  have inStart : startLabels.filter (fun name => origin name = o) = if o = .declared then startLabels else [] := by
    cases o <;> rfl
  have last : endLabels.filter (fun name => origin name = o) = if o = .declared then endLabels else [] := by
    cases o <;> rfl
  rw [inStart, last]
  cases o with
  | declared | exit => simp [List.map_eq_flatMap]
  | mark => simp
  | data =>
    have strings : ∀ gs : List Global, gs.flatMap (fun g => if g.ty = .string then [dataLabel g.name] else []) =
        (gs.filter fun g => g.ty = .string).map fun g => dataLabel g.name := by
      intro gs
      induction gs with
      | nil => rfl
      | cons g gs ih => by_cases string : g.ty = .string <;> simp [string, ih]
    simp [strings]

theorem nodup_labels : (labels lines).Nodup := by
  have names : ((bodies q.functions).map (·.name)).Nodup := isAssembly.names.sublist (List.filter_sublist.map _)
  refine nodup_of_origins fun o => ?_
  rw [filter_labels isAssembly wellNamed]
  cases o with
  | declared =>
    have isGlobal : ∀ name ∈ q.globals.map (·.name), name ∉ startupLabels ∧ name ∉ (bodies q.functions).map (·.name) := by
      intro name member
      obtain ⟨g, inside, rfl⟩ := List.mem_map.1 member
      have fit := (isAssembly.isData.fit g inside).2
      refine ⟨fit.notStartup, fun isFunction => ?_⟩
      obtain ⟨f, inside', same⟩ := List.mem_map.1 isFunction
      exact fit.notFunction f (mem_bodies.1 inside').1 same
    have isFunction : ∀ name ∈ (bodies q.functions).map (·.name), name ∉ startupLabels := by
      intro name member
      obtain ⟨f, inside, rfl⟩ := List.mem_map.1 member
      exact isAssembly.free f (mem_bodies.1 inside).1
    have early : ∀ name ∈ startLabels, name ∈ startupLabels ∧ name ∉ endLabels := by decide
    have late : ∀ name ∈ endLabels, name ∈ startupLabels := by decide
    have starts : startLabels.Nodup := by decide
    have ends : endLabels.Nodup := by decide
    simp only [List.nodup_append', List.disjoint_append_right, isAssembly.isData.names, names, starts, ends, true_and]
    refine ⟨⟨?_, ?_, ?_⟩, ?_, ?_, ?_⟩
    · exact fun name inCode atEnd => isFunction name inCode (late name atEnd)
    · exact fun name atStart inCode => isFunction name inCode (early name atStart).1
    · exact fun name atStart => (early name atStart).2
    · exact fun name inData atStart => (isGlobal name inData).1 (early name atStart).1
    · exact fun name inData => (isGlobal name inData).2
    · exact fun name inData atEnd => (isGlobal name inData).1 (late name atEnd)
  | data =>
    have injective : Function.Injective dataLabel := fun _ _ same => List.append_cancel_left same
    have labelled := isAssembly.isData.names.map injective
    rw [List.map_map] at labelled
    exact labelled.sublist (List.filter_sublist.map _)
  | mark =>
    obtain ⟨each, others⟩ := List.nodup_flatMap.1 wellNamed.apart
    exact List.nodup_flatMap.2 ⟨fun g member => each g (mem_bodies.1 member).1, others.sublist List.filter_sublist⟩
  | exit =>
    have injective : Function.Injective fun name : Name => ("__exit_" ++ name : Name) :=
      fun _ _ same => List.append_cancel_left same
    have labelled := names.map injective
    rwa [List.map_map] at labelled

theorem external_notMem_labels {f : Function} (member : f ∈ q.functions) (external : f.external = true) :
    f.name ∉ labels lines := by
  intro defined
  have declared : f.name ∈ (labels lines).filter fun name => origin name = .declared :=
    List.mem_filter.2 ⟨defined, by simp [wellNamed.functions f member]⟩
  rw [filter_labels isAssembly wellNamed] at declared
  have free := isAssembly.free f member
  rcases List.mem_append.1 declared with inData | declared
  · obtain ⟨g, inside, same⟩ := List.mem_map.1 inData
    exact (isAssembly.isData.fit g inside).2.notFunction f member same.symm
  rcases List.mem_append.1 declared with atStart | declared
  · exact free ((by decide : ∀ name ∈ startLabels, name ∈ startupLabels) _ atStart)
  rcases List.mem_append.1 declared with inCode | atEnd
  · obtain ⟨g, inside, same⟩ := List.mem_map.1 inCode
    obtain ⟨inside, hasBody⟩ := mem_bodies.1 inside
    obtain rfl := List.inj_on_of_nodup_map isAssembly.names inside member same
    exact absurd (hasBody.symm.trans external) Bool.false_ne_true
  · exact free ((by decide : ∀ name ∈ endLabels, name ∈ startupLabels) _ atEnd)

omit wellNamed

theorem mem_labels_of_function {f : Function} (member : f ∈ q.functions) (hasBody : f.external = false) :
    ∀ name ∈ functionLabels f, name ∈ labels lines := by
  intro name inside
  rw [labels_assembly isAssembly]
  refine List.mem_append_right _ (List.mem_append_right _ (List.mem_append_left _ ?_))
  exact List.mem_flatMap_of_mem (mem_bodies.2 ⟨member, hasBody⟩) inside

theorem mem_labels_of_global (member : g ∈ q.globals) : g.name ∈ labels lines := by
  rw [labels_assembly isAssembly]
  exact List.mem_append_left _ (List.mem_flatMap_of_mem member (name_mem_dataLabels g))

theorem mem_labels_of_startup {name : Name} (member : name ∈ startupLabels) : name ∈ labels lines := by
  rw [labels_assembly isAssembly]
  have cases : ∀ name ∈ startupLabels, name ∈ startLabels ∨ name ∈ endLabels := by decide
  rcases cases name member with atStart | atEnd
  · exact List.mem_append_right _ (List.mem_append_left _ atStart)
  · exact List.mem_append_right _ (List.mem_append_right _ (List.mem_append_right _ atEnd))

theorem symbols_assembly {line : Line} (member : line ∈ lines) {name : Name} (refers : line.symbol? = some name) :
    name ∈ labels lines ∨ line = .instr (.call name) ∧ ∃ f ∈ q.functions, f.external = true ∧ f.name = name := by
  rw [isAssembly.parts] at member
  rcases List.mem_append.1 member with first | member
  · left
    simp only [List.mem_cons, List.not_mem_nil, or_false] at first
    rcases first with rfl | rfl <;> cases refers
  rcases List.mem_append.1 member with inData | member
  · left
    rw [isAssembly.parts, labels_append, labels_append]
    exact List.mem_append_right _ (List.mem_append_left _ (isAssembly.isData.symbols line inData name refers))
  rcases List.mem_append.1 member with atStart | member
  · left
    obtain ⟨f, inside, entry, hasBody⟩ := isAssembly.entry
    have entered := mem_labels_of_function isAssembly inside hasBody f.name List.mem_cons_self
    rcases symbols_startup s line atStart name refers with rfl | isStartup
    · rwa [entry] at entered
    · exact mem_labels_of_startup isAssembly isStartup
  rcases List.mem_append.1 member with inCode | atEnd
  · rcases mem_codes isAssembly.coded inCode with rfl | ⟨g, inside, code, isCode, inCode⟩
    · cases refers
    obtain ⟨inside, hasBody⟩ := mem_bodies.1 inside
    rcases isCode.stays_or_returns inCode with stays | rfl
    · rcases stays.symbols name refers with isLabel | ⟨h, isGlobal, rfl⟩ | ⟨calls, f, isFunction, rfl⟩
      · left
        rw [isCode.marks] at isLabel
        exact mem_labels_of_function isAssembly inside hasBody name isLabel
      · exact .inl (mem_labels_of_global isAssembly isGlobal)
      · cases external : f.external with
        | true => exact .inr ⟨calls, f, isFunction, external, rfl⟩
        | false => exact .inl (mem_labels_of_function isAssembly isFunction external f.name List.mem_cons_self)
    · cases refers
  · left
    simp only [List.mem_cons, List.not_mem_nil, or_false] at atEnd
    rcases atEnd with rfl | rfl
    · cases refers
    · cases refers
      exact mem_labels_of_startup isAssembly (by decide)

end

end MiniC.Assembly
