import MiniC.Proofs.Compilation.Stages

namespace MiniC

namespace Source

mutual

def Stmt.declared : Stmt → List Name
  | .declare _ _ name _ => [name]
  | .whileStmt _ _ body => Stmt.declaredAll body
  | .ifStmt _ _ thenBody elseBody => Stmt.declaredAll thenBody ++ Stmt.declaredAll elseBody
  | _ => []

def Stmt.declaredAll : List Stmt → List Name
  | [] => []
  | s :: ss => s.declared ++ Stmt.declaredAll ss

end

/-- The names that a function declares: its parameters and its variables. -/
def Function.declared (f : Function) : List Name :=
  f.params.map (·.name) ++ Stmt.declaredAll f.body

mutual

theorem Stmt.isUserName_of_declared {name : Name} : ∀ {s : Stmt}, s.WellFormed → name ∈ s.declared → IsUserName name
  | .declare _ _ _ _, wellFormed, member => by
    rw [List.mem_singleton.1 member]
    exact wellFormed.2.2.1
  | .whileStmt _ _ _, wellFormed, member => isUserName_of_declaredAll wellFormed.2 member
  | .ifStmt _ _ _ _, wellFormed, member =>
    (List.mem_append.1 member).elim (isUserName_of_declaredAll wellFormed.2.1) (isUserName_of_declaredAll wellFormed.2.2)
  | .missing, _, never | .assign _ _ _, _, never | .returnStmt _ _, _, never | .breakStmt _, _, never
  | .continueStmt _, _, never | .exprStmt _ _, _, never => nomatch never

theorem Stmt.isUserName_of_declaredAll {name : Name} :
    ∀ {ss : List Stmt}, Stmt.AllWellFormed ss → name ∈ Stmt.declaredAll ss → IsUserName name
  | [], _, never => nomatch never
  | _ :: _, wellFormed, member =>
    (List.mem_append.1 member).elim (isUserName_of_declared wellFormed.1) (isUserName_of_declaredAll wellFormed.2)

end

theorem Function.isUserName_of_declared {f : Function} (wellFormed : f.WellFormed) {name : Name}
    (member : name ∈ f.declared) : IsUserName name := by
  rcases List.mem_append.1 member with isParam | inBody
  · obtain ⟨param, inside, rfl⟩ := List.mem_map.1 isParam
    exact (wellFormed.params param inside).2
  · exact Stmt.isUserName_of_declaredAll wellFormed.body inBody

end Source

namespace Storage

open Code

variable {queue : Queue Usage Usage.less}

section

variable {callees : Callees} {places : Name → Option Location} {name : Name} {t t' : Store}

theorem cells_of_put {w : Word} {place : Location} (put : t.put w place = some t') (other : ∀ size, place ≠ .memory name size) :
    t'.cells name = t.cells name := by
  cases place with
  | nowhere => cases put
  | register | stack =>
    cases put
    rfl
  | memory label size =>
    cases put
    have apart : name ≠ label := fun same => other size (same ▸ rfl)
    simp [apart]

variable (own : ∀ x size, places x ≠ some (.memory name size))
  (keeps : ∀ callee args cells out, out ∈ callees callee args cells → out.2 name = cells name)

include own keeps

theorem cells_of_acts {i : Nat} {action : Action} {events : List Event} {flow : Flow}
    (noMove : ∀ src size, action ≠ .move src (.memory name size))
    (acts : Acts (Store.setting callees places) i t action events flow t') : t'.cells name = t.cells name := by
  have written : ∀ {s s' : Store} {x w}, (Store.setting callees places).write s x w = some s' → s'.cells name = s.cells name := by
    intro s s' x w write
    obtain ⟨place, found, put⟩ := Option.bind_eq_some_iff.1 write
    exact cells_of_put put fun size same => own x size (same ▸ found)
  cases acts with
  | nop | jump | taken | passed | leave | give => rfl
  | store _ write | binary _ _ _ write | unary _ _ write => exact written write
  | call _ called kept =>
    obtain ⟨known, _⟩ := called
    rw [← keeps _ _ _ _ known]
    unfold Setting.keep at kept
    split at kept
    · cases kept
      rfl
    · exact written kept
  | move transfer =>
    obtain ⟨w, _, put⟩ := Option.bind_eq_some_iff.1 transfer
    exact cells_of_put put fun size same => noMove _ size (by rw [same])

theorem cells_of_runs {code : List Stmt} {events : List Event} {outcome : Outcome}
    (noMove : ∀ s ∈ code, ∀ src size, s.action ≠ .move src (.memory name size))
    (runs : (Store.setting callees places).language.Runs code t events outcome t') : t'.cells name = t.cells name := by
  obtain ⟨count, ends⟩ := runs
  generalize 0 = pc at ends
  induction ends with
  | halt halts =>
    cases halts with
    | fell => rfl
    | returned at_ acts => exact cells_of_acts own keeps (noMove _ (List.mem_of_getElem? at_)) acts
  | step at_ acts _ _ ih => rw [ih, cells_of_acts own keeps (noMove _ (List.mem_of_getElem? at_)) acts]

end

theorem memory_of_withFrame {globals : List Global} {params : List Param} {body : List Stmt} {l : Layout} {x label : Name}
    {size : Int64} (ok : place queue globals params body = .ok l) (found : l.withFrame.get? x = some (.memory label size)) :
    label = x := by
  rcases get?_withFrame_cases ok found with ⟨_, _, never, _⟩ | ⟨_, _, _, _, never⟩ | ⟨_, _, same⟩
  · cases never
  · cases never
  · cases same
    rfl

section

variable {start : Namer} {a moves : Nat} {globals new : List Global} {f g : Function} {strings : Nat → Name}
  {l final : Layout} (assigns : Assigns queue start a moves globals new f g strings l) (layout : g.layout = some final)
  {name : Name} (user : Name.isGenerated name = false)

include assigns layout user

theorem get?_user : final.get? name = l.withFrame.get? name := by
  rcases (later_of_assigns assigns layout).places name with same | ⟨⟨n, generated⟩, _⟩
  · exact same
  · exact absurd generated (Name.ne_generated user _ n)

theorem cells_of_assigns (plain : ∀ s ∈ f.body, ∀ src dst, s.action ≠ .move src dst)
    (own : ∀ size, final.get? name ≠ some (.memory name size)) {callees : Callees}
    (keeps : ∀ callee args cells out, out ∈ callees callee args cells → out.2 name = cells name)
    {t t' : Store} {events : List Event} {outcome : Outcome}
    (runs : (Store.setting callees final.get?).language.Runs g.body t events outcome t') :
    t'.cells name = t.cells name := by
  have later := later_of_assigns assigns layout
  have unnamed : ∀ x size, l.withFrame.get? x ≠ some (.memory name size) := by
    intro x size found
    obtain rfl := memory_of_withFrame assigns.places found
    exact own size ((get?_user assigns layout user).trans found)
  refine cells_of_runs (fun x size found => ?_) keeps (fun s member src size isMove => ?_) runs
  · exact unnamed x size (later.of_other found nofun)
  · obtain ⟨i, original, inBody, _, _, becomes⟩ := becomes_of_plain assigns layout plain member
    have notMove : ∀ dst, symbolic (strings i) original.action ≠ .move src dst :=
      fun dst same => plain original (List.mem_of_getElem? inBody) src dst (symbolic_eq_move.1 same)
    rw [isMove] at becomes
    generalize moved : Action.move src (.memory name size) = action at becomes
    cases becomes with
    | load => cases moved
    | unload _ _ found =>
      cases moved
      exact unnamed _ size found
    | other here =>
      generalize symbolic (strings i) original.action = before at here moved
      cases before <;> cases moved
      cases here
    | call is => cases is.symm.trans moved.symm

end

end Storage

open Code Storage

theorem names_of_globals {gs : List Source.Global} {hs : List Global}
    (lowered : List.Forall₂ (fun g h => OfSource.global g = .ok h) gs hs) : hs.map (·.name) = gs.map (·.name) := by
  induction lowered with
  | nil => rfl
  | cons here _ ih => rw [List.map_cons, List.map_cons, ih, OfSource.name_of_global here]

/-- Where a name lives that the function `y` declares, when the globals of the program are `globals`, the function's
code is `f` at first and `g` with the layout `l` in the end. -/
structure Resides (globals : List Global) (y : Source.Function) (f g : Function) (l : Layout) (name : Name) : Prop where
  ofParam : name ∈ y.params.map (·.name) → ∃ offset, l.get? name = some (.stack offset slotSize)
  ofGlobal : name ∉ y.params.map (·.name) → ∀ h ∈ globals, h.name = name → l.get? name = some (.memory name h.ty.size)
  ofLocal : name ∉ globals.map (·.name) → name ∈ usedNames f.params f.body →
    (∃ r ∈ Register.locals, l.get? name = some (.register r)) ∨ ∃ offset, l.get? name = some (.stack offset slotSize)
  unused : name ∉ globals.map (·.name) → name ∉ usedNames f.params f.body → l.get? name = none
  hides : name ∈ y.params.map (·.name) ∨ name ∉ globals.map (·.name) → ∀ callees,
    (∀ callee args cells out, out ∈ callees callee args cells → out.2 name = cells name) → ∀ t events outcome t',
      (Store.setting callees l.get?).language.Runs g.body t events outcome t' → t'.cells name = t.cells name

theorem resides_of_assigns {start : Namer} {a moves : Nat} {globals added new : List Global} {y : Source.Function}
    {f g : Function} {strings : Nat → Name} {l final : Layout} {name : Name}
    (assigns : Assigns queue start a moves (globals ++ added) new f g strings l) (layout : g.layout = some final)
    (plain : ∀ s ∈ f.body, ∀ src dst, s.action ≠ .move src dst) (user : Name.isGenerated name = false)
    (isString : ∀ h ∈ added, ∃ n, h.name = Name.generated Name.string n) (params : f.params = y.params.map OfSource.param) :
    Resides globals y f g final name := by
  have same := get?_user assigns layout user
  have names := usedNames_withStrings strings f.params f.body
  have isParam : name ∈ y.params.map (·.name) ↔ name ∈ f.params.map (·.name) := by
    rw [params, List.map_map]
    rfl
  have unnamed : name ∉ globals.map (·.name) → name ∉ (globals ++ added ++ new).map (·.name) := by
    intro noGlobal inside
    rw [List.append_assoc, List.map_append, List.mem_append, or_iff_right noGlobal] at inside
    obtain ⟨h, isAdded, rfl⟩ := List.mem_map.1 inside
    rcases List.mem_append.1 isAdded with before | isNew
    · obtain ⟨n, generated⟩ := isString h before
      exact Name.ne_generated user _ n generated
    · obtain ⟨j, _, _, generated⟩ := assigns.extracts.made h isNew
      exact Name.ne_generated user _ _ generated
  have inFrame := fun param => inFrame_of_param assigns.places (isParam.1 param)
  have isLocal := fun noGlobal used => get?_withFrame_local assigns.places (unnamed noGlobal) (names ▸ used)
  have nowhere := fun noGlobal unused => get?_withFrame_unseen assigns.places (unnamed noGlobal) (names ▸ unused)
  constructor
  case ofParam =>
    rw [same]
    exact inFrame
  case ofGlobal =>
    rintro noParam h inside rfl
    obtain ⟨_, isGlobals, _⟩ := get?_place assigns.places
    have found := find?_of_mem isGlobals (List.mem_append_left new (List.mem_append_left added inside))
    rw [same]
    exact get?_withFrame_global assigns.places found (by simpa using mt isParam.2 noParam)
  case ofLocal =>
    rw [same]
    exact isLocal
  case unused =>
    rw [same]
    exact nowhere
  case hides =>
    intro hidden callees keeps t events outcome t' runs
    refine cells_of_assigns assigns layout user plain (fun size inMemory => ?_) keeps runs
    rw [same] at inMemory
    rcases hidden with param | noGlobal
    · obtain ⟨offset, place⟩ := inFrame param
      cases place.symm.trans inMemory
    · by_cases used : name ∈ usedNames f.params f.body
      · rcases isLocal noGlobal used with ⟨r, _, place⟩ | ⟨offset, place⟩ <;> cases place.symm.trans inMemory
      · cases (nowhere noGlobal used).symm.trans inMemory

/-- What a function declares lives outside of memory if it is a parameter, or if no global has its name and it is used.
A variable with the name of a global is the global. -/
theorem resides_of_assign {x : Source.Program} {p q : Program} {i : Nat} {y : Source.Function} (wellFormed : x.WellFormed)
    (lowered : Program.ofSource x = .ok p) (assigned : p.assign = ⟨q, none⟩) (source : x.functions[i]? = some y)
    (hasBody : y.external = false) :
    ∃ f g l, p.functions[i]? = some f ∧ q.functions[i]? = some g ∧ g.layout = some l ∧
      p.globals.map (·.name) = x.globals.map (·.name) ∧ ∀ name ∈ y.declared, Resides p.globals y f g l name := by
  have lowersTo := Program.lowersTo_of_ofSource wellFormed lowered
  obtain ⟨f, inCode, fromTree⟩ := exists_of_getElem? lowersTo.functions source
  obtain ⟨made, new, _, _, isString, each⟩ := Program.assign_spec assigned
  obtain ⟨b, moves, earlier, own, later, g, strings, l, _, parts, found, assigns⟩ :=
    each inCode (fromTree.external.trans hasBody)
  refine ⟨f, g, _, inCode, found, assigns.layout, names_of_globals lowersTo.globals, fun name member => ?_⟩
  have user := (Source.Function.isUserName_of_declared
    (wellFormed.functions y (List.mem_of_getElem? source)) member).notGenerated
  refine resides_of_assigns assigns assigns.layout ?_ user (fun h inside => ?_) fromTree.params
  · intro s inBody src dst isMove
    have isLowered := (Program.allLowered_of_ofSource lowered f (List.mem_of_getElem? inCode) s inBody).2
    rw [isMove] at isLowered
    exact isLowered
  · obtain ⟨j, _, _, generated⟩ := isString h (by rw [parts]; simp [inside])
    exact ⟨_, generated⟩

def overlaid : Source.Program :=
  let pos := Source.Position.nowhere
  let body : List Source.Stmt := [.declare pos .int "x" (.var pos "n"), .returnStmt pos (.var pos "x")]
  ⟨[⟨pos, "x", .int, none⟩], [⟨pos, "main", .int, [⟨.int, "n"⟩], false, body⟩]⟩

def overlaidCode : Program :=
  let body : List Stmt := [⟨[], .unary .copy "x" "n"⟩, ⟨[], .unary .copy "__t1" "x"⟩, ⟨[], .ret "__t1"⟩]
  ⟨⟨1⟩, [⟨"x", .int, none⟩], [⟨"main", .int, [⟨.int, "n"⟩], false, body, none⟩]⟩

def overlaidLayout : Layout :=
  ⟨[("x", .memory "x" 8), ("n", .stack 24 8), ("__t1", .register .s1), ("__s2", .register .t6), ("__s3", .register .t5),
      ("__s4", .register .t6)],
    [⟨"ra", 0, 8, some .ra⟩, ⟨"fp", 8, 8, some .fp⟩, ⟨"s1", 16, 8, some .s1⟩, ⟨"n", 24, 8, none⟩], 32⟩

def overlaidBody : List Stmt :=
  [⟨[], .move (.stack 24 8) (.register .t6)⟩, ⟨[], .unary .copy "__s3" "__s2"⟩, ⟨[], .move (.register .t5) (.memory "x" 8)⟩,
    ⟨[], .move (.memory "x" 8) (.register .t6)⟩, ⟨[], .unary .copy "__t1" "__s4"⟩, ⟨[], .ret "__t1"⟩]

def overlaidPlaced : Program :=
  ⟨⟨4⟩, [⟨"x", .int, none⟩], [⟨"main", .int, [⟨.int, "n"⟩], false, overlaidBody, some overlaidLayout⟩]⟩

theorem lowered_overlaid : Program.ofSource overlaid = .ok overlaidCode := by
  rfl

theorem assigned_overlaid : overlaidCode.assign = ⟨overlaidPlaced, none⟩ := by
  rfl

theorem resides_of_assign_overlaid :
    ∃ y, ∃ f g : Function, ∃ l, overlaid.functions[0]? = some y ∧ overlaidCode.functions[0]? = some f ∧
      overlaidPlaced.functions[0]? = some g ∧ g.layout = some l ∧ Resides overlaidCode.globals y f g l "n" ∧
      Resides overlaidCode.globals y f g l "x" ∧ l.get? "x" = some (.memory "x" 8) := by
  obtain ⟨f, g, l, inCode, found, layout, _, resides⟩ :=
    resides_of_assign (i := 0) (by decide) lowered_overlaid assigned_overlaid rfl rfl
  have here := resides "x" (by decide)
  exact ⟨_, f, g, l, rfl, inCode, found, layout, resides "n" (by decide), here,
    here.ofGlobal (by decide) _ (List.mem_singleton_self _) rfl⟩

theorem runs_overlaid (callees : Callees) : ∃ t t', t.cells "x" = 0 ∧ t'.cells "x" = 1 ∧
    (Store.setting callees overlaidLayout.get?).language.Runs overlaidBody t [] (.returned (some 1)) t' := by
  let t : Store := ⟨fun _ => 0, fun _ => 1, fun _ => 0⟩
  let loaded : Store := { t with regs := Function.update t.regs .t6 1 }
  let copied : Store := { loaded with regs := Function.update loaded.regs .t5 1 }
  let stored : Store := { copied with cells := Function.update copied.cells "x" 1 }
  let again : Store := { stored with regs := Function.update stored.regs .t6 1 }
  let last : Store := { again with regs := Function.update again.regs .s1 1 }
  refine ⟨t, last, rfl, by simp [last, again, stored], 5, ?_⟩
  have first : Acts (Store.setting callees overlaidLayout.get?) 0 t (.move (.stack 24 8) (.register .t6)) [] .next loaded :=
    .move rfl
  have second : Acts (Store.setting callees overlaidLayout.get?) 1 loaded (.unary .copy "__s3" "__s2") [] .next copied :=
    .unary rfl rfl rfl
  have third : Acts (Store.setting callees overlaidLayout.get?) 2 copied (.move (.register .t5) (.memory "x" 8)) [] .next
      stored := .move rfl
  have fourth : Acts (Store.setting callees overlaidLayout.get?) 3 stored (.move (.memory "x" 8) (.register .t6)) [] .next
      again := .move rfl
  have fifth : Acts (Store.setting callees overlaidLayout.get?) 4 again (.unary .copy "__t1" "__s4") [] .next last :=
    .unary rfl rfl rfl
  have gives : Acts (Store.setting callees overlaidLayout.get?) 5 last (.ret "__t1") [] (.leave (some 1)) last :=
    .give (by decide) rfl
  let language := (Store.setting callees overlaidLayout.get?).language
  have silent : ∀ {pc stmt} {s s₁ : Store} {count}, overlaidBody[pc]? = some stmt → language.acts pc s stmt [] .next s₁ →
      language.Ends overlaidBody count (pc + 1) s₁ [] (.returned (some 1)) last →
        language.Ends overlaidBody (count + 1) pc s [] (.returned (some 1)) last :=
    fun at_ acts rest => .step at_ acts rfl rest
  have final : language.Ends overlaidBody 0 5 last [] (.returned (some 1)) last := .halt (.returned rfl gives)
  exact silent rfl first (silent rfl second (silent rfl third (silent rfl fourth (silent rfl fifth final))))

/-- The variable `x` of the function shares the memory of the global `x`, so that a run that writes the one changes
the other. -/
theorem overwrites_overlaid :
    overlaid.WellFormed ∧ Program.ofSource overlaid = .ok overlaidCode ∧ overlaidCode.assign = ⟨overlaidPlaced, none⟩ ∧
      (∀ y ∈ overlaid.functions, Bytes.ofString "x" ∈ y.declared) ∧
      overlaidLayout.get? "x" = some (.memory "x" 8) ∧ ∀ callees, ∃ t t', t.cells "x" = 0 ∧ t'.cells "x" = 1 ∧
        (Store.setting callees overlaidLayout.get?).language.Runs overlaidBody t [] (.returned (some 1)) t' :=
  ⟨by decide, lowered_overlaid, assigned_overlaid, by decide, by decide, runs_overlaid⟩

end MiniC
