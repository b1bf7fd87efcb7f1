import MiniC.Proofs.Emission.Programs
import MiniC.Proofs.Storage.Labels

namespace MiniC.Assembly

open Code Storage

def Line.label? : Line → Option Name
  | .label name => some name
  | _ => none

def labels (lines : List Line) : List Name :=
  lines.filterMap Line.label?

def Line.jump? : Line → Option Name
  | .instr (.jump target) | .instr (.branch _ _ target) => some target
  | _ => none

def Line.symbol? : Line → Option Name
  | .instr (.la _ symbol) | .instr (.call symbol) | .directive (.pointer symbol) => some symbol
  | line => line.jump?

@[simp] theorem labels_append (first second : List Line) : labels (first ++ second) = labels first ++ labels second :=
  List.filterMap_append

@[simp] theorem labels_map_instr (code : List Instr) : labels (code.map .instr) = [] := by
  rw [labels, List.filterMap_eq_nil_iff]
  intro line member
  obtain ⟨i, _, rfl⟩ := List.mem_map.1 member
  rfl

@[simp] theorem labels_label (name : Name) (lines : List Line) : labels (.label name :: lines) = name :: labels lines :=
  rfl

def Instr.Refers (p : Program) (exit : Name) (a : Action) : Instr → Prop
  | .la _ symbol => ∃ h ∈ p.globals, h.name = symbol
  | .jump target | .branch _ _ target => a.target? = some target ∨ target = exit
  | .call target => ∃ f ∈ p.functions, f.name = target
  | .jumpRegister _ => False
  | _ => True

variable {p : Program} {l : Layout} {exit : Name} {a : Action} {code : List Instr}

def IsKnown (p : Program) : Location → Prop
  | .memory label _ => ∃ h ∈ p.globals, h.name = label
  | _ => True

theorem isKnown_of_usable {place : Location} (usable : Usable p l place) : IsKnown p place := by
  cases place with
  | memory label size =>
    obtain ⟨h, found, _⟩ := usable
    exact ⟨h, List.mem_of_find?_eq_some found, by simpa using List.find?_some found⟩
  | _ => trivial

theorem refers_of_move {src dst : Location} (emitted : move src dst = .ok code) (known : IsKnown p src)
    (known' : IsKnown p dst) : ∀ i ∈ code, i.Refers p exit a := by
  unfold move at emitted
  split at emitted
  case h_2 | h_4 =>
    split at emitted <;> cases emitted
    simp [Instr.Refers]
  case h_3 | h_5 =>
    cases emitted
    simpa [Instr.Refers] using by assumption
  case h_1 =>
    cases emitted
    simp [Instr.Refers]
  case h_6 => cases emitted

theorem refers_of_action (resolves : Resolves p l exit) (emitted : action (scopeOf p l exit) a = .ok code)
    (settled : Settled p l exit a) : ∀ i ∈ code, i.Refers p exit a := by
  refine forall_of_pieces emitted fun piece => ?_
  cases piece with
  | move moved gives gets =>
    refine refers_of_move moved ?_ ?_
    · cases gives with
      | place found => exact isKnown_of_usable (resolves found)
      | temporary | result => trivial
      | own isMove =>
        subst isMove
        exact isKnown_of_usable settled.1
    · cases gets with
      | place found => exact isKnown_of_usable (resolves found)
      | arg => trivial
      | own isMove =>
        subst isMove
        exact isKnown_of_usable settled.2
  | @binary op _ _ _ _ _ _ computed => cases op <;> cases computed <;> simp [Instr.Refers]
  | @unary op _ _ _ _ _ computed => cases op <;> cases computed <;> simp [Instr.Refers]
  | constant => exact List.forall_mem_singleton.2 trivial
  | jump jumps =>
    refine List.forall_mem_singleton.2 ?_
    rcases jumps with rfl | ⟨_, _, leaves⟩
    · exact .inl rfl
    · exact .inr leaves
  | branch branches =>
    subst branches
    exact List.forall_mem_singleton.2 (.inl rfl)
  | @call _ _ _ f _ found =>
    exact List.forall_mem_singleton.2 ⟨f, List.mem_of_find?_eq_some found, by simpa using List.find?_some found⟩

/-- The lines of a body: its labels, and instructions that refer to what their statements do. -/
structure IsBodyCode (p : Program) (exit : Name) (body : List Stmt) (lines : List Line) : Prop where
  marks : labels lines = Code.labels body
  longer : (∀ s ∈ body, s.action = .nop → s.label ≠ []) → body.length ≤ lines.length
  each : ∀ line ∈ lines, (∃ name, line = .label name) ∨ ∃ i, line = .instr i ∧ ∃ s ∈ body, i.Refers p exit s.action

theorem isBodyCode_of_stmt (resolves : Resolves p l exit) {s : Stmt} {lines : List Line}
    (emitted : stmt (scopeOf p l exit) s = .ok lines) (settled : Settled p l exit s.action) : IsBodyCode p exit [s] lines := by
  obtain ⟨code, inside, done⟩ := bind_eq_ok.1 emitted
  have isCode := within_eq_ok.1 inside
  cases done
  refine ⟨?_, ?_, ?_⟩
  · rw [labels_append, labels_map_instr, List.append_nil]
    split
    · rename_i empty
      simp [Assembly.labels, Code.labels, empty]
    · rename_i named
      simp [Assembly.labels, Code.labels, named, Line.label?]
  · intro marked
    rw [List.length_append, List.length_map, List.length_singleton]
    by_cases idle : s.action = .nop
    · rw [if_neg (marked s (List.mem_singleton_self s) idle), List.length_singleton]
      omega
    · have some := List.length_pos_iff.2 (action_ne_nil isCode idle)
      omega
  · intro line member
    rcases List.mem_append.1 member with label | instr
    · split at label
      · cases label
      · exact .inl ⟨s.label, List.mem_singleton.1 label⟩
    · obtain ⟨i, inCode, rfl⟩ := List.mem_map.1 instr
      exact .inr ⟨i, rfl, s, List.mem_singleton_self s, refers_of_action resolves isCode settled i inCode⟩

theorem isBodyCode_of_stmts (resolves : Resolves p l exit) {body : List Stmt} {lines : List Line}
    (emitted : stmts (scopeOf p l exit) body = .ok lines) (settled : ∀ s ∈ body, Settled p l exit s.action) :
    IsBodyCode p exit body lines := by
  induction body generalizing lines with
  | nil =>
    cases emitted
    exact ⟨rfl, fun _ => Nat.le_refl 0, by simp⟩
  | cons s body ih =>
    obtain ⟨first, here, emitted⟩ := bind_eq_ok.1 emitted
    obtain ⟨rest, there, done⟩ := bind_eq_ok.1 emitted
    cases done
    have left := isBodyCode_of_stmt resolves here (settled s List.mem_cons_self)
    have right := ih there fun other member => settled other (List.mem_cons_of_mem s member)
    refine ⟨?_, ?_, ?_⟩
    · rw [labels_append, left.marks, right.marks, ← Code.labels_cons]
    · intro marked
      have few := left.longer fun other member => marked other (by simp [List.mem_singleton.1 member])
      have few' := right.longer fun other member => marked other (List.mem_cons_of_mem s member)
      rw [List.length_append, List.length_cons]
      rw [List.length_singleton] at few
      omega
    · intro line member
      rcases List.mem_append.1 member with inFirst | inRest
      · refine (left.each line inFirst).imp_right ?_
        rintro ⟨i, same, other, inside, refers⟩
        exact ⟨i, same, other, by simp [List.mem_singleton.1 inside], refers⟩
      · refine (right.each line inRest).imp_right ?_
        rintro ⟨i, same, other, inside, refers⟩
        exact ⟨i, same, other, List.mem_cons_of_mem s inside, refers⟩

/-- A line of a function before its return: it refers to labels of the function, to globals and to functions it calls. -/
structure Line.Stays (p : Program) (inside : List Name) (line : Line) : Prop where
  goes : ∀ r, line ≠ .instr (.jumpRegister r)
  jumps : ∀ t, line.jump? = some t → t ∈ inside
  symbols : ∀ s, line.symbol? = some s → s ∈ inside ∨ (∃ h ∈ p.globals, h.name = s) ∨
    line = .instr (.call s) ∧ ∃ f ∈ p.functions, f.name = s

theorem stays_label {inside : List Name} {name : Name} : (Line.label name).Stays p inside :=
  ⟨nofun, nofun, nofun⟩

theorem stays_of_refers {inside : List Name} {i : Instr} (refers : i.Refers p exit a)
    (targets : ∀ t, a.target? = some t → t ∈ inside) (exits : exit ∈ inside) : (Line.instr i).Stays p inside := by
  have arrives : ∀ {t}, a.target? = some t ∨ t = exit → t ∈ inside := by
    rintro t (target | rfl)
    · exact targets t target
    · exact exits
  cases i with
  | la r symbol => exact ⟨nofun, nofun, fun s same => .inr (.inl (Option.some.inj same ▸ refers))⟩
  | jump target | branch check r target =>
    have ends := arrives refers
    exact ⟨nofun, fun t same => Option.some.inj same ▸ ends, fun s same => .inl (Option.some.inj same ▸ ends)⟩
  | call target =>
    refine ⟨nofun, nofun, fun s same => .inr (.inr ?_)⟩
    cases same
    exact ⟨rfl, refers⟩
  | jumpRegister r => exact refers.elim
  | _ => exact ⟨nofun, nofun, nofun⟩

theorem spillParams_cases {params : List Param} {rs : List Register} {i : Instr} (member : i ∈ spillParams l params rs) :
    ∃ r offset, i = .store .word r offset .sp := by
  fun_induction spillParams l params rs with
  | case1 param params r rs offset size _ ih =>
    rcases List.mem_cons.1 member with rfl | later
    · exact ⟨r, offset, rfl⟩
    · exact ih later
  | case2 param params r rs _ ih => exact ih member
  | case3 => cases member

theorem stays_of_frame {inside : List Name} {params : List Param} {i : Instr}
    (member : i ∈ entering l params ∨ i ∈ leaving l) : (Line.instr i).Stays p inside := by
  rcases member with entered | left
  · rcases List.mem_append.1 entered with before | spill
    · rcases List.mem_cons.1 before with rfl | save
      · exact ⟨nofun, nofun, nofun⟩
      · obtain ⟨slot, _, saved⟩ := List.mem_filterMap.1 save
        obtain ⟨r, _, rfl⟩ := Option.map_eq_some_iff.1 saved
        exact ⟨nofun, nofun, nofun⟩
    · obtain ⟨r, offset, rfl⟩ := spillParams_cases spill
      exact ⟨nofun, nofun, nofun⟩
  · rcases List.mem_append.1 left with restore | last
    · obtain ⟨_, _, _, _, rfl⟩ := restores restore
      exact ⟨nofun, nofun, nofun⟩
    · rw [List.mem_singleton.1 last]
      exact ⟨nofun, nofun, nofun⟩

structure IsFunctionCode (p : Program) (g : Function) (code : List Line) : Prop where
  marks : labels code = g.name :: (Code.labels g.body ++ [g.exitLabel])
  longer : (∀ s ∈ g.body, s.action = .nop → s.label ≠ []) → g.body.length ≤ code.length
  shape : ∃ inner, code = .label g.name :: (inner ++ [Line.instr (.jumpRegister .ra)]) ∧
    ∀ line ∈ inner, line.Stays p (labels code)

theorem IsFunctionCode.stays_or_returns {g : Function} {code : List Line} (isCode : IsFunctionCode p g code) {line : Line}
    (member : line ∈ code) : line.Stays p (labels code) ∨ line = .instr (.jumpRegister .ra) := by
  obtain ⟨inner, shape, each⟩ := isCode.shape
  rw [shape] at member
  rcases List.mem_cons.1 member with rfl | member
  · exact .inl stays_label
  rcases List.mem_append.1 member with inside | last
  · exact .inl (each line inside)
  · exact .inr (List.mem_singleton.1 last)

theorem isFunctionCode_of_prepared {g : Function} {lines : List Line} (emitted : function p g = .ok lines)
    (prepared : ∀ l, g.layout = some l → Prepared p g l)
    (targets : ∀ s ∈ g.body, ∀ t, s.action.target? = some t → t ∈ Code.labels g.body) :
    ∃ code, lines = .blank :: code ∧ IsFunctionCode p g code := by
  obtain ⟨l, body, layout, _, isBody, rfl⟩ := function_cases emitted
  have ready := prepared l layout
  have isCode := isBodyCode_of_stmts ready.resolves isBody ready.settled
  have marks : labels (.label g.name :: ((entering l g.params).map .instr ++ (body ++ lastLines l g.exitLabel))) =
      g.name :: (Code.labels g.body ++ [g.exitLabel]) := by
    rw [lastLines, labels_label, labels_append, labels_append, labels_label, labels_map_instr, labels_map_instr,
      isCode.marks, List.nil_append]
  refine ⟨.label g.name :: ((entering l g.params).map .instr ++ (body ++ lastLines l g.exitLabel)), rfl, marks, ?_,
    (entering l g.params).map .instr ++ (body ++ Line.label g.exitLabel :: (leaving l).map .instr), ?_, ?_⟩
  · intro marked
    have few := isCode.longer marked
    rw [List.length_cons, List.length_append, List.length_append]
    omega
  · simp [lastLines]
  · rw [marks]
    intro line member
    rcases List.mem_append.1 member with enters | member
    · obtain ⟨i, inside, rfl⟩ := List.mem_map.1 enters
      exact stays_of_frame (.inl inside)
    rcases List.mem_append.1 member with inBody | member
    · rcases isCode.each line inBody with ⟨name, rfl⟩ | ⟨i, rfl, s, inside, refers⟩
      · exact stays_label
      · refine stays_of_refers refers (fun t target => ?_) (by simp)
        exact List.mem_cons_of_mem _ (List.mem_append_left _ (targets s inside t target))
    rcases List.mem_cons.1 member with rfl | leaves
    · exact stays_label
    · obtain ⟨i, inside, rfl⟩ := List.mem_map.1 leaves
      exact @stays_of_frame _ _ _ g.params _ (.inr inside)

end MiniC.Assembly
