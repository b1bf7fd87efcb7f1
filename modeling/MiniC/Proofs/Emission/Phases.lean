import MiniC.Proofs.Emission.Keeping

namespace MiniC.Assembly

open Code Storage

variable {ahead rest : List Line}

def functionLines (g : Function) (l : Layout) (body : List Line) : List Line :=
  .label g.name :: ((entering l g.params).map .instr ++ (body ++ lastLines l g.exitLabel))

structure HasCode (q : Program) (lines : List Line) (g : Function) (l : Layout) (before body behind : List Line) : Prop where
  layout : g.layout = some l
  frame : IsFrame l
  spills : Spills l g.params
  tame : IsTame q l (labels body ++ [g.exitLabel]) body
  parts : lines = before ++ (functionLines g l body ++ behind)

section

variable {q : Program} {lines : List Line}

inductive Phase (image : Image q lines) (a : Activation) (l : Layout) (body behind : List Line) (m : Machine) :
    List Line → Prop
  | start : m = a.entry → Phase image a l body behind m (functionLines a.function l body ++ behind)
  | enters {done rest : List Instr} {i : Instr} : entering l a.function.params = done ++ i :: rest →
    m = afterAll image.symbols a.entry done →
    Phase image a l body behind m (.instr i :: (rest.map .instr ++ (body ++ (lastLines l a.function.exitLabel ++ behind))))
  | inside {rest : List Line} : Upholds image a l m → IsTame q l (labels body ++ [a.function.exitLabel]) rest →
    rest <:+ body → Phase image a l body behind m (rest ++ (lastLines l a.function.exitLabel ++ behind))
  | through {h : Global} {r : Register} {rest : List Line} : h ∈ q.globals → m.get .temporary = image.symbols h.name →
    Upholds image a l m → IsTame q l (labels body ++ [a.function.exitLabel]) rest →
    .instr (.store (widthOfGlobal h) r 0 .temporary) :: rest <:+ body →
    Phase image a l body behind m
      (.instr (.store (widthOfGlobal h) r 0 .temporary) :: (rest ++ (lastLines l a.function.exitLabel ++ behind)))
  | leaves {m₀ : Machine} {done rest : List Instr} : leaving l = done ++ rest → Upholds image a l m₀ →
    m = afterAll image.symbols m₀ done →
    Phase image a l body behind m (rest.map .instr ++ .instr (.jumpRegister .ra) :: behind)

theorem label_unique (distinct : (labels lines).Nodup) {name : Name} {i j : Nat} (here : lines[i]? = some (.label name))
    (there : lines[j]? = some (.label name)) : i = j := by
  have different : ∀ {i j : Nat}, lines[i]? = some (.label name) → lines[j]? = some (.label name) → ¬ i < j := by
    intro i j here there before
    obtain ⟨_, first⟩ := List.getElem?_eq_some_iff.1 here
    obtain ⟨_, second⟩ := List.getElem?_eq_some_iff.1 there
    have apart := List.pairwise_iff_getElem.1 (List.pairwise_filterMap.1 distinct) i j ‹_› ‹_› before
    exact apart name (by rw [first]; rfl) name (by rw [second]; rfl) rfl
  have := different here there
  have := different there here
  omega

theorem drop_label (distinct : (labels lines).Nodup) {name : Name} {pos : Nat} (found : lines[pos]? = some (.label name))
    {front back : List Line} (parts : lines = front ++ .label name :: back) : lines.drop pos = .label name :: back := by
  have there : lines[front.length]? = some (.label name) := by
    rw [parts, List.getElem?_append_right (Nat.le_refl _), Nat.sub_self]
    rfl
  rw [label_unique distinct found there]
  nth_rewrite 1 [parts]
  exact List.drop_left

theorem lastLines_append (l : Layout) (exit : Name) (behind : List Line) :
    lastLines l exit ++ behind = .label exit :: ((leaving l).map .instr ++ .instr (.jumpRegister .ra) :: behind) := by
  simp [lastLines]

variable {image : Image q lines} {a : Activation} {l : Layout} {before body behind : List Line} {m : Machine}

namespace Phase

theorem exit (upholds : Upholds image a l m) :
    Phase image a l body behind m ((leaving l).map .instr ++ .instr (.jumpRegister .ra) :: behind) :=
  .leaves (List.nil_append _).symm upholds rfl

theorem skip_line {line : Line} (phase : Phase image a l body behind m ahead)
    (split : ahead = line :: rest) (noInstr : ∀ i, line ≠ .instr i) : Phase image a l body behind m rest := by
  cases phase with
  | start entered =>
    rw [functionLines, List.cons_append] at split
    obtain ⟨rfl, rfl⟩ := List.cons.inj split
    rw [List.append_assoc, List.append_assoc]
    exact .enters (List.nil_append _).symm entered
  | enters | through => exact absurd (List.cons.inj split).1.symm (noInstr _)
  | @inside remaining upholds tame isSuffix =>
    cases remaining with
    | nil =>
      rw [List.nil_append, lastLines_append] at split
      obtain ⟨rfl, rfl⟩ := List.cons.inj split
      exact exit upholds
    | cons first remaining =>
      obtain ⟨rfl, rfl⟩ := List.cons.inj split
      cases tame with
      | label others => exact .inside upholds others ((List.suffix_cons ..).trans isSuffix)
      | instr | through => exact absurd rfl (noInstr _)
  | @leaves _ _ remaining =>
    cases remaining with
    | nil | cons => exact absurd (List.cons.inj split).1.symm (noInstr _)

theorem after_data (code : HasCode q lines a.function l before body behind) (framed : Framed image a l)
    {i : Instr} (phase : Phase image a l body behind m ahead) (split : ahead = .instr i :: rest)
    (isData : i.isData = true) : Phase image a l body behind (i.after image.symbols m) rest := by
  cases phase with
  | start => cases (List.cons.inj split).1
  | @enters done remaining _ parts entered =>
    obtain ⟨first, rfl⟩ := List.cons.inj split
    cases first
    have after : i.after image.symbols m = afterAll image.symbols a.entry (done ++ [i]) := by
      rw [afterAll_append, entered]
      rfl
    cases remaining with
    | nil =>
      rw [after, ← parts]
      exact .inside (upholds_entering framed code.spills) code.tame (List.suffix_refl _)
    | cons j remaining =>
      have longer : entering l a.function.params = done ++ [i] ++ j :: remaining := by simp [parts]
      exact .enters longer after
  | @inside remaining upholds tame isSuffix =>
    cases remaining with
    | nil =>
      rw [List.nil_append, lastLines_append] at split
      cases (List.cons.inj split).1
    | cons first remaining =>
      obtain ⟨rfl, rfl⟩ := List.cons.inj split
      have shorter := (List.suffix_cons _ _).trans isSuffix
      cases tame with
      | instr here others => exact .inside (upholds.after framed here) others shorter
      | through member others =>
        refine .through member (Machine.get_set_same _ _ (by decide)) ?_ others shorter
        exact upholds.set free_temporary _
  | @through h r remaining member address upholds tame isSuffix =>
    obtain ⟨first, rfl⟩ := List.cons.inj split
    cases first
    refine .inside ?_ tame ((List.suffix_cons ..).trans isSuffix)
    rw [Instr.after, address, Int64.toBitVec_zero, BitVec.add_zero]
    exact upholds.write_global framed member _
  | @leaves m₀ done remaining parts upholds left =>
    cases remaining with
    | nil =>
      cases (List.cons.inj split).1
      cases isData
    | cons j remaining =>
      obtain ⟨first, rfl⟩ := List.cons.inj split
      cases first
      have longer : leaving l = done ++ [i] ++ remaining := by simp [parts]
      refine .leaves longer upholds ?_
      rw [afterAll_append, left]
      rfl

theorem flow_cases (framed : Framed image a l) {i : Instr}
    (phase : Phase image a l body behind m ahead) (split : ahead = .instr i :: rest) (isFlow : i.isData = false) :
    (Upholds image a l m ∧ i.IsTame l (labels body ++ [a.function.exitLabel]) ∧ ∃ remaining,
        IsTame q l (labels body ++ [a.function.exitLabel]) remaining ∧ remaining <:+ body ∧
          rest = remaining ++ (lastLines l a.function.exitLabel ++ behind)) ∨
      i = .jumpRegister .ra ∧ image.Keeps a.entry m := by
  cases phase with
  | start => cases (List.cons.inj split).1
  | @enters done remaining j parts entered =>
    cases (List.cons.inj split).1
    have isData := isData_of_entering l a.function.params i (by simp [parts])
    cases isData.symm.trans isFlow
  | @inside remaining upholds tame isSuffix =>
    cases remaining with
    | nil =>
      rw [List.nil_append, lastLines_append] at split
      cases (List.cons.inj split).1
    | cons first remaining =>
      obtain ⟨rfl, rfl⟩ := List.cons.inj split
      have shorter := (List.suffix_cons _ _).trans isSuffix
      cases tame with
      | instr here others => exact .inl ⟨upholds, here, remaining, others, shorter, rfl⟩
      | through => cases isFlow
  | through =>
    cases (List.cons.inj split).1
    cases isFlow
  | @leaves m₀ done remaining parts upholds left =>
    cases remaining with
    | nil =>
      cases (List.cons.inj split).1
      rw [List.append_nil] at parts
      rw [left, ← parts]
      exact .inr ⟨rfl, keeps_leaving framed upholds⟩
    | cons j remaining =>
      cases (List.cons.inj split).1
      have isData := isData_of_leaving l i (by simp [parts])
      cases isData.symm.trans isFlow

theorem arrive (code : HasCode q lines a.function l before body behind) (distinct : (labels lines).Nodup)
    (upholds : Upholds image a l m) {target : Name} (inside : target ∈ labels body ++ [a.function.exitLabel]) {pos : Nat}
    (found : lines[pos]? = some (.label target)) : Phase image a l body behind m (lines.drop pos) := by
  let front := before ++ Line.label a.function.name :: (entering l a.function.params).map .instr
  have parts : lines = front ++ (body ++ (lastLines l a.function.exitLabel ++ behind)) := by
    simp [front, code.parts, functionLines]
  rcases List.mem_append.1 inside with inBody | isExit
  · obtain ⟨line, member, isLabel⟩ := List.mem_filterMap.1 inBody
    obtain rfl : line = .label target := by
      cases line <;> cases isLabel
      rfl
    obtain ⟨done, rest, split⟩ := List.append_of_mem member
    have ahead : lines = front ++ done ++ .label target :: (rest ++ (lastLines l a.function.exitLabel ++ behind)) := by
      simp [parts, split]
    rw [drop_label distinct found ahead, ← List.cons_append]
    exact .inside upholds (code.tame.from_label split) (split ▸ List.suffix_append ..)
  · obtain rfl := List.mem_singleton.1 isExit
    rw [lastLines_append, ← List.append_assoc] at parts
    rw [drop_label distinct found parts, ← lastLines_append, ← List.nil_append (lastLines _ _ ++ _)]
    exact .inside upholds .nil (List.nil_suffix ..)

theorem stores (code : HasCode q lines a.function l before body behind) (framed : Framed image a l)
    {width : Width} {r base : Register} {offset : Int64}
    (phase : Phase image a l body behind m ahead) (split : ahead = .instr (.store width r offset base) :: rest) {b : Word}
    (inside : Memory.Within (m.get base + offset.toBitVec) width.bytes b) (inStack : image.InStack b) : a.InFrame b := by
  cases phase with
  | start => cases (List.cons.inj split).1
  | @enters done remaining _ parts entered =>
    cases (List.cons.inj split).1
    rcases entering_cases image.symbols code.spills parts with never | ⟨⟨slot, member, _, isStore⟩, pointer⟩
    · cases never
    · cases isStore
      rw [entered, pointer] at inside
      exact framed.inFrame member inside
  | @inside remaining upholds tame isSuffix =>
    cases remaining with
    | nil =>
      rw [List.nil_append, lastLines_append] at split
      cases (List.cons.inj split).1
    | cons first remaining =>
      obtain ⟨rfl, -⟩ := List.cons.inj split
      cases tame with
      | instr here =>
        obtain ⟨rfl, rfl, slot, member, _, rfl⟩ := here
        rw [upholds.pointer] at inside
        exact framed.inFrame member inside
  | through member address =>
    cases (List.cons.inj split).1
    rw [address, Int64.toBitVec_zero, BitVec.add_zero] at inside
    exact absurd inStack (image.apart _ member b inside)
  | @leaves m₀ done remaining parts =>
    cases remaining with
    | nil => cases (List.cons.inj split).1
    | cons j remaining =>
      cases (List.cons.inj split).1
      have isLeaving : Instr.store width r offset base ∈ leaving l := by simp [parts]
      rcases List.mem_append.1 isLeaving with restore | last
      · obtain ⟨_, _, _, _, never⟩ := restores restore
        cases never
      · cases List.mem_singleton.1 last

theorem exists_ahead (phase : Phase image a l body behind m ahead) :
    ∃ done rest, functionLines a.function l body = done ++ rest ∧ rest ≠ [] ∧ ahead = rest ++ behind := by
  have ends := lastLines_append l a.function.exitLabel []
  rw [List.append_nil] at ends
  cases phase with
  | start => exact ⟨[], _, rfl, nofun, rfl⟩
  | @enters done rest i parts =>
    refine ⟨.label a.function.name :: done.map .instr,
      .instr i :: (rest.map .instr ++ (body ++ lastLines l a.function.exitLabel)), ?_, nofun, by simp⟩
    simp [functionLines, parts]
  | @inside rest _ _ isSuffix =>
    obtain ⟨done, rfl⟩ := isSuffix
    refine ⟨.label a.function.name :: ((entering l a.function.params).map .instr ++ done),
      rest ++ lastLines l a.function.exitLabel, by simp [functionLines], by simp [ends], by simp⟩
  | @through h r rest _ _ _ _ isSuffix =>
    obtain ⟨done, rfl⟩ := isSuffix
    refine ⟨.label a.function.name :: ((entering l a.function.params).map .instr ++ done),
      .instr (.store (widthOfGlobal h) r 0 .temporary) :: (rest ++ lastLines l a.function.exitLabel), ?_, nofun, by simp⟩
    simp [functionLines]
  | @leaves m₀ done rest parts =>
    refine ⟨.label a.function.name :: ((entering l a.function.params).map .instr ++ (body ++
      Line.label a.function.exitLabel :: done.map .instr)),
      rest.map .instr ++ [Line.instr (.jumpRegister .ra)], ?_, by simp, by simp⟩
    simp [functionLines, ends, parts]

end Phase

end

end MiniC.Assembly
