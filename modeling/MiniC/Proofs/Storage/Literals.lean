import MiniC.Proofs.Storage.Groups

namespace MiniC.Namer

def upcoming (names : Namer) (kind : Bytes) (count : Nat) : List Name :=
  (List.range count).map fun i => names.made kind (i + 1)

theorem after_after (names : Namer) (i j : Nat) : (names.after i).after j = names.after (i + j) := by
  simp only [after, Int64.ofNat_add, Int64.add_assoc]

theorem fresh_eq (names : Namer) (kind : Bytes) : names.fresh kind = (names.made kind 1, names.after 1) := by
  have first := fresh_after names 0 kind
  rwa [after_zero] at first

theorem made_fresh (names : Namer) (kind kind' : Bytes) (i : Nat) :
    (names.fresh kind).2.made kind' i = names.made kind' (i + 1) := by
  rw [fresh_eq, made, after_after, Nat.add_comm 1]
  rfl

theorem upcoming_succ (names : Namer) (kind : Bytes) (count : Nat) :
    names.upcoming kind (count + 1) = (names.fresh kind).1 :: (names.fresh kind).2.upcoming kind count := by
  rw [upcoming, List.range_succ_eq_map, List.map_cons, List.map_map, upcoming, fresh_eq]
  congr 1
  apply List.map_congr_left
  intro i _
  rw [← fresh_eq names kind, made_fresh]
  rfl

@[simp] theorem length_upcoming (names : Namer) (kind : Bytes) (count : Nat) : (names.upcoming kind count).length = count := by
  simp [upcoming]

end MiniC.Namer

namespace MiniC.Storage

open Code

variable {s : Stmt}

/-- The string constants that are stored, in order. -/
def literals (body : List Stmt) : List Bytes :=
  body.filterMap fun s => match s.action with
    | .store _ (some (.str text)) => some text
    | _ => none

/-- The body with symbols of these names in place of its string constants, one after the other. -/
def relabel : List Name → List Stmt → List Stmt
  | _, [] => []
  | name :: names, ⟨label, .store dest (some (.str _))⟩ :: body =>
    ⟨label, .store dest (some (.symbol name))⟩ :: relabel names body
  | names, s :: body => s :: relabel names body

/-- The globals that hold string constants. -/
def stringGlobals (labels : List Name) (texts : List Bytes) : List Global :=
  List.zipWith (fun label text => ⟨label, .string, some (.str text)⟩) labels texts

/-- The labels that are made for the string constants of a body. -/
def labelsFor (names : Namer) (body : List Stmt) : List Name :=
  names.upcoming Name.string (literals body).length

/-- A label made for one of the string constants is the name of a global at that time: one of `globals`, or one that
was made for a constant before it. -/
def Collides (names : Namer) (globals : List Global) (body : List Stmt) : Prop :=
  ∃ k < (literals body).length, names.made Name.string (k + 1) ∈
    (globals ++ stringGlobals (names.upcoming Name.string k) ((literals body).take k)).map (·.name)

section

variable {names : Namer} {globals : List Global} {body : List Stmt}

theorem literals_store (label dest : Name) (text : Bytes) (body : List Stmt) :
    literals (⟨label, .store dest (some (.str text))⟩ :: body) = text :: literals body :=
  rfl

theorem labelsFor_store (label dest : Name) (text : Bytes) (body : List Stmt) :
    labelsFor names (⟨label, .store dest (some (.str text))⟩ :: body) =
      (names.fresh Name.string).1 :: labelsFor (names.fresh Name.string).2 body := by
  rw [labelsFor, literals_store, List.length_cons, Namer.upcoming_succ]
  rfl

theorem length_labelsFor (names : Namer) (body : List Stmt) : (labelsFor names body).length = (literals body).length := by
  rw [labelsFor, Namer.length_upcoming]

theorem literals_other (other : ∀ dest text, s.action ≠ .store dest (some (.str text))) (body : List Stmt) :
    literals (s :: body) = literals body := by
  obtain ⟨label, action⟩ := s
  unfold literals
  rw [List.filterMap_cons_none]
  split
  · exact absurd ‹_› (other _ _)
  · rfl

theorem relabel_other (other : ∀ dest text, s.action ≠ .store dest (some (.str text))) (labels : List Name)
    (body : List Stmt) : relabel labels (s :: body) = s :: relabel labels body := by
  rw [relabel]
  intro name names label dest text _ same
  exact other dest text (by rw [same])

theorem collides_other (other : ∀ dest text, s.action ≠ .store dest (some (.str text))) :
    Collides names globals (s :: body) ↔ Collides names globals body := by
  rw [Collides, literals_other other, Collides]

theorem collides_store (label dest : Name) (text : Bytes) :
    Collides names globals (⟨label, .store dest (some (.str text))⟩ :: body) ↔
      (names.fresh Name.string).1 ∈ globals.map (·.name) ∨ Collides (names.fresh Name.string).2
        (globals ++ [⟨(names.fresh Name.string).1, .string, some (.str text)⟩]) body := by
  have later : ∀ k, globals ++ stringGlobals (names.upcoming Name.string (k + 1)) ((text :: literals body).take (k + 1)) =
      globals ++ [⟨(names.fresh Name.string).1, .string, some (.str text)⟩] ++
        stringGlobals ((names.fresh Name.string).2.upcoming Name.string k) ((literals body).take k) := by
    intro k
    rw [Namer.upcoming_succ, List.take_succ_cons]
    simp [stringGlobals]
  unfold Collides
  rw [literals_store, List.length_cons]
  constructor
  · rintro ⟨k, below, taken⟩
    cases k with
    | zero => exact .inl (by simpa [stringGlobals, Namer.fresh_eq] using taken)
    | succ k =>
      rw [later, ← Namer.made_fresh names Name.string] at taken
      exact .inr ⟨k, by omega, taken⟩
  · rintro (taken | ⟨k, below, taken⟩)
    · exact ⟨0, by omega, by simpa [stringGlobals, Namer.fresh_eq] using taken⟩
    · rw [Namer.made_fresh, ← later] at taken
      exact ⟨k + 1, by omega, taken⟩

theorem stringInduction {P : List Stmt → Prop} (nil : P [])
    (store : ∀ label dest text body, P body → P (⟨label, .store dest (some (.str text))⟩ :: body))
    (other : ∀ s body, (∀ dest text, s.action ≠ .store dest (some (.str text))) → P body → P (s :: body)) (body : List Stmt) :
    P body := by
  induction body with
  | nil => exact nil
  | cons s body ih =>
    by_cases string : ∃ dest text, s.action = .store dest (some (.str text))
    · obtain ⟨label, action⟩ := s
      obtain ⟨dest, text, rfl⟩ := string
      exact store label dest text body ih
    · exact other s body (fun dest text same => string ⟨dest, text, same⟩) ih

theorem extractStrings_eq (free : ¬ Collides names globals body) :
    extractStrings names globals body =
      ⟨relabel (labelsFor names body) body, globals ++ stringGlobals (labelsFor names body) (literals body),
        names.after (literals body).length, none⟩ := by
  induction body using stringInduction generalizing names globals with
  | nil => simp [extractStrings, relabel, literals, stringGlobals]
  | store label dest text body ih =>
    rw [collides_store, not_or] at free
    have unused : ¬ (globals.any fun g => g.name == (names.fresh Name.string).1) = true := by simpa using free.1
    have later : (names.fresh Name.string).2.after (literals body).length = names.after ((literals body).length + 1) := by
      rw [Namer.fresh_eq, Namer.after_after, Nat.add_comm 1]
    rw [extractStrings]
    dsimp only
    rw [if_neg unused, ih free.2, later, labelsFor_store, relabel, literals_store, List.length_cons, stringGlobals,
      List.append_assoc]
    rfl
  | other s body other ih =>
    rw [collides_other other] at free
    rw [extractStrings_other _ _ _ other, ih free, relabel_other other, labelsFor, labelsFor, literals_other other]

theorem exists_collision (collides : Collides names globals body) :
    ∃ label, (extractStrings names globals body).collision = some label := by
  induction body using stringInduction generalizing names globals with
  | nil =>
    obtain ⟨k, below, _⟩ := collides
    cases below
  | store label dest text body ih =>
    rw [collides_store] at collides
    rw [extractStrings]
    dsimp only
    by_cases taken : (globals.any fun g => g.name == (names.fresh Name.string).1) = true
    · rw [if_pos taken]
      exact ⟨_, rfl⟩
    · rw [if_neg taken]
      exact ih (collides.resolve_left (by simpa using taken))
  | other s body other ih =>
    rw [extractStrings_other _ _ _ other]
    exact ih ((collides_other other).1 collides)

theorem length_extractStrings (names : Namer) (globals : List Global) (body : List Stmt) :
    (extractStrings names globals body).body.length = body.length := by
  induction body using stringInduction generalizing names globals with
  | nil => rfl
  | store label dest text body ih =>
    rw [extractStrings]
    dsimp only
    split
    · rfl
    · rw [List.length_cons, List.length_cons, ih]
  | other s body other ih => rw [extractStrings_other _ _ _ other, List.length_cons, List.length_cons, ih]

theorem labels_of_not_collides (free : ¬ Collides names globals body) :
    (labelsFor names body).Nodup ∧ ∀ x ∈ labelsFor names body, x ∉ globals.map (·.name) := by
  induction body using stringInduction generalizing names globals with
  | nil => exact ⟨List.nodup_nil, by simp [labelsFor, literals, Namer.upcoming]⟩
  | store label dest text body ih =>
    rw [collides_store, not_or] at free
    obtain ⟨nodup, isNew⟩ := ih free.2
    rw [labelsFor_store]
    simp only [List.map_append, List.map_cons, List.map_nil, List.mem_append, List.mem_singleton, not_or] at isNew
    refine ⟨List.nodup_cons.2 ⟨fun member => (isNew _ member).2 rfl, nodup⟩, ?_⟩
    intro x member
    rcases List.mem_cons.1 member with rfl | later
    · exact free.1
    · exact (isNew x later).1
  | other s body other ih =>
    rw [collides_other other] at free
    rw [labelsFor, literals_other other]
    exact ih free

end

/-- Moves stand around the statement, whose operands may have other names. -/
def Surrounds (s : Stmt) (group : List Stmt) : Prop :=
  ∃ before core behind ins outs, group = before ++ core :: behind ∧ core.action = s.action.substitute ins outs ∧
    ∀ other ∈ before ++ behind, ∃ src dst, other.action = .move src dst

theorem surrounds_movedBlock (s : Stmt) (ins outs : Loan) : Surrounds s (movedBlock s ins outs).code := by
  have loads : ∀ other ∈ ins.places.map (fun p => Stmt.plain (load p)), ∃ src dst, other.action = .move src dst := by
    intro other member
    obtain ⟨p, _, rfl⟩ := List.mem_map.1 member
    exact ⟨_, _, rfl⟩
  have unloads : ∀ other ∈ outs.places.map (fun p => Stmt.plain (unload p)), ∃ src dst, other.action = .move src dst := by
    intro other member
    obtain ⟨p, _, rfl⟩ := List.mem_map.1 member
    exact ⟨_, _, rfl⟩
  unfold movedBlock
  split
  · exact ⟨[], _, _, ins.lent, outs.lent, rfl, rfl, unloads⟩
  · rename_i first more moves
    rw [moves] at loads
    refine ⟨first.withLabel s.label :: more, _, _, ins.lent, outs.lent, rfl, rfl, ?_⟩
    intro other member
    rcases List.mem_append.1 member with inBefore | behind
    · rcases List.mem_cons.1 inBefore with rfl | later
      · exact loads first List.mem_cons_self
      · exact loads other (List.mem_cons_of_mem _ later)
    · exact unloads other behind

theorem surrounds_moveStmt (names : Namer) (l : Layout) (s : Stmt) : Surrounds s (moveStmt names l s).code := by
  by_cases here : s.action.isLocal = true
  · rw [moveStmt_of_isLocal names l here]
    exact surrounds_movedBlock _ _ _
  · obtain ⟨label, action⟩ := s
    cases action with
    | call => exact ⟨[], _, [], [], [], rfl, (substitute_nil _).symm, by simp⟩
    | move => exact ⟨[], _, [], [], [], rfl, rfl, by simp⟩
    | _ => exact absurd rfl here

theorem moveBody_surrounds (names : Namer) (l : Layout) (body : List Stmt) :
    ∃ groups, (moveBody names l body).code = groups.flatten ∧ List.Forall₂ Surrounds body groups := by
  induction body generalizing names l with
  | nil => exact ⟨[], rfl, .nil⟩
  | cons s body ih =>
    obtain ⟨groups, joined, each⟩ := ih (moveStmt names l s).names (moveStmt names l s).layout
    exact ⟨_ :: groups, by rw [moveBody, List.flatten_cons, joined], .cons (surrounds_moveStmt names l s) each⟩

def stored (body : List Stmt) : List (Option Value) :=
  body.filterMap fun s => match s.action with
    | .store _ value => some value
    | _ => none

theorem stored_append (first second : List Stmt) : stored (first ++ second) = stored first ++ stored second :=
  List.filterMap_append

theorem stored_cons (s : Stmt) (body : List Stmt) : stored (s :: body) = stored [s] ++ stored body :=
  stored_append [s] body

theorem mem_stored {value : Option Value} {body : List Stmt} :
    value ∈ stored body ↔ ∃ s ∈ body, ∃ dest, s.action = .store dest value := by
  rw [stored, List.mem_filterMap]
  apply exists_congr
  rintro ⟨label, action⟩
  apply and_congr_right
  intro _
  cases action with
  | store dest value' => simp
  | _ => simp

theorem Surrounds.stored {group : List Stmt} (surrounds : Surrounds s group) : stored group = stored [s] := by
  obtain ⟨before, core, behind, ins, outs, rfl, same, moves⟩ := surrounds
  have none : ∀ part : List Stmt, (∀ other ∈ part, other ∈ before ++ behind) → Storage.stored part = [] := by
    intro part inside
    unfold Storage.stored
    rw [List.filterMap_eq_nil_iff]
    intro other member
    obtain ⟨src, dst, isMove⟩ := moves other (inside other member)
    rw [isMove]
  have middle : Storage.stored [core] = Storage.stored [s] := by
    obtain ⟨label, action⟩ := core
    obtain rfl : action = _ := same
    obtain ⟨label', action⟩ := s
    cases action <;> rfl
  rw [stored_append, stored_cons, none before fun _ => List.mem_append_left _,
    none behind fun _ => List.mem_append_right _, middle, List.append_nil, List.nil_append]

theorem stored_flatten {body : List Stmt} {groups : List (List Stmt)} (each : List.Forall₂ Surrounds body groups) :
    stored groups.flatten = stored body := by
  induction each with
  | nil => rfl
  | @cons s group body groups here _ ih =>
    rw [List.flatten_cons, stored_append, here.stored, ih, ← stored_cons]

theorem relabel_ne_literal {body : List Stmt} {labels : List Name} (enough : (literals body).length ≤ labels.length)
    (member : s ∈ relabel labels body) (dest : Name) (text : Bytes) : s.action ≠ .store dest (some (.str text)) := by
  induction body using stringInduction generalizing labels with
  | nil => simp [relabel] at member
  | store label dest' text' body ih =>
    rw [literals_store, List.length_cons] at enough
    cases labels with
    | nil => cases enough
    | cons name labels =>
      rw [relabel] at member
      rcases List.mem_cons.1 member with rfl | later
      · simp
      · exact ih (Nat.le_of_succ_le_succ enough) later
  | other s' body other ih =>
    rw [literals_other other] at enough
    rw [relabel_other other] at member
    rcases List.mem_cons.1 member with rfl | later
    · exact other dest text
    · exact ih enough later

/-- What becomes of the function `f` when its string constants get these labels. -/
structure Relabelled (labels : List Name) (f g : Function) : Prop where
  statements : ∃ groups, g.body = groups.flatten ∧ List.Forall₂ Surrounds (relabel labels f.body) groups
  values : stored g.body = stored (relabel labels f.body)
  noLiteral : ∀ s ∈ g.body, ∀ dest text, s.action ≠ .store dest (some (.str text))
  others : g = { f with body := g.body, layout := g.layout }

/-- What becomes of functions when the labels are dealt out in their order. -/
inductive Relabels : List Name → List Function → List Function → Prop
  | nil : Relabels [] [] []
  | external {labels f fs gs} : f.external = true → Relabels labels fs gs → Relabels labels (f :: fs) (f :: gs)
  | body {own labels f g fs gs} : f.external = false → own.length = (literals f.body).length → Relabelled own f g →
    Relabels labels fs gs → Relabels (own ++ labels) (f :: fs) (g :: gs)

/-- The string constants of functions with bodies, in order. -/
def literalsOf (fs : List Function) : List Bytes :=
  fs.flatMap fun f => if f.external then [] else literals f.body

variable {names : Namer} {globals : List Global}

theorem assignFunction_cases (names : Namer) (globals : List Global) (f : Function) :
    (Collides names globals f.body ∧ ∃ label, assignFunction Usage.queue names globals f =
      ⟨(extractStrings names globals f.body).names, (extractStrings names globals f.body).globals,
        { f with body := (extractStrings names globals f.body).body }, some ⟨[.strings], .labelTaken label⟩⟩) ∨
    ¬ Collides names globals f.body ∧
      ((∃ name, place Usage.queue (globals ++ stringGlobals (labelsFor names f.body) (literals f.body)) f.params
          (relabel (labelsFor names f.body) f.body) = .error name ∧ assignFunction Usage.queue names globals f =
        ⟨names.after (literals f.body).length, globals ++ stringGlobals (labelsFor names f.body) (literals f.body),
          { f with body := relabel (labelsFor names f.body) f.body }, some ⟨[.places], .redeclared name⟩⟩) ∨
      ∃ l moved, place Usage.queue (globals ++ stringGlobals (labelsFor names f.body) (literals f.body)) f.params
          (relabel (labelsFor names f.body) f.body) = .ok l ∧
        moved = moveBody (names.after (literals f.body).length) l.withFrame (relabel (labelsFor names f.body) f.body) ∧
        assignFunction Usage.queue names globals f =
          ⟨moved.names, globals ++ stringGlobals (labelsFor names f.body) (literals f.body),
            { f with body := moved.code, layout := some moved.layout }, none⟩) := by
  unfold assignFunction
  by_cases collides : Collides names globals f.body
  · obtain ⟨label, collision⟩ := exists_collision collides
    refine .inl ⟨collides, label, ?_⟩
    dsimp only
    rw [collision]
  · rw [extractStrings_eq collides]
    refine .inr ⟨collides, ?_⟩
    dsimp only
    cases placed : place Usage.queue (globals ++ stringGlobals (labelsFor names f.body) (literals f.body)) f.params
        (relabel (labelsFor names f.body) f.body) with
    | error name => exact .inl ⟨name, rfl, rfl⟩
    | ok l => exact .inr ⟨l, _, rfl, rfl, rfl⟩

theorem relabelled_assignFunction {f : Function} (ok : (assignFunction Usage.queue names globals f).error = none) :
    ∃ labels, labels.length = (literals f.body).length ∧ labels.Nodup ∧ (∀ x ∈ labels, x ∉ globals.map (·.name)) ∧
      (assignFunction Usage.queue names globals f).globals = globals ++ stringGlobals labels (literals f.body) ∧
      Relabelled labels f (assignFunction Usage.queue names globals f).result := by
  rcases assignFunction_cases names globals f with ⟨_, label, same⟩ | ⟨free, ⟨name, _, same⟩ | ⟨l, moved, _, isMoved, same⟩⟩
  · rw [same] at ok
    cases ok
  · rw [same] at ok
    cases ok
  · obtain ⟨nodup, isNew⟩ := labels_of_not_collides free
    obtain ⟨groups, joined, each⟩ :=
      moveBody_surrounds (names.after (literals f.body).length) l.withFrame (relabel (labelsFor names f.body) f.body)
    rw [← isMoved] at joined
    have values := stored_flatten each
    rw [← joined] at values
    rw [same]
    refine ⟨_, length_labelsFor _ _, nodup, isNew, rfl, ⟨groups, joined, each⟩, values, ?_, rfl⟩
    intro s member dest text isLiteral
    have left : some (.str text) ∈ stored (relabel (labelsFor names f.body) f.body) := by
      rw [← values]
      exact mem_stored.2 ⟨s, member, dest, isLiteral⟩
    obtain ⟨s', inside, dest', isLiteral'⟩ := mem_stored.1 left
    exact relabel_ne_literal (Nat.le_of_eq (length_labelsFor _ _).symm) inside dest' text isLiteral'

theorem names_stringGlobals {labels : List Name} {texts : List Bytes} (length : labels.length = texts.length) :
    (stringGlobals labels texts).map (·.name) = labels := by
  induction labels generalizing texts with
  | nil => rfl
  | cons label labels ih =>
    cases texts with
    | nil => cases length
    | cons text texts =>
      have rest := ih (Nat.succ.inj length)
      rw [stringGlobals] at rest ⊢
      rw [List.zipWith_cons_cons, List.map_cons, rest]

section

variable {f : Function}

theorem assignFunctions_cons_external (external : f.external = true) (fs : List Function) :
    assignFunctions Usage.queue names globals (f :: fs) =
      { assignFunctions Usage.queue names globals fs with result := f :: (assignFunctions Usage.queue names globals fs).result } := by
  rw [assignFunctions, if_pos external]

theorem assignFunctions_cons_ok (hasBody : f.external = false) (ok : (assignFunction Usage.queue names globals f).error = none)
    (fs : List Function) :
    assignFunctions Usage.queue names globals (f :: fs) =
      { assignFunctions Usage.queue (assignFunction Usage.queue names globals f).names (assignFunction Usage.queue names globals f).globals fs with
        result := (assignFunction Usage.queue names globals f).result ::
          (assignFunctions Usage.queue (assignFunction Usage.queue names globals f).names (assignFunction Usage.queue names globals f).globals fs).result } := by
  rw [assignFunctions, if_neg (by simp [hasBody])]
  dsimp only
  rw [ok]

theorem assignFunctions_cons_error {e : Error} (hasBody : f.external = false)
    (failed : (assignFunction Usage.queue names globals f).error = some e) (fs : List Function) :
    assignFunctions Usage.queue names globals (f :: fs) =
      ⟨(assignFunction Usage.queue names globals f).names, (assignFunction Usage.queue names globals f).globals,
        (assignFunction Usage.queue names globals f).result :: fs, some { e with path := .function f.name :: e.path }⟩ := by
  rw [assignFunctions, if_neg (by simp [hasBody])]
  dsimp only
  rw [failed]

end

theorem relabels_assignFunctions {fs : List Function} (ok : (assignFunctions Usage.queue names globals fs).error = none) :
    ∃ labels, labels.length = (literalsOf fs).length ∧ labels.Nodup ∧ (∀ x ∈ labels, x ∉ globals.map (·.name)) ∧
      (assignFunctions Usage.queue names globals fs).globals = globals ++ stringGlobals labels (literalsOf fs) ∧
      Relabels labels fs (assignFunctions Usage.queue names globals fs).result := by
  induction fs generalizing names globals with
  | nil => exact ⟨[], rfl, List.nodup_nil, by simp, (List.append_nil _).symm, .nil⟩
  | cons f fs ih =>
    cases external : f.external with
    | true =>
      rw [assignFunctions_cons_external external] at ok ⊢
      obtain ⟨labels, length, nodup, isNew, final, relabels⟩ := ih ok
      have texts : literalsOf (f :: fs) = literalsOf fs := by simp [literalsOf, external]
      rw [texts]
      exact ⟨labels, length, nodup, isNew, final, .external external relabels⟩
    | false =>
      cases failed : (assignFunction Usage.queue names globals f).error with
      | some e =>
        rw [assignFunctions_cons_error external failed] at ok
        cases ok
      | none =>
        rw [assignFunctions_cons_ok external failed] at ok ⊢
        obtain ⟨own, ownLength, ownNodup, ownNew, ownGlobals, relabelled⟩ := relabelled_assignFunction failed
        obtain ⟨labels, length, nodup, isNew, final, relabels⟩ := ih ok
        have texts : literalsOf (f :: fs) = literals f.body ++ literalsOf fs := by simp [literalsOf, external]
        -- what is made later is checked against what was made before
        rw [ownGlobals] at isNew
        simp only [List.map_append, List.mem_append, not_or, names_stringGlobals ownLength] at isNew
        refine ⟨own ++ labels, ?_, ?_, ?_, ?_, .body external ownLength relabelled relabels⟩
        · rw [texts, List.length_append, List.length_append, ownLength, length]
        · rw [List.nodup_append]
          exact ⟨ownNodup, nodup, fun x inOwn y later same => (isNew y later).2 (same ▸ inOwn)⟩
        · intro x member
          rcases List.mem_append.1 member with inOwn | later
          · exact ownNew x inOwn
          · exact (isNew x later).1
        · dsimp only
          rw [final, ownGlobals, texts, stringGlobals, stringGlobals, stringGlobals, List.zipWith_append ownLength,
            List.append_assoc]

end MiniC.Storage

namespace MiniC.Code.Program

open Storage

variable {p q : Program}

/-- Storage assignment puts every string constant into a global of its own, and changes no other value. -/
theorem relabels_of_assign (assigned : p.assign = ⟨q, none⟩) :
    ∃ labels, labels.length = (literalsOf p.functions).length ∧ labels.Nodup ∧
      (∀ x ∈ labels, x ∉ p.globals.map (·.name)) ∧
      q.globals = p.globals ++ stringGlobals labels (literalsOf p.functions) ∧
      Relabels labels p.functions q.functions := by
  unfold assign assignBy at assigned
  rw [Assigned.mk.injEq] at assigned
  obtain ⟨rfl, ok⟩ := assigned
  exact relabels_assignFunctions ok

/-- Two functions with string constants. Names for scratch registers are made between the labels of the first and that of
the second. -/
def greetings : Program :=
  let first : List Stmt := [⟨[], .store "a" (some (.str "hi"))⟩, ⟨[], .binary .add "p" "p" "x"⟩,
    ⟨[], .store "b" (some (.int 5))⟩, ⟨[], .store "p" (some (.str "bye"))⟩]
  let second : List Stmt := [⟨[], .store "a" (some (.str "hi"))⟩, ⟨[], .ret "a"⟩]
  ⟨⟨0⟩, [⟨"x", .int, none⟩, ⟨"old", .string, some (.str "hi")⟩], [⟨"puts", .int, [⟨.string, "s"⟩], true, [], none⟩,
    ⟨"f", .void, [⟨.string, "p"⟩], false, first, none⟩, ⟨"g", .string, [], false, second, none⟩]⟩

theorem relabels_of_assign_greetings :
    ∃ q labels, greetings.assign = ⟨q, none⟩ ∧ labels.length = 3 ∧ labels.Nodup ∧
      (∀ x ∈ labels, x ∉ greetings.globals.map (·.name)) ∧
      q.globals = greetings.globals ++ stringGlobals labels ["hi", "bye", "hi"] ∧
      q.globals.map (·.name) = ["x", "old", "__str1", "__str2", "__str9"] ∧
      Relabels labels greetings.functions q.functions := by
  have assigned : greetings.assign = ⟨greetings.assign.program, none⟩ := assign_of_error (by decide +kernel)
  have texts : literalsOf greetings.functions = ["hi", "bye", "hi"] := by decide
  obtain ⟨labels, length, nodup, isNew, final, relabels⟩ := relabels_of_assign assigned
  rw [texts] at length final
  exact ⟨_, labels, assigned, length, nodup, isNew, final, by decide +kernel, relabels⟩

end MiniC.Code.Program
