import MiniC.Proofs.Compilation.Stages
import MiniC.Proofs.Naming.Assignment
import MiniC.Proofs.Naming.Tidiness

namespace MiniC

namespace Code

def loweringNotes (x : Source.Program) : List Note :=
  ((Noted.functions x.functions ⟨0⟩).map fun out => out.2.2).getD []

/-- What assignment notes about a program. -/
def assignmentNotes (p : Program) : List Note :=
  Storage.functionsNotes p.names p.globals p.functions

/-- What is noted about a program from its tree on. -/
def history (x : Source.Program) (p : Program) : List Note :=
  loweringNotes x ++ assignmentNotes p

/-- No temporary, scratch name or label is in two functions. -/
def Program.Apart (r : Program) : Prop :=
  ∀ (i j : Nat) (g h : Function), r.functions[i]? = some g → r.functions[j]? = some h → i ≠ j →
    ∀ kind ∈ [Name.temporary, Name.scratch, Name.label], ∀ n,
      Name.generated kind n ∈ g.names → Name.generated kind n ∉ h.names

/-- The names that are made from the tree `x` on, through its code `p` to the code `q` with places. -/
structure Hygienic (x : Source.Program) (p q : Program) : Prop where
  lowered : p.functions.flatMap (·.body) = Note.written (loweringNotes x)
  written : ∀ g ∈ q.functions, ∀ s ∈ g.body, .writes s ∈ assignmentNotes p
  declared : ∀ h ∈ q.globals, h ∈ p.globals ∨ .declares h ∈ assignmentNotes p
  calls : p.names.count.toInt = (Note.made (loweringNotes x)).length ∧
    q.names.count.toInt = (Note.made (history x p)).length
  numbered : ∀ k name, (Note.made (history x p))[k]? = some name →
    ∃ kind ∈ Name.kinds, name = Namer.made ⟨0⟩ kind (k + 1)
  fresh : ∀ before name after, history x p = before ++ Note.makes name :: after →
    name ∉ x.names ++ p.functions.map (·.exitLabel) ++ before.flatMap Note.names
  apart : p.Apart ∧ q.Apart

theorem Program.apart_of_known {start : Namer} {spans : Nat → Nat → Prop} {b : Nat} {r : Program} (small : b < 2 ^ 64)
    (known : ∀ {i : Nat} {g : Function}, r.functions[i]? = some g → ∀ x ∈ g.names, Known start (spans i) x b)
    (disjoint : ∀ {i j n}, spans i n → spans j n → i = j) : r.Apart := by
  intro i j g h found found' differ kind isKind n member member'
  have noSpan (n : Nat) (_ : n ≤ b) (_ : n ≤ b) (spanned : spans i n) : ¬ spans j n :=
    fun spanned' => differ (disjoint spanned spanned')
  rcases (known found _ member).apart (known found' _ member') small small noSpan with user | ⟨m, same⟩
  · simp at user
  · have kinds : ∀ kind ∈ [Name.temporary, Name.scratch, Name.label], kind ∈ Name.kinds ∧ kind ≠ Name.string := by
      decide
    exact (kinds kind isKind).2 (Name.kind_injective (kinds kind isKind).1 (by decide) same)

theorem noted_of_ofSource {x : Source.Program} {p : Program} (wellFormed : x.WellFormed)
    (isCode : Program.ofSource x = .ok p) :
    ∃ b spans, p.names = Namer.after ⟨0⟩ b ∧ Note.written (loweringNotes x) = p.functions.flatMap (·.body) ∧
      Orderly ⟨0⟩ (fun _ => True) 0 (loweringNotes x) b ∧ Shares ⟨0⟩ (fun _ _ => False) 0 b p.functions spans := by
  unfold Program.ofSource at isCode
  obtain ⟨globals, isGlobals, isCode⟩ := bind_eq_ok.1 isCode
  obtain ⟨⟨functions, names⟩, isFunctions, done⟩ := bind_eq_ok.1 isCode
  cases done
  rw [← Namer.after_zero ⟨0⟩] at isFunctions
  obtain ⟨b, notes, spans, rfl, done, written, orderly, shares⟩ :=
    Noted.noted_functions wellFormed.functions isFunctions
  have isNotes : loweringNotes x = notes := by
    rw [Namer.after_zero] at done
    rw [loweringNotes, done]
    rfl
  rw [isNotes]
  exact ⟨b, spans, rfl, written, orderly, shares⟩

variable {text : Bytes} {x : Source.Program} {p q : Program}

theorem noted_of_assign (wellFormed : x.WellFormed) (isCode : Program.ofSource x = .ok p)
    (assigned : p.assign = ⟨q, none⟩) {b : Nat} (isNames : p.names = Namer.after ⟨0⟩ b) {old : Nat → Nat → Prop}
    (known : ∀ {i f}, p.functions[i]? = some f → ∀ y ∈ f.names, Known ⟨0⟩ (old i) y b) :
    ∃ c spans, q.names = Namer.after ⟨0⟩ c ∧ (∀ g ∈ q.functions, ∀ s ∈ g.body, .writes s ∈ assignmentNotes p) ∧
      (∀ h ∈ q.globals, h ∈ p.globals ∨ .declares h ∈ assignmentNotes p) ∧
      Orderly ⟨0⟩ (fun _ => True) b (assignmentNotes p) c ∧ Shares ⟨0⟩ old b c q.functions spans := by
  have lowersTo := Program.lowersTo_of_ofSource wellFormed isCode
  have isGlobals : Storage.KnownGlobals ⟨0⟩ p.globals b := by
    intro h member
    obtain ⟨g, inTree, isGlobal⟩ := exists_of_mem_right lowersTo.globals member
    rw [OfSource.name_of_global isGlobal]
    exact .inl (wellFormed.globals g inTree).name.notGenerated
  have empty : ∀ f ∈ p.functions, f.external = true → f.body = [] := by
    intro f member
    obtain ⟨y, _, lowersTo⟩ := exists_of_mem_right lowersTo.functions member
    exact lowersTo.empty
  unfold Program.assign Program.assignBy at assigned
  rw [isNames, Assigned.mk.injEq] at assigned
  obtain ⟨rfl, processed⟩ := assigned
  obtain ⟨c, more, gs, spans, done, orderly, written, declared, shares⟩ :=
    Storage.noted_assignFunctions processed known isGlobals empty
  rw [done, assignmentNotes, isNames]
  exact ⟨c, spans, rfl, written, declared, orderly, shares⟩

theorem not_mem_of_orderly (wellFormed : x.WellFormed) (fs : List Function) {start : Namer} {own : Nat → Prop}
    {a c : Nat} {before after : List Note} {name : Name} (orderly : Orderly start own a (before ++ .makes name :: after) c)
    (small : c < 2 ^ 64) : name ∉ x.names ++ fs.map (·.exitLabel) ++ before.flatMap Note.names := by
  obtain ⟨⟨kind, isKind, n, rfl⟩, unnoted⟩ := orderly.fresh small
  intro member
  rcases List.mem_append.1 member with standing | noted
  · rcases List.mem_append.1 standing with inTree | isExit
    · exact Name.ne_generated (Source.Program.isUserName_of_names wellFormed _ inTree).notGenerated kind n rfl
    · obtain ⟨f, _, same⟩ := List.mem_map.1 isExit
      exact Assembly.exitLabel_ne_generated f isKind n same.symm
  · exact unnoted noted

/-- Generated names are hygienic, from a text that is accepted to the places of its program. -/
theorem hygienic_of_assign (parsed : Source.parse text = .ok x) (isCode : Program.ofSource x = .ok p)
    (assigned : p.assign = ⟨q, none⟩) (few : (Note.made (history x p)).length < 2 ^ 63) : Hygienic x p q := by
  have wellFormed := Source.wellFormed_of_parse parsed
  obtain ⟨b, spans, isNames, lowered, orderly, shares⟩ := noted_of_ofSource wellFormed isCode
  obtain ⟨c, spans', isNames', written, declared, orderly', shares'⟩ :=
    noted_of_assign wellFormed isCode assigned isNames shares.alone
  have whole : Orderly ⟨0⟩ (fun _ => True) 0 (history x p) c := orderly.append orderly'
  have count := orderly.count
  have count' := whole.count
  have le := orderly'.le
  have counted (n : Nat) (le : n ≤ c) : (Namer.after ⟨0⟩ n).count.toInt = n := by
    rw [Namer.toInt_after (by simp; omega)]
    simp
  refine ⟨lowered.symm, written, declared, ⟨?_, ?_⟩, ?_, ?_, ?_, ?_⟩
  · rw [isNames, counted b le]
    omega
  · rw [isNames', counted c (Nat.le_refl c)]
    omega
  · intro k name found
    simpa using whole.numbered found
  · intro before name after split
    exact not_mem_of_orderly wellFormed p.functions (split ▸ whole) (by omega)
  · exact Program.apart_of_known (by omega) shares.alone shares.apart
  · exact Program.apart_of_known (by omega) shares'.known (shares.owner_unique shares')

theorem loweringNotes_bare (x : Source.Program) : loweringNotes x.bare = loweringNotes x := by
  rw [loweringNotes, Source.Program.bare, Noted.functions_bare, loweringNotes]

/-- `int put(string text); int half(int n) { put("lo"); return n / 2; } int main() { while (half(1)) { put("hi"); }
return 0; }` -/
def halving : Source.Program :=
  let pos := Source.Position.nowhere
  let number (n : UInt64) : Source.Expr := .literal ⟨pos, .int n⟩
  let put (text : Bytes) : Source.Stmt := .exprStmt pos (.call pos "put" [.literal ⟨pos, .str text⟩])
  let half : List Source.Stmt := [put "lo", .returnStmt pos (.binary pos .div (.var pos "n") (number 2))]
  let main : List Source.Stmt := [.whileStmt pos (.call pos "half" [number 1]) [put "hi"], .returnStmt pos (number 0)]
  ⟨[], [⟨pos, "put", .int, [⟨.string, "text"⟩], true, []⟩, ⟨pos, "half", .int, [⟨.int, "n"⟩], false, half⟩,
    ⟨pos, "main", .int, [], false, main⟩]⟩

def halvingText : Bytes :=
  "int put(string text);\n\nint half(int n) \x7b\n\tput(\"lo\");\n\treturn n / 2;\n\x7d\n\nint main() \x7b\n\t" ++
    "while (half(1)) \x7b\n\t\tput(\"hi\");\n\t\x7d\n\treturn 0;\n\x7d\n"

def halvingCode : Program :=
  (Program.ofSource halving).toOption.getD ⟨⟨0⟩, [], []⟩

theorem lowered_halving : Program.ofSource halving = .ok halvingCode :=
  eq_ok_getD (by decide +kernel)

theorem made_halving : Note.made (history halving halvingCode) =
    ["__t1", "__t2", "__t3", "__t4", "__t5", "__L6", "__L7", "__L8", "__L9", "__t10", "__t11", "__t12", "__t13",
      "__t14", "__t15", "__t16", "__str17", "__s18", "__str19"] := by
  decide +kernel

theorem hygienic_of_assign_halving :
    ∃ x p q, Source.parse halvingText = .ok x ∧ Program.ofSource x = .ok p ∧ p.assign = ⟨q, none⟩ ∧
      (Note.made (history x p)).length = 19 ∧ Hygienic x p q := by
  have printed : halving.format = .ok halvingText := by decide +kernel
  obtain ⟨text, printed', x, parsed, same⟩ := Source.exists_parse_format (x := halving) (by decide)
  cases printed.symm.trans printed'
  have isCode : Program.ofSource x = .ok halvingCode := by
    rw [← Program.ofSource_bare, same, Program.ofSource_bare]
    exact lowered_halving
  have noted : history x halvingCode = history halving halvingCode := by
    rw [history, ← loweringNotes_bare, same, loweringNotes_bare, history]
  have few : (Note.made (history x halvingCode)).length = 19 := by
    rw [noted, made_halving]
    rfl
  have assigned : halvingCode.assign = ⟨halvingCode.assign.program, none⟩ := Program.assign_of_error (by decide +kernel)
  exact ⟨x, halvingCode, _, parsed, isCode, assigned, few, hygienic_of_assign parsed isCode assigned (by omega)⟩

end Code

end MiniC
