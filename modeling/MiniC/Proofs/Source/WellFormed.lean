import MiniC.Proofs.Source.Declarations
import MiniC.Proofs.Source.Descent

namespace MiniC.Source

open MiniC.Source.Parser (Decl program keywords type? unary? binary? counting?)
open MiniC.Source.Climbing

variable {ls : List Lexeme} {text : Bytes}

/-- A letter and what a name goes on with. -/
def IsSpelled (name : Name) : Prop :=
  ∃ c rest, name = c :: rest ∧ Ascii.isLetter c = true ∧ ∀ d ∈ rest, Ascii.isWord d = true

structure IsUserName (name : Name) : Prop extends IsName name where
  spelled : IsSpelled name

mutual

def Expr.WellFormed : Expr → Prop
  | .missing => False
  | .var _ name => IsUserName name
  | .literal _ => True
  | .call _ name args => IsUserName name ∧ Expr.AllWellFormed args
  | .unary _ op operand => op ∈ UnOp.all ∧ (op.counts = true → operand.isVar = true) ∧ operand.WellFormed
  | .binary _ op left right => op ∈ BinOp.all ∧ left.WellFormed ∧ right.WellFormed

def Expr.AllWellFormed : List Expr → Prop
  | [] => True
  | e :: es => e.WellFormed ∧ Expr.AllWellFormed es

end

mutual

def Stmt.WellFormed : Stmt → Prop
  | .missing => False
  | .assign _ target value => IsUserName target ∧ value.WellFormed
  | .declare _ ty name init =>
    ty ∈ Ty.all ∧ ty ≠ .void ∧ IsUserName name ∧ (init = .missing ∧ ty ≠ .string ∨ init.WellFormed)
  | .returnStmt _ value => value = .missing ∨ value.WellFormed
  | .breakStmt _ | .continueStmt _ => True
  | .whileStmt _ check body => check.WellFormed ∧ Stmt.AllWellFormed body
  | .ifStmt _ check thenBody elseBody =>
    check.WellFormed ∧ Stmt.AllWellFormed thenBody ∧ Stmt.AllWellFormed elseBody
  | .exprStmt _ value => value.WellFormed

def Stmt.AllWellFormed : List Stmt → Prop
  | [] => True
  | s :: ss => s.WellFormed ∧ Stmt.AllWellFormed ss

end

structure Global.WellFormed (g : Global) : Prop where
  name : IsUserName g.name
  ty : g.ty ∈ Ty.all
  notVoid : g.ty ≠ .void
  notString : g.init = none → g.ty ≠ .string

structure Function.WellFormed (f : Function) : Prop where
  name : IsUserName f.name
  result : f.result ∈ Ty.all
  params : ∀ p ∈ f.params, p.ty ∈ Ty.all ∧ IsUserName p.name
  external : f.external = true → f.body = []
  body : Stmt.AllWellFormed f.body

structure Program.WellFormed (p : Program) : Prop where
  globals : ∀ g ∈ p.globals, g.WellFormed
  functions : ∀ f ∈ p.functions, f.WellFormed

instance (name : Name) : Decidable (IsSpelled name) :=
  match name with
  | [] => isFalse nofun
  | c :: rest =>
    decidable_of_iff (Ascii.isLetter c = true ∧ ∀ d ∈ rest, Ascii.isWord d = true)
      ⟨fun ⟨letter, word⟩ => ⟨c, rest, rfl, letter, word⟩, fun ⟨_, _, same, letter, word⟩ => by
        cases same
        exact ⟨letter, word⟩⟩

instance (name : Name) : Decidable (IsName name) :=
  decidable_of_iff (name ∉ keywords ∧ type? name = none ∧ Name.isGenerated name = false)
    ⟨fun ⟨first, second, third⟩ => ⟨first, second, third⟩, fun isName =>
      ⟨isName.notKeyword, isName.notType, isName.notGenerated⟩⟩

instance (name : Name) : Decidable (IsUserName name) :=
  decidable_of_iff (IsName name ∧ IsSpelled name) ⟨fun ⟨isName, spelled⟩ => ⟨isName, spelled⟩,
    fun user => ⟨user.toIsName, user.spelled⟩⟩

mutual

instance Expr.decidableWellFormed : (e : Expr) → Decidable e.WellFormed
  | .missing => isFalse id
  | .var _ name => inferInstanceAs (Decidable (IsUserName name))
  | .literal _ => isTrue trivial
  | .call _ name args =>
    have := Expr.decidableAllWellFormed args
    inferInstanceAs (Decidable (IsUserName name ∧ Expr.AllWellFormed args))
  | .unary _ op operand =>
    have := Expr.decidableWellFormed operand
    inferInstanceAs (Decidable (op ∈ UnOp.all ∧ (op.counts = true → operand.isVar = true) ∧ operand.WellFormed))
  | .binary _ op left right =>
    have := Expr.decidableWellFormed left
    have := Expr.decidableWellFormed right
    inferInstanceAs (Decidable (op ∈ BinOp.all ∧ left.WellFormed ∧ right.WellFormed))

instance Expr.decidableAllWellFormed : (es : List Expr) → Decidable (Expr.AllWellFormed es)
  | [] => isTrue trivial
  | e :: es =>
    have := Expr.decidableWellFormed e
    have := Expr.decidableAllWellFormed es
    inferInstanceAs (Decidable (e.WellFormed ∧ Expr.AllWellFormed es))

end

instance : (e : Expr) → Decidable (e = .missing)
  | .missing => isTrue rfl
  | .var .. | .literal .. | .call .. | .unary .. | .binary .. => isFalse nofun

mutual

instance Stmt.decidableWellFormed : (s : Stmt) → Decidable s.WellFormed
  | .missing => isFalse id
  | .assign _ target value => inferInstanceAs (Decidable (IsUserName target ∧ value.WellFormed))
  | .declare _ ty name init =>
    inferInstanceAs (Decidable
      (ty ∈ Ty.all ∧ ty ≠ .void ∧ IsUserName name ∧ (init = .missing ∧ ty ≠ .string ∨ init.WellFormed)))
  | .returnStmt _ value => inferInstanceAs (Decidable (value = .missing ∨ value.WellFormed))
  | .breakStmt _ | .continueStmt _ => isTrue trivial
  | .whileStmt _ check body =>
    have := Stmt.decidableAllWellFormed body
    inferInstanceAs (Decidable (check.WellFormed ∧ Stmt.AllWellFormed body))
  | .ifStmt _ check thenBody elseBody =>
    have := Stmt.decidableAllWellFormed thenBody
    have := Stmt.decidableAllWellFormed elseBody
    inferInstanceAs (Decidable (check.WellFormed ∧ Stmt.AllWellFormed thenBody ∧ Stmt.AllWellFormed elseBody))
  | .exprStmt _ value => inferInstanceAs (Decidable value.WellFormed)

instance Stmt.decidableAllWellFormed : (ss : List Stmt) → Decidable (Stmt.AllWellFormed ss)
  | [] => isTrue trivial
  | s :: ss =>
    have := Stmt.decidableWellFormed s
    have := Stmt.decidableAllWellFormed ss
    inferInstanceAs (Decidable (s.WellFormed ∧ Stmt.AllWellFormed ss))

end

instance (g : Global) : Decidable g.WellFormed :=
  decidable_of_iff (IsUserName g.name ∧ g.ty ∈ Ty.all ∧ g.ty ≠ .void ∧ (g.init = none → g.ty ≠ .string))
    ⟨fun ⟨name, ty, notVoid, notString⟩ => ⟨name, ty, notVoid, notString⟩, fun w => ⟨w.name, w.ty, w.notVoid, w.notString⟩⟩

instance (f : Function) : Decidable f.WellFormed :=
  decidable_of_iff (IsUserName f.name ∧ f.result ∈ Ty.all ∧ (∀ p ∈ f.params, p.ty ∈ Ty.all ∧ IsUserName p.name) ∧
      (f.external = true → f.body.isEmpty = true) ∧ Stmt.AllWellFormed f.body)
    ⟨fun ⟨name, result, params, external, body⟩ => ⟨name, result, params, fun e => List.isEmpty_iff.1 (external e), body⟩,
      fun w => ⟨w.name, w.result, w.params, fun e => List.isEmpty_iff.2 (w.external e), w.body⟩⟩

instance (p : Program) : Decidable p.WellFormed :=
  decidable_of_iff ((∀ g ∈ p.globals, g.WellFormed) ∧ ∀ f ∈ p.functions, f.WellFormed)
    ⟨fun ⟨globals, functions⟩ => ⟨globals, functions⟩, fun w => ⟨w.globals, w.functions⟩⟩

theorem Stmt.allWellFormed_append {ss ts : List Stmt} (left : AllWellFormed ss) (right : AllWellFormed ts) :
    AllWellFormed (ss ++ ts) := by
  induction ss with
  | nil => exact right
  | cons s ss ih => exact ⟨left.1, ih left.2⟩

def Spelled (ls : List Lexeme) : Prop :=
  ∀ name, .ident name ∈ ls → IsSpelled name

theorem Spelled.sub {rs : List Lexeme} (spelled : Spelled ls) (sub : rs ⊆ ls) : Spelled rs :=
  fun name member => spelled name (sub member)

theorem Spelled.left {rs : List Lexeme} (spelled : Spelled (ls ++ rs)) : Spelled ls :=
  spelled.sub (List.subset_append_left ls rs)

theorem Spelled.right {rs : List Lexeme} (spelled : Spelled (ls ++ rs)) : Spelled rs :=
  spelled.sub (List.subset_append_right ls rs)

theorem Spelled.tail {l : Lexeme} (spelled : Spelled (l :: ls)) : Spelled ls :=
  spelled.sub (List.subset_cons_self l ls)

theorem Spelled.userName {name : Name} (spelled : Spelled (.ident name :: ls)) (isName : IsName name) :
    IsUserName name :=
  ⟨isName, spelled name List.mem_cons_self⟩

theorem mem_all_of_type? {spelled : Bytes} {ty : Ty} (isType : type? spelled = some ty) : ty ∈ Ty.all :=
  List.mem_of_find?_eq_some isType

theorem mem_all_of_binary? {p : Punct} {op : BinOp} {level : Nat} (mark : binary? p = some (op, level)) : op ∈ BinOp.all := by
  cases p <;> cases mark <;> decide

theorem mem_all_of_unary? {p : Punct} {op : UnOp} (mark : unary? p = some op) : op ∈ UnOp.all := by
  cases p <;> cases mark <;> decide

theorem mem_all_of_counting? {p : Punct} {op : UnOp} (mark : counting? p = some op) : op ∈ UnOp.all := by
  cases p <;> cases mark <;> decide

mutual

theorem IsExpr.wellFormed : ∀ {i ls e}, IsExpr i ls e → Spelled ls → e.WellFormed
  | _, _, _, .tighter _ inner, spelled => inner.wellFormed spelled
  | _, _, _, .binary _ mark left right, spelled =>
    ⟨mem_all_of_binary? mark, left.wellFormed spelled.left, right.wellFormed spelled.right.tail⟩
  | _, _, _, .unary _ mark operand onVar, spelled =>
    ⟨mem_all_of_unary? mark, onVar, operand.wellFormed spelled.tail⟩
  | _, _, _, .counted inner, spelled => inner.wellFormed spelled

theorem IsCounted.wellFormed : ∀ {ls e}, IsCounted ls e → Spelled ls → e.WellFormed
  | _, _, .primary inner, spelled => inner.wellFormed spelled
  | _, _, .behind _ inner mark onVar, spelled =>
    ⟨mem_all_of_counting? mark, fun _ => onVar, inner.wellFormed spelled.left⟩

theorem IsPrimary.wellFormed : ∀ {ls e}, IsPrimary ls e → Spelled ls → e.WellFormed
  | _, _, .var _ isName, spelled => spelled.userName isName
  | _, _, .literal _ _, _ => trivial
  | _, _, .call _ isName args, spelled => ⟨spelled.userName isName, args.wellFormed spelled.tail.tail.left⟩
  | _, _, .paren inner, spelled => inner.wellFormed spelled.tail.left

theorem IsArgs.wellFormed : ∀ {ls es}, IsArgs ls es → Spelled ls → Expr.AllWellFormed es
  | _, _, .none, _ => trivial
  | _, _, .last arg, spelled => ⟨arg.wellFormed spelled, trivial⟩
  | _, _, .more arg others, spelled => ⟨arg.wellFormed spelled.left, others.wellFormed spelled.right.tail⟩

end

theorem Spelled.condition {cs : List Lexeme} (spelled : Spelled (inParens cs ++ ls)) : Spelled cs :=
  spelled.left.tail.left

mutual

theorem IsStmt.wellFormed : ∀ {closed ls ss}, IsStmt closed ls ss → Spelled ls → Stmt.AllWellFormed ss
  | _, _, _, .block body, spelled => body.wellFormed spelled.tail.left
  | _, _, _, .empty, _ => trivial
  | _, _, _, .declare _ isType isName notVoid notString, spelled =>
    ⟨⟨mem_all_of_type? isType, notVoid, spelled.tail.userName isName, .inl ⟨rfl, notString⟩⟩, trivial⟩
  | _, _, _, .declareWith _ isType isName notVoid init, spelled =>
    ⟨⟨mem_all_of_type? isType, notVoid, spelled.tail.userName isName, .inr (init.wellFormed spelled.tail.tail.tail.left)⟩,
      trivial⟩
  | _, _, _, .assign _ isName value, spelled =>
    ⟨⟨spelled.userName isName, value.wellFormed spelled.tail.tail.left⟩, trivial⟩
  | _, _, _, .ifThen _ check thenBody, spelled =>
    ⟨⟨check.wellFormed spelled.tail.condition, thenBody.wellFormed spelled.tail.right, trivial⟩, trivial⟩
  | _, _, _, .ifElse _ check thenBody elseBody, spelled =>
    ⟨⟨check.wellFormed spelled.tail.condition, thenBody.wellFormed spelled.tail.right.left,
      elseBody.wellFormed spelled.tail.right.right.tail⟩, trivial⟩
  | _, _, _, .loop _ check body, spelled =>
    ⟨⟨check.wellFormed spelled.tail.condition, body.wellFormed spelled.tail.right⟩, trivial⟩
  | _, _, _, .breakLoop _, _ => ⟨trivial, trivial⟩
  | _, _, _, .continueLoop _, _ => ⟨trivial, trivial⟩
  | _, _, _, .leave _, _ => ⟨.inl rfl, trivial⟩
  | _, _, _, .leaveWith _ value, spelled => ⟨.inr (value.wellFormed spelled.tail.left), trivial⟩
  | _, _, _, .expr _ value, spelled => ⟨value.wellFormed spelled.left, trivial⟩

theorem IsStmts.wellFormed : ∀ {ls ss}, IsStmts ls ss → Spelled ls → Stmt.AllWellFormed ss
  | _, _, .nil, _ => trivial
  | _, _, .cons first others, spelled =>
    Stmt.allWellFormed_append (first.wellFormed spelled.left) (others.wellFormed spelled.right)

end

theorem IsParams.wellFormed {ps : List Param} (derived : IsParams ls ps) (spelled : Spelled ls) :
    ∀ p ∈ ps, p.ty ∈ Ty.all ∧ IsUserName p.name := by
  induction derived with
  | none => simp
  | last isType isName => simpa using ⟨mem_all_of_type? isType, spelled.tail.userName isName⟩
  | more isType isName others ih =>
    intro q member
    rcases List.mem_cons.1 member with rfl | later
    · exact ⟨mem_all_of_type? isType, spelled.tail.userName isName⟩
    · exact ih spelled.tail.tail.tail q later

def Parser.Decl.WellFormed : Decl → Prop
  | .global g => g.WellFormed
  | .function f => f.WellFormed

theorem IsDecl.wellFormed {d : Decl} (derived : IsDecl ls d) (spelled : Spelled ls) : d.WellFormed := by
  cases derived with
  | global _ isType isName notVoid notString =>
    exact ⟨spelled.tail.userName isName, mem_all_of_type? isType, notVoid, fun _ => notString⟩
  | globalWith _ _ isType isName notVoid =>
    exact ⟨spelled.tail.userName isName, mem_all_of_type? isType, notVoid, fun never => nomatch never⟩
  | external _ isType isName params =>
    exact ⟨spelled.tail.userName isName, mem_all_of_type? isType, params.wellFormed spelled.tail.tail.condition,
      fun _ => rfl, trivial⟩
  | function _ isType isName params body =>
    exact ⟨spelled.tail.userName isName, mem_all_of_type? isType, params.wellFormed spelled.tail.tail.condition,
      (fun never => nomatch never), body.wellFormed spelled.tail.tail.right.tail.left⟩

theorem IsDecls.wellFormed {ds : List Decl} (derived : IsDecls ls ds) (spelled : Spelled ls) :
    ∀ d ∈ ds, d.WellFormed := by
  induction derived with
  | nil => simp
  | cons first others ih =>
    intro d member
    rcases List.mem_cons.1 member with rfl | later
    · exact first.wellFormed spelled.left
    · exact ih spelled.right d later

theorem Parser.program_wellFormed {ds : List Decl} (each : ∀ d ∈ ds, d.WellFormed) : (program ds).WellFormed := by
  constructor
  · intro g member
    obtain ⟨d, inside, isGlobal⟩ := List.mem_filterMap.1 member
    cases d with
    | global g' =>
      cases isGlobal
      exact each _ inside
    | function f => cases isGlobal
  · intro f member
    obtain ⟨d, inside, isFunction⟩ := List.mem_filterMap.1 member
    cases d with
    | function f' =>
      cases isFunction
      exact each _ inside
    | global g => cases isFunction

theorem isSpelled_of_read {c : UInt8} {rest : Bytes} {name : Name} (read : Lexeme.read c text = .ok (.ident name, rest)) :
    IsSpelled name := by
  unfold Lexeme.read at read
  split at read
  · rename_i letter
    cases read
    exact ⟨c, _, rfl, letter, fun d member => List.all_eq_true.1 List.all_takeWhile d member⟩
  split at read
  · cases read
  split at read
  · obtain ⟨⟨value, after⟩, _, read⟩ := bind_eq_ok.1 read
    dsimp only at read
    split at read <;> cases read
  split at read
  · obtain ⟨⟨value, after⟩, _, read⟩ := bind_eq_ok.1 read
    cases read
  split at read <;> cases read

theorem next_eq_none {size : Nat} {input : Bytes} :
    Token.next size input = .ok none ↔ skipGap .blank input = .ok [] := by
  unfold Token.next
  split
  · simp_all
  · simp_all
  · rename_i c text skipped
    cases read : Lexeme.read c text with
    | error e => simp [skipped]
    | ok found => simp [skipped]

theorem scanFrom_eq_ok {size : Nat} {input : Bytes} {tokens : List Token} :
    Token.scanFrom size input = .ok tokens ↔
      (skipGap .blank input = .ok [] ∧ tokens = []) ∨
        ∃ c text l rest others, skipGap .blank input = .ok (c :: text) ∧ Lexeme.read c text = .ok (l, rest) ∧
          Token.scanFrom size rest = .ok others ∧ tokens = ⟨l, size - (c :: text).length⟩ :: others := by
  rw [Token.scanFrom]
  split
  · rename_i e failed
    constructor
    · rintro ⟨⟩
    · rintro (⟨skipped, _⟩ | ⟨c, text, l, rest, _, skipped, read, _⟩)
      · cases failed.symm.trans (next_eq_none.2 skipped)
      · cases failed.symm.trans (Token.next_eq_some.2 ⟨c, text, l, skipped, read, rfl⟩)
  · rename_i ended
    have skipped := next_eq_none.1 ended
    simp [skipped, eq_comm]
  · rename_i t rest found
    obtain ⟨c, text, l, skipped, read, rfl⟩ := Token.next_eq_some.1 found
    rw [bind_eq_ok]
    constructor
    · rintro ⟨others, later, ⟨⟩⟩
      exact .inr ⟨c, text, l, rest, others, skipped, read, later, rfl⟩
    · rintro (⟨never, _⟩ | ⟨_, _, _, _, others, skipped', read', later, rfl⟩)
      · cases skipped.symm.trans never
      · cases skipped.symm.trans skipped'
        cases read.symm.trans read'
        exact ⟨others, later, rfl⟩

theorem spelled_of_scanFrom {size : Nat} {input : Bytes} {tokens : List Token}
    (scanned : Token.scanFrom size input = .ok tokens) :
    Spelled (tokens.map Token.lexeme) ∧ tokens.length ≤ input.length := by
  rcases scanFrom_eq_ok.1 scanned with ⟨_, rfl⟩ | ⟨c, text, l, rest, others, gap, read, later, rfl⟩
  · exact ⟨fun _ never => absurd never List.not_mem_nil, Nat.zero_le _⟩
  · have skipped := skipGap_le gap
    have taken := Lexeme.read_le read
    simp only [List.length_cons] at skipped
    have shorter : rest.length < input.length := by omega
    obtain ⟨spelled, short⟩ := spelled_of_scanFrom later
    refine ⟨?_, by simp only [List.length_cons]; omega⟩
    intro name member
    rcases List.mem_cons.1 member with rfl | inside
    · exact isSpelled_of_read read
    · exact spelled name inside
termination_by input.length

theorem parse_eq_ok {p : Program} : parse text = .ok p ↔ ∃ tokens ds, Token.scan text = .ok tokens ∧
        decls (.ofOffset text text.length) (tokens.map fun t => ⟨t.lexeme, .ofOffset text t.offset⟩) = .ok ds ∧
        p = program ds := by
  rw [parse_eq, lexemes]
  constructor
  · intro ok
    obtain ⟨ts, scanned, ok⟩ := bind_eq_ok.1 ok
    obtain ⟨ds, read, done⟩ := bind_eq_ok.1 ok
    cases done
    split at scanned
    · rename_i tokens found
      cases scanned
      exact ⟨tokens, ds, found, read, rfl⟩
    · cases scanned
  · rintro ⟨tokens, ds, scanned, read, rfl⟩
    rw [scanned]
    exact bind_eq_ok.2 ⟨_, rfl, bind_eq_ok.2 ⟨ds, read, rfl⟩⟩

theorem plain_placed (text : Bytes) (tokens : List Token) :
    plain (tokens.map fun t => ⟨t.lexeme, .ofOffset text t.offset⟩) = tokens.map Token.lexeme := by
  rw [plain, List.map_map]
  rfl

theorem isDecls_of_parse {p : Program} (parsed : parse text = .ok p) :
    ∃ ls ds, IsDecls ls ds ∧ p = program ds ∧ Spelled ls ∧ ls.length ≤ text.length := by
  obtain ⟨tokens, ds, scanned, read, rfl⟩ := parse_eq_ok.1 parsed
  have derived := isDecls_of_decls read
  rw [plain_placed] at derived
  obtain ⟨spelled, short⟩ := spelled_of_scanFrom scanned
  exact ⟨_, ds, derived, rfl, spelled, by simpa using short⟩

theorem wellFormed_of_parse {p : Program} (parsed : parse text = .ok p) : p.WellFormed := by
  obtain ⟨ls, ds, derived, rfl, spelled, _⟩ := isDecls_of_parse parsed
  exact Parser.program_wellFormed (derived.wellFormed spelled)

end MiniC.Source
