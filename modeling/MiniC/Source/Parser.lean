import MiniC.Source.Routine

namespace MiniC.Source.Parser

variable {α β : Type}

/-- A routine that is called at the token with some number. -/
structure Call where
  {result : Type}
  routine : Routine result
  index : Nat

/-- How many tokens a routine reads if it succeeds. -/
inductive Extent
  | one
  | some
  | any

def Routine.extent : Routine α → Extent
  | .type | .ident | .literal => .one
  | .counters _ | .operators .. | .decls _ => .any
  | _ => .some

def Routine.rank : Routine α → Nat
  | .type | .ident | .literal | .counters _ | .operators .. | .condition | .block => 0
  | .primary | .params _ | .decl => 1
  | .postfixed | .decls _ => 2
  | .unary => 3
  | .binary level => 14 - level
  | .expr => 15
  | .exprStmt | .arguments _ => 16
  | .stmt => 17
  | .stmts _ => 18

section

variable (ts : Tokens)

/-- One token comes after another, and not after the end of the file. -/
def Further (i j : Nat) : Prop :=
  i < j ∧ j ≤ ts.lexemes.size

def Moves (r : Routine α) (i j : Nat) : Prop :=
  match r.extent with
  | .one => i < ts.lexemes.size ∧ j = i + 1
  | .some => Further ts i j
  | .any => Further ts i j ∨ j = i

/-- One call is nearer to the end than another: it stands further on, or its routine has a lower rank. -/
def Nearer (d c : Call) : Prop :=
  Further ts c.index d.index ∨ (d.index = c.index ∧ d.routine.rank < c.routine.rank)

/-- A run makes only calls that are nearer to the end than `c` is, and ends well only as `post` says, as long as the
routines that it calls move as they may. -/
def Run.Safe (c : Call) (post : α → Nat → Prop) : Run α → Prop
  | .ends (.ok (a, j)) => post a j
  | .ends (.error _) => True
  | .calls r i next => Nearer ts ⟨r, i⟩ c ∧ ∀ b j, Moves ts r i j → (next b j).Safe c post

def Safe (c : Call) (i : Nat) (post : α → Nat → Prop) (x : Parser α) : Prop :=
  (x ts i).Safe ts c post

end

variable {ts : Tokens} {c : Call} {i j k : Nat} {r : Routine α} {post : α → Nat → Prop}

theorem Further.next (further : Further ts i j) (inside : j < ts.lexemes.size) : Further ts i (j + 1) :=
  ⟨Nat.lt_succ_of_lt further.1, inside⟩

theorem further_next (inside : i < ts.lexemes.size) : Further ts i (i + 1) :=
  ⟨Nat.lt_succ_self i, inside⟩

theorem Moves.cases (moves : Moves ts r i j) : Further ts i j ∨ (r.extent = .any ∧ j = i) := by
  unfold Moves at moves
  split at moves
  · obtain ⟨inside, rfl⟩ := moves
    exact .inl (further_next inside)
  · exact .inl moves
  · rename_i any
    exact moves.imp_right fun same => ⟨any, same⟩

theorem Further.after (further : Further ts i j) (moves : Moves ts r j k) : Further ts i k := by
  rcases moves.cases with moves | ⟨_, rfl⟩
  · exact ⟨Nat.lt_trans further.1 moves.1, moves.2⟩
  · exact further

theorem Moves.further (moves : Moves ts r i j) (reads : r.extent ≠ .any) : Further ts i j := by
  rcases moves.cases with moves | ⟨rests, _⟩
  · exact moves
  · exact absurd rests reads

theorem Run.safe_bind {x : Run α} {f : α → Nat → Run β} {post : β → Nat → Prop} :
    (x.bind f).Safe ts c post ↔ x.Safe ts c fun a j => (f a j).Safe ts c post := by
  induction x with
  | ends outcome =>
    match outcome with
    | .ok (a, j) => rfl
    | .error e => rfl
  | calls r i next ih => simp only [Run.bind, Run.Safe, ih]

theorem safe_bind {x : Parser α} {f : α → Parser β} {post : β → Nat → Prop} :
    Safe ts c i post (x >>= f) ↔ Safe ts c i (fun a j => Safe ts c j post (f a)) x :=
  Run.safe_bind

theorem safe_fail {pos : Position} {fault : SyntaxFault} : Safe ts c i post (fail pos fault) :=
  trivial

theorem safe_lower {s : Routine β} (lower : r.rank < s.rank) (next : ∀ a j, Moves ts r i j → post a j) :
    Safe ts ⟨s, i⟩ i post (call r) :=
  ⟨.inr ⟨rfl, lower⟩, next⟩

theorem safe_first {s : Routine β} (lower : r.rank < s.rank) (reads : r.extent ≠ .any)
    (next : ∀ a j, Further ts i j → post a j) : Safe ts ⟨s, i⟩ i post (call r) :=
  safe_lower lower fun a j moves => next a j (moves.further reads)

theorem safe_later (further : Further ts c.index j) (next : ∀ a k, Further ts c.index k → post a k) :
    Safe ts c j post (call r) :=
  ⟨.inl further, fun a k moves => next a k (further.after moves)⟩

theorem lt_size_of_seen {t : Placed} (seen : ts.lexemes[i]? = some t) : i < ts.lexemes.size :=
  (Array.getElem?_eq_some_iff.1 seen).1

theorem safe_peekAt {distance : Nat} {post : Option Lexeme × Position → Nat → Prop}
    (seen : ∀ l pos, i + distance < ts.lexemes.size → post (some l, pos) i) (ended : ∀ pos, post (none, pos) i) :
    Safe ts c i post (peekAt distance) := by
  unfold Safe peekAt
  cases found : ts.lexemes[i + distance]? with
  | none => exact ended _
  | some t => exact seen t.lexeme t.pos (lt_size_of_seen found)

theorem safe_accept {l : Lexeme} {post : Bool → Nat → Prop} (found : i < ts.lexemes.size → post true (i + 1))
    (other : post false i) : Safe ts c i post (accept l) := by
  refine safe_bind.2 (safe_peekAt ?_ ?_)
  · intro l pos inside
    dsimp only
    split
    · exact found inside
    · exact other
  · intro pos
    exact other

theorem safe_ifAccept {l : Lexeme} {x y : Parser α} (found : i < ts.lexemes.size → Safe ts c (i + 1) post x)
    (other : Safe ts c i post y) : Safe ts c i post (do if ← accept l then x else y) :=
  safe_bind.2 (safe_accept found other)

theorem safe_unexpected {want : Wanted} : Safe ts c i post (unexpected want) :=
  safe_bind.2 (safe_peekAt (fun _ _ _ => safe_fail) fun _ => safe_fail)

theorem safe_expect {p : Punct} {post : Unit → Nat → Prop} (found : i < ts.lexemes.size → post () (i + 1)) :
    Safe ts c i post (expect p) :=
  safe_ifAccept found safe_unexpected

theorem safe_closing {p : Punct} {a : α} (further : Further ts i j) :
    Safe ts c j (fun _ => Further ts i) (do expect p; return a) :=
  safe_bind.2 (safe_expect fun inside => further.next inside)

theorem safe_applyUnary {pos : Position} {op : UnOp} {x : Expr} {post : Expr → Nat → Prop} (done : ∀ e, post e i) :
    Safe ts c i post (applyUnary pos op x) := by
  unfold applyUnary
  split
  · exact done _
  · exact done _
  · exact safe_fail
  · exact safe_fail
  · exact done _

namespace Routine

theorem safe_type : Safe ts ⟨.type, i⟩ i (fun _ => Moves ts .type i) typeBody := by
  refine safe_bind.2 (safe_peekAt (fun l pos inside => ?_) fun _ => safe_unexpected)
  split
  · split
    · exact safe_bind.2 ⟨inside, rfl⟩
    · exact safe_unexpected
  · exact safe_unexpected

theorem safe_ident : Safe ts ⟨.ident, i⟩ i (fun _ => Moves ts .ident i) identBody := by
  refine safe_bind.2 (safe_peekAt (fun l pos inside => ?_) fun _ => safe_unexpected)
  split
  · split
    · exact safe_unexpected
    split
    · exact safe_fail
    · exact safe_bind.2 ⟨inside, rfl⟩
  · exact safe_unexpected

theorem safe_literal : Safe ts ⟨.literal, i⟩ i (fun _ => Moves ts .literal i) literalBody := by
  refine safe_bind.2 (safe_peekAt (fun l pos inside => ?_) fun _ => safe_unexpected)
  split
  · split
    · exact safe_bind.2 ⟨inside, rfl⟩
    · exact safe_fail
  · exact safe_bind.2 ⟨inside, rfl⟩
  · exact safe_bind.2 ⟨inside, rfl⟩
  · exact safe_unexpected

theorem safe_primary : Safe ts ⟨.primary, i⟩ i (fun _ => Moves ts .primary i) primaryBody := by
  refine safe_bind.2 (safe_peekAt (fun l pos inside => ?_) fun _ => safe_unexpected)
  split
  · exact safe_bind.2 (safe_first (by decide) nofun fun _ _ further => further)
  · exact safe_bind.2 (safe_first (by decide) nofun fun _ _ further => further)
  · exact safe_bind.2 (safe_first (by decide) nofun fun _ _ further => further)
  · refine safe_bind.2 (safe_first (by decide) nofun fun name j named => ?_)
    refine safe_ifAccept (fun inside => ?_) named
    exact safe_bind.2 (safe_later (named.next inside) fun _ _ further => further)
  · exact safe_first (by decide) nofun fun _ _ further => further
  · exact safe_unexpected

theorem safe_arguments (before : List Expr) :
    Safe ts ⟨.arguments before, i⟩ i (fun _ => Moves ts (.arguments before) i) (argumentsBody before) := by
  refine safe_ifAccept (fun inside => further_next inside) ?_
  have again : ∀ (x : Expr) {j}, Further ts i j →
      Safe ts ⟨.arguments before, i⟩ j (fun _ => Moves ts (.arguments before) i) (call (.arguments (before ++ [x]))) :=
    fun _ _ further => safe_later further fun _ _ further => further
  refine safe_bind.2 ?_
  unfold separator
  split
  · exact safe_bind.2 (safe_first (Nat.lt_succ_self 15) nofun fun x j further => again x further)
  · refine safe_expect fun inside => ?_
    exact safe_bind.2 (safe_later (further_next inside) fun x j further => again x further)

theorem safe_postfixed : Safe ts ⟨.postfixed, i⟩ i (fun _ => Moves ts .postfixed i) postfixedBody :=
  safe_bind.2 (safe_first (by decide) nofun fun x j further => safe_later further fun _ _ further => further)

theorem safe_counters (operand : Expr) :
    Safe ts ⟨.counters operand, i⟩ i (fun _ => Moves ts (.counters operand) i) (countersBody operand) := by
  have rests : Moves ts (.counters operand) i i := .inr rfl
  refine safe_bind.2 (safe_peekAt (fun l pos inside => ?_) fun _ => rests)
  split
  · split
    · refine safe_bind.2 (safe_applyUnary fun x => safe_bind.2 ?_)
      exact safe_later (further_next inside) fun _ _ further => .inl further
    · exact rests
  · exact rests

theorem safe_unary : Safe ts ⟨.unary, i⟩ i (fun _ => Moves ts .unary i) unaryBody := by
  have counted : Safe ts ⟨.unary, i⟩ i (fun _ => Moves ts .unary i) (call .postfixed) :=
    safe_first (by decide) nofun fun _ _ further => further
  refine safe_bind.2 (safe_peekAt (fun l pos inside => ?_) fun _ => counted)
  split
  · split
    · refine safe_bind.2 (safe_bind.2 (safe_later (further_next inside) fun x j further => ?_))
      exact safe_applyUnary fun e => further
    · exact counted
  · exact counted

theorem safe_binary (level : Fin 11) :
    Safe ts ⟨.binary level, i⟩ i (fun _ => Moves ts (.binary level) i) (binaryBody level) := by
  unfold binaryBody
  split
  · refine safe_bind.2 (safe_first (by simp only [rank]; omega) nofun fun x j further => ?_)
    exact safe_later further fun _ _ further => further
  · exact safe_first (by simp only [rank]; omega) nofun fun _ _ further => further

theorem safe_operators (level : Fin 10) (left : Expr) :
    Safe ts ⟨.operators level left, i⟩ i (fun _ => Moves ts (.operators level left) i) (operatorsBody level left) := by
  have rests : Moves ts (.operators level left) i i := .inr rfl
  refine safe_bind.2 (safe_peekAt (fun l pos inside => ?_) fun _ => rests)
  split
  · split
    · split
      · refine safe_bind.2 (safe_bind.2 (safe_later (further_next inside) fun right j further => ?_))
        exact safe_later further fun _ _ further => .inl further
      · exact rests
    · exact rests
  · exact rests

theorem safe_condition : Safe ts ⟨.condition, i⟩ i (fun _ => Moves ts .condition i) conditionBody :=
  safe_bind.2 (safe_expect fun inside => safe_bind.2 (safe_later (further_next inside) fun _ _ further =>
    safe_closing further))

theorem safe_exprStmt : Safe ts ⟨.exprStmt, i⟩ i (fun _ => Moves ts .exprStmt i) exprStmtBody := by
  have phrase : ∀ pos, Safe ts ⟨.exprStmt, i⟩ i (fun _ => Moves ts .exprStmt i) (do
      let x ← call .expr
      expect .semicolon
      return [Stmt.exprStmt pos x]) :=
    fun pos => safe_bind.2 (safe_first (by decide) nofun fun x j further => safe_closing further)
  exact safe_bind.2 (safe_peekAt (fun l pos inside => phrase pos) phrase)

section

variable {c : Call} (pos : Position) (further : Further ts c.index j)

include further

theorem safe_declaration (ty : Ty) : Safe ts c j (fun _ => Moves ts .stmt c.index) (declarationBody pos ty) := by
  refine safe_bind.2 (safe_later further fun name k named => ?_)
  split
  · exact safe_fail
  · refine safe_ifAccept (fun inside => ?_) ?_
    · exact safe_bind.2 (safe_later (named.next inside) fun init l given => safe_closing given)
    · split
      · exact safe_fail
      · exact safe_closing named

theorem safe_if : Safe ts c j (fun _ => Moves ts .stmt c.index) (ifBody pos) := by
  refine safe_bind.2 (safe_later further fun check k checked => ?_)
  refine safe_bind.2 (safe_later checked fun body l read => ?_)
  refine safe_ifAccept (fun inside => ?_) read
  exact safe_bind.2 (safe_later (read.next inside) fun body' m read => read)

theorem safe_while : Safe ts c j (fun _ => Moves ts .stmt c.index) (whileBody pos) := by
  refine safe_bind.2 (safe_later further fun check k checked => ?_)
  exact safe_bind.2 (safe_later checked fun _ _ read => read)

theorem safe_return : Safe ts c j (fun _ => Moves ts .stmt c.index) (returnBody pos) := by
  refine safe_ifAccept (fun inside => further.next inside) ?_
  exact safe_bind.2 (safe_later further fun x k given => safe_closing given)

end

theorem safe_named (pos : Position) : Safe ts ⟨.stmt, i⟩ i (fun _ => Moves ts .stmt i) (namedBody pos) := by
  have plain : Safe ts ⟨.stmt, i⟩ i (fun _ => Moves ts .stmt i) (call .exprStmt) :=
    safe_first (by decide) nofun fun _ _ further => further
  refine safe_bind.2 (safe_peekAt (fun l place inside => ?_) fun _ => plain)
  dsimp only
  split
  · refine safe_bind.2 (safe_lower (by decide) fun name j moves => ?_)
    obtain ⟨_, rfl⟩ := moves
    refine safe_bind.2 (safe_bind.2 (safe_later ⟨Nat.lt_succ_of_lt (Nat.lt_succ_self i), inside⟩ fun x k read => ?_))
    exact safe_closing read
  · exact plain

theorem safe_stmt : Safe ts ⟨.stmt, i⟩ i (fun _ => Moves ts .stmt i) stmtBody := by
  have plain : Safe ts ⟨.stmt, i⟩ i (fun _ => Moves ts .stmt i) (call .exprStmt) :=
    safe_first (by decide) nofun fun _ _ further => further
  refine safe_bind.2 (safe_peekAt (fun l _ inside => ?_) fun _ => plain)
  have further := further_next inside
  split
  · exact safe_first (by decide) nofun fun _ _ further => further
  · exact safe_bind.2 further
  · split
    · exact safe_bind.2 (safe_declaration _ further _)
    split
    · exact safe_bind.2 (safe_if _ further)
    split
    · exact safe_bind.2 (safe_while _ further)
    split
    · exact safe_bind.2 (safe_closing further)
    split
    · exact safe_bind.2 (safe_closing further)
    split
    · exact safe_bind.2 (safe_return _ further)
    · exact safe_named _
  · exact plain

theorem safe_stmts (before : List Stmt) :
    Safe ts ⟨.stmts before, i⟩ i (fun _ => Moves ts (.stmts before) i) (stmtsBody before) := by
  refine safe_ifAccept (fun inside => further_next inside) ?_
  refine safe_bind.2 (safe_peekAt (fun l pos inside => ?_) fun _ => safe_fail)
  refine safe_bind.2 (safe_first (Nat.lt_succ_self 17) nofun fun s j further => ?_)
  exact safe_later further fun _ _ further => further

theorem safe_block : Safe ts ⟨.block, i⟩ i (fun _ => Moves ts .block i) blockBody :=
  safe_bind.2 (safe_expect fun inside => safe_later (further_next inside) fun _ _ further => further)

theorem safe_params (before : List Param) :
    Safe ts ⟨.params before, i⟩ i (fun _ => Moves ts (.params before) i) (paramsBody before) := by
  refine safe_ifAccept (fun inside => further_next inside) ?_
  have rest : ∀ {ty j}, Further ts i j → Safe ts ⟨.params before, i⟩ j (fun _ => Moves ts (.params before) i) (do
      let name ← call .ident
      call (.params (before ++ [⟨ty, name⟩]))) :=
    fun further => safe_bind.2 (safe_later further fun name k further => safe_later further fun _ _ further => further)
  refine safe_bind.2 ?_
  unfold separator
  split
  · exact safe_bind.2 (safe_first (Nat.lt_succ_self 0) nofun fun ty j further => rest further)
  · refine safe_expect fun inside => ?_
    exact safe_bind.2 (safe_later (further_next inside) fun ty j further => rest further)

section

variable {c : Call} (pos : Position) (ty : Ty) (name : Name) (further : Further ts c.index j)

include further

theorem safe_global : Safe ts c j (fun _ => Moves ts .decl c.index) (globalBody pos ty name) := by
  unfold globalBody
  split
  · exact safe_fail
  · refine safe_ifAccept (fun inside => ?_) ?_
    · exact safe_bind.2 (safe_later (further.next inside) fun init k given => safe_closing given)
    · split
      · exact safe_fail
      · exact safe_closing further

theorem safe_function : Safe ts c j (fun _ => Moves ts .decl c.index) (functionBody pos ty name) := by
  refine safe_bind.2 (safe_later further fun ps k read => ?_)
  refine safe_ifAccept (fun inside => read.next inside) ?_
  exact safe_bind.2 (safe_later read fun _ _ read => read)

end

theorem safe_decl : Safe ts ⟨.decl, i⟩ i (fun _ => Moves ts .decl i) declBody := by
  have phrase : ∀ pos, Safe ts ⟨.decl, i⟩ i (fun _ => Moves ts .decl i) (do
      let ty ← call .type
      let name ← call .ident
      if ← accept (.punct .openParen) then functionBody pos ty name else globalBody pos ty name) := by
    intro pos
    refine safe_bind.2 (safe_first (by decide) nofun fun ty j further => ?_)
    refine safe_bind.2 (safe_later further fun name k further => ?_)
    exact safe_ifAccept (fun inside => safe_function pos ty name (further.next inside)) (safe_global pos ty name further)
  exact safe_bind.2 (safe_peekAt (fun l pos inside => phrase pos) phrase)

theorem safe_decls (before : List Decl) :
    Safe ts ⟨.decls before, i⟩ i (fun _ => Moves ts (.decls before) i) (declsBody before) := by
  refine safe_bind.2 (safe_peekAt (fun l pos inside => ?_) fun _ => .inr rfl)
  refine safe_bind.2 (safe_first (Nat.lt_succ_self 1) nofun fun d j further => ?_)
  exact safe_later further fun _ _ further => .inl further

end Routine

theorem safe_body (r : Routine α) : Safe ts ⟨r, i⟩ i (fun _ => Moves ts r i) r.body := by
  cases r with
  | type => exact Routine.safe_type
  | ident => exact Routine.safe_ident
  | literal => exact Routine.safe_literal
  | primary => exact Routine.safe_primary
  | arguments before => exact Routine.safe_arguments before
  | postfixed => exact Routine.safe_postfixed
  | counters operand => exact Routine.safe_counters operand
  | unary => exact Routine.safe_unary
  | binary level => exact Routine.safe_binary level
  | operators level left => exact Routine.safe_operators level left
  | expr => exact safe_first (Nat.lt_succ_self 14) nofun fun _ _ further => further
  | condition => exact Routine.safe_condition
  | exprStmt => exact Routine.safe_exprStmt
  | stmt => exact Routine.safe_stmt
  | stmts before => exact Routine.safe_stmts before
  | block => exact Routine.safe_block
  | params before => exact Routine.safe_params before
  | decl => exact Routine.safe_decl
  | decls before => exact Routine.safe_decls before

theorem nearer_wellFounded (ts : Tokens) : WellFounded (Nearer ts) := by
  refine Subrelation.wf (r := InvImage (Prod.Lex (· < ·) (· < ·)) fun c : Call =>
    (ts.lexemes.size - c.index, c.routine.rank)) ?_ (InvImage.wf _ (Prod.lex Nat.lt_wfRel Nat.lt_wfRel).wf)
  intro d c nearer
  rcases nearer with ⟨further, inside⟩ | ⟨same, lower⟩
  · exact .left _ _ (by omega)
  · rw [InvImage, same]
    exact .right _ lower

def Call.outcome (ts : Tokens) (c : Call) : Option (Except SyntaxError (c.result × Nat)) :=
  (c.routine.body ts c.index).outcome ts

theorem Run.Safe.ends {x : Run α} (safe : x.Safe ts c post)
    (each : ∀ d, Nearer ts d c → ∃ o, d.outcome ts = some o ∧ ∀ b j, o = .ok (b, j) → Moves ts d.routine d.index j) :
    ∃ o, x.outcome ts = some o ∧ ∀ a j, o = .ok (a, j) → post a j := by
  induction x with
  | ends outcome =>
    refine ⟨outcome, by rw [Run.outcome], ?_⟩
    rintro a j rfl
    exact safe
  | calls r i next ih =>
    obtain ⟨nearer, later⟩ := safe
    obtain ⟨o, comes, moves⟩ := each ⟨r, i⟩ nearer
    have called : (r.body ts i).outcome ts = some o := comes
    cases o with
    | error e => exact ⟨.error e, by rw [Run.outcome, called]; rfl, by simp⟩
    | ok read =>
      obtain ⟨b, j⟩ := read
      obtain ⟨o, comes, ends⟩ := ih b j (later b j (moves b j rfl))
      exact ⟨o, by rw [Run.outcome, called]; exact comes, ends⟩

theorem Call.ends (ts : Tokens) (c : Call) :
    ∃ o, c.outcome ts = some o ∧ ∀ a j, o = .ok (a, j) → Moves ts c.routine c.index j := by
  induction c using (nearer_wellFounded ts).induction with
  | _ c ih => exact (safe_body c.routine).ends ih

def program (ds : List Decl) : Program where
  globals := ds.filterMap fun
    | .global g => some g
    | .function _ => none
  functions := ds.filterMap fun
    | .function f => some f
    | .global _ => none

end MiniC.Source.Parser

namespace MiniC.Source

def lexemes (text : Bytes) : Except SyntaxError (List Placed) :=
  match Token.scan text with
  | .ok tokens => .ok (tokens.map fun t => ⟨t.lexeme, .ofOffset text t.offset⟩)
  | .error (offset, e) => .error ⟨.ofOffset text offset, .lexical e⟩

def tokens (text : Bytes) : Except SyntaxError Tokens :=
  (lexemes text).map fun ls => ⟨ls.toArray, .ofOffset text text.length⟩

def parse? (text : Bytes) : Option (Except SyntaxError Program) :=
  match tokens text with
  | .error e => some (.error e)
  | .ok ts => (Parser.Call.outcome ts ⟨.decls [], 0⟩).map fun outcome =>
    outcome.map fun (ds, _) => Parser.program ds

theorem parse?_isSome (text : Bytes) : (parse? text).isSome = true := by
  unfold parse?
  split
  · rfl
  · rename_i ts _
    obtain ⟨o, comes, _⟩ := Parser.Call.ends ts ⟨.decls [], 0⟩
    rw [Option.isSome_map, comes, Option.isSome_some]

def parse (text : Bytes) : Except SyntaxError Program :=
  (parse? text).get (parse?_isSome text)

end MiniC.Source
