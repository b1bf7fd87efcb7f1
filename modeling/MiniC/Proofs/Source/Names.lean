import MiniC.Proofs.Source.WellFormed

namespace MiniC.Source

mutual

def Expr.names : Expr → List Name
  | .missing | .literal _ => []
  | .var _ name => [name]
  | .call _ callee args => callee :: Expr.allNames args
  | .unary _ _ operand => operand.names
  | .binary _ _ left right => left.names ++ right.names

def Expr.allNames : List Expr → List Name
  | [] => []
  | e :: es => e.names ++ Expr.allNames es

end

mutual

def Stmt.names : Stmt → List Name
  | .missing | .breakStmt _ | .continueStmt _ => []
  | .assign _ target value => target :: value.names
  | .declare _ _ name init => name :: init.names
  | .returnStmt _ value | .exprStmt _ value => value.names
  | .whileStmt _ check body => check.names ++ Stmt.allNames body
  | .ifStmt _ check thenBody elseBody => check.names ++ Stmt.allNames thenBody ++ Stmt.allNames elseBody

def Stmt.allNames : List Stmt → List Name
  | [] => []
  | s :: ss => s.names ++ Stmt.allNames ss

end

def Function.names (f : Function) : List Name :=
  f.name :: f.params.map (·.name) ++ Stmt.allNames f.body

def Program.names (x : Program) : List Name :=
  x.globals.map (·.name) ++ x.functions.flatMap Function.names

mutual

theorem Expr.isUserName_of_names : ∀ {e : Expr}, e.WellFormed → ∀ x ∈ e.names, IsUserName x
  | .missing, _, _, member | .literal _, _, _, member => nomatch member
  | .var _ _, wellFormed, _, member => List.mem_singleton.1 member ▸ wellFormed
  | .call _ _ _, wellFormed, x, member =>
    List.forall_mem_cons.2 ⟨wellFormed.1, Expr.isUserName_of_allNames wellFormed.2⟩ x member
  | .unary _ _ _, wellFormed, x, member => Expr.isUserName_of_names wellFormed.2.2 x member
  | .binary _ _ _ _, wellFormed, x, member =>
    List.forall_mem_append.2 ⟨Expr.isUserName_of_names wellFormed.2.1, Expr.isUserName_of_names wellFormed.2.2⟩ x member

theorem Expr.isUserName_of_allNames : ∀ {es : List Expr}, Expr.AllWellFormed es → ∀ x ∈ Expr.allNames es, IsUserName x
  | [], _, _, member => nomatch member
  | _ :: _, wellFormed, x, member =>
    List.forall_mem_append.2 ⟨Expr.isUserName_of_names wellFormed.1, Expr.isUserName_of_allNames wellFormed.2⟩ x member

end

mutual

theorem Stmt.isUserName_of_names : ∀ {s : Stmt}, s.WellFormed → ∀ x ∈ s.names, IsUserName x
  | .missing, _, _, member | .breakStmt _, _, _, member | .continueStmt _, _, _, member => nomatch member
  | .assign _ _ _, wellFormed, x, member =>
    List.forall_mem_cons.2 ⟨wellFormed.1, Expr.isUserName_of_names wellFormed.2⟩ x member
  | .declare _ _ _ _, ⟨_, _, isName, init⟩, x, member => by
    rcases List.mem_cons.1 member with rfl | member
    · exact isName
    · rcases init with ⟨rfl, _⟩ | init
      · cases member
      · exact Expr.isUserName_of_names init x member
  | .returnStmt _ _, wellFormed, x, member => by
    rcases wellFormed with rfl | wellFormed
    · cases member
    · exact Expr.isUserName_of_names wellFormed x member
  | .exprStmt _ _, wellFormed, x, member => Expr.isUserName_of_names wellFormed x member
  | .whileStmt _ _ _, wellFormed, x, member =>
    List.forall_mem_append.2 ⟨Expr.isUserName_of_names wellFormed.1, Stmt.isUserName_of_allNames wellFormed.2⟩ x member
  | .ifStmt _ _ _ _, wellFormed, x, member =>
    List.forall_mem_append.2 ⟨List.forall_mem_append.2 ⟨Expr.isUserName_of_names wellFormed.1,
      Stmt.isUserName_of_allNames wellFormed.2.1⟩, Stmt.isUserName_of_allNames wellFormed.2.2⟩ x member

theorem Stmt.isUserName_of_allNames : ∀ {ss : List Stmt}, Stmt.AllWellFormed ss → ∀ x ∈ Stmt.allNames ss, IsUserName x
  | [], _, _, member => nomatch member
  | _ :: _, wellFormed, x, member =>
    List.forall_mem_append.2 ⟨Stmt.isUserName_of_names wellFormed.1, Stmt.isUserName_of_allNames wellFormed.2⟩ x member

end

theorem Program.isUserName_of_names {x : Program} (wellFormed : x.WellFormed) : ∀ y ∈ x.names, IsUserName y := by
  intro y member
  rcases List.mem_append.1 member with isGlobal | inFunction
  · obtain ⟨g, inside, rfl⟩ := List.mem_map.1 isGlobal
    exact (wellFormed.globals g inside).name
  · obtain ⟨f, inside, member⟩ := List.mem_flatMap.1 inFunction
    have good := wellFormed.functions f inside
    rcases List.mem_append.1 member with declared | inBody
    · rcases List.mem_cons.1 declared with rfl | isParam
      · exact good.name
      · obtain ⟨p, inParams, rfl⟩ := List.mem_map.1 isParam
        exact (good.params p inParams).2
    · exact Stmt.isUserName_of_allNames good.body y inBody

end MiniC.Source
