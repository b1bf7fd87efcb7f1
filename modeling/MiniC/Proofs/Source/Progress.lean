import Mathlib.Logic.Relation
import MiniC.Proofs.Source.Layout

namespace MiniC.Source

/-- Something is read off the front of `before`, and `after` is what is left. -/
def Advances {α : Type} (before after : List α) : Prop :=
  ∃ count, 0 < count ∧ count ≤ before.length ∧ after = before.drop count

theorem advances_of_suffix {α : Type} {before after : List α} (suffix : after <:+ before)
    (shorter : after.length < before.length) : Advances before after :=
  ⟨before.length - after.length, by omega, by omega, List.suffix_iff_eq_drop.1 suffix⟩

namespace Token

variable {size : Nat} {input rest : Bytes} {t : Token}

theorem next_advances (found : next size input = .ok (some (t, rest))) : Advances input rest := by
  obtain ⟨c, text, l, skipped, read, _⟩ := next_eq_some.1 found
  obtain ⟨_, gap, _, rfl, _⟩ := exists_trivia skipped
  obtain ⟨spelling, same, _⟩ := Lexeme.exists_spelling read
  exact advances_of_suffix ⟨gap ++ spelling, by rw [List.append_assoc, ← same]⟩ (next_shorter found)

/-- A token stands at the start of `input`, and `rest` follows it. -/
def Precedes (size : Nat) (input rest : Bytes) : Prop :=
  ∃ t, next size input = .ok (some (t, rest))

theorem exists_last (size : Nat) (input : Bytes) : ∃ last, Relation.ReflTransGen (Precedes size) input last ∧
    ((next size last = .ok none ∧ ∃ tokens, scanFrom size input = .ok tokens) ∨
      ∃ e, next size last = .error e ∧ scanFrom size input = .error e) := by
  rw [scanFrom]
  split
  · rename_i e failed
    exact ⟨input, .refl, .inr ⟨e, failed, rfl⟩⟩
  · rename_i ended
    exact ⟨input, .refl, .inl ⟨ended, [], rfl⟩⟩
  · rename_i t rest found
    have shorter := next_shorter found
    obtain ⟨last, goes, ends⟩ := exists_last size rest
    refine ⟨last, .head ⟨t, found⟩ goes, ?_⟩
    rcases ends with ⟨ended, tokens, scanned⟩ | ⟨e, failed, scanned⟩
    · exact .inl ⟨ended, t :: tokens, by rw [scanned]; rfl⟩
    · exact .inr ⟨e, failed, by rw [scanned]; rfl⟩
termination_by input.length

end Token

namespace Parser

/-- The calls that a run makes, up to the one that fails if there is such a one. -/
inductive Run.Makes (ts : Tokens) {α : Type} : Run α → Call → Prop
  | here {β : Type} (r : Routine β) (i : Nat) (next : β → Nat → Run α) : Makes ts (.calls r i next) ⟨r, i⟩
  | later {β : Type} {r : Routine β} {i j : Nat} {b : β} {next : β → Nat → Run α} {d : Call}
    (returned : Call.outcome ts ⟨r, i⟩ = some (.ok (b, j))) (makes : Makes ts (next b j) d) : Makes ts (.calls r i next) d

def Makes (ts : Tokens) (c d : Call) : Prop :=
  (c.routine.body ts c.index).Makes ts d

inductive SameLoop : Call → Call → Prop
  | params (before before' : List Param) (i j : Nat) : SameLoop ⟨.params before, i⟩ ⟨.params before', j⟩
  | arguments (before before' : List Expr) (i j : Nat) : SameLoop ⟨.arguments before, i⟩ ⟨.arguments before', j⟩
  | stmts (before before' : List Stmt) (i j : Nat) : SameLoop ⟨.stmts before, i⟩ ⟨.stmts before', j⟩
  | operators (level : Fin 10) (left left' : Expr) (i j : Nat) :
    SameLoop ⟨.operators level left, i⟩ ⟨.operators level left', j⟩
  | counters (operand operand' : Expr) (i j : Nat) : SameLoop ⟨.counters operand, i⟩ ⟨.counters operand', j⟩
  | decls (before before' : List Decl) (i j : Nat) : SameLoop ⟨.decls before, i⟩ ⟨.decls before', j⟩

variable {ts : Tokens} {c d : Call}

theorem SameLoop.rank_eq (same : SameLoop c d) : d.routine.rank = c.routine.rank := by
  cases same <;> rfl

theorem Run.Safe.nearer {α : Type} {x : Run α} {post : α → Nat → Prop} (safe : x.Safe ts c post) (makes : x.Makes ts d) :
    Nearer ts d c := by
  induction makes with
  | here r i next => exact safe.1
  | later returned _ ih =>
    obtain ⟨outcome, ends, moves⟩ := Call.ends ts ⟨_, _⟩
    cases ends.symm.trans returned
    exact ih (safe.2 _ _ (moves _ _ rfl))

theorem Makes.nearer (makes : Makes ts c d) : Nearer ts d c :=
  Run.Safe.nearer (safe_body c.routine) makes

/-- Reading ends. The scanner moves forward from token to token up to where there is none or no right one, and parsing
comes to a program or an error. Every call of the parser comes to an end. If it succeeds it has read something, and
nothing behind the end of the file, unless it is a loop that ends where it is. Every further turn of a loop stands
further on, and there is no endless chain of calls. -/
theorem reading_ends :
    (∀ size input t rest, Token.next size input = .ok (some (t, rest)) → Advances input rest) ∧
      (∀ text, ∃ last, Relation.ReflTransGen (Token.Precedes text.length) text last ∧
        ((Token.next text.length last = .ok none ∧ ∃ tokens, Token.scan text = .ok tokens) ∨
          ∃ e, Token.next text.length last = .error e ∧ Token.scan text = .error e)) ∧
      (∀ text, ∃ outcome, parse? text = some outcome) ∧
      ∀ ts : Tokens,
        (∀ c : Call, ∃ outcome, c.outcome ts = some outcome ∧
          ∀ a j, outcome = .ok (a, j) → Further ts c.index j ∨ (c.routine.extent = .any ∧ j = c.index)) ∧
        (∀ c d, Makes ts c d → SameLoop c d → Further ts c.index d.index) ∧
        WellFounded fun d c => Makes ts c d := by
  refine ⟨fun _ _ _ _ => Token.next_advances, fun text => Token.exists_last text.length text,
    fun text => Option.isSome_iff_exists.1 (parse?_isSome text), fun ts => ⟨fun c => ?_, fun c d makes same => ?_, ?_⟩⟩
  · obtain ⟨outcome, ends, moves⟩ := c.ends ts
    exact ⟨outcome, ends, fun a j returned => (moves a j returned).cases⟩
  · exact makes.nearer.resolve_right fun ⟨_, lower⟩ => absurd same.rank_eq (Nat.ne_of_lt lower)
  · exact Subrelation.wf (fun makes => Makes.nearer makes) (nearer_wellFounded ts)

end Parser

end MiniC.Source
