namespace MiniC.Storage

/-- A priority queue over `less`. It holds what was pushed and has not been popped, and what is popped is least in it. -/
structure Queue (α : Type) (less : α → α → Bool) where
  State : Type
  empty : State
  push : State → α → State
  length : State → Nat
  pop? : State → Option (α × State)
  content : State → List α
  content_empty : content empty = []
  perm_push : ∀ s a, (content (push s a)).Perm (a :: content s)
  length_eq : ∀ s, length s = (content s).length
  content_of_none : ∀ {s}, pop? s = none → content s = []
  perm_pop : ∀ {s a rest}, pop? s = some (a, rest) → (content s).Perm (a :: content rest)
  least : ∀ {s a rest}, pop? s = some (a, rest) → ∀ b ∈ content s, less b a = false

namespace Queue

variable {α : Type} {less : α → α → Bool} (queue : Queue α less)

def drain : Nat → queue.State → List α
  | 0, _ => []
  | n + 1, s =>
    match queue.pop? s with
    | none => []
    | some (a, rest) => a :: drain n rest

/-- What comes out of a queue that is filled first and then popped until it is empty. -/
def sort (as : List α) : List α :=
  let s := as.foldl queue.push queue.empty
  queue.drain (queue.length s) s

theorem perm_foldl_push (as : List α) (s : queue.State) :
    (queue.content (as.foldl queue.push s)).Perm (as ++ queue.content s) := by
  induction as generalizing s with
  | nil => exact .refl _
  | cons a as ih => exact (ih (queue.push s a)).trans (((queue.perm_push s a).append_left as).trans List.perm_middle)

theorem perm_drain {n : Nat} {s : queue.State} (enough : n = (queue.content s).length) :
    (queue.drain n s).Perm (queue.content s) := by
  induction n generalizing s with
  | zero => rw [List.length_eq_zero_iff.1 enough.symm, drain]
  | succ n ih =>
    rw [drain]
    cases popped : queue.pop? s with
    | none => rw [queue.content_of_none popped]
    | some found =>
      have perm := queue.perm_pop popped
      have enough : n = (queue.content found.2).length := by
        rw [perm.length_eq, List.length_cons] at enough
        omega
      exact ((ih enough).cons found.1).trans perm.symm

theorem perm_sort (as : List α) : (queue.sort as).Perm as := by
  have pushed := queue.perm_foldl_push as queue.empty
  rw [queue.content_empty, List.append_nil] at pushed
  exact (queue.perm_drain (queue.length_eq _)).trans pushed

end Queue

section

variable {α : Type} (less : α → α → Bool)

/-- A least one of `a` and `as`, and the others. -/
def takeLeast (a : α) : List α → α × List α
  | [] => (a, [])
  | b :: bs =>
    if less b a then
      let (m, rest) := takeLeast b bs
      (m, a :: rest)
    else
      let (m, rest) := takeLeast a bs
      (m, b :: rest)

variable {less}

theorem perm_takeLeast (a : α) (as : List α) :
    (a :: as).Perm ((takeLeast less a as).1 :: (takeLeast less a as).2) := by
  induction as generalizing a with
  | nil => exact .refl _
  | cons b bs ih =>
    rw [takeLeast]
    split
    · exact ((ih b).cons a).trans (.swap ..)
    · exact (List.Perm.swap ..).trans (((ih a).cons b).trans (.swap ..))

theorem takeLeast_least (asymm : ∀ a b, less a b = true → less b a = false)
    (trans : ∀ a b c, less a b = false → less b c = false → less a c = false) (a : α) (as : List α) :
    ∀ b ∈ a :: as, less b (takeLeast less a as).1 = false := by
  induction as generalizing a with
  | nil =>
    intro b there
    obtain rfl := List.mem_singleton.1 there
    cases same : less b b with
    | false => exact same
    | true => exact asymm b b same
  | cons b bs ih =>
    rw [takeLeast]
    split
    · rename_i below
      intro c there
      rcases List.mem_cons.1 there with rfl | later
      · exact trans c b _ (asymm b c below) (ih b b List.mem_cons_self)
      · exact ih b c later
    · rename_i notBelow
      intro c there
      have here := ih a a List.mem_cons_self
      rcases List.mem_cons.1 there with rfl | later
      · exact here
      rcases List.mem_cons.1 later with rfl | later
      · exact trans c a _ (Bool.eq_false_iff.2 notBelow) here
      · exact ih a c (List.mem_cons_of_mem _ later)

/-- A queue that looks for a least element when it is popped. -/
def Queue.scanning (asymm : ∀ a b, less a b = true → less b a = false)
    (trans : ∀ a b c, less a b = false → less b c = false → less a c = false) : Queue α less where
  State := List α
  empty := []
  push s a := a :: s
  length := List.length
  pop?
    | [] => none
    | a :: as => some (takeLeast less a as)
  content := id
  content_empty := rfl
  perm_push _ _ := .refl _
  length_eq _ := rfl
  content_of_none := by
    intro s none
    cases s with
    | nil => rfl
    | cons => cases none
  perm_pop := by
    intro s a rest popped
    cases s with
    | nil => cases popped
    | cons b bs =>
      have perm : (b :: bs).Perm ((takeLeast less b bs).1 :: (takeLeast less b bs).2) := perm_takeLeast b bs
      rw [Option.some.inj popped] at perm
      exact perm
  least := by
    intro s a rest popped
    cases s with
    | nil => cases popped
    | cons b bs =>
      have least := takeLeast_least asymm trans b bs
      rw [Option.some.inj popped] at least
      exact least

end

end MiniC.Storage
