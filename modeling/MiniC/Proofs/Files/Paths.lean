import Mathlib.Data.List.Basic
import MiniC.Files.Path

namespace MiniC.Path

variable {name : Bytes}

theorem split_append (separator : UInt8) (text rest : Bytes) :
    split separator (text ++ separator :: rest) = split separator text ++ split separator rest := by
  induction text with
  | nil => simp [split]
  | cons c text ih =>
    rw [List.cons_append, split, split, ih]
    split
    · rfl
    · cases found : split separator text with
      | nil => exact absurd found (split_ne_nil separator text)
      | cons part parts => rfl

theorem split_of_not_mem {separator : UInt8} {text : Bytes} (none : separator ∉ text) :
    split separator text = [text] := by
  induction text with
  | nil => rfl
  | cons c text ih =>
    rw [List.mem_cons, not_or] at none
    rw [split, if_neg (Ne.symm none.1), ih none.2]

theorem not_mem_of_mem_split {separator : UInt8} {text part : Bytes} (member : part ∈ split separator text) :
    separator ∉ part := by
  induction text generalizing part with
  | nil =>
    cases List.mem_singleton.1 member
    exact List.not_mem_nil
  | cons c text ih =>
    rw [split] at member
    split at member
    · rcases List.mem_cons.1 member with rfl | later
      · exact List.not_mem_nil
      · exact ih later
    · rename_i other
      cases found : split separator text with
      | nil => exact absurd found (split_ne_nil separator text)
      | cons first parts =>
        rw [found] at member ih
        rcases List.mem_cons.1 member with rfl | later
        · rw [List.mem_cons, not_or]
          exact ⟨Ne.symm other, ih List.mem_cons_self⟩
        · exact ih (List.mem_cons_of_mem _ later)

theorem exists_mem_split {separator c : UInt8} {text : Bytes} (member : c ∈ text) (other : c ≠ separator) :
    ∃ part ∈ split separator text, c ∈ part := by
  induction text with
  | nil => cases member
  | cons first text ih =>
    rw [split]
    split
    · rename_i same
      have later : c ∈ text := (List.mem_cons.1 member).resolve_left fun is => other (is.trans same)
      obtain ⟨part, inside, found⟩ := ih later
      exact ⟨part, List.mem_cons_of_mem _ inside, found⟩
    · cases parts : split separator text with
      | nil => exact absurd parts (split_ne_nil separator text)
      | cons head rest =>
        rcases List.mem_cons.1 member with rfl | later
        · exact ⟨_, List.mem_cons_self, List.mem_cons_self⟩
        · obtain ⟨part, inside, found⟩ := ih later
          rw [parts] at inside
          rcases List.mem_cons.1 inside with rfl | inRest
          · exact ⟨_, List.mem_cons_self, List.mem_cons_of_mem _ found⟩
          · exact ⟨part, List.mem_cons_of_mem _ inRest, found⟩

/-- A name that can stand between slashes. -/
def IsName (name : Bytes) : Prop :=
  name ≠ [] ∧ slash ∉ name

theorem isName_of_mem_names {path : Bytes} (member : name ∈ names path) : IsName name := by
  obtain ⟨inside, kept⟩ := List.mem_filter.1 member
  exact ⟨by simpa using kept, not_mem_of_mem_split inside⟩

theorem names_ne_nil {path : Bytes} (given : path ≠ []) (plain : path.getLast? ≠ some slash) : names path ≠ [] := by
  obtain ⟨c, isLast⟩ := Option.ne_none_iff_exists'.1 (mt List.getLast?_eq_none_iff.1 given)
  have other : c ≠ slash := fun same => plain (same ▸ isLast)
  obtain ⟨part, inside, found⟩ := exists_mem_split (List.mem_of_getLast? isLast) other
  refine List.ne_nil_of_mem (List.mem_filter.2 ⟨inside, ?_⟩)
  simpa using List.ne_nil_of_mem found

theorem names_append (path rest : Bytes) : names (path ++ slash :: rest) = names path ++ names rest := by
  rw [names, split_append, List.filter_append, names, names]

@[simp] theorem names_slash (path : Bytes) : names (slash :: path) = names path :=
  names_append [] path

theorem names_of_isName (isName : IsName name) : names name = [name] := by
  rw [names, split_of_not_mem isName.2, List.filter_cons_of_pos (by simpa using isName.1), List.filter_nil]

theorem names_intercalate {xs : List Bytes} (named : ∀ x ∈ xs, IsName x) : names (List.intercalate [slash] xs) = xs := by
  match xs with
  | [] => rfl
  | [x] =>
    rw [List.intercalate_singleton]
    exact names_of_isName (named x List.mem_cons_self)
  | x :: y :: ys =>
    obtain ⟨here, there⟩ := List.forall_mem_cons.1 named
    rw [List.intercalate_cons_cons, List.append_assoc, List.singleton_append, names_append, names_of_isName here,
      names_intercalate there, List.singleton_append]

def shortest (path : Bytes) : List Bytes :=
  (names path).foldl (step (isAbsolute path)) []

theorem forall_step {P : Bytes → Prop} {absolute : Bool} {done : List Bytes} (known : ∀ x ∈ done, P x)
    (one : name ≠ [dot] → P name) : ∀ x ∈ step absolute done name, P x := by
  rw [step]
  split
  · exact known
  · rename_i other
    have added : ∀ x ∈ done ++ [name], P x := List.forall_mem_append.2 ⟨known, List.forall_mem_singleton.2 (one other)⟩
    split
    · exact added
    · split
      · split
        · exact List.forall_mem_nil _
        · exact List.forall_mem_singleton.2 (one other)
      · split
        · exact added
        · exact fun x member => known x (List.dropLast_subset done member)

theorem forall_foldl_step {P : Bytes → Prop} {absolute : Bool} {done names : List Bytes} (known : ∀ x ∈ done, P x)
    (each : ∀ x ∈ names, x ≠ [dot] → P x) : ∀ x ∈ names.foldl (step absolute) done, P x := by
  induction names generalizing done with
  | nil => exact known
  | cons name names ih =>
    obtain ⟨here, there⟩ := List.forall_mem_cons.1 each
    exact ih (forall_step known here) there

theorem isName_of_mem_shortest {path : Bytes} (member : name ∈ shortest path) : IsName name :=
  forall_foldl_step (List.forall_mem_nil _) (fun _ inside _ => isName_of_mem_names inside) name member

structure IsEntry (name : Bytes) : Prop where
  isName : IsName name
  noPoint : name ≠ [dot]
  noPoints : name ≠ [dot, dot]

variable {dir name : Bytes}

theorem isAbsolute_append (given : dir ≠ []) (rest : Bytes) : isAbsolute (dir ++ rest) = isAbsolute dir := by
  rw [isAbsolute, isAbsolute, List.head?_append_of_ne_nil _ given]

theorem isAbsolute_of_isName (isName : IsName name) : isAbsolute name = false := by
  cases name with
  | nil => rfl
  | cons c name =>
    have other : c ≠ slash := fun same => isName.2 (same ▸ List.mem_cons_self)
    simpa [isAbsolute] using other

theorem isAbsolute_intercalate {xs : List Bytes} (named : ∀ x ∈ xs, IsName x) :
    isAbsolute (List.intercalate [slash] xs) = false := by
  match xs with
  | [] => rfl
  | [x] =>
    rw [List.intercalate_singleton]
    exact isAbsolute_of_isName (named x List.mem_cons_self)
  | x :: y :: ys =>
    have first := named x List.mem_cons_self
    rw [List.intercalate_cons_cons, List.append_assoc, isAbsolute_append first.1, isAbsolute_of_isName first]

theorem exists_intercalate (xs : List Bytes) (name : Bytes) :
    ∃ before, List.intercalate [slash] (xs ++ [name]) = before ++ name := by
  match xs with
  | [] => exact ⟨[], List.intercalate_singleton ..⟩
  | [x] => exact ⟨x ++ [slash], by simp [List.intercalate_cons_cons]⟩
  | x :: y :: ys =>
    obtain ⟨before, rest⟩ := exists_intercalate (y :: ys) name
    rw [List.cons_append] at rest
    refine ⟨x ++ [slash] ++ before, ?_⟩
    rw [List.cons_append, List.cons_append, List.intercalate_cons_cons, rest, ← List.append_assoc]

theorem join_eq (given : dir ≠ []) (entry : IsEntry name) :
    join dir name = (if isAbsolute dir then [slash] else []) ++ List.intercalate [slash] (shortest dir ++ [name]) := by
  have short : (names (dir ++ slash :: name)).foldl (step (isAbsolute dir)) [] = shortest dir ++ [name] := by
    rw [names_append, names_of_isName entry.isName, List.foldl_append, List.foldl_cons, List.foldl_nil, ← shortest, step,
      if_neg entry.noPoint, if_pos entry.noPoints]
  have long : (List.intercalate [slash] (shortest dir ++ [name])).isEmpty = false := by
    obtain ⟨before, ends⟩ := exists_intercalate (shortest dir) name
    rw [ends, List.isEmpty_eq_false_iff]
    exact List.append_ne_nil_of_right_ne_nil _ entry.isName.1
  rw [join, if_neg (by simp [given]), if_neg (by simpa using given), clean, isAbsolute_append given, short]
  cases isAbsolute dir
  · rw [if_neg Bool.false_ne_true, long]
    rfl
  · rfl

structure Enters (dir name path : Bytes) : Prop where
  names : names path = shortest dir ++ [name]
  start : isAbsolute path = isAbsolute dir
  given : path ≠ []
  plain : path.getLast? ≠ some slash

theorem enters_join (given : dir ≠ []) (entry : IsEntry name) : Enters dir name (join dir name) := by
  have named : ∀ x ∈ shortest dir ++ [name], IsName x :=
    List.forall_mem_append.2 ⟨fun _ => isName_of_mem_shortest, List.forall_mem_singleton.2 entry.isName⟩
  obtain ⟨before, ends⟩ := exists_intercalate (shortest dir) name
  have last : ∀ text : Bytes, (text ++ name).getLast? ≠ some slash := by
    intro text isLast
    rw [List.getLast?_append_of_ne_nil _ entry.isName.1] at isLast
    exact entry.isName.2 (List.mem_of_getLast? isLast)
  rw [join_eq given entry]
  refine ⟨?_, ?_, ?_, ?_⟩
  · cases isAbsolute dir
    · exact names_intercalate named
    · exact (names_slash _).trans (names_intercalate named)
  · cases isAbsolute dir
    · exact isAbsolute_intercalate named
    · rfl
  · rw [ends, ← List.append_assoc]
    exact List.append_ne_nil_of_right_ne_nil _ entry.isName.1
  · rw [ends, ← List.append_assoc]
    exact last _

end MiniC.Path
