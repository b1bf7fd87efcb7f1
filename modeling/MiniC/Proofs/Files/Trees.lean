import MiniC.Files.Tree
import MiniC.Proofs.Faults
import MiniC.Proofs.Files.Paths

namespace MiniC

variable {name : Bytes} {reached : List Bytes}

namespace Node

theorem lookup_setEntry (name : Bytes) (node : Node) (entries : List (Bytes × Node)) (other : Bytes) :
    (setEntry name node entries).lookup other = if other = name then some node else entries.lookup other := by
  induction entries with
  | nil =>
    rw [setEntry, List.lookup_cons, List.lookup_nil]
    split <;> simp_all
  | cons entry entries ih =>
    obtain ⟨first, old⟩ := entry
    rw [setEntry]
    split
    · rename_i same
      rw [List.lookup_cons, List.lookup_cons]
      split <;> simp_all
    · rename_i different
      rw [List.lookup_cons, List.lookup_cons, ih]
      split <;> split <;> simp_all

theorem get?_cons {entries : List (Bytes × Node)} {names : List Bytes} :
    (Node.directory entries).get? (name :: names) = (entries.lookup name).bind (·.get? names) := by
  rw [get?]
  cases entries.lookup name <;> rfl

theorem get?_eq_some_cons {node found : Node} {names : List Bytes} (leads : node.get? (name :: names) = some found) :
    ∃ entries child, node = .directory entries ∧ entries.lookup name = some child ∧ child.get? names = some found := by
  cases node with
  | directory entries =>
    rw [get?_cons] at leads
    obtain ⟨child, isChild, below⟩ := Option.bind_eq_some_iff.1 leads
    exact ⟨entries, child, rfl, isChild, below⟩
  | file | sink => cases leads

theorem get?_append (node : Node) (names more : List Bytes) :
    node.get? (names ++ more) = (node.get? names).bind (·.get? more) := by
  induction names generalizing node with
  | nil => rfl
  | cons name names ih =>
    cases node with
    | directory entries =>
      rw [List.cons_append, get?_cons, get?_cons, Option.bind_assoc]
      exact Option.bind_congr fun child _ => ih child
    | file | sink => rfl

variable {root node : Node} {place : List Bytes} {entries : List (Bytes × Node)} {name : Bytes}

theorem get?_set_parent (found : root.get? place = some (.directory entries)) :
    (set node (place ++ [name]) root).get? place = some (.directory (setEntry name node entries)) := by
  induction place generalizing root with
  | nil =>
    cases found
    rfl
  | cons first place ih =>
    obtain ⟨others, child, rfl, isChild, below⟩ := get?_eq_some_cons found
    rw [List.cons_append, set, get?_cons, lookup_setEntry, if_pos rfl, isChild]
    exact ih below

theorem get?_set_entry (found : root.get? place = some (.directory entries)) (other : Bytes) :
    (set node (place ++ [name]) root).get? (place ++ [other]) =
      if other = name then some node else root.get? (place ++ [other]) := by
  rw [get?_append, get?_append, get?_set_parent found, found, Option.bind_some, Option.bind_some, get?_cons, get?_cons,
    lookup_setEntry]
  split <;> rfl

def Extends (root root' : Node) : Prop :=
  ∀ place entries, root.get? place = some (.directory entries) → ∃ entries',
    root'.get? place = some (.directory entries') ∧ ∀ name, (entries.lookup name).isSome → (entries'.lookup name).isSome

theorem extends_of_plain (plain : ∀ below, root ≠ .directory below) (other : Node) : root.Extends other := by
  intro place entries leads
  cases place with
  | nil => exact absurd (Option.some.inj leads) (plain entries)
  | cons name names =>
    obtain ⟨below, _, isDirectory, _⟩ := get?_eq_some_cons leads
    exact absurd isDirectory (plain below)

theorem extends_setEntry (grows : ∀ child, entries.lookup name = some child → child.Extends node) :
    (directory entries).Extends (directory (setEntry name node entries)) := by
  intro place kept leads
  cases place with
  | nil =>
    cases leads
    refine ⟨_, rfl, fun other there => ?_⟩
    rw [lookup_setEntry]
    split
    · rfl
    · exact there
  | cons first names =>
    rw [get?_cons] at leads ⊢
    obtain ⟨child, isChild, below⟩ := Option.bind_eq_some_iff.1 leads
    rw [lookup_setEntry]
    split
    · rename_i same
      exact grows child (same ▸ isChild) names kept below
    · exact ⟨kept, leads, fun _ => id⟩

theorem extends_set (found : root.get? place = some (.directory entries))
    (free : ∀ below, root.get? (place ++ [name]) ≠ some (.directory below)) :
    root.Extends (set node (place ++ [name]) root) := by
  induction place generalizing root with
  | nil =>
    cases found
    refine extends_setEntry fun child isChild => extends_of_plain (fun below isDirectory => free below ?_) _
    rw [List.nil_append, get?_cons, isChild, isDirectory]
    rfl
  | cons first place ih =>
    obtain ⟨others, child, rfl, isChild, below⟩ := get?_eq_some_cons found
    rw [List.cons_append, set]
    refine extends_setEntry fun same isSame => ?_
    cases isChild.symm.trans isSame
    rw [isChild]
    refine ih below fun inner => ?_
    have above := free inner
    rwa [List.cons_append, get?_cons, isChild] at above

end Node

namespace FileTree

open MiniC.Path (dot slash)

variable {root root' : Node} {place names : List Bytes} {path : Bytes}

theorem walk_cons (root : Node) (place : List Bytes) (name : Bytes) (names : List Bytes) :
    walk root place (name :: names) = walk root place [name] >>= fun reached => walk root reached names := by
  rw [walk, walk]
  split
  · split_ifs <;> rfl
  · rfl
  · rfl

theorem walk_append (root : Node) (place names more : List Bytes) :
    walk root place (names ++ more) = walk root place names >>= fun reached => walk root reached more := by
  induction names generalizing place with
  | nil => rfl
  | cons name names ih =>
    rw [List.cons_append, walk_cons, walk_cons root place name names, bind_assoc]
    exact congrArg _ (funext fun reached => ih reached)

inductive Goes (entries : List (Bytes × Node)) (place : List Bytes) (name : Bytes) : List Bytes → Prop
  | stay : name = [dot] → Goes entries place name place
  | up : name = [dot, dot] → Goes entries place name place.dropLast
  | down : name ≠ [dot] → name ≠ [dot, dot] → name.length ≤ 255 → (entries.lookup name).isSome →
      Goes entries place name (place ++ [name])

theorem walk_one : walk root place [name] = .ok reached ↔
    ∃ entries, root.get? place = some (.directory entries) ∧ Goes entries place name reached := by
  constructor
  · intro leads
    rw [walk] at leads
    split at leads
    · rename_i entries found
      refine ⟨entries, found, ?_⟩
      split_ifs at leads with point points long there
      all_goals cases leads
      · exact .stay point
      · exact .up points
      · exact .down point points (not_lt.1 long) there
    · cases leads
    · cases leads
  · rintro ⟨entries, found, goes⟩
    rw [walk, found]
    have different : ([dot, dot] : Bytes) ≠ [dot] := by decide
    cases goes with
    | stay point => simp [point, walk]
    | up points => simp [points, different, walk]
    | down point points short there => simp [point, points, short, there, walk]

theorem walk_mono (grows : root.Extends root') (leads : walk root place names = .ok reached) :
    walk root' place names = .ok reached := by
  induction names generalizing place with
  | nil => exact leads
  | cons name names ih =>
    rw [walk_cons] at leads ⊢
    obtain ⟨next, first, rest⟩ := bind_eq_ok.1 leads
    obtain ⟨entries, found, goes⟩ := walk_one.1 first
    obtain ⟨entries', found', more⟩ := grows place entries found
    refine bind_eq_ok.2 ⟨next, walk_one.2 ⟨entries', found', ?_⟩, ih rest⟩
    cases goes with
    | stay point => exact .stay point
    | up points => exact .up points
    | down point points short there => exact .down point points short (more name there)

section

variable {absolute : Bool} {start done : List Bytes} (isRoot : absolute = true → start = []) (noPoint : [dot] ∉ done)
  (sofar : walk root start done = .ok place)

include isRoot noPoint sofar

theorem walk_step {next : List Bytes} (first : walk root place [name] = .ok next) :
    walk root start (Path.step absolute done name) = .ok next := by
  have different : ([dot, dot] : Bytes) ≠ [dot] := by decide
  have added : walk root start (done ++ [name]) = .ok next := by
    rw [walk_append, sofar]
    exact first
  obtain ⟨entries, found, goes⟩ := walk_one.1 first
  rw [Path.step]
  cases goes with
  | stay point => rw [if_pos point, sofar]
  | down point points => rwa [if_neg point, if_pos points]
  | up points =>
    rw [if_neg (points ▸ different), if_neg (not_not.2 points)]
    split
    · rename_i nothing
      rw [List.getLast?_eq_none_iff] at nothing
      subst nothing
      cases sofar
      split
      · rename_i isAbsolute
        rw [isRoot isAbsolute]
        rfl
      · exact first
    · rename_i last isLast
      split
      · exact added
      -- The walk came here by the last name, and goes back.
      · rename_i proper
        obtain ⟨before, rfl⟩ := List.getLast?_eq_some_iff.1 isLast
        rw [walk_append] at sofar
        obtain ⟨above, toAbove, down⟩ := bind_eq_ok.1 sofar
        obtain ⟨_, _, goes⟩ := walk_one.1 down
        rw [List.dropLast_concat]
        cases goes with
        | stay point => exact absurd (point ▸ List.mem_append_right _ List.mem_cons_self) noPoint
        | up points => exact absurd points proper
        | down => rwa [List.dropLast_concat]

theorem walk_foldl_step (rest : walk root place names = .ok reached) :
    walk root start (names.foldl (Path.step absolute) done) = .ok reached := by
  induction names generalizing place done with
  | nil =>
    cases rest
    exact sofar
  | cons name names ih =>
    rw [walk_cons] at rest
    obtain ⟨next, first, rest⟩ := bind_eq_ok.1 rest
    refine ih ?_ (walk_step isRoot noPoint sofar first) rest
    intro member
    exact Path.forall_step (P := (· ≠ [dot])) (fun x inside same => noPoint (same ▸ inside)) id _ member rfl

end

variable {t t' : FileTree}

theorem walk_of_locate (located : t.locate path = .ok place) :
    path ≠ [] ∧ walk t.root (t.place path) (steps path) = .ok place := by
  unfold locate at located
  split_ifs at located with nothing
  exact ⟨by simpa using nothing, located⟩

theorem locate_of_walk (given : path ≠ []) (text : 0 ∉ path) (short : path.length ≤ longest) :
    t.locate path = walk t.root (t.place path) (steps path) := by
  rw [locate, if_neg (by simpa using given), if_neg (by simpa using text), if_neg (not_lt.2 short)]

theorem walk_steps (leads : walk root place (steps path) = .ok reached) :
    walk root place (Path.names path) = .ok reached := by
  unfold steps at leads
  dsimp only at leads
  split at leads
  · rw [walk_append] at leads
    obtain ⟨before, first, last⟩ := bind_eq_ok.1 leads
    obtain ⟨_, _, goes⟩ := walk_one.1 last
    cases goes with
    | stay => exact first
    | up points => exact absurd points (by decide)
    | down point => exact absurd rfl point
  · exact leads

theorem walk_steps_directory (leads : walk root place (Path.names path) = .ok reached)
    {entries : List (Bytes × Node)} (found : root.get? reached = some (.directory entries)) :
    walk root place (steps path) = .ok reached := by
  unfold steps
  dsimp only
  split
  · rw [walk_append, leads]
    exact walk_one.2 ⟨entries, found, .stay rfl⟩
  · exact leads

theorem steps_of_plain (plain : path.getLast? ≠ some slash) : steps path = Path.names path :=
  if_neg plain

theorem walk_shortest (located : t.locate path = .ok place) :
    walk t.root (t.place path) (Path.shortest path) = .ok place := by
  refine walk_foldl_step (fun isAbsolute => ?_) List.not_mem_nil rfl (walk_steps (walk_of_locate located).2)
  rw [FileTree.place, if_pos isAbsolute]

theorem locate_mono (grows : t.root.Extends t'.root) (same : t'.start = t.start) (located : t.locate path = .ok place) :
    t'.locate path = .ok place := by
  unfold locate at located ⊢
  split_ifs at located ⊢
  rw [FileTree.place, same]
  exact walk_mono grows located

theorem locateNew_cases (located : t.locateNew path = .ok place) :
    ∃ above name entries, Path.names path = (Path.names path).dropLast ++ [name] ∧ path.length ≤ longest ∧
      walk t.root (t.place path) (Path.names path).dropLast = .ok above ∧
      t.root.get? above = some (.directory entries) ∧ place = above ++ [name] := by
  unfold locateNew at located
  split at located
  · cases located
  rename_i name isLast
  split at located
  · cases located
  rename_i short
  obtain ⟨above, leads, located⟩ := bind_eq_ok.1 located
  split at located
  · rename_i entries found
    cases located
    exact ⟨above, name, entries, (List.dropLast_append_getLast? name isLast).symm, not_lt.1 short, leads, found, rfl⟩
  · cases located

theorem names_ne_nil_of_read {content : Bytes} (isRead : t.read path = .ok content) :
    Path.names path ≠ [] := by
  unfold FileTree.read at isRead
  split at isRead
  · cases isRead
  rename_i place located
  obtain ⟨given, leads⟩ := walk_of_locate located
  by_cases plain : path.getLast? = some slash
  · intro nothing
    rw [steps, if_pos plain, nothing] at leads
    obtain ⟨entries, found, goes⟩ := walk_one.1 leads
    cases goes with
    | stay =>
      rw [found] at isRead
      cases isRead
    | up points => exact absurd points (by decide)
    | down point => exact absurd rfl point
  · exact Path.names_ne_nil given plain

structure Opens (t : FileTree) (dir : Bytes) (place : List Bytes) : Prop where
  located : t.locate dir = .ok place
  isDirectory : ∃ entries, t.root.get? place = some (.directory entries)

/-- A file of some name can be written to a directory: what is there under that name is a file, and the name and the path
are not too long. -/
structure Takes (t : FileTree) (dir name : Bytes) : Prop where
  short : name.length ≤ 255
  shortPath : (Path.join dir name).length ≤ longest
  text : 0 ∉ Path.join dir name
  free : ∀ place, t.locate dir = .ok place → ∀ node, t.root.get? (place ++ [name]) = some node →
    ∃ content, node = .file content

variable {dir name : Bytes}

theorem write_join (opens : t.Opens dir place) (entry : Path.IsEntry name) (takes : t.Takes dir name) (content : Bytes) :
    t.write (Path.join dir name) content = .ok (t.put (.file content) (place ++ [name])) := by
  obtain ⟨given, _⟩ := walk_of_locate opens.located
  obtain ⟨entries, found⟩ := opens.isDirectory
  have enters := Path.enters_join given entry
  have start : t.place (Path.join dir name) = t.place dir := by rw [FileTree.place, enters.start, FileTree.place]
  have leads : t.locate (Path.join dir name) = walk t.root place [name] := by
    rw [locate_of_walk enters.given takes.text takes.shortPath, steps_of_plain enters.plain, enters.names, start,
      walk_append, walk_shortest opens.located]
    rfl
  have below : t.root.get? (place ++ [name]) = entries.lookup name := by
    rw [Node.get?_append, found, Option.bind_some, Node.get?_cons]
    cases entries.lookup name <;> rfl
  cases there : entries.lookup name with
  | some node =>
    have located : t.locate (Path.join dir name) = .ok (place ++ [name]) := by
      rw [leads, walk_one]
      exact ⟨entries, found, .down entry.noPoint entry.noPoints takes.short (by rw [there]; rfl)⟩
    obtain ⟨old, rfl⟩ := takes.free place opens.located node (below.trans there)
    rw [write, located]
    dsimp only
    rw [below, there]
  | none =>
    have missing : t.locate (Path.join dir name) = .error .notFound := by
      rw [leads, walk, found]
      simp [entry.noPoint, entry.noPoints, takes.short, there]
    have new : t.locateNew (Path.join dir name) = .ok (place ++ [name]) := by
      rw [locateNew, enters.names, List.getLast?_concat]
      dsimp only
      rw [if_neg (not_lt.2 takes.shortPath), List.dropLast_concat, start, walk_shortest opens.located]
      simp only [bind, Except.bind, found]
    rw [write, missing]
    dsimp only
    rw [new]
    dsimp only
    rw [if_neg enters.plain, if_pos rfl]

section

variable (opens : t.Opens dir place)

include opens

theorem Opens.put (content : Bytes) (takes : t.Takes dir name) :
    (t.put (.file content) (place ++ [name])).Opens dir place := by
  obtain ⟨entries, found⟩ := opens.isDirectory
  refine ⟨locate_mono (Node.extends_set found fun below isDirectory => ?_) rfl opens.located, _,
    Node.get?_set_parent found⟩
  obtain ⟨_, isFile⟩ := takes.free place opens.located _ isDirectory
  cases isFile

theorem Opens.get?_put (node : Node) (name other : Bytes) : (t.put node (place ++ [name])).root.get? (place ++ [other]) =
    if other = name then some node else t.root.get? (place ++ [other]) := by
  obtain ⟨entries, found⟩ := opens.isDirectory
  exact Node.get?_set_entry found other

theorem Takes.put {other : Bytes} (content : Bytes) (takes : t.Takes dir name) (takes' : t.Takes dir other) :
    (t.put (.file content) (place ++ [name])).Takes dir other := by
  refine ⟨takes'.short, takes'.shortPath, takes'.text, fun place' located node found => ?_⟩
  cases located.symm.trans (opens.put content takes).located
  rw [opens.get?_put] at found
  split at found
  · cases found
    exact ⟨content, rfl⟩
  · exact takes'.free place opens.located node found

end

theorem eq_withoutSlashes_append (path : Bytes) : ∃ k, path = withoutSlashes path ++ List.replicate k slash := by
  refine ⟨(path.reverse.takeWhile (· == slash)).length, ?_⟩
  have slashes : path.reverse.takeWhile (· == slash) =
      List.replicate (path.reverse.takeWhile (· == slash)).length slash :=
    List.eq_replicate_iff.2 ⟨rfl, fun c member => by simpa using List.all_eq_true.1 List.all_takeWhile c member⟩
  have whole := congrArg List.reverse (List.takeWhile_append_dropWhile (p := (· == slash)) (l := path.reverse))
  rw [List.reverse_append, List.reverse_reverse, slashes, List.reverse_replicate] at whole
  exact whole.symm

theorem names_append_slashes (path : Bytes) (k : Nat) :
    Path.names (path ++ List.replicate k slash) = Path.names path := by
  induction k with
  | zero => rw [List.replicate_zero, List.append_nil]
  | succ k ih =>
    rw [List.replicate_succ', ← List.append_assoc, Path.names_append, ih]
    exact List.append_nil _

theorem names_withoutSlashes (path : Bytes) : Path.names (withoutSlashes path) = Path.names path := by
  obtain ⟨k, same⟩ := eq_withoutSlashes_append path
  nth_rewrite 2 [same]
  exact (names_append_slashes _ k).symm

theorem getLast?_withoutSlashes (path : Bytes) : (withoutSlashes path).getLast? ≠ some slash := by
  intro isLast
  rw [withoutSlashes, List.getLast?_reverse] at isLast
  have first := List.head?_dropWhile_not (· == slash) path.reverse
  rw [isLast] at first
  simp at first

theorem walk_of_missing (missing : t.locate path = .error .notFound) (given : path ≠ []) :
    0 ∉ path ∧ walk t.root (t.place path) (steps path) = .error .notFound := by
  unfold locate at missing
  rw [if_neg (by simpa using given)] at missing
  split at missing
  · cases missing
  rename_i text
  split at missing
  · cases missing
  exact ⟨by simpa using text, missing⟩

theorem walk_of_missing_withoutSlashes (missing : t.locate (withoutSlashes path) = .error .notFound)
    (named : Path.names path ≠ []) :
    path ≠ [] ∧ 0 ∉ path ∧ walk t.root (t.place path) (Path.names path) = .error .notFound := by
  obtain ⟨k, same⟩ := eq_withoutSlashes_append path
  have given : withoutSlashes path ≠ [] := by
    intro nothing
    rw [← names_withoutSlashes, nothing] at named
    exact named rfl
  obtain ⟨text, stops⟩ := walk_of_missing missing given
  have start : t.place (withoutSlashes path) = t.place path := by
    rw [FileTree.place, FileTree.place, same, Path.isAbsolute_append given, ← same]
  rw [steps_of_plain (getLast?_withoutSlashes path), names_withoutSlashes, start] at stops
  refine ⟨?_, ?_, stops⟩
  · rw [same]
    exact List.append_ne_nil_of_left_ne_nil given _
  · rw [same, List.mem_append, not_or]
    exact ⟨text, fun member => absurd (List.eq_of_mem_replicate member) (by decide)⟩

theorem walk_one_missing {entries : List (Bytes × Node)} (found : root.get? place = some (.directory entries))
    (missing : walk root place [name] = .error .notFound) :
    name ≠ [dot] ∧ name ≠ [dot, dot] ∧ name.length ≤ 255 ∧ entries.lookup name = none := by
  rw [walk, found] at missing
  dsimp only at missing
  split at missing
  · cases missing
  rename_i point
  split at missing
  · cases missing
  rename_i points
  split at missing
  · cases missing
  rename_i short
  split at missing
  · cases missing
  rename_i absent
  exact ⟨point, points, not_lt.1 short, Option.not_isSome_iff_eq_none.1 absent⟩

theorem opens_of_makeDirectory {made : FileTree} (isMade : t.makeDirectory path = .ok made) :
    ∃ place, made.Opens path place := by
  unfold makeDirectory at isMade
  split at isMade
  case h_1 | h_3 => cases isMade
  rename_i refused
  split at isMade
  case h_2 => cases isMade
  rename_i place new
  cases isMade
  obtain ⟨above, name, entries, named, short, leads, found, rfl⟩ := locateNew_cases new
  obtain ⟨given, text, missing⟩ := walk_of_missing_withoutSlashes refused (by rw [named]; simp)
  rw [named, walk_append, leads] at missing
  obtain ⟨point, points, fits, absent⟩ := walk_one_missing found missing
  have grows : t.root.Extends (t.put (.directory []) (above ++ [name])).root := by
    refine Node.extends_set found fun below => ?_
    rw [Node.get?_append, found, Option.bind_some, Node.get?_cons, absent]
    nofun
  have isNew : (t.put (.directory []) (above ++ [name])).root.get? (above ++ [name]) = some (.directory []) :=
    (Node.get?_set_entry found name).trans (if_pos rfl)
  have reached : walk (t.put (.directory []) (above ++ [name])).root (t.place path) (Path.names path) =
      .ok (above ++ [name]) := by
    rw [named, walk_append, walk_mono grows leads]
    refine walk_one.2 ⟨_, Node.get?_set_parent found, .down point points fits ?_⟩
    rw [Node.lookup_setEntry, if_pos rfl]
    rfl
  exact ⟨_, (locate_of_walk given text short).trans (walk_steps_directory reached isNew), _, isNew⟩

theorem opens_of_isDirectory (isDirectory : t.isDirectory dir = some true) : ∃ place, t.Opens dir place := by
  unfold FileTree.isDirectory at isDirectory
  split at isDirectory
  · cases isDirectory
  · rename_i place located
    split at isDirectory
    · rename_i entries found
      exact ⟨place, located, entries, found⟩
    · cases isDirectory
    · cases isDirectory

theorem makeDirectories_of_parent {made : FileTree} {path parent : Bytes} (absent : t.isDirectory path = none)
    (above : parent? path = some parent) (there : t.isDirectory parent = some true)
    (isMade : t.makeDirectory path = .ok made) : t.makeDirectories path = .ok made := by
  have stays : t.makeDirectories parent = .ok t := by
    rw [makeDirectories]
    simp only [there]
  rw [makeDirectories]
  simp only [absent]
  split
  · exact isMade
  · rename_i found
    cases found.symm.trans above
    exact bind_eq_ok.2 ⟨t, stays, by simp only [isMade]⟩

theorem opens_of_makeDirectories {made : FileTree} (isMade : t.makeDirectories dir = .ok made) :
    ∃ place, made.Opens dir place := by
  rw [makeDirectories] at isMade
  split at isMade
  · rename_i already
    cases isMade
    exact opens_of_isDirectory already
  · cases isMade
  · split at isMade
    · exact opens_of_makeDirectory isMade
    · obtain ⟨above, _, isMade⟩ := bind_eq_ok.1 isMade
      split at isMade
      · rename_i alone
        cases isMade
        exact opens_of_makeDirectory alone
      · split at isMade
        · rename_i already
          cases isMade
          exact opens_of_isDirectory already
        · cases isMade

end FileTree

end MiniC
