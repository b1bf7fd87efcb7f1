import MiniC.MessagePack.Read
import MiniC.MessagePack.Write
import MiniC.Proofs.Faults
import Mathlib.Data.List.Induction

namespace MiniC.Bytes

theorem length_bigEndian (width n : Nat) : (bigEndian width n).length = width := by
  induction width generalizing n with
  | zero => rfl
  | succ width ih => rw [bigEndian, List.length_append, ih, List.length_singleton]

theorem toBigEndian_append (bytes : Bytes) (b : UInt8) :
    toBigEndian (bytes ++ [b]) = toBigEndian bytes * 256 + b.toNat := by
  simp [toBigEndian]

theorem toBigEndian_bigEndian (width n : Nat) : toBigEndian (bigEndian width n) = n % 256 ^ width := by
  induction width generalizing n with
  | zero => simp [bigEndian, toBigEndian, Nat.mod_one]
  | succ width ih =>
    have last : n.toUInt8.toNat = n % 256 := rfl
    have split : n % (256 * 256 ^ width) = n % 256 + 256 * (n / 256 % 256 ^ width) := Nat.mod_mul
    rw [bigEndian, toBigEndian_append, ih, last, Nat.pow_succ', split]
    omega

theorem toBigEndian_lt (bytes : Bytes) : toBigEndian bytes < 256 ^ bytes.length := by
  induction bytes using List.reverseRecOn with
  | nil => decide
  | append_singleton bytes b ih =>
    have small : b.toNat < 256 := b.toNat_lt
    rw [toBigEndian_append, List.length_append, List.length_singleton, Nat.pow_succ]
    omega

end MiniC.Bytes

namespace MiniC.MessagePack

variable {n : Nat} {i : Item} {items : List Item}

variable {c : UInt8} {input rest rest' s : Bytes} {count size : Nat}

theorem split?_append (s rest : Bytes) : split? s.length (s ++ rest) = some (s, rest) := by
  simp [split?]

theorem split?_eq_some (cut : split? n input = some (s, rest)) : s.length = n ∧ input = s ++ rest := by
  unfold split? at cut
  split at cut
  · rename_i enough
    cases cut
    exact ⟨List.length_take_of_le enough, (List.take_append_drop n input).symm⟩
  · cases cut

theorem sized_bigEndian (width n : Nat) (make : Nat → Head) (rest : Bytes) :
    sized width make (Bytes.bigEndian width n ++ rest) = .ok (make (n % 256 ^ width), rest) := by
  have cut := split?_append (Bytes.bigEndian width n) rest
  rw [Bytes.length_bigEndian] at cut
  rw [sized, cut, ← Bytes.toBigEndian_bigEndian]

theorem read_item (found : head c input = .ok (.item i, rest)) :
    ∃ shorter, read (c :: input) = .ok (i, ⟨rest, shorter⟩) := by
  have shorter := head_le found
  refine ⟨Nat.lt_succ_of_le shorter, ?_⟩
  rw [read]
  split
  · rename_i failed
    cases failed.symm.trans found
  · rename_i found'
    cases found'.symm.trans found
    rfl

theorem read_text (found : head c input = .ok (.text size, rest)) (cut : split? size rest = some (s, rest')) :
    ∃ shorter, read (c :: input) = .ok (.text s, ⟨rest', shorter⟩) := by
  have shorter := Nat.le_trans (split?_le cut) (head_le found)
  refine ⟨Nat.lt_succ_of_le shorter, ?_⟩
  rw [read]
  split
  · rename_i failed
    cases failed.symm.trans found
  · rename_i found'
    cases found'.symm.trans found
    dsimp only
    split
    · rename_i cut'
      cases cut'.symm.trans cut
      rfl
    · rename_i failed
      cases failed.symm.trans cut

theorem read_array {shorter : rest'.length ≤ rest.length}
    (found : head c input = .ok (.array count, rest)) (many : readMany count rest = .ok (items, ⟨rest', shorter⟩)) :
    ∃ shorter, read (c :: input) = .ok (.array items, ⟨rest', shorter⟩) := by
  have shorter := Nat.le_trans shorter (head_le found)
  refine ⟨Nat.lt_succ_of_le shorter, ?_⟩
  rw [read]
  split
  · rename_i failed
    cases failed.symm.trans found
  · rename_i found'
    cases found'.symm.trans found
    dsimp only
    rw [many]
    rfl

theorem read_map {shorter : rest'.length ≤ rest.length}
    (found : head c input = .ok (.map count, rest)) (many : readMany (2 * count) rest = .ok (items, ⟨rest', shorter⟩)) :
    ∃ shorter, read (c :: input) = .ok (.map (pairUp items), ⟨rest', shorter⟩) := by
  have shorter := Nat.le_trans shorter (head_le found)
  refine ⟨Nat.lt_succ_of_le shorter, ?_⟩
  rw [read]
  split
  · rename_i failed
    cases failed.symm.trans found
  · rename_i found'
    cases found'.symm.trans found
    dsimp only
    rw [many]
    rfl

def Reads (bytes : Bytes) (item : Item) : Prop :=
  ∀ input rest, input = bytes ++ rest → ∃ shorter, read input = .ok (item, ⟨rest, shorter⟩)

def ReadsAll (bytes : Bytes) (items : List Item) : Prop :=
  ∀ input rest, input = bytes ++ rest → ∃ shorter, readMany items.length input = .ok (items, ⟨rest, shorter⟩)

theorem ReadsAll.nil : ReadsAll [] [] := by
  rintro _ rest rfl
  refine ⟨Nat.le_refl _, ?_⟩
  rw [List.length_nil, readMany]

theorem ReadsAll.cons {first more : Bytes} {item : Item} {items : List Item} (here : Reads first item)
    (there : ReadsAll more items) : ReadsAll (first ++ more) (item :: items) := by
  intro input rest whole
  rw [List.append_assoc] at whole
  obtain ⟨shorter, read⟩ := here _ _ whole
  obtain ⟨shorter', readMore⟩ := there _ rest rfl
  refine ⟨Nat.le_trans shorter' (Nat.le_of_lt shorter), ?_⟩
  rw [List.length_cons, readMany, read]
  simp only [bind, Except.bind, readMore]

theorem ReadsAll.flatten {written : List Bytes} (each : List.Forall₂ Reads written items) :
    ReadsAll written.flatten items := by
  induction each with
  | nil => exact .nil
  | cons here _ ih => exact .cons here ih

theorem reads_of_head {first : Bytes}
    (found : ∀ rest, head c (first ++ rest) = .ok (.item i, rest)) : Reads (c :: first) i :=
  fun _ rest whole => whole ▸ read_item (found rest)

theorem reads_of_byte (found : ∀ rest, head c rest = .ok (.item i, rest)) : Reads [c] i :=
  reads_of_head found

theorem reads_nil : Reads nil .nil :=
  reads_of_byte fun _ => rfl

theorem reads_bool (b : Bool) : Reads (bool b) (.bool b) := by
  cases b with
  | false => exact reads_of_byte fun _ => rfl
  | true => exact reads_of_byte fun _ => rfl

theorem head_small (small : c < 0x80) (input : Bytes) : head c input = .ok (unsigned c.toNat, input) := by
  unfold head
  rw [if_pos small]

theorem head_negative (high : 0xe0 ≤ c) (input : Bytes) : head c input = .ok (signed 1 c.toNat, input) := by
  have large : ∀ {d : UInt8}, d ≤ 0xe0 → ¬ c < d := fun low below =>
    absurd (UInt8.le_trans low high) (UInt8.not_le.2 below)
  unfold head
  rw [if_neg (large (by decide)), if_neg (large (by decide)), if_neg (large (by decide)), if_neg (large (by decide)),
    if_pos high]

theorem reads_sized {width : Nat} {make : Nat → Head}
    (found : ∀ input, head c input = sized width make input) (made : make (n % 256 ^ width) = .item i) :
    Reads (c :: Bytes.bigEndian width n) i := by
  refine reads_of_head fun rest => ?_
  rw [found, sized_bigEndian, made]

theorem reads_natural (bound : n < 2 ^ 64) : Reads (natural n) (.int n) := by
  have made : ∀ width, n < 256 ^ width → unsigned (n % 256 ^ width) = .item (.int n) := by
    intro width fits
    rw [Nat.mod_eq_of_lt fits]
    rfl
  unfold natural
  split
  · rename_i tiny
    have same : n.toUInt8.toNat = n := Nat.mod_eq_of_lt (by omega)
    refine reads_of_byte fun rest => ?_
    rw [head_small (UInt8.lt_iff_toNat_lt.2 (by rw [same]; exact tiny)), same]
    rfl
  split
  · exact reads_sized (fun _ => rfl) (made 1 (by omega))
  split
  · exact reads_sized (fun _ => rfl) (made 2 (by omega))
  split
  · exact reads_sized (fun _ => rfl) (made 4 (by omega))
  · exact reads_sized (fun _ => rfl) (made 8 (by omega))

theorem toInt_bits (n : Int64) :
    (n.toUInt64.toNat : Int) = if 0 ≤ n.toInt then n.toInt else n.toInt + 2 ^ 64 := by
  have bound := n.toUInt64.toNat_lt
  have least := Int64.le_toInt n
  have most := Int64.toInt_lt n
  have same : n.toInt = (n.toUInt64.toNat : Int).bmod (2 ^ 64) := BitVec.toInt_eq_toNat_bmod _
  rw [Int.bmod_def] at same
  split at same <;> split <;> omega

theorem signed_bits (width : Nat) {n : Int64} (wide : width ∈ [1, 2, 4, 8]) (negative : n.toInt < 0)
    (least : -2 ^ (8 * width - 1) ≤ n.toInt) :
    signed width (n.toUInt64.toNat % 256 ^ width) = .item (.int n.toInt) := by
  have bits := toInt_bits n
  rw [if_neg (by omega)] at bits
  have value : (n.toUInt64.toNat % 256 ^ width : Nat) = n.toInt + 256 ^ width := by
    simp only [List.mem_cons, List.not_mem_nil, or_false] at wide
    rcases wide with rfl | rfl | rfl | rfl <;> omega
  simp only [List.mem_cons, List.not_mem_nil, or_false] at wide
  simp only [signed, Nat.pow_eq, Head.item.injEq, Item.int.injEq]
  rcases wide with rfl | rfl | rfl | rfl <;> split <;> omega

theorem reads_int (n : Int64) : Reads (int n) (.int n.toInt) := by
  have bits := toInt_bits n
  have bound := n.toUInt64.toNat_lt
  have least := Int64.le_toInt n
  unfold int
  dsimp only
  split
  · rename_i positive
    have positive : 0 ≤ n.toInt := Int64.le_iff_toInt_le.1 positive
    rw [if_pos positive] at bits
    rw [← bits]
    exact reads_natural bound
  have negative : n.toInt < 0 := by
    rename_i not
    rw [Int64.le_iff_toInt_le] at not
    exact Int.not_le.1 not
  rw [if_neg (by omega)] at bits
  split
  · rename_i tiny
    have value := signed_bits 1 (by decide) negative (by omega)
    have last : n.toUInt64.toNat.toUInt8.toNat = n.toUInt64.toNat % 256 := rfl
    have high : (0xe0 : UInt8) ≤ n.toUInt64.toNat.toUInt8 := by
      rw [UInt8.le_iff_toNat_le, last]
      change 224 ≤ _
      omega
    refine reads_of_byte fun rest => ?_
    rw [head_negative high, last]
    exact congrArg (fun h => Except.ok (h, rest)) value
  split
  · exact reads_sized (fun _ => rfl) (signed_bits _ (by decide) negative (by omega))
  split
  · exact reads_sized (fun _ => rfl) (signed_bits _ (by decide) negative (by omega))
  split
  · exact reads_sized (fun _ => rfl) (signed_bits _ (by decide) negative (by omega))
  · exact reads_sized (fun _ => rfl) (signed_bits _ (by decide) negative (by omega))

theorem reads_int64 (n : Int64) : Reads (int64 n) (.int n.toInt) := by
  have bits := toInt_bits n
  have bound := n.toUInt64.toNat_lt
  have least := Int64.le_toInt n
  have most := Int64.toInt_lt n
  refine reads_sized (fun _ => rfl) ?_
  simp only [signed, Nat.pow_eq, Head.item.injEq, Item.int.injEq]
  rw [Nat.mod_eq_of_lt (by omega)]
  split at bits <;> split <;> omega

theorem reads_uint8 (n : UInt8) : Reads (uint8 n) (.int n.toNat) := by
  have digits : Bytes.bigEndian 1 n.toNat = [n] := by simp [Bytes.bigEndian]
  have small := n.toNat_lt
  have reads : Reads (0xcc :: Bytes.bigEndian 1 n.toNat) (.int n.toNat) := by
    have made : unsigned (n.toNat % 256 ^ 1) = .item (.int n.toNat) := by
      rw [Nat.mod_eq_of_lt (by omega)]
      rfl
    exact reads_sized (fun _ => rfl) made
  rwa [digits] at reads

def Announces (first : Bytes) (h : Head) : Prop :=
  ∃ c bytes, first = c :: bytes ∧ ∀ rest, head c (bytes ++ rest) = .ok (h, rest)

theorem announces_sized {width : Nat} {make : Nat → Head} (fits : n < 256 ^ width)
    (found : ∀ input, head c input = sized width make input) : Announces (c :: Bytes.bigEndian width n) (make n) := by
  refine ⟨c, _, rfl, fun rest => ?_⟩
  rw [found, sized_bigEndian, Nat.mod_eq_of_lt fits]

theorem announces_short {h : Head} (found : ∀ rest, head c rest = .ok (h, rest)) : Announces [c] h :=
  ⟨c, [], rfl, found⟩

theorem head_map (few : n < 0x10) (input : Bytes) : head (0x80 + n).toUInt8 input = .ok (.map n, input) := by
  have value : (0x80 + n).toUInt8.toNat = 0x80 + n := Nat.mod_eq_of_lt (by omega)
  have size : 0x80 + n - 0x80 = n := by omega
  simp only [head, UInt8.lt_iff_toNat_lt, value]
  rw [if_neg (by simp), if_pos (by simp; omega), size]

theorem head_array (few : n < 0x10) (input : Bytes) : head (0x90 + n).toUInt8 input = .ok (.array n, input) := by
  have value : (0x90 + n).toUInt8.toNat = 0x90 + n := Nat.mod_eq_of_lt (by omega)
  have size : 0x90 + n - 0x90 = n := by omega
  simp only [head, UInt8.lt_iff_toNat_lt, value]
  rw [if_neg (by simp; omega), if_neg (by simp), if_pos (by simp; omega), size]

theorem head_text (few : n < 0x20) (input : Bytes) : head (0xa0 + n).toUInt8 input = .ok (.text n, input) := by
  have value : (0xa0 + n).toUInt8.toNat = 0xa0 + n := Nat.mod_eq_of_lt (by omega)
  have size : 0xa0 + n - 0xa0 = n := by omega
  simp only [head, UInt8.lt_iff_toNat_lt, value]
  rw [if_neg (by simp; omega), if_neg (by simp; omega), if_neg (by simp), if_pos (by simp; omega), size]

theorem reads_text {s : Bytes} (short : s.length < 2 ^ 32) : Reads (text s) (.text s) := by
  have announced : ∀ {first : Bytes}, Announces first (.text s.length) → Reads (first ++ s) (.text s) := by
    rintro first ⟨c, bytes, rfl, found⟩ _ rest rfl
    have found := found (s ++ rest)
    rw [← List.append_assoc] at found
    exact read_text found (split?_append s rest)
  refine announced ?_
  split
  · exact announces_short (head_text ‹_›)
  split
  · exact announces_sized (by omega) fun _ => rfl
  split
  · exact announces_sized (by omega) fun _ => rfl
  · exact announces_sized (by omega) fun _ => rfl

theorem reads_array {written : List Bytes} (short : written.length < 2 ^ 32)
    (each : List.Forall₂ Reads written items) : Reads (array written) (.array items) := by
  have count : written.length = items.length := each.length_eq
  have announced : ∀ {first : Bytes}, Announces first (.array written.length) →
      Reads (first ++ written.flatten) (.array items) := by
    rintro first ⟨c, bytes, rfl, found⟩ _ rest rfl
    have found := found (written.flatten ++ rest)
    obtain ⟨_, many⟩ := ReadsAll.flatten each _ rest rfl
    rw [← List.append_assoc, count] at found
    exact read_array found many
  refine announced ?_
  split
  · exact announces_short (head_array ‹_›)
  split
  · exact announces_sized (by omega) fun _ => rfl
  · exact announces_sized (by omega) fun _ => rfl

structure WritesField (field : Bytes × Bytes) (entry : Bytes × Item) : Prop where
  name : entry.1 = field.1
  short : field.1.length < 2 ^ 32
  reads : Reads field.2 entry.2

def keysAndValues (entries : List (Bytes × Item)) : List Item :=
  entries.flatMap fun e => [.text e.1, e.2]

theorem pairUp_keysAndValues (entries : List (Bytes × Item)) :
    pairUp (keysAndValues entries) = entries.map fun e => (.text e.1, e.2) := by
  induction entries with
  | nil => rfl
  | cons e entries ih => simpa [keysAndValues, pairUp] using ih

theorem length_keysAndValues (entries : List (Bytes × Item)) :
    (keysAndValues entries).length = 2 * entries.length := by
  simp [keysAndValues, Nat.mul_comm]

theorem readsAll_fields {fields : List (Bytes × Bytes)} {entries : List (Bytes × Item)}
    (each : List.Forall₂ WritesField fields entries) :
    ReadsAll (fields.flatMap fun (name, value) => text name ++ value) (keysAndValues entries) := by
  induction each with
  | nil => exact .nil
  | @cons field entry fields entries here _ ih =>
    have name : Reads (text field.1) (.text entry.1) := by
      rw [here.name]
      exact reads_text here.short
    have both := ReadsAll.cons name (.cons here.reads ih)
    rwa [← List.append_assoc] at both

theorem reads_record {fields : List (Bytes × Bytes)} {entries : List (Bytes × Item)} (few : fields.length < 16)
    (each : List.Forall₂ WritesField fields entries) :
    Reads (record fields) (.map (entries.map fun e => (.text e.1, e.2))) := by
  have count : fields.length = entries.length := each.length_eq
  rintro _ rest rfl
  obtain ⟨_, many⟩ := readsAll_fields each _ rest rfl
  rw [length_keysAndValues, ← count] at many
  rw [← pairUp_keysAndValues]
  exact read_map (head_map few _) many

mutual

def Item.Short : Item → Prop
  | .text s => s.length < 2 ^ 32
  | .array items => items.length < 2 ^ 32 ∧ Item.AllShort items
  | .map entries => Item.EntriesShort entries
  | .nil | .bool _ | .int _ | .other => True

def Item.AllShort : List Item → Prop
  | [] => True
  | i :: items => i.Short ∧ Item.AllShort items

def Item.EntriesShort : List (Item × Item) → Prop
  | [] => True
  | (key, value) :: entries => key.Short ∧ value.Short ∧ Item.EntriesShort entries

end

theorem entriesShort_pairUp : ∀ {items : List Item}, Item.AllShort items → Item.EntriesShort (pairUp items)
  | [], _ => trivial
  | [_], _ => trivial
  | _ :: _ :: _, ⟨key, value, rest⟩ => ⟨key, value, entriesShort_pairUp rest⟩

def Head.Short : Head → Prop
  | .item i => i.Short
  | .text size => size < 2 ^ 32
  | .array count => count < 2 ^ 32
  | .skip _ | .map _ => True

theorem short_sized {width : Nat} {make : Nat → Head} {h : Head}
    (made : ∀ n, n < 256 ^ width → (make n).Short) (ok : sized width make input = .ok (h, rest)) : h.Short := by
  unfold sized at ok
  split at ok
  · rename_i digits rest' cut
    cases ok
    refine made _ ?_
    have bound := Bytes.toBigEndian_lt digits
    rwa [(split?_eq_some cut).1] at bound
  · cases ok

theorem short_head {h : Head} (ok : head c input = .ok (h, rest)) : h.Short := by
  have bytes := c.toNat_lt
  unfold head at ok
  split at ok
  · cases ok; trivial
  split at ok
  · cases ok; trivial
  split at ok
  · cases ok; simp only [Head.Short]; omega
  split at ok
  · cases ok; simp only [Head.Short]; omega
  split at ok
  · cases ok; trivial
  split at ok
  -- numbers and what is skipped, then lengths, then single bytes
  all_goals try exact short_sized (fun _ _ => by trivial) ok
  all_goals try exact short_sized (fun _ small => by exact Nat.lt_of_lt_of_le small (by decide)) ok
  all_goals
    cases ok
    try trivial

mutual

theorem short_read : ∀ (input : Bytes) {i : Item} {rest : { rest : Bytes // rest.length < input.length }},
    read input = .ok (i, rest) → i.Short
  | [], _, _, ok => by
    rw [read] at ok
    cases ok
  | c :: input, i, rest, ok => by
    rw [read] at ok
    split at ok
    · cases ok
    rename_i h after found
    have announced := short_head found
    have shorter := head_le found
    cases h with
    | item i =>
      cases ok
      exact announced
    | text size =>
      dsimp only at ok
      split at ok
      · rename_i s after' cut
        cases ok
        rw [Head.Short, ← (split?_eq_some cut).1] at announced
        exact announced
      · cases ok
    | skip size =>
      dsimp only at ok
      split at ok
      · cases ok
        trivial
      · cases ok
    | array count =>
      obtain ⟨⟨items, after', _⟩, many, done⟩ := bind_eq_ok.1 ok
      cases done
      have inside := short_readMany count after many
      rw [Head.Short, ← inside.1] at announced
      exact ⟨announced, inside.2⟩
    | map count =>
      obtain ⟨⟨items, after', _⟩, many, done⟩ := bind_eq_ok.1 ok
      cases done
      exact entriesShort_pairUp (short_readMany _ after many).2
termination_by input => (input.length, 0)

theorem short_readMany : ∀ (count : Nat) (input : Bytes) {items : List Item}
    {rest : { rest : Bytes // rest.length ≤ input.length }},
    readMany count input = .ok (items, rest) → items.length = count ∧ Item.AllShort items
  | 0, input, _, _, ok => by
    rw [readMany] at ok
    cases ok
    exact ⟨rfl, trivial⟩
  | count + 1, input, _, _, ok => by
    rw [readMany] at ok
    obtain ⟨⟨i, after, shorter⟩, first, ok⟩ := bind_eq_ok.1 ok
    obtain ⟨⟨items', after', _⟩, many, done⟩ := bind_eq_ok.1 ok
    cases done
    have inside := short_readMany count after many
    exact ⟨by rw [List.length_cons, inside.1], short_read input first, inside.2⟩
termination_by _ input => (input.length, 1)

end

end MiniC.MessagePack
