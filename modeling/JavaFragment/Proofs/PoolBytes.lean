import JavaFragment.Proofs.Codec
import JavaFragment.Proofs.Interning
/-!
The byte form of a constant pool. Entries are read back one after another from the bytes of a pool unless
a text is too long for its length, of which only the low 16 bits are written.
-/
namespace JavaFragment

/-! Numbers of eight bytes. -/

def read64 (bytes : List UInt8) : Option (UInt64 × List UInt8) := do
  let (high, bytes) ← read32 bytes
  let (low, bytes) ← read32 bytes
  return (high.toUInt64 <<< 32 ||| low.toUInt64, bytes)

theorem join64 (n : UInt64) : (n >>> 32).toUInt32.toUInt64 <<< 32 ||| n.toUInt32.toUInt64 = n := by
  rw [← UInt64.toNat_inj]
  have hLt : n.toNat < 2 ^ 64 := n.toNat_lt
  have hHigh : n.toNat / 2 ^ 32 % 2 ^ 32 * 2 ^ 32 % 2 ^ 64 = n.toNat / 2 ^ 32 * 2 ^ 32 := by omega
  simp only [UInt64.toNat_or, UInt64.toNat_shiftLeft, UInt32.toNat_toUInt64, UInt64.toNat_toUInt32,
    UInt64.toNat_shiftRight, Nat.shiftLeft_eq, Nat.shiftRight_eq_div_pow, UInt64.toNat_ofNat, hHigh]
  rw [Nat.mul_comm, ← Nat.two_pow_add_eq_or_of_lt (Nat.mod_lt _ (by decide))]
  omega

@[simp]
theorem read64_append (n : UInt64) (rest : List UInt8) : read64 (bytes64 n ++ rest) = some (n, rest) := by
  simp only [read64, bytes64, List.append_assoc, read32_append, Option.bind_eq_bind, Option.bind_some, join64]
  rfl

/-! Single entries. -/

/-- An entry as it is read. The bytes of a text are not decoded. -/
inductive StoredConstant where
  | text (bytes : List UInt8)
  | other (entry : Constant)
deriving DecidableEq, Repr

namespace StoredConstant

/-- Reads a number of bytes that is itself written before them. -/
def readText (bytes : List UInt8) : Option (StoredConstant × List UInt8) := do
  let (length, bytes) ← read16 bytes
  if length.toNat ≤ bytes.length then
    return (.text (bytes.take length.toNat), bytes.drop length.toNat)
  else none

def readNumber (make : UInt16 → Constant) (bytes : List UInt8) : Option (StoredConstant × List UInt8) := do
  let (n, bytes) ← read16 bytes
  return (.other (make n), bytes)

def readNumbers (make : UInt16 → UInt16 → Constant) (bytes : List UInt8) : Option (StoredConstant × List UInt8) := do
  let (m, bytes) ← read16 bytes
  let (n, bytes) ← read16 bytes
  return (.other (make m n), bytes)

/-- Reads an entry with the tag in front of it. -/
def readEntry (bytes : List UInt8) : Option (StoredConstant × List UInt8) := do
  let (tag, bytes) ← read8 bytes
  match tag with
  | 0 => return (.other .placeholder, bytes)
  | 1 => readText bytes
  | 3 =>
    let (n, bytes) ← read32 bytes
    return (.other (.integer n.toInt32), bytes)
  | 4 =>
    let (n, bytes) ← read32 bytes
    return (.other (.float ⟨n⟩), bytes)
  | 5 =>
    let (n, bytes) ← read64 bytes
    return (.other (.long n.toInt64), bytes)
  | 6 =>
    let (n, bytes) ← read64 bytes
    return (.other (.double ⟨n⟩), bytes)
  | 7 => readNumber .class bytes
  | 8 => readNumber .string bytes
  | 9 => readNumbers .fieldRef bytes
  | 10 => readNumbers .methodRef bytes
  | 11 => readNumbers .interfaceMethodRef bytes
  | 12 => readNumbers .nameAndType bytes
  | _ => none

/-- The places that an entry takes: a `long` or `double` is followed by a placeholder. -/
def slots : StoredConstant → List StoredConstant
  | .text bytes => [.text bytes]
  | .other entry => entry.slots.map .other

/-- Reads entries one after another. -/
def readAll : Nat → List UInt8 → Option (List StoredConstant × List UInt8)
  | 0, bytes => some ([], bytes)
  | count + 1, bytes => do
    let (entry, bytes) ← readEntry bytes
    let (entries, bytes) ← readAll count bytes
    return (entry.slots ++ entries, bytes)

end StoredConstant

namespace Constant

/-- What should be read of an entry. -/
def stored : Constant → StoredConstant
  | .utf8 text => .text text.toUTF8.data.toList
  | entry => .other entry

/-- Whether the length of an entry can be written: that of a text has 16 bits. -/
def isShort : Constant → Bool
  | .utf8 text => text.utf8ByteSize ≤ 65535
  | _ => true

theorem stored_slots (entry : Constant) : entry.stored.slots = entry.slots.map stored := by
  cases entry <;> rfl

open StoredConstant

theorem length_text (text : String) : text.toUTF8.data.toList.length = text.utf8ByteSize := rfl

theorem readText_bytes (text : String) (rest : List UInt8) :
    readText (bytes16 text.utf8ByteSize.toUInt16 ++ text.toUTF8.data.toList ++ rest) =
      some (.text (text.toUTF8.data.toList.take (text.utf8ByteSize % 65536)),
        text.toUTF8.data.toList.drop (text.utf8ByteSize % 65536) ++ rest) := by
  have hLength := length_text text
  have hCount : text.utf8ByteSize.toUInt16.toNat = text.utf8ByteSize % 65536 := UInt16.toNat_ofNat' ..
  have hLe : text.utf8ByteSize % 65536 ≤ text.toUTF8.data.toList.length := hLength ▸ Nat.mod_le ..
  have hFits : text.utf8ByteSize % 65536 ≤ (text.toUTF8.data.toList ++ rest).length := by
    rw [List.length_append]
    omega
  rw [List.append_assoc]
  simp only [readText, read16_append, Option.bind_eq_bind, Option.bind_some, hCount, hFits,
    if_true, List.take_append_of_le_length hLe, List.drop_append_of_le_length hLe]
  rfl

/-- An entry is read back from its bytes if its length can be written. -/
theorem read_bytes {entry : Constant} (hEntry : entry ≠ .placeholder) (hShort : entry.isShort)
    (rest : List UInt8) : readEntry (entry.bytes ++ rest) = some (entry.stored, rest) := by
  cases entry with
  | utf8 text =>
    have hLt : text.utf8ByteSize < 65536 := by
      have : text.utf8ByteSize ≤ 65535 := of_decide_eq_true hShort
      omega
    show readText (bytes16 text.utf8ByteSize.toUInt16 ++ text.toUTF8.data.toList ++ rest) = _
    rw [readText_bytes, Nat.mod_eq_of_lt hLt, ← length_text, List.take_length, List.drop_length]
    rfl
  | integer value => simp [bytes, readEntry, stored]
  | float value => simp [bytes, readEntry, stored]
  | long value => simp [bytes, readEntry, stored]
  | double value => simp [bytes, readEntry, stored]
  | «class» name => simp [bytes, readEntry, stored, readNumber]
  | string text => simp [bytes, readEntry, stored, readNumber]
  | fieldRef owner member => simp [bytes, readEntry, stored, readNumbers]
  | methodRef owner member => simp [bytes, readEntry, stored, readNumbers]
  | interfaceMethodRef owner member => simp [bytes, readEntry, stored, readNumbers]
  | nameAndType name descriptor => simp [bytes, readEntry, stored, readNumbers]
  | placeholder => exact absurd rfl hEntry

/-- Of a text whose length cannot be written only a part is read. -/
theorem isShort_of_read {entry : Constant} {rest after : List UInt8}
    (h : readEntry (entry.bytes ++ rest) = some (entry.stored, after)) : entry.isShort := by
  cases entry with
  | utf8 text =>
    have hRead : readText (bytes16 text.utf8ByteSize.toUInt16 ++ text.toUTF8.data.toList ++ rest) =
        some (stored (.utf8 text), after) := h
    rw [readText_bytes] at hRead
    have hText := StoredConstant.text.inj (Prod.mk.inj (Option.some.inj hRead)).1
    have hLength := congrArg List.length hText
    rw [List.length_take, length_text] at hLength
    exact decide_eq_true (by omega)
  | _ => rfl

end Constant

namespace StoredConstant

theorem slots_eq_cons (entry : StoredConstant) : ∃ more, entry.slots = entry :: more := by
  cases entry with
  | text bytes => exact ⟨[], rfl⟩
  | other entry =>
    simp only [slots, Constant.slots]
    split <;> simp

theorem readAll_succ {count : Nat} {bytes after : List UInt8} {entries : List StoredConstant}
    (h : readAll (count + 1) bytes = some (entries, after)) : ∃ entry middle rest,
    readEntry bytes = some (entry, middle) ∧ readAll count middle = some (rest, after) ∧
      entries = entry.slots ++ rest := by
  simp only [readAll, Option.bind_eq_bind, Option.bind_eq_some_iff, Prod.exists] at h
  obtain ⟨entry, middle, hFirst, rest, _, hRest, hSame⟩ := h
  obtain ⟨rfl, rfl⟩ := Prod.mk.inj (Option.some.inj hSame)
  exact ⟨entry, middle, rest, hFirst, hRest, rfl⟩

/-- Entries are read back, to the last byte, exactly if all their lengths can be written. -/
theorem readAll_iff {constants : List Constant} (hNone : .placeholder ∉ constants) :
    (∃ count, readAll count (constants.flatMap Constant.bytes) =
      some ((constants.flatMap Constant.slots).map Constant.stored, [])) ↔
    ∀ entry ∈ constants, entry.isShort := by
  induction constants with
  | nil => exact ⟨fun _ => nofun, fun _ => ⟨0, rfl⟩⟩
  | cons entry rest ih =>
    obtain ⟨hEntry, hRest⟩ := not_or.1 (List.mem_cons.not.1 hNone)
    simp only [List.flatMap_cons, List.map_append, List.forall_mem_cons, ← Constant.stored_slots, ← ih hRest]
    constructor
    · rintro ⟨count, hRead⟩
      obtain ⟨more, hFirst⟩ := entry.stored.slots_eq_cons
      cases count with
      | zero => simp [readAll, hFirst] at hRead
      | succ count =>
        obtain ⟨found, middle, others, hFound, hOthers, hSame⟩ := readAll_succ hRead
        -- the first place of what was read tells which entry it was
        obtain ⟨more', hFirst'⟩ := found.slots_eq_cons
        obtain rfl : entry.stored = found := by
          rw [hFirst, hFirst'] at hSame
          exact (List.cons.inj hSame).1
        have hShort := Constant.isShort_of_read hFound
        rw [Constant.read_bytes (Ne.symm hEntry) hShort] at hFound
        cases hFound
        refine ⟨hShort, count, ?_⟩
        rw [hOthers, List.append_cancel_left hSame]
    · rintro ⟨hShort, count, hRead⟩
      refine ⟨count + 1, ?_⟩
      simp [readAll, Constant.read_bytes (Ne.symm hEntry) hShort, hRead]

end StoredConstant

namespace ConstantPool

open StoredConstant

theorem bytes_eq {pool : ConstantPool} {constants : List Constant}
    (hLayout : pool.entries.toList = constants.flatMap Constant.slots) :
    pool.bytes = constants.flatMap Constant.bytes := by
  have hSlots (entry : Constant) : entry.slots.flatMap Constant.bytes = entry.bytes := by
    unfold Constant.slots
    split <;> simp [Constant.bytes]
  rw [bytes, hLayout, List.flatMap_assoc]
  simp only [hSlots]

theorem mem_slots {constants : List Constant} {entry : Constant} (hEntry : entry ≠ .placeholder) :
    entry ∈ constants.flatMap Constant.slots ↔ entry ∈ constants := by
  have hSlots (other : Constant) : entry ∈ other.slots ↔ entry = other := by
    unfold Constant.slots
    split <;> simp [hEntry]
  simp only [List.mem_flatMap, hSlots, exists_eq_right']

/-- The bytes of a pool hold its entries exactly if no text is longer than a length of 16 bits can say.
Entries are read one after another, a placeholder being put after each `long` or `double`, until they are
those of the pool and no byte is left. -/
theorem bytes_lossless_iff {requests : List PoolRequest} (hSize : (after requests).entries.size ≤ 65534) :
    (∃ count, readAll count (after requests).bytes = some ((after requests).entries.toList.map Constant.stored, [])) ↔
    ∀ text, .utf8 text ∈ (after requests).entries.toList → text.utf8ByteSize ≤ 65535 := by
  obtain ⟨constants, hNone, hLayout⟩ := (interned_after (Nat.le_succ_of_le hSize)).layout
  rw [bytes_eq hLayout, hLayout, readAll_iff hNone]
  constructor
  · intro hShort text hText
    exact of_decide_eq_true (hShort _ ((mem_slots (by simp)).1 hText))
  · intro hTexts entry hEntry
    cases entry with
    | utf8 text => exact decide_eq_true (hTexts text ((mem_slots (by simp)).2 hEntry))
    | _ => rfl

/-- A text, a string that points to it and a `long` are read back. -/
theorem bytes_lossless_iff_string : (after [.string "hi", .long 7]).entries.size ≤ 65534 ∧
    ∃ count, readAll count (after [.string "hi", .long 7]).bytes =
      some ((after [.string "hi", .long 7]).entries.toList.map Constant.stored, []) := by
  have hEntries : (after [.string "hi", .long 7]).entries.toList =
      [.utf8 "hi", .string 1, .long 7, .placeholder] := by decide +kernel
  refine ⟨by decide +kernel, (bytes_lossless_iff (by decide +kernel)).2 fun text hText => ?_⟩
  obtain rfl : text = "hi" := by simpa [hEntries] using hText
  decide

end ConstantPool

end JavaFragment
