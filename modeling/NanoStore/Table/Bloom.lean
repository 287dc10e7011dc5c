import NanoStore.Table.PagedBloom
/-!
# Bloom filters in memory

`BloomFilter` of `table/bloom/memory.rs`: the bits in one array of bytes.
A key that was inserted is found, also in a filter that was restored from
the bytes.
-/

namespace NanoStore.Table

open List
open PagedBloomFilter (BitIn bitIn_modify_self)

/-- `MemoryBloomFilter`, with its bits in bytes. -/
structure MemoryBloomFilter where
  bits : Bytes
  numBits : ℕ
  numHashFunctions : ℕ
  numItems : ℕ

/-- What is done to a filter: a key is inserted, or its bytes are written and read again. -/
inductive BloomCall
  | insert (key : Bytes)
  | restore

namespace MemoryBloomFilter

variable (f : MemoryBloomFilter)

/-- `new`, for a number of hash functions. -/
def new (numItems bitsPerKey numHashFunctions : ℕ) : MemoryBloomFilter :=
  ⟨replicate ((numItems * bitsPerKey + 7) / 8) 0, numItems * bitsPerKey, numHashFunctions, 0⟩

def fromBytesWithSize (bits : Bytes) (numBits numHashFunctions : ℕ) : MemoryBloomFilter :=
  ⟨bits, numBits, numHashFunctions, 0⟩

/-- `get_bit_position`; none if it divides by zero. -/
def getBitPosition (key : Bytes) (i : ℕ) : Option ℕ :=
  if f.numBits = 0 then none else some (((hashKey key).1 + i * (hashKey key).2) % 2 ^ 64 % f.numBits)

/-- `set_bit`; none for an index out of bounds. -/
def setBit (bits : Bytes) (pos : ℕ) : Option Bytes :=
  if pos / 8 < bits.length then some (bits.modify (pos / 8) (setByteBit (pos % 8))) else none

/-- The bit at a place; none past the end. -/
def getBit (pos : ℕ) : Option Bool := f.bits[pos / 8]?.map fun b => b.val.testBit (pos % 8)

/-- The loop of `insert`, over the hash functions that are left. -/
def setBits (key : Bytes) (bits : Bytes) (is : List ℕ) : Option Bytes :=
  is.foldlM (fun bits i => f.getBitPosition key i >>= setBit bits) bits

def insert (key : Bytes) : Option MemoryBloomFilter :=
  (f.setBits key f.bits (range f.numHashFunctions)).map fun bits => { f with bits, numItems := f.numItems + 1 }

def contains (key : Bytes) : Option Bool :=
  (range f.numHashFunctions).allM fun i => f.getBitPosition key i >>= f.getBit

def exec : BloomCall → Option MemoryBloomFilter
  | .insert key => f.insert key
  | .restore => some (fromBytesWithSize f.bits f.numBits f.numHashFunctions)

/-! ## Bits -/

/-- There are bits, and bytes for them. -/
def Roomy (bits : Bytes) : Prop := 0 < f.numBits ∧ f.numBits ≤ 8 * bits.length

/-- The bit of a key for one hash function is set. -/
def HasKeyBit (key bits : Bytes) (i : ℕ) : Prop :=
  ∃ pos, f.getBitPosition key i = some pos ∧ BitIn bits (pos / 8) (pos % 8)

/-- As many bytes, with all bits set that were. -/
def Extends (bits bits' : Bytes) : Prop :=
  bits'.length = bits.length ∧ ∀ pos, BitIn bits (pos / 8) (pos % 8) → BitIn bits' (pos / 8) (pos % 8)

variable {f} {key bits bits' : Bytes} {i : ℕ}

theorem HasKeyBit.mono (h : f.HasKeyBit key bits i) (hext : Extends bits bits') : f.HasKeyBit key bits' i := by
  obtain ⟨pos, hpos, hbit⟩ := h
  exact ⟨pos, hpos, hext.2 pos hbit⟩

theorem Roomy.setBit (h : f.Roomy bits) (key : Bytes) (i : ℕ) : ∃ bits',
      (f.getBitPosition key i >>= MemoryBloomFilter.setBit bits) = some bits' ∧ Extends bits bits' ∧
        f.HasKeyBit key bits' i := by
  have hpos : f.getBitPosition key i = some _ := if_neg h.1.ne'
  have hlt := Nat.mod_lt (((hashKey key).1 + i * (hashKey key).2) % 2 ^ 64) h.1
  have hroom := h.2
  have hbyte : ((hashKey key).1 + i * (hashKey key).2) % 2 ^ 64 % f.numBits / 8 < bits.length := by omega
  rw [hpos]
  refine ⟨_, if_pos hbyte, ⟨length_modify _ _ _, fun pos hbit => ?_⟩, _, hpos, ?_⟩
  · exact hbit.modify (Nat.mod_lt _ (by decide))
  · exact bitIn_modify_self hbyte (Nat.mod_lt _ (by decide))

theorem Roomy.setBits (h : f.Roomy bits) (key : Bytes) (is : List ℕ) : ∃ bits',
      f.setBits key bits is = some bits' ∧ Extends bits bits' ∧ ∀ i ∈ is, f.HasKeyBit key bits' i := by
  induction is generalizing bits with
  | nil => exact ⟨bits, rfl, ⟨rfl, fun _ => id⟩, nofun⟩
  | cons i is ih =>
    obtain ⟨bits₁, hset, hext, hbit⟩ := h.setBit key i
    have hroomy : f.Roomy bits₁ := ⟨h.1, hext.1 ▸ h.2⟩
    obtain ⟨bits₂, hrest, hext', hbits⟩ := ih hroomy
    refine ⟨bits₂, ?_, ⟨hext'.1.trans hext.1, fun pos hpos => hext'.2 pos (hext.2 pos hpos)⟩,
      forall_mem_cons.mpr ⟨hbit.mono hext', hbits⟩⟩
    rw [MemoryBloomFilter.setBits, foldlM_cons, hset]
    exact hrest

theorem contains_of_hasKeyBit (h : ∀ i < f.numHashFunctions, f.HasKeyBit key f.bits i) :
    f.contains key = some true := by
  have hall : ∀ is : List ℕ, (∀ i ∈ is, f.HasKeyBit key f.bits i) →
      is.allM (fun i => f.getBitPosition key i >>= f.getBit) = some true := by
    intro is his
    induction is with
    | nil => rfl
    | cons i is ih =>
      obtain ⟨⟨pos, hpos, b, hb, hset⟩, hrest⟩ := forall_mem_cons.mp his
      have hget : (f.getBitPosition key i >>= f.getBit) = some true := by simp [hpos, getBit, hb, hset]
      rw [allM, hget]
      exact ih hrest
  exact hall _ fun i hi => h i (mem_range.mp hi)

/-! ## Runs -/

/-- A call changes the bits and the number of items, and an insert sets the bits of its key. -/
theorem Roomy.exec (h : f.Roomy f.bits) (call : BloomCall) : ∃ bits n,
      f.exec call = some { f with bits, numItems := n } ∧ Extends f.bits bits ∧
        ∀ key, call = .insert key → ∀ i < f.numHashFunctions, f.HasKeyBit key bits i := by
  cases call with
  | insert key =>
    obtain ⟨bits, hset, hext, hbits⟩ := h.setBits key (range f.numHashFunctions)
    refine ⟨bits, f.numItems + 1, ?_, hext, ?_⟩
    · rw [MemoryBloomFilter.exec, insert, hset, Option.map_some]
    · rintro _ ⟨⟩ i hi
      exact hbits i (mem_range.mpr hi)
  | restore => exact ⟨f.bits, 0, rfl, ⟨rfl, fun _ => id⟩, nofun⟩

/-- The keys found before the calls and those inserted by them are found behind them. -/
theorem Roomy.run (h : f.Roomy f.bits) {P : Bytes → Prop}
    (hP : ∀ key, P key → ∀ i < f.numHashFunctions, f.HasKeyBit key f.bits i) (calls : List BloomCall) :
    ∃ f', calls.foldlM MemoryBloomFilter.exec f = some f' ∧
      ∀ key, P key ∨ .insert key ∈ calls → f'.contains key = some true := by
  induction calls generalizing f P with
  | nil => exact ⟨f, rfl, fun key hkey => contains_of_hasKeyBit (hP key (by simpa using hkey))⟩
  | cons call calls ih =>
    obtain ⟨bits, n, hcall, hext, hkey⟩ := h.exec call
    obtain ⟨f', hrest, hfound⟩ := ih (f := { f with bits, numItems := n })
      (P := fun key => P key ∨ call = .insert key) ⟨h.1, hext.1 ▸ h.2⟩ fun key hheld i hi =>
        hheld.elim (fun hold => (hP key hold i hi).mono hext) fun hnew => hkey key hnew i hi
    refine ⟨f', ?_, fun key hmem => hfound key ?_⟩
    · rw [foldlM_cons, hcall]
      exact hrest
    · simpa [or_assoc, eq_comm] using hmem

/-- **A key that was inserted is found**, whatever was inserted before or after it and however often the
filter was restored from its bytes. -/
theorem contains_inserted (numItems bitsPerKey numHashFunctions : ℕ) (h : 0 < numItems * bitsPerKey)
    (calls : List BloomCall) : ∃ f, calls.foldlM exec (new numItems bitsPerKey numHashFunctions) = some f ∧
      ∀ key, .insert key ∈ calls → f.contains key = some true := by
  have hnew : (new numItems bitsPerKey numHashFunctions).Roomy (new numItems bitsPerKey numHashFunctions).bits :=
    ⟨h, by simp [new]; omega⟩
  obtain ⟨f, hcalls, hfound⟩ := hnew.run (P := fun _ => False) nofun calls
  exact ⟨f, hcalls, fun key hmem => hfound key (.inr hmem)⟩

/-- Two keys, restored after the first, in ten bits. -/
theorem contains_inserted_restored : ∃ f, [.insert [1], .restore, .insert [2]].foldlM exec (new 1 10 3) = some f ∧
      f.contains [1] = some true :=
  have ⟨f, hcalls, hkeys⟩ := contains_inserted 1 10 3 (by decide) [.insert [1], .restore, .insert [2]]
  ⟨f, hcalls, hkeys [1] (by simp)⟩

end MemoryBloomFilter

end NanoStore.Table
