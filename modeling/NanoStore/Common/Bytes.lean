import Mathlib.Tactic
/-!
# Numbers as bytes, and files that are written in place

A number is written in a fixed number of bytes, the least first. A file is
a list that is overwritten from a position on: what was there before is
replaced, and a gap behind the old end is filled up. A file of slots of one
size is written slot by slot.
-/

open List

variable {n : ℕ}

namespace LittleEndian

/-- The lowest `w` bytes of a number. -/
def encode : ℕ → ℕ → List (Fin 256)
  | 0, _ => []
  | w + 1, n => Fin.ofNat 256 n :: encode w (n / 256)

/-- The number that some bytes stand for. -/
def decode : List (Fin 256) → ℕ
  | [] => 0
  | b :: bs => b + 256 * decode bs

variable {w : ℕ}

@[simp] theorem length_encode : (encode w n).length = w := by
  induction w generalizing n with
  | zero => rfl
  | succ w ih => rw [encode, length_cons, ih]

/-- A number too large is cut to its low bytes. -/
theorem decode_encode (w n : ℕ) : decode (encode w n) = n % 256 ^ w := by
  induction w generalizing n with
  | zero => rw [encode, decode, pow_zero, Nat.mod_one]
  | succ w ih =>
    rw [encode, decode, ih, pow_succ', Nat.mod_mul]
    rfl

theorem decode_encode_of_lt (h : n < 256 ^ w) : decode (encode w n) = n := by
  rw [decode_encode, Nat.mod_eq_of_lt h]

variable {bs : List (Fin 256)}

/-- The number read is below what the bytes can hold. -/
theorem decode_lt : decode bs < 256 ^ bs.length := by
  induction bs with
  | nil => exact Nat.one_pos
  | cons b bs ih =>
    have hb := b.isLt
    rw [decode, length_cons, pow_succ']
    omega

theorem decode_of_forall_zero (h : ∀ b ∈ bs, b = 0) : decode bs = 0 := by
  induction bs with
  | nil => rfl
  | cons b bs ih =>
    have hrest : decode bs = 0 := ih fun b' hb' => h b' (mem_cons_of_mem _ hb')
    rw [decode, hrest, h b mem_cons_self]
    rfl

end LittleEndian

namespace InPlace

variable {β : Type*} {file bytes : List β} {pos pos' len : ℕ}

/-- The elements from a position on, as many as there are. -/
def slice (file : List β) (pos len : ℕ) : List β := (file.drop pos).take len

variable {front back : List β}

theorem slice_append_left (h : front.length = len) :
    slice (front ++ back) 0 len = front := by
  rw [slice, drop_zero]
  exact take_left' h

theorem slice_append_right (h : front.length ≤ pos) :
    slice (front ++ back) pos len = slice back (pos - front.length) len := by
  rw [slice, slice, drop_append, drop_eq_nil_of_le h, nil_append]

/-- The file with `bytes` at `pos`; `zero` fills a gap. -/
def overwrite (zero : β) (file : List β) (pos : ℕ) (bytes : List β) : List β :=
  file.take pos ++ List.replicate (pos - file.length) zero ++ bytes ++ file.drop (pos + bytes.length)

variable {zero : β}

/-- A write past the end makes the file longer. -/
theorem length_overwrite : (overwrite zero file pos bytes).length = max file.length (pos + bytes.length) := by
  simp only [overwrite, length_append, length_take, length_replicate, length_drop]
  omega

theorem length_before :
    (file.take pos ++ List.replicate (pos - file.length) zero).length = pos := by
  rw [length_append, length_take, length_replicate]
  omega

theorem take_overwrite : (overwrite zero file pos bytes).take pos =
    file.take pos ++ List.replicate (pos - file.length) zero := by
  rw [overwrite, append_assoc]
  exact take_left' length_before

theorem drop_overwrite :
    (overwrite zero file pos bytes).drop pos = bytes ++ file.drop (pos + bytes.length) := by
  rw [overwrite, append_assoc]
  exact drop_left' length_before

theorem overwrite_length :
    overwrite zero file file.length bytes = file ++ bytes := by
  have hbehind : file.drop (file.length + bytes.length) = [] :=
    drop_eq_nil_of_le (Nat.le_add_right _ _)
  rw [overwrite, take_length, Nat.sub_self, hbehind]
  simp

/-- **Writes one behind the other are one write.** -/
theorem overwrite_append (bytes' : List β) :
    overwrite zero (overwrite zero file pos bytes) (pos + bytes.length) bytes' =
      overwrite zero file pos (bytes ++ bytes') := by
  have hlong : pos + bytes.length ≤ (overwrite zero file pos bytes).length := by
    rw [length_overwrite]
    exact le_max_right _ _
  have hbefore : (overwrite zero file pos bytes).take (pos + bytes.length) =
      file.take pos ++ List.replicate (pos - file.length) zero ++ bytes := by
    rw [overwrite]
    refine take_left' ?_
    rw [length_append, length_before]
  have hbehind : (overwrite zero file pos bytes).drop (pos + bytes.length + bytes'.length) =
      file.drop (pos + (bytes ++ bytes').length) := by
    rw [Nat.add_assoc, ← drop_drop, drop_overwrite, ← drop_drop, drop_left,
      drop_drop, length_append, Nat.add_assoc]
  conv_lhs => rw [overwrite, hbefore, hbehind, Nat.sub_eq_zero_of_le hlong]
  simp [overwrite, append_assoc]

/-- What is before a write stays. -/
theorem slice_overwrite_before (h : pos' + len ≤ pos) (hfile : pos' + len ≤ file.length) :
    slice (overwrite zero file pos bytes) pos' len = slice file pos' len := by
  have htake : ∀ l : List β, slice l pos' len = (l.take (pos' + len)).drop pos' := fun l => by
    rw [drop_take, Nat.add_sub_cancel_left, slice]
  have hpos : (overwrite zero file pos bytes).take (pos' + len) = file.take (pos' + len) := by
    have hmin : min (pos' + len) pos = pos' + len := min_eq_left h
    rw [← hmin, ← take_take, take_overwrite, hmin, take_append_of_le_length, take_take, hmin]
    rw [length_take]
    omega
  rw [htake, htake, hpos]

/-- So does what is behind it. -/
theorem slice_overwrite_behind (h : pos + bytes.length ≤ pos') :
    slice (overwrite zero file pos bytes) pos' len = slice file pos' len := by
  obtain ⟨gap, rfl⟩ := Nat.exists_eq_add_of_le h
  rw [slice, slice, Nat.add_assoc, ← drop_drop, drop_overwrite, ← drop_drop, drop_left,
    drop_drop, Nat.add_assoc]

/-- As many elements from a position on, filled up behind the end of the file. -/
def readAt (zero : β) (file : List β) (pos len : ℕ) : List β :=
  slice file pos len ++ List.replicate (len - (slice file pos len).length) zero

theorem readAt_eq_slice (h : pos + len ≤ file.length) : readAt zero file pos len = slice file pos len := by
  have hlen : (slice file pos len).length = len := by
    rw [slice, length_take, length_drop]
    omega
  rw [readAt, hlen, Nat.sub_self, replicate_zero, append_nil]

/-- Past the end are zeros. -/
theorem readAt_of_length_le (h : file.length ≤ pos) : readAt zero file pos len = List.replicate len zero := by
  have hnil : slice file pos len = [] := by
    rw [slice, drop_eq_nil_of_le h, take_nil]
  rw [readAt, hnil, nil_append, length_nil, Nat.sub_zero]

variable {size i j : ℕ}

/-- The slot with a number. -/
def slot (size : ℕ) (file : List β) (i : ℕ) : List β := slice file (i * size) size

/-- A slot that is written has the first of the bytes; the others spill over its end. -/
theorem slot_overwrite_of_le (h : size ≤ bytes.length) :
    slot size (overwrite zero file (i * size) bytes) i = bytes.take size := by
  rw [slot, slice, drop_overwrite, take_append_of_le_length h]

/-- A slot reads what was written to it. -/
theorem slot_overwrite_self (h : bytes.length = size) :
    slot size (overwrite zero file (i * size) bytes) i = bytes := by
  rw [slot_overwrite_of_le (le_of_eq h.symm), ← h, take_length]

/-- **A slot that is not written stays**, if it lies in the file. -/
theorem slot_overwrite_of_ne (h : bytes.length = size) (hne : j ≠ i) (hfile : (j + 1) * size ≤ file.length) :
    slot size (overwrite zero file (i * size) bytes) j = slot size file j := by
  have hj : j * size + size = (j + 1) * size := (Nat.succ_mul j size).symm
  have hi : i * size + size = (i + 1) * size := (Nat.succ_mul i size).symm
  rcases Nat.lt_or_gt_of_ne hne with hlt | hgt
  · have hle : (j + 1) * size ≤ i * size := Nat.mul_le_mul_right size hlt
    exact slice_overwrite_before (by omega) (by omega)
  · have hle : (i + 1) * size ≤ j * size := Nat.mul_le_mul_right size hgt
    exact slice_overwrite_behind (by omega)

/-- One slot was written: it is there, and the other slots of the old file stay. -/
structure Wrote (size : ℕ) (file : List β) (i : ℕ) (file' : List β) : Prop where
  length : file'.length = max file.length ((i + 1) * size)
  other : ∀ j, j ≠ i → (j + 1) * size ≤ file.length → slot size file' j = slot size file j

theorem wrote_overwrite (h : bytes.length = size) :
    Wrote size file i (overwrite zero file (i * size) bytes) := by
  refine ⟨?_, fun j hne hfile => slot_overwrite_of_ne h hne hfile⟩
  rw [length_overwrite, h, ← Nat.succ_mul]

theorem readAt_eq_slot (h : (i + 1) * size ≤ file.length) :
    readAt zero file (i * size) size = slot size file i := by
  refine readAt_eq_slice ?_
  rwa [← Nat.succ_mul]

/-- A cut leaves the slots before it. -/
theorem slot_take (hn : i < n) : slot size (file.take (n * size)) i = slot size file i := by
  have hle : (i + 1) * size ≤ n * size := Nat.mul_le_mul_right size hn
  rw [Nat.succ_mul] at hle
  rw [slot, slot, slice, slice, drop_take, take_take, min_eq_left (by omega)]

end InPlace
