import Mathlib

/-!
# Blocks of bytes

A block is a fixed number of bytes.  A stretch of a block is a smaller block, and a block is
written over a stretch of another one.  Numbers are stored in four bytes, the lowest first.
-/

namespace CS162

abbrev Block (n : ℕ) : Type :=
  Fin n → UInt8

namespace Block

variable {n m : ℕ} {b c : Block n} {data : Block m} {off size i x : ℕ}

def byte (b : Block n) (i : ℕ) : UInt8 :=
  if h : i < n then b ⟨i, h⟩ else 0

def slice (b : Block n) (off size : ℕ) : Block size :=
  fun i => b.byte (off + i)

def write (b : Block n) (off : ℕ) (data : Block m) : Block n :=
  fun i => if off ≤ i ∧ i < off + m then data.byte (i - off) else b i

def ofList (l : List UInt8) : Block l.length :=
  fun i => l.get i

theorem byte_of_lt (h : i < n) : b.byte i = b ⟨i, h⟩ :=
  dif_pos h

theorem ext_byte (h : ∀ i, i < n → b.byte i = c.byte i) : b = c := by
  funext i
  have hi := h i i.isLt
  rwa [byte_of_lt i.isLt, byte_of_lt i.isLt] at hi

theorem byte_slice (h : i < size) : (b.slice off size).byte i = b.byte (off + i) :=
  byte_of_lt h

@[simp] theorem slice_full : b.slice 0 n = b := by
  apply ext_byte
  intro i hi
  rw [byte_slice hi, Nat.zero_add]

theorem byte_write (h : i < n) :
    (b.write off data).byte i =
      if off ≤ i ∧ i < off + m then data.byte (i - off) else b.byte i := by
  rw [byte_of_lt h, byte_of_lt h]
  rfl

theorem byte_write_inside (hn : i < n) (h : off ≤ i) (h' : i < off + m) :
    (b.write off data).byte i = data.byte (i - off) := by
  rw [byte_write hn, if_pos ⟨h, h'⟩]

theorem byte_write_outside (h : i < off ∨ off + m ≤ i) : (b.write off data).byte i = b.byte i := by
  by_cases hn : i < n
  · rw [byte_write hn, if_neg (by omega)]
  · simp [byte, hn]

@[simp] theorem write_full : b.write 0 c = c := by
  apply ext_byte
  intro i hi
  rw [byte_write_inside hi (by omega) (by omega), Nat.sub_zero]

/-- The number stored in the four bytes at an offset, the lowest byte first. -/
def u32 (b : Block n) (off : ℕ) : ℕ :=
  (b.byte off).toNat + 256 * (b.byte (off + 1)).toNat + 65536 * (b.byte (off + 2)).toNat +
    16777216 * (b.byte (off + 3)).toNat

def ofU32 (x : ℕ) : Block 4 :=
  fun i => UInt8.ofNat (x / 256 ^ (i : ℕ))

def setU32 (b : Block n) (off x : ℕ) : Block n :=
  b.write off (ofU32 x)

theorem u32_congr (h : ∀ i, off ≤ i → i < off + 4 → b.byte i = c.byte i) :
    b.u32 off = c.u32 off := by
  unfold u32
  rw [h off (by omega) (by omega), h (off + 1) (by omega) (by omega),
    h (off + 2) (by omega) (by omega), h (off + 3) (by omega) (by omega)]

theorem u32_setU32 (h : off + 4 ≤ n) (hx : x < 2 ^ 32) : (b.setU32 off x).u32 off = x := by
  have hbyte : ∀ k, k < 4 →
      ((b.setU32 off x).byte (off + k)).toNat = x / 256 ^ k % 256 := by
    intro k hk
    rw [setU32, byte_write_inside (by omega) (by omega) (by omega), Nat.add_sub_cancel_left,
      byte_of_lt hk, ofU32, UInt8.toNat_ofNat']
  have h0 := hbyte 0 (by omega)
  have h1 := hbyte 1 (by omega)
  have h2 := hbyte 2 (by omega)
  have h3 := hbyte 3 (by omega)
  rw [Nat.add_zero] at h0
  rw [u32, h0, h1, h2, h3]
  omega

theorem u32_setU32_of_disjoint {off' : ℕ} (h : off' + 4 ≤ off ∨ off + 4 ≤ off') :
    (b.setU32 off x).u32 off' = b.u32 off' := by
  apply u32_congr
  intro i h1 h2
  exact byte_write_outside (by omega)

@[simp] theorem byte_zero : byte (fun _ => 0 : Block n) i = 0 := by
  unfold byte
  split <;> rfl

@[simp] theorem u32_zero : u32 (fun _ => 0 : Block n) off = 0 := by
  simp [u32]

@[simp] theorem u32_slice : (b.slice off 4).u32 0 = b.u32 off := by
  rw [u32, u32, byte_slice (by omega), byte_slice (by omega), byte_slice (by omega),
    byte_slice (by omega), Nat.add_zero]

end Block

end CS162
