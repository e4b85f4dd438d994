import Mathlib

/-!
# Memory

A memory has a byte at each address.  A word is four bytes, the lowest first.  A program
that writes to some bytes is described by what it leaves alone: `Same P m m'` says that
the bytes at the addresses in `P` are the same in both memories.
-/

namespace CS162

/-- The bytes at all addresses. -/
abbrev Mem : Type :=
  ℕ → UInt8

namespace Mem

variable {m m' m'' : Mem} {a b v n x src : ℕ} {P Q : ℕ → Prop} {value : UInt8}

def word (m : Mem) (a : ℕ) : ℕ :=
  (m a).toNat + 2 ^ 8 * (m (a + 1)).toNat + 2 ^ 16 * (m (a + 2)).toNat + 2 ^ 24 * (m (a + 3)).toNat

def setWord (m : Mem) (a v : ℕ) : Mem :=
  fun x => if a ≤ x ∧ x < a + 4 then UInt8.ofNat (v / 256 ^ (x - a)) else m x

def memset (m : Mem) (dst : ℕ) (value : UInt8) (size : ℕ) : Mem :=
  fun a => if dst ≤ a ∧ a < dst + size then value else m a

def memcpy (m : Mem) (dst src size : ℕ) : Mem :=
  fun a => if dst ≤ a ∧ a < dst + size then m (src + (a - dst)) else m a

def store (m : Mem) (dst : ℕ) (bytes : List UInt8) : Mem :=
  fun a => if dst ≤ a then bytes.getD (a - dst) (m a) else m a

/-- The memories have the same bytes at the addresses in `P`. -/
def Same (P : ℕ → Prop) (m m' : Mem) : Prop :=
  ∀ a, P a → m' a = m a

theorem word_lt (m : Mem) (a : ℕ) : m.word a < 2 ^ 32 := by
  have h0 := (m a).toNat_lt
  have h1 := (m (a + 1)).toNat_lt
  have h2 := (m (a + 2)).toNat_lt
  have h3 := (m (a + 3)).toNat_lt
  unfold word
  omega

theorem word_congr (h : ∀ x, a ≤ x → x < a + 4 → m' x = m x) : m'.word a = m.word a := by
  unfold word
  rw [h a (by omega) (by omega), h (a + 1) (by omega) (by omega), h (a + 2) (by omega) (by omega),
    h (a + 3) (by omega) (by omega)]

theorem word_eq_zero (h : ∀ x, a ≤ x → x < a + 4 → m x = 0) : m.word a = 0 := by
  unfold word
  rw [h a (by omega) (by omega), h (a + 1) (by omega) (by omega), h (a + 2) (by omega) (by omega),
    h (a + 3) (by omega) (by omega)]
  rfl

theorem setWord_byte (m : Mem) (a v : ℕ) {i : ℕ} (hi : i < 4) :
    ((m.setWord a v) (a + i)).toNat = v / 256 ^ i % 256 := by
  unfold setWord
  rw [if_pos (by omega), Nat.add_sub_cancel_left, UInt8.toNat_ofNat']

@[simp] theorem word_setWord (m : Mem) (a : ℕ) (hv : v < 2 ^ 32) : (m.setWord a v).word a = v := by
  have h₀ := setWord_byte m a v (i := 0) (by omega)
  have h₁ := setWord_byte m a v (i := 1) (by omega)
  have h₂ := setWord_byte m a v (i := 2) (by omega)
  have h₃ := setWord_byte m a v (i := 3) (by omega)
  rw [Nat.add_zero] at h₀
  unfold word
  rw [h₀, h₁, h₂, h₃]
  norm_num
  omega

theorem setWord_of_apart (h : x < a ∨ a + 4 ≤ x) : m.setWord a v x = m x :=
  if_neg (by omega)

theorem word_setWord_of_apart (h : a + 4 ≤ b ∨ b + 4 ≤ a) : (m.setWord b v).word a = m.word a :=
  word_congr fun x _ _ => setWord_of_apart (by omega)

theorem memset_of_mem (h : a ≤ x ∧ x < a + n) : m.memset a value n x = value :=
  if_pos h

theorem memset_of_apart (h : x < a ∨ a + n ≤ x) : m.memset a value n x = m x :=
  if_neg (by omega)

theorem word_memset_of_apart (h : a + 4 ≤ b ∨ b + n ≤ a) : (m.memset b value n).word a = m.word a :=
  word_congr fun x _ _ => memset_of_apart (by omega)

theorem memcpy_of_mem (h : a ≤ x ∧ x < a + n) : m.memcpy a src n x = m (src + (x - a)) :=
  if_pos h

theorem memcpy_of_apart (h : x < a ∨ a + n ≤ x) : m.memcpy a src n x = m x :=
  if_neg (by omega)

theorem store_of_mem {bytes : List UInt8} {i : ℕ} (h : i < bytes.length) :
    m.store a bytes (a + i) = bytes[i] := by
  rw [store, if_pos (Nat.le_add_right a i), Nat.add_sub_cancel_left,
    List.getD_eq_getElem?_getD, List.getElem?_eq_getElem h]
  rfl

theorem store_of_apart {bytes : List UInt8} (h : x < a ∨ a + bytes.length ≤ x) :
    m.store a bytes x = m x := by
  unfold store
  split_ifs with hle
  · rw [List.getD_eq_getElem?_getD, List.getElem?_eq_none (by omega)]
    rfl
  · rfl

theorem word_memcpy (h : a ≤ x ∧ x + 4 ≤ a + n) :
    (m.memcpy a src n).word x = m.word (src + (x - a)) := by
  have hbyte : ∀ i < 4, m.memcpy a src n (x + i) = m (src + (x - a) + i) := fun i hi => by
    rw [memcpy_of_mem (by omega)]
    congr 1
    omega
  have h0 := hbyte 0 (by omega)
  rw [Nat.add_zero, Nat.add_zero] at h0
  unfold word
  rw [h0, hbyte 1 (by omega), hbyte 2 (by omega), hbyte 3 (by omega)]

theorem Same.refl (P : ℕ → Prop) (m : Mem) : Same P m m :=
  fun _ _ => rfl

theorem Same.trans (h : Same P m m') (h' : Same P m' m'') : Same P m m'' :=
  fun a ha => (h' a ha).trans (h a ha)

theorem Same.mono (h : Same P m m') (hQ : ∀ a, Q a → P a) : Same Q m m' :=
  fun a ha => h a (hQ a ha)

theorem Same.word (h : Same P m m') (hP : ∀ x, a ≤ x → x < a + 4 → P x) : m'.word a = m.word a :=
  word_congr fun x hx hx' => h x (hP x hx hx')

theorem same_setWord (h : ∀ x, a ≤ x → x < a + 4 → ¬ P x) : Same P m (m.setWord a v) :=
  fun x hx => setWord_of_apart (by
    by_contra hmem
    exact h x (by omega) (by omega) hx)

theorem same_memset (h : ∀ x, a ≤ x → x < a + n → ¬ P x) : Same P m (m.memset a value n) :=
  fun x hx => memset_of_apart (by
    by_contra hmem
    exact h x (by omega) (by omega) hx)

end Mem

end CS162
