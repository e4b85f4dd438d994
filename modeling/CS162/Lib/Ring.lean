import Mathlib

/-!
# Circular buffers

The elements of a circular buffer of `n` slots, from `tail` up to but not including `head`.
One slot stays free, so that the two positions agree only when the buffer is empty.
-/

namespace CS162.Ring

open List Function

variable {α : Type*} {n head tail : ℕ} {buf : ℕ → α}

def next (n pos : ℕ) : ℕ :=
  (pos + 1) % n

def count (n tail head : ℕ) : ℕ :=
  (n + head - tail) % n

def elems (n : ℕ) (buf : ℕ → α) (tail head : ℕ) : List α :=
  (range (count n tail head)).map fun k => buf ((tail + k) % n)

theorem next_lt (hn : 0 < n) (pos : ℕ) : next n pos < n :=
  Nat.mod_lt _ hn

theorem next_eq {pos : ℕ} (h : pos < n) : next n pos = if pos + 1 = n then 0 else pos + 1 := by
  rw [next]
  split_ifs with hlast
  · rw [hlast, Nat.mod_self]
  · exact Nat.mod_eq_of_lt (by omega)

theorem count_eq (hh : head < n) (ht : tail < n) :
    count n tail head = if tail ≤ head then head - tail else n + head - tail := by
  rw [count]
  split_ifs with hle
  · rw [Nat.add_sub_assoc hle, Nat.add_mod_left, Nat.mod_eq_of_lt (by omega)]
  · exact Nat.mod_eq_of_lt (by omega)

theorem slot_eq {k : ℕ} (ht : tail < n) (hk : k < n) :
    (tail + k) % n = if tail + k < n then tail + k else tail + k - n := by
  split_ifs with hlt
  · exact Nat.mod_eq_of_lt hlt
  · rw [Nat.mod_eq_sub_mod (by omega), Nat.mod_eq_of_lt (by omega)]

theorem next_inj (hh : head < n) (ht : tail < n) (h : next n head = next n tail) : head = tail := by
  rw [next_eq hh, next_eq ht] at h
  split_ifs at h <;> omega

theorem elems_self (buf : ℕ → α) (pos : ℕ) : elems n buf pos pos = [] := by
  rw [elems, count, Nat.add_sub_cancel, Nat.mod_self]
  rfl

theorem elems_push (hh : head < n) (ht : tail < n) (hfull : next n head ≠ tail) (x : α) :
    elems n (update buf head x) tail (next n head) = elems n buf tail head ++ [x] := by
  have hn : 0 < n := by omega
  have hcount : count n tail (next n head) = count n tail head + 1 := by
    rw [count_eq (next_lt hn head) ht, count_eq hh ht]
    rw [next_eq hh] at hfull ⊢
    split_ifs at * <;> omega
  have hlt : count n tail head < n := Nat.mod_lt _ hn
  rw [elems, hcount, range_succ, map_append, map_singleton]
  congr 1
  · -- the slots in use are not the one that is written
    refine map_congr_left fun k hk => update_of_ne ?_ ..
    have hk' := mem_range.mp hk
    rw [slot_eq ht (hk'.trans hlt)]
    rw [count_eq hh ht] at hk'
    split_ifs at * <;> omega
  · have hslot : (tail + count n tail head) % n = head := by
      rw [slot_eq ht hlt, count_eq hh ht]
      split_ifs <;> omega
    rw [hslot, update_self]

theorem elems_pop (hh : head < n) (ht : tail < n) (hne : head ≠ tail) :
    elems n buf tail head = buf tail :: elems n buf (next n tail) head := by
  have hn : 0 < n := by omega
  have hcount : count n tail head = count n (next n tail) head + 1 := by
    rw [count_eq hh ht, count_eq hh (next_lt hn tail), next_eq ht]
    split_ifs <;> omega
  rw [elems, hcount, range_succ_eq_map, map_cons, Nat.add_zero, Nat.mod_eq_of_lt ht, map_map]
  congr 1
  refine map_congr_left fun k _ => ?_
  change buf ((tail + (k + 1)) % n) = buf ((next n tail + k) % n)
  rw [next, Nat.mod_add_mod, Nat.add_assoc, Nat.add_comm 1 k]

end CS162.Ring
