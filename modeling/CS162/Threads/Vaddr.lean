import Mathlib

/-!
# Virtual addresses

The constants and functions of `threads/vaddr.h` and `threads/loader.h`.  Addresses are
numbers below `2 ^ 32`.
-/

namespace CS162.Threads

def pgSize : ℕ :=
  4096

/-- `LOADER_PHYS_BASE`: physical memory is mapped from here on. -/
def loaderPhysBase : ℕ :=
  0xc0000000

def pgOfs (va : ℕ) : ℕ :=
  va % pgSize

def pgNo (va : ℕ) : ℕ :=
  va / pgSize

def pgRoundUp (va : ℕ) : ℕ :=
  (va + pgSize - 1) % 2 ^ 32 / pgSize * pgSize

def pgRoundDown (va : ℕ) : ℕ :=
  va / pgSize * pgSize

theorem pgRoundUp_eq {va : ℕ} (h : va ≤ loaderPhysBase) :
    pgRoundUp va = pgSize * ((va + 4095) / 4096) := by
  unfold pgRoundUp loaderPhysBase pgSize at *
  omega

theorem le_pgRoundUp {va : ℕ} (h : va ≤ loaderPhysBase) : va ≤ pgRoundUp va := by
  rw [pgRoundUp_eq h]
  unfold pgSize
  omega

def isUserVaddr (vaddr : ℕ) : Prop :=
  vaddr < loaderPhysBase

instance (vaddr : ℕ) : Decidable (isUserVaddr vaddr) :=
  inferInstanceAs (Decidable (_ < _))

/-- `ptov`, which fails on its assertion. -/
def ptov (paddr : ℕ) : Option ℕ :=
  if paddr < loaderPhysBase then some ((paddr + loaderPhysBase) % 2 ^ 32) else none

/-- `vtop`, which fails on its assertion. -/
def vtop (vaddr : ℕ) : Option ℕ :=
  if isUserVaddr vaddr then none else some (vaddr - loaderPhysBase)

end CS162.Threads
