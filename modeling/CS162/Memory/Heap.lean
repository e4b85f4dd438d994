import CS162.Lib.Mem
import CS162.Threads.Vaddr

/-!
# The heap of a user program

`malloc`, `calloc`, `realloc` and `free` of `lib/user/stdlib.c`.  A block has a header of
sixteen bytes and its contents behind it.  `answers` says for each call of `sbrk` whether it
succeeds.
-/

namespace CS162.UserHeap

open Threads

/-- Memory, the variables of `stdlib.c`, the break, and what `sbrk` will answer. -/
structure Heap where
  mem : Mem
  baseBlock : ℕ
  startHeap : ℕ
  brk : ℕ
  answers : List Bool

def noBreak : ℕ :=
  2 ^ 32 - 1

def signed (n : ℕ) : ℤ :=
  if n % 2 ^ 32 < 2 ^ 31 then n % 2 ^ 32 else (n % 2 ^ 32 : ℤ) - 2 ^ 32

def sbrk (increment : ℤ) (h : Heap) : ℕ × Heap :=
  match h.answers with
  | [] => (noBreak, h)
  | answer :: answers =>
    if answer ∧ 0 ≤ h.brk + increment ∧ h.brk + increment ≤ loaderPhysBase then
      (h.brk, { h with brk := (h.brk + increment).toNat, answers })
    else (noBreak, { h with answers })

def zeroBlock (block : ℕ) (m : Mem) : Mem :=
  m.memset (block + 16) 0 (m.word block)

def clearBlock (block : ℕ) (m : Mem) : Mem :=
  zeroBlock block (m.setWord (block + 4) 1)

/-- `insert_block`.  Its two branches store the same: without a next block, `next` is null. -/
def insertBlock (preBlock insertBlock : ℕ) (m : Mem) : Mem :=
  let nxtBlock := m.word (preBlock + 12)
  ((m.setWord (preBlock + 12) insertBlock).setWord (insertBlock + 8) preBlock).setWord
    (insertBlock + 12) nxtBlock

def mergeBlock (down up : ℕ) (m : Mem) : Mem :=
  let m := m.setWord down ((2 ^ 32 + up - down + m.word up) % 2 ^ 32)
  m.setWord (down + 12) (m.word (up + 12))

/-- The fields of a new block that is in use. -/
def initBlock (block size prev : ℕ) (m : Mem) : Mem :=
  zeroBlock block ((((m.setWord block size).setWord (block + 4) 0).setWord (block + 8) prev).setWord
    (block + 12) 0)

/-- How the loop over the blocks ends: with a block that is free and large enough, or behind the
last block. -/
inductive Search where
  | found (block : ℕ)
  | last (block : ℕ)
  deriving DecidableEq, Repr

def searchLoop (m : Mem) (size : ℕ) : ℕ → ℕ → Option Search
  | 0, _ => none
  | fuel + 1, cur =>
    if m.word (cur + 4) = 1 ∧ size ≤ m.word cur then some (.found cur)
    else if m.word (cur + 12) = 0 then some (.last cur)
    else searchLoop m size fuel (m.word (cur + 12))

/-- A free block is taken, and split when the rest has room for a header. -/
def useBlock (size cur : ℕ) (m : Mem) : Mem :=
  if 16 ≤ m.word cur - size then
    let additional := cur + 16 + size
    let m := m.setWord additional (m.word cur - size - 16)
    let m := zeroBlock additional (m.setWord (additional + 4) 1)
    let m := zeroBlock cur ((m.setWord cur size).setWord (cur + 4) 0)
    insertBlock cur additional m
  else zeroBlock cur ((m.setWord cur size).setWord (cur + 4) 0)

/-- `mm_malloc`.  The blocks of the list have ascending addresses, so that the loop makes fewer
rounds than there are addresses. -/
def mmMalloc (size : ℕ) (h : Heap) : Option (ℕ × Heap) :=
  if size = 0 then some (0, h)
  else if h.baseBlock = 0 then
    let (startHeap, h) := sbrk 0 h
    -- what this call returns is not looked at
    let (_, h) := sbrk (signed (16 + size)) h
    some ((startHeap + 16) % 2 ^ 32, { h with
      startHeap, baseBlock := startHeap, mem := initBlock startHeap size 0 h.mem })
  else
    (searchLoop h.mem size (2 ^ 32) h.baseBlock).map fun
      | .found cur => (cur + 16, { h with mem := useBlock size cur h.mem })
      | .last pre =>
        let (curBrk, h) := sbrk (signed (16 + size)) h
        if curBrk = noBreak then (0, h)
        else (curBrk + 16, { h with mem := initBlock curBrk size pre h.mem })

/-- `mm_free`.  The links are read before the blocks are merged. -/
def mmFree (ptr : ℕ) (m : Mem) : Mem :=
  if ptr = 0 then m
  else
    let cur := ptr - 16
    let pre := m.word (cur + 8)
    let nxt := m.word (cur + 12)
    let (cur, m) :=
      if pre ≠ 0 ∧ m.word (pre + 4) = 1 then (pre, mergeBlock pre cur m) else (cur, m)
    let m := if nxt ≠ 0 ∧ m.word (nxt + 4) = 1 then mergeBlock cur nxt m else m
    clearBlock cur m

/-- `memcpy`, byte by byte from the first one on. -/
def copyBytes (dst src : ℕ) : ℕ → Mem → Mem
  | 0, m => m
  | size + 1, m => copyBytes (dst + 1) (src + 1) size (Function.update m dst (m src))

/-- `mm_realloc`.  As many bytes are copied as are asked for, also from a block that is smaller,
and a copy that leaves the pages of the heap ends the program. -/
def mmRealloc (ptr size : ℕ) (h : Heap) : Option (ℕ × Heap) :=
  if ptr = 0 then mmMalloc size h
  else if size = 0 then some (0, { h with mem := mmFree ptr h.mem })
  else
    (mmMalloc size h).bind fun (newPtr, h) =>
      if newPtr = 0 then some (0, h)
      else if ptr + size ≤ pgRoundUp h.brk then
        some (newPtr, { h with mem := mmFree ptr (copyBytes newPtr ptr size h.mem) })
      else none

/-- `calloc`.  The product is a `size_t`. -/
def calloc (nmemb size : ℕ) (h : Heap) : Option (ℕ × Heap) :=
  mmMalloc (nmemb * size % 2 ^ 32) h

def start (mem : Mem) (brk : ℕ) (answers : List Bool) : Heap :=
  ⟨mem, 0, 0, brk, answers⟩

end CS162.UserHeap
