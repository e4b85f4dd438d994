import CS162.LibKernel.List
import CS162.Threads.Palloc

/-!
# The kernel heap

`threads/malloc.c` over the bytes of memory.  A failed assertion has no result.  A call is
told what `palloc_get_multiple` returns, should it ask for pages, and the pages that the heap
holds are kept in `held`.  The sizes in the descriptors never change after `malloc_init` and
are read from the table `ds`.
-/

namespace CS162.Threads

open LibKernel

/-- `struct desc`, at the address `addr`. -/
structure Desc where
  addr : ℕ
  blockSize : ℕ
  blocksPerArena : ℕ
  deriving DecidableEq, Repr

def Desc.freeList (d : Desc) : ℕ :=
  d.addr + 8

def sizeofDesc : ℕ :=
  60

def sizeofArena : ℕ :=
  12

def arenaMagic : ℕ :=
  0x9a548eed

/-- The memory, and the pages that the heap has obtained and not given back. -/
structure KHeap where
  mem : Mem
  held : List Grant

/-- The loop of `malloc_init` from the descriptor `i` on; there is room for ten. -/
def descLoop (descs : ℕ) : ℕ → ℕ → ℕ → List Desc
  | 0, _, _ => []
  | fuel + 1, i, blockSize =>
    if blockSize < pgSize / 2 then
      ⟨descs + i * sizeofDesc, blockSize, (pgSize - sizeofArena) / blockSize⟩ ::
        descLoop descs fuel (i + 1) (blockSize * 2)
    else
      []

/-- The descriptors that `malloc_init` makes in the array at `descs`. -/
def descTable (descs : ℕ) : List Desc :=
  descLoop descs 10 0 16

/-- `malloc_init`: the free lists are empty. -/
def mallocInit (ds : List Desc) (m : Mem) : Mem :=
  ds.foldl (fun m d => listInit d.freeList m) m

def magic (m : Mem) (a : ℕ) : ℕ :=
  m.word a

def descPtr (m : Mem) (a : ℕ) : ℕ :=
  m.word (a + 4)

def freeCnt (m : Mem) (a : ℕ) : ℕ :=
  m.word (a + 8)

def setFreeCnt (m : Mem) (a v : ℕ) : Mem :=
  m.setWord (a + 8) v

def initArena (m : Mem) (a desc cnt : ℕ) : Mem :=
  ((m.setWord a arenaMagic).setWord (a + 4) desc).setWord (a + 8) cnt

def findDesc (ds : List Desc) (ptr : ℕ) : Option Desc :=
  ds.find? fun d => d.addr = ptr

/-- `block_to_arena`.  A pointer that leads to no descriptor has no result. -/
def blockToArena (ds : List Desc) (b : ℕ) (m : Mem) : Option ℕ :=
  let a := pgRoundDown b
  if a ≠ 0 ∧ magic m a = arenaMagic then
    if descPtr m a = 0 then
      if pgOfs b = sizeofArena then some a else none
    else
      (findDesc ds (descPtr m a)).bind fun d =>
        if (pgOfs b + 2 ^ 32 - sizeofArena) % 2 ^ 32 % d.blockSize = 0 then some a else none
  else
    none

def arenaToBlock (ds : List Desc) (a idx : ℕ) (m : Mem) : Option ℕ :=
  if a ≠ 0 ∧ magic m a = arenaMagic then
    (findDesc ds (descPtr m a)).bind fun d =>
      if idx < d.blocksPerArena then some (a + sizeofArena + idx * d.blockSize) else none
  else
    none

/-- The loop of `malloc` that adds the blocks of a new arena to the free list. -/
def addBlocks (ds : List Desc) (d : Desc) (a : ℕ) : List ℕ → Mem → Option Mem
  | [], m => some m
  | i :: is, m =>
    (arenaToBlock ds a i m).bind fun b =>
      (listPushBack d.freeList b m).bind (addBlocks ds d a is)

/-- The loop of `free` that removes the blocks of an arena from the free list. -/
def removeBlocks (ds : List Desc) (a : ℕ) : List ℕ → Mem → Option Mem
  | [], m => some m
  | i :: is, m =>
    (arenaToBlock ds a i m).bind fun b => (listRemove b m).bind (removeBlocks ds a is)

namespace KHeap

/-- `palloc_get_multiple`, which returns `pages` unless no page is asked for. -/
def getMultiple (pages : Option ℕ) (cnt : ℕ) (h : KHeap) : Option ℕ × KHeap :=
  if cnt = 0 then
    (none, h)
  else
    match pages with
    | none => (none, h)
    | some a => (some a, { h with held := ⟨false, a, cnt⟩ :: h.held })

/-- `palloc_free_multiple`, for pages that are held. -/
def freeMultiple (a cnt : ℕ) (h : KHeap) : Option KHeap :=
  if ⟨false, a, cnt⟩ ∈ h.held then
    some ⟨h.mem.memset a 0xcc (pgSize * cnt), h.held.erase ⟨false, a, cnt⟩⟩
  else
    none

/-- The number of pages that `malloc` asks for when no descriptor is big enough. -/
def bigPageCnt (size : ℕ) : ℕ :=
  ((size + sizeofArena) % 2 ^ 32 + pgSize - 1) % 2 ^ 32 / pgSize

def mallocBig (pages : Option ℕ) (size : ℕ) (h : KHeap) : ℕ × KHeap :=
  match h.getMultiple pages (bigPageCnt size) with
  | (none, h) => (0, h)
  | (some a, h) => (a + sizeofArena, { h with mem := initArena h.mem a 0 (bigPageCnt size) })

/-- The part of `malloc` that makes sure that the free list has a block; `none` inside when
there is no page. -/
def refill (ds : List Desc) (d : Desc) (pages : Option ℕ) (h : KHeap) : Option (Option KHeap) :=
  if listEmpty d.freeList h.mem then
    match h.getMultiple pages 1 with
    | (none, _) => some none
    | (some a, h) =>
      let m := initArena h.mem a d.addr d.blocksPerArena
      (addBlocks ds d a (List.range d.blocksPerArena) m).map fun m => some { h with mem := m }
  else
    some (some h)

def takeBlock (ds : List Desc) (d : Desc) (h : KHeap) : Option (ℕ × KHeap) :=
  (listPopFront d.freeList h.mem).bind fun (b, m) =>
    (blockToArena ds b m).map fun a =>
      (b, { h with mem := setFreeCnt m a ((freeCnt m a + 2 ^ 32 - 1) % 2 ^ 32) })

/-- `malloc`.  The null pointer is zero. -/
def malloc (ds : List Desc) (pages : Option ℕ) (size : ℕ) (h : KHeap) : Option (ℕ × KHeap) :=
  if size = 0 then
    some (0, h)
  else
    match ds.find? fun d => size ≤ d.blockSize with
    | none => some (h.mallocBig pages size)
    | some d => (h.refill ds d pages).bind fun
        | none => some (0, h)
        | some h => h.takeBlock ds d

def calloc (ds : List Desc) (pages : Option ℕ) (a b : ℕ) (h : KHeap) : Option (ℕ × KHeap) :=
  let size := a * b % 2 ^ 32
  if size < a ∨ size < b then
    some (0, h)
  else
    (h.malloc ds pages size).map fun (p, h) =>
      (p, if p ≠ 0 then { h with mem := h.mem.memset p 0 size } else h)

def blockSize (ds : List Desc) (block : ℕ) (h : KHeap) : Option ℕ :=
  (blockToArena ds block h.mem).bind fun a =>
    if descPtr h.mem a = 0 then
      some ((pgSize * freeCnt h.mem a + 2 ^ 32 - pgOfs block) % 2 ^ 32)
    else
      (findDesc ds (descPtr h.mem a)).map Desc.blockSize

/-- The part of `free` that puts the block `b` of the arena `a` on the free list. -/
def putBlock (d : Desc) (b a : ℕ) (h : KHeap) : Option KHeap :=
  (listPushFront d.freeList b (h.mem.memset b 0xcc d.blockSize)).map fun m =>
    { h with mem := setFreeCnt m a ((freeCnt m a + 1) % 2 ^ 32) }

/-- The part of `free` that gives back the page of an arena without live blocks. -/
def dropArena (ds : List Desc) (d : Desc) (a : ℕ) (h : KHeap) : Option KHeap :=
  if d.blocksPerArena ≤ freeCnt h.mem a then
    if freeCnt h.mem a = d.blocksPerArena then
      (removeBlocks ds a (List.range d.blocksPerArena) h.mem).bind fun m =>
        freeMultiple a 1 { h with mem := m }
    else
      none
  else
    some h

def free (ds : List Desc) (p : ℕ) (h : KHeap) : Option KHeap :=
  if p = 0 then
    some h
  else
    (blockToArena ds p h.mem).bind fun a =>
      if descPtr h.mem a = 0 then
        h.freeMultiple a (freeCnt h.mem a)
      else
        (findDesc ds (descPtr h.mem a)).bind fun d =>
          (h.putBlock d p a).bind (dropArena ds d a)

def realloc (ds : List Desc) (pages : Option ℕ) (old newSize : ℕ) (h : KHeap) :
    Option (ℕ × KHeap) :=
  if newSize = 0 then
    (h.free ds old).map fun h => (0, h)
  else
    (h.malloc ds pages newSize).bind fun (new, h) =>
      if old ≠ 0 ∧ new ≠ 0 then
        (h.blockSize ds old).bind fun oldSize =>
          let minSize := if newSize < oldSize then newSize else oldSize
          (free ds old { h with mem := h.mem.memcpy new old minSize }).map fun h => (new, h)
      else
        some (new, h)

end KHeap

end CS162.Threads
