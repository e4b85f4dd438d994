import CS162.Lib.Bytes
import CS162.Lib.Run

/-!
# The buffer cache

`filesys/cache.c` as one thread executes it.  The functions that other threads can run in the
middle of are cut into the sections between those points, so that the interleaved model
composes the same sections.  There is no result where the kernel panics or where C gives
the execution no meaning.  `malloc` succeeds.
-/

namespace CS162.Filesys

abbrev Sector : Type :=
  Block 512

structure CacheSector where
  sectorIdx : ℕ
  clockIdx : Fin 64
  dirty : Bool
  deriving DecidableEq, Repr

/-- The static variables of `cache.c`, the heap its structures live on and the block
device.  `heap` is `none` at an address that is not allocated; `brk` is the address
`malloc` returns next. -/
structure Cache where
  heap : ℕ → Option CacheSector
  brk : ℕ
  bufferCache : ℕ → Option ℕ
  cacheSectors : Fin 64 → Option ℕ
  bufferBase : Fin 64 → Sector
  clockIdx : Fin 64
  refbits : Fin 64 → Bool
  blockSize : ℕ
  disk : ℕ → Sector

namespace Cache

def blockRead (σ : Cache) (sector : ℕ) : Option Sector :=
  if sector < σ.blockSize then some (σ.disk sector) else none

def blockWrite (σ : Cache) (sector : ℕ) (c : Sector) : Option Cache :=
  if sector < σ.blockSize then
    some { σ with disk := Function.update σ.disk sector c }
  else
    none

def copyOut (σ : Cache) (slot : Fin 64) (size offset : ℕ) : Option (Block size) :=
  if offset + size ≤ 512 then some ((σ.bufferBase slot).slice offset size) else none

def copyIn (σ : Cache) (slot : Fin 64) {size : ℕ} (data : Block size) (offset : ℕ) :
    Option Cache :=
  if offset + size ≤ 512 then
    some { σ with bufferBase :=
      Function.update σ.bufferBase slot ((σ.bufferBase slot).write offset data) }
  else
    none

/-- `buffer_cache_find`.  The structure it allocates for the key is not kept. -/
def bufferCacheFind (σ : Cache) (sector : ℕ) : Option ℕ :=
  σ.bufferCache sector

def mallocEntry (σ : Cache) (e : CacheSector) : Cache :=
  { σ with heap := Function.update σ.heap σ.brk (some e), brk := σ.brk + 1 }

def setRefbit (σ : Cache) (slot : Fin 64) : Cache :=
  { σ with refbits := Function.update σ.refbits slot true }

/-- `buffer_cache_insert`.  `hash_replace` takes an entry of the same sector out of
the hash table first. -/
def bufferCacheInsert (σ : Cache) (p : ℕ) : Option Cache := do
  let e ← σ.heap p
  some { σ.setRefbit e.clockIdx with
    bufferCache := Function.update σ.bufferCache e.sectorIdx (some p)
    cacheSectors := Function.update σ.cacheSectors e.clockIdx (some p) }

/-- `buffer_cache_evict` up to `hash_delete`: a dirty victim is written to the
device. -/
def evictDump (σ : Cache) (p : ℕ) : Option Cache := do
  let e ← σ.heap p
  if e.dirty then σ.blockWrite e.sectorIdx (σ.bufferBase e.clockIdx) else some σ

def freeSlot (σ : Cache) (slot : Fin 64) : ℕ → Option CacheSector :=
  match σ.cacheSectors slot with
  | some q => Function.update σ.heap q none
  | none => σ.heap

/-- `buffer_cache_evict` from `hash_delete` on.  `hash_delete` takes out the entry it
finds for the victim's sector. -/
def evictDrop (σ : Cache) (p : ℕ) : Option Cache := do
  let e ← σ.heap p
  some { σ with
    bufferCache := Function.update σ.bufferCache e.sectorIdx none
    heap := σ.freeSlot e.clockIdx
    cacheSectors := Function.update σ.cacheSectors e.clockIdx none
    bufferBase := Function.update σ.bufferBase e.clockIdx fun _ => 0 }

def bufferCacheEvict (σ : Cache) : Option ℕ → Option Cache
  | none => some σ
  | some p => do
    let σ' ← σ.evictDump p
    σ'.evictDrop p

/-- `update_clock_idx`.  The body of its `while` loop ends in `return`, so the hand
moves by one slot at most. -/
def updateClockIdx (σ : Cache) : Cache :=
  if (List.finRange 64).all σ.refbits then
    { σ with refbits := fun _ => false, clockIdx := 0 }
  else if σ.refbits σ.clockIdx then
    { σ with clockIdx := σ.clockIdx + 1 }
  else
    σ

/-- What `read_from_disk` and `write_new_buffer` begin with: a new entry for the
sector takes the slot of the clock hand. -/
def replaceEntry (σ : Cache) (sector : ℕ) (clockHand : Fin 64) (dirty : Bool) :
    Option Cache := do
  let σ' := σ.mallocEntry ⟨sector, clockHand, dirty⟩
  let σ'' ← σ'.bufferCacheEvict (σ'.cacheSectors clockHand)
  σ''.bufferCacheInsert σ.brk

def fillFromDisk (σ : Cache) (sector : ℕ) (clockHand : Fin 64) (size offset : ℕ) :
    Option (Cache × Block size) := do
  let c ← σ.blockRead sector
  let σ' := { σ with bufferBase := Function.update σ.bufferBase clockHand c }
  let bytes ← σ'.copyOut clockHand size offset
  some (σ', bytes)

def readFromDisk (σ : Cache) (sector : ℕ) (clockHand : Fin 64) (size offset : ℕ) :
    Option (Cache × Block size) := do
  let σ' ← σ.replaceEntry sector clockHand false
  σ'.fillFromDisk sector clockHand size offset

def readFromBuffer (σ : Cache) (sector size offset : ℕ) :
    Option (Cache × Block size) := do
  let p ← σ.bufferCacheFind sector
  let e ← σ.heap p
  let bytes ← σ.copyOut e.clockIdx size offset
  some (σ.setRefbit e.clockIdx, bytes)

def writeExistBuffer (σ : Cache) (sector : ℕ) {size : ℕ} (data : Block size)
    (offset : ℕ) : Option Cache := do
  let p ← σ.bufferCacheFind sector
  let e ← σ.heap p
  let σ' := { σ with heap := Function.update σ.heap p (some { e with dirty := true }) }
  (σ'.setRefbit e.clockIdx).copyIn e.clockIdx data offset

def writeNewBuffer (σ : Cache) (sector : ℕ) {size : ℕ} (data : Block size)
    (clockHand : Fin 64) (offset : ℕ) : Option Cache := do
  let σ' ← σ.replaceEntry sector clockHand true
  σ'.copyIn clockHand data offset

def readLocked (σ : Cache) (sector : ℕ) (slot : Fin 64) (size offset : ℕ) :
    Option (Cache × Block size) :=
  match σ.bufferCacheFind sector with
  | none => σ.readFromDisk sector slot size offset
  | some _ => σ.readFromBuffer sector size offset

def writeLocked (σ : Cache) (sector : ℕ) {size : ℕ} (data : Block size) (slot : Fin 64)
    (offset : ℕ) : Option Cache :=
  match σ.bufferCacheFind sector with
  | none => σ.writeNewBuffer sector data slot offset
  | some _ => σ.writeExistBuffer sector data offset

def bufferCacheRead (σ : Cache) (sector size offset : ℕ) :
    Option (Cache × Block size) :=
  match σ.bufferCacheFind sector with
  | some p => do
    let e ← σ.heap p
    σ.readLocked sector e.clockIdx size offset
  | none =>
    let σ' := σ.updateClockIdx
    σ'.readLocked sector σ'.clockIdx size offset

def bufferCacheWrite (σ : Cache) (sector : ℕ) {size : ℕ} (data : Block size)
    (offset : ℕ) : Option Cache :=
  match σ.bufferCacheFind sector with
  | some p => do
    let e ← σ.heap p
    σ.writeLocked sector data e.clockIdx offset
  | none =>
    let σ' := σ.updateClockIdx
    σ'.writeLocked sector data σ'.clockIdx offset

def flushSlot (σ : Cache) (slot : Fin 64) : Option Cache :=
  match σ.cacheSectors slot with
  | none => some σ
  | some p => do
    let e ← σ.heap p
    if e.dirty then σ.blockWrite e.sectorIdx (σ.bufferBase slot) else some σ

def bufferCacheFlush (σ : Cache) : Option Cache :=
  Run.run flushSlot σ (List.finRange 64)

inductive Op where
  | read (sector size offset : ℕ)
  | write (sector : ℕ) (data : List UInt8) (offset : ℕ)
  | flush
  deriving DecidableEq, Repr

def step (σ : Cache) : Op → Option Cache
  | .read sector size offset => (σ.bufferCacheRead sector size offset).map Prod.fst
  | .write sector data offset => σ.bufferCacheWrite sector (Block.ofList data) offset
  | .flush => σ.bufferCacheFlush

/-- The cache after `buffer_cache_init`, over a device of `blockSize` sectors.  The
memory of the slots is not cleared. -/
def init (blockSize : ℕ) (disk : ℕ → Sector) (bufferBase : Fin 64 → Sector) : Cache where
  heap := fun _ => none
  brk := 0
  bufferCache := fun _ => none
  cacheSectors := fun _ => none
  bufferBase := bufferBase
  clockIdx := 0
  refbits := fun _ => false
  blockSize := blockSize
  disk := disk

/-- A call that stays inside the device and inside one slot. -/
def Op.InRange (blockSize : ℕ) : Op → Prop
  | .read sector size offset => sector < blockSize ∧ offset + size ≤ 512
  | .write sector data offset => sector < blockSize ∧ offset + data.length ≤ 512
  | .flush => True

end Cache

end CS162.Filesys
