import CS162.Filesys.CacheIndex

/-!
# The buffer cache under several threads

A thread can be descheduled where it acquires a slot lock and inside the block device.  A
thread that misses looks the sector up again once it has the lock, but gives up the processor
once more when its victim is dirty, and inserts its entry without a third look.  A thread that
hits goes on with the entry it found, though that may have been evicted and freed while it waited
for the lock.  Where no thread does that, hash table and slots agree exactly when no other
thread caches a sector while it is being inserted.
-/

namespace CS162.Filesys

open Function

inductive Request where
  | read (sector size offset : ℕ)
  | write (sector : ℕ) (data : List UInt8) (offset : ℕ)
  deriving DecidableEq, Repr

def Request.sector : Request → ℕ
  | .read sector _ _ => sector
  | .write sector _ _ => sector

def Request.dirty : Request → Bool
  | .read .. => false
  | .write .. => true

/-- Where a thread is.  `home` is the entry the thread found at first, if it found one:
the slot it fills and the lock it releases are then read from that entry. -/
inductive Pc where
  /-- outside the cache -/
  | idle
  /-- acquiring the lock of the slot of the entry it found -/
  | hit (r : Request) (entry : ℕ) (slot : Fin 64)
  /-- acquiring the lock of the slot of the clock hand -/
  | miss (r : Request) (clockHand : Fin 64)
  /-- inside `block_write`, dumping the victim that its new entry replaces -/
  | dump (r : Request) (clockHand : Fin 64) (entry victim : ℕ) (home : Option ℕ)
  /-- inside `block_read`, filling its slot -/
  | fill (r : Request) (clockHand : Fin 64) (home : Option ℕ)
  deriving DecidableEq, Repr

/-- The cache, the holders of the slot locks and the threads. -/
structure Pool where
  cache : Cache
  sectorLocks : Fin 64 → Option ℕ
  pc : ℕ → Pc

namespace Pool

/-- `entry->clock_idx` of the entry found at first, or the clock hand.  If the entry has been
freed the memory reads as `stale`; there is no slot behind the last one. -/
def homeSlot (π : Pool) (stale : ℕ) (clockHand : Fin 64) : Option ℕ → Option (Fin 64)
  | none => some clockHand
  | some entry =>
    match π.cache.heap entry with
    | some e => some e.clockIdx
    | none => if h : stale < 64 then some ⟨stale, h⟩ else none

def release (π : Pool) (t stale : ℕ) (clockHand : Fin 64) (home : Option ℕ) : Option Pool := do
  let slot ← π.homeSlot stale clockHand home
  if π.sectorLocks slot = some t then
    some { π with
      sectorLocks := update π.sectorLocks slot none
      pc := update π.pc t .idle }
  else
    none

/-- `read_from_disk` and `write_new_buffer` after `buffer_cache_insert`: the first goes
into `block_read`. -/
def afterInsert (π : Pool) (t stale : ℕ) (r : Request) (clockHand : Fin 64)
    (home : Option ℕ) : Option Pool :=
  match r with
  | .read .. => some { π with pc := update π.pc t (.fill r clockHand home) }
  | .write _ data offset => do
    let σ ← π.cache.copyIn clockHand (Block.ofList data) offset
    release { π with cache := σ } t stale clockHand home

/-- `read_from_disk` and `write_new_buffer` once the victim, if there is one, has been
dumped. -/
def install (π : Pool) (t stale : ℕ) (r : Request) (clockHand : Fin 64) (entry : ℕ)
    (victim : Option ℕ) (home : Option ℕ) : Option Pool := do
  let σ ← match victim with
    | none => some π.cache
    | some v => π.cache.evictDrop v
  let σ' ← σ.bufferCacheInsert entry
  afterInsert { π with cache := σ' } t stale r clockHand home

/-- `read_from_disk` and `write_new_buffer` from their start: a dirty victim takes the
thread into `block_write`. -/
def startMiss (π : Pool) (t stale : ℕ) (r : Request) (clockHand : Fin 64) (home : Option ℕ) :
    Option Pool :=
  let π' := { π with cache := π.cache.mallocEntry ⟨r.sector, clockHand, r.dirty⟩ }
  match π.cache.cacheSectors clockHand with
  | none => π'.install t stale r clockHand π.cache.brk none home
  | some v => do
    let e ← π'.cache.heap v
    if e.dirty then
      some { π' with
        pc := update π.pc t (.dump r clockHand π.cache.brk v home) }
    else
      π'.install t stale r clockHand π.cache.brk (some v) home

/-- `read_from_buffer` or `write_exist_buffer`. -/
def onHit (σ : Cache) : Request → Option Cache
  | .read sector size offset => (σ.readFromBuffer sector size offset).map Prod.fst
  | .write sector data offset => σ.writeExistBuffer sector (Block.ofList data) offset

/-- A thread that waits for a slot lock gets it and looks the sector up again.  `entry->clock_idx`
is read once for the slot and once for the lock. -/
def locked (π : Pool) (t hand stale : ℕ) (r : Request) (slot : Fin 64) (home : Option ℕ) :
    Option Pool :=
  if π.sectorLocks slot = none then
    let π' := { π with sectorLocks := update π.sectorLocks slot (some t) }
    match π.cache.bufferCacheFind r.sector with
    | none => do
      let clockHand ← π'.homeSlot hand slot home
      π'.startMiss t stale r clockHand home
    | some _ => do
      let σ ← onHit π.cache r
      release { π' with cache := σ } t stale slot home
  else
    none

/-- A thread calls the cache, or goes on; `hand` and `stale` are what the memory of a freed entry
reads as in that step. -/
inductive Act where
  | call (t : ℕ) (r : Request)
  | resume (t hand stale : ℕ)
  deriving DecidableEq, Repr

def step (π : Pool) : Act → Option Pool
  | .call t r =>
    if π.pc t = .idle then
      match π.cache.bufferCacheFind r.sector with
      | some p => do
        let e ← π.cache.heap p
        some { π with pc := update π.pc t (.hit r p e.clockIdx) }
      | none =>
        let σ := π.cache.updateClockIdx
        some { π with cache := σ, pc := update π.pc t (.miss r σ.clockIdx) }
    else
      none
  | .resume t hand stale =>
    match π.pc t with
    | .idle => none
    | .hit r p slot => π.locked t hand stale r slot (some p)
    | .miss r clockHand => π.locked t hand stale r clockHand none
    | .dump r clockHand entry victim home => do
      let σ ← π.cache.evictDump victim
      install { π with cache := σ } t stale r clockHand entry (some victim) home
    | .fill r clockHand home =>
      match r with
      | .read sector size offset => do
        let (σ, _) ← π.cache.fillFromDisk sector clockHand size offset
        release { π with cache := σ } t stale clockHand home
      | .write .. => none

def start (n : ℕ) (disk : ℕ → Sector) (base : Fin 64 → Sector) : Pool where
  cache := Cache.init n disk base
  sectorLocks := fun _ => none
  pc := fun _ => .idle

/-- The hash table finds sector `s` at slot `i`. -/
def FoundAt (σ : Cache) (s : ℕ) (i : Fin 64) : Prop :=
  ∃ p e, σ.bufferCache s = some p ∧ σ.heap p = some e ∧ e.clockIdx = i

/-- Slot `i` of `cache_sectors` holds sector `s`. -/
def HeldIn (σ : Cache) (s : ℕ) (i : Fin 64) : Prop :=
  ∃ p e, σ.cacheSectors i = some p ∧ σ.heap p = some e ∧ e.sectorIdx = s

/-- No sector is in two slots, and the hash table finds a sector exactly at the slot
that holds it. -/
def OneCopy (π : Pool) : Prop :=
  (∀ s i j, HeldIn π.cache s i → HeldIn π.cache s j → i = j) ∧
    ∀ s i, FoundAt π.cache s i ↔ HeldIn π.cache s i

/-- A thread that comes back from dumping its victim does not find that its sector has
been cached meanwhile. -/
def StillMissing (π : Pool) : Act → Prop
  | .call .. => True
  | .resume t _ _ =>
    match π.pc t with
    | .dump r _ _ _ _ => π.cache.bufferCache r.sector = none
    | _ => True

instance (π : Pool) : (a : Act) → Decidable (π.StillMissing a)
  | .call _ _ => inferInstanceAs (Decidable True)
  | .resume t _ _ =>
    match h : π.pc t with
    | .dump r _ _ _ _ =>
      decidable_of_iff (π.cache.bufferCache r.sector = none) (by simp only [StillMissing, h])
    | .idle | .hit _ _ _ | .miss _ _ | .fill _ _ _ => isTrue (by simp only [StillMissing, h])

/-- The entry that a thread found at first, whose `clock_idx` it reads again when it goes on. -/
def found : Pc → Option ℕ
  | .hit _ p _ => some p
  | .dump _ _ _ _ home => home
  | .fill _ _ home => home
  | .idle | .miss _ _ => none

/-- A thread does not go on with an entry that has been freed. -/
def Alive (π : Pool) : Act → Prop
  | .call .. => True
  | .resume t _ _ => ∀ p ∈ found (π.pc t), (π.cache.heap p).isSome

instance (π : Pool) : (a : Act) → Decidable (π.Alive a)
  | .call _ _ => inferInstanceAs (Decidable True)
  | .resume t _ _ => inferInstanceAs (Decidable (∀ p ∈ found (π.pc t), (π.cache.heap p).isSome))

end Pool

end CS162.Filesys
