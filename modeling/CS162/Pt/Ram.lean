import Mathlib

/-!
# Simulated memory

`src/ram.c` of the page table homework.  The memory is kept in chunks that are allocated when
they are first looked at; `realloc` does not fail.  The loops of `ram_store` and `ram_fetch`
do not advance the address, so bytes that go on in the next chunk are taken from the place
where the first ones were.
-/

namespace CS162.Pt

def chunkSize : ℕ :=
  2 ^ 22

def maxChunks : ℕ :=
  2 ^ 14

/-- The globals of `ram.c`; an entry of `chunk_table` that is negative is none. -/
structure Ram where
  chunkTable : ℕ → Option ℕ
  chunks : ℕ → ℕ → UInt8
  numChunks : ℕ

def getChunk (idx : ℕ) (r : Ram) : Option (ℕ × Ram) :=
  if idx < maxChunks then
    match r.chunkTable idx with
    | some entry => some (entry, r)
    | none => some (r.numChunks, { r with
        chunkTable := Function.update r.chunkTable idx (some r.numChunks)
        numChunks := r.numChunks + 1 })
  else none

def Ram.slice (r : Ram) (chunk offset len : ℕ) : List UInt8 :=
  (List.range len).map fun i => r.chunks chunk (offset + i)

/-- The loop of `ram_fetch`; a round takes a byte at least. -/
def ramFetchLoop (addr : ℕ) : ℕ → ℕ → Ram → Option (List UInt8 × Ram)
  | 0, _, r => some ([], r)
  | fuel + 1, len, r =>
    if len = 0 then some ([], r)
    else (getChunk (addr / chunkSize) r).bind fun (chunk, r) =>
      let offset := addr % chunkSize
      let amountInChunk := chunkSize - offset
      if len ≤ amountInChunk then some (r.slice chunk offset len, r)
      else (ramFetchLoop addr fuel (len - amountInChunk) r).map fun (bytes, r) =>
        (r.slice chunk offset amountInChunk ++ bytes, r)

def ramFetch (addr len : ℕ) (r : Ram) : Option (List UInt8 × Ram) :=
  ramFetchLoop addr len len r

def Ram.write (r : Ram) (chunk offset : ℕ) (bytes : List UInt8) : Ram :=
  { r with chunks := Function.update r.chunks chunk fun i =>
      if offset ≤ i then bytes.getD (i - offset) (r.chunks chunk i) else r.chunks chunk i }

/-- The loop of `ram_store`; a round takes a byte at least. -/
def ramStoreLoop (addr : ℕ) : ℕ → List UInt8 → Ram → Option Ram
  | 0, _, r => some r
  | fuel + 1, buf, r =>
    if buf.length = 0 then some r
    else (getChunk (addr / chunkSize) r).bind fun (chunk, r) =>
      let offset := addr % chunkSize
      let amountInChunk := chunkSize - offset
      if buf.length ≤ amountInChunk then some (r.write chunk offset buf)
      else ramStoreLoop addr fuel (buf.drop amountInChunk)
        (r.write chunk offset (buf.take amountInChunk))

def ramStore (addr : ℕ) (buf : List UInt8) (r : Ram) : Option Ram :=
  ramStoreLoop addr buf.length buf r

/-- `ram_init`; `contents` is what the allocator will leave in new chunks. -/
def ramInit (contents : ℕ → ℕ → UInt8) : Ram :=
  ⟨fun _ => none, contents, 0⟩

/-- The chunk of an address has been allocated: the memory has contents there. -/
def Ram.Has (r : Ram) (addr : ℕ) : Prop :=
  (r.chunkTable (addr / chunkSize)).isSome

def Ram.byte (r : Ram) (addr : ℕ) : UInt8 :=
  r.chunks ((r.chunkTable (addr / chunkSize)).getD 0) (addr % chunkSize)

theorem ramFetch_eq {r : Ram} {addr len : ℕ} (hr : r.Has addr)
    (haddr : addr < maxChunks * chunkSize) (hlen : len ≠ 0)
    (hin : addr % chunkSize + len ≤ chunkSize) :
    ramFetch addr len r = some ((List.range len).map fun i => r.byte (addr + i), r) := by
  have hidx : addr / chunkSize < maxChunks := Nat.div_lt_of_lt_mul (by rwa [Nat.mul_comm])
  obtain ⟨entry, hentry⟩ := Option.isSome_iff_exists.mp hr
  have hchunk : getChunk (addr / chunkSize) r = some (entry, r) := by
    rw [getChunk, if_pos hidx, hentry]
  obtain ⟨n, rfl⟩ := Nat.exists_eq_succ_of_ne_zero hlen
  rw [ramFetch, ramFetchLoop, if_neg hlen, hchunk, Option.bind_some]
  dsimp only
  rw [if_pos (by omega), Ram.slice]
  refine congrArg (fun l => some (l, r)) (List.map_congr_left fun i hi => ?_)
  -- the address of each byte is in the same chunk
  have hi' : i < n + 1 := List.mem_range.mp hi
  have hdiv : (addr + i) / chunkSize = addr / chunkSize := by
    unfold chunkSize at *
    omega
  have hmod : (addr + i) % chunkSize = addr % chunkSize + i := by
    unfold chunkSize at *
    omega
  rw [Ram.byte, hdiv, hmod, hentry]
  rfl

end CS162.Pt
