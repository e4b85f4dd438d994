import CS162.Filesys.Cache
import CS162.Lib.Prog

/-!
# Inodes and the free map

The state of the file system and the functions of `filesys/inode.c` and
`filesys/free-map.c`, as one thread runs them.  The on-disk inode is a sector of bytes with
its fields at their offsets.  `free_map_allocate` writes the free map to its file, which can
allocate again; each such call finds one free sector less.
-/

namespace CS162.Filesys

open List

/-- The counters are without width here; `Fs.narrow` gives them that of an `int`. -/
structure Inode where
  sector : ℕ
  openCnt : ℤ
  removed : Bool
  denyWriteCnt : ℤ
  deriving DecidableEq, Repr

structure File where
  inode : ℕ
  pos : ℕ
  denyWrite : Bool
  deriving DecidableEq, Repr

/-- The file system: the cache over `fs_device`, the bits of `free_map` and the file it
is kept in, the heap of inodes and files, the list `open_inodes`, the working
directories of the threads in the order of `all_list` and the place of the running
thread among them. -/
structure Fs where
  cache : Cache
  freeMap : ℕ → Bool
  freeMapFile : Option ℕ
  inodes : ℕ → Option Inode
  files : ℕ → Option File
  brk : ℕ
  openInodes : List ℕ
  cwds : List ℕ
  current : ℕ

/-- `thread_current ()->cwd`. -/
def Fs.cwd (σ : Fs) : ℕ :=
  σ.cwds.getD σ.current 0

abbrev Op (α : Type) : Type :=
  Prog Fs α

def getInode (p : ℕ) : Op Inode := fun σ =>
  (σ.inodes p).map fun i => (i, σ)

def getFile (f : ℕ) : Op File := fun σ =>
  (σ.files f).map fun i => (i, σ)

def setInode (p : ℕ) (i : Inode) : Op Unit :=
  modify fun σ => { σ with inodes := Function.update σ.inodes p (some i) }

def cacheRead (sector size offset : ℕ) : Op (Block size) := fun σ =>
  (σ.cache.bufferCacheRead sector size offset).map fun r => (r.2, { σ with cache := r.1 })

def cacheWrite (sector : ℕ) {size : ℕ} (data : Block size) (offset : ℕ) : Op Unit := fun σ =>
  (σ.cache.bufferCacheWrite sector data offset).map fun c => ((), { σ with cache := c })

def readBlock (sector : ℕ) : Op Sector :=
  cacheRead sector 512 0

def writeBlock (sector : ℕ) (d : Sector) : Op Unit :=
  cacheWrite sector d 0

def readPtr (sector offset : ℕ) : Op ℕ := do
  return (← cacheRead sector 4 offset).u32 0

/-- `struct inode_disk`: `direct[122]`, then `singly_indirect`, `doubly_indirect`,
`length`, `is_dir`, `parent` and `magic`. -/
abbrev InodeDisk : Type :=
  Sector

namespace InodeDisk

def direct (d : InodeDisk) (i : ℕ) : ℕ :=
  d.u32 (4 * i)

def singlyIndirect (d : InodeDisk) : ℕ :=
  d.u32 488

def doublyIndirect (d : InodeDisk) : ℕ :=
  d.u32 492

def lengthBits (d : InodeDisk) : ℕ :=
  d.u32 496

def length (d : InodeDisk) : ℤ :=
  if d.lengthBits < 2 ^ 31 then d.lengthBits else d.lengthBits - 2 ^ 32

def isDir (d : InodeDisk) : Bool :=
  d.byte 500 != 0

end InodeDisk

def inodeMagic : ℕ :=
  0x494e4f44

/-- The largest length of a file: `FS_LIMIT - sizeof (struct inode_disk)`. -/
def maxLength : ℕ :=
  2 ^ 23 - 512

def noSector : ℕ :=
  2 ^ 32 - 1

inductive SectorLevel where
  | direct
  | singlyIndirect
  | doublyIndirect
  deriving DecidableEq, Repr

def determineLevel (sectorIdx : ℕ) : SectorLevel :=
  if sectorIdx < 122 then .direct
  else if sectorIdx < 122 + 128 then .singlyIndirect
  else .doublyIndirect

/-- `bytes_to_sectors`: a signed division whose result is taken as a `size_t`. -/
def bytesToSectors (size : ℤ) : ℕ :=
  ((size + 511).tdiv 512 % 2 ^ 32).toNat

/-- `byte_to_sector`.  The index blocks are read at the byte offset of the index. -/
def byteToSector (inode : Inode) (pos : ℤ) : Op ℕ := do
  let d ← readBlock inode.sector
  if pos ≥ InodeDisk.length d then
    return noSector
  else
    let sectorIdx := (pos.tdiv 512 % 2 ^ 32).toNat
    match determineLevel sectorIdx with
    | .direct => return InodeDisk.direct d sectorIdx
    | .singlyIndirect => readPtr (InodeDisk.singlyIndirect d) (sectorIdx - 122)
    | .doublyIndirect => do
      let i := sectorIdx - 122 - 128
      let p ← readPtr (InodeDisk.doublyIndirect d) (i / 128)
      readPtr p (i % 128)

def inodeLength (inode : Inode) : Op ℤ := do
  return InodeDisk.length (← readBlock inode.sector)

def inodeIsdir (inode : Inode) : Op Bool := do
  return InodeDisk.isDir (← readBlock inode.sector)

/-- `thread_contain_cwd`.  Its comparison is an assignment: the first thread takes
`sector` as its working directory, and all threads do when it is sector 0. -/
def threadContainCwd (sector : ℕ) : Op Bool := do
  let σ ← get
  if sector = 0 then
    modify fun σ => { σ with cwds := σ.cwds.map fun _ => 0 }
    return false
  else
    modify fun σ => { σ with cwds := σ.cwds.modifyHead fun _ => sector }
    return !σ.cwds.isEmpty

def inodeIsdepend (inode : Inode) : Op Bool := do
  let contained ← threadContainCwd inode.sector
  return 0 < inode.openCnt || contained

/-- How many bytes one round of the loops of `inode_read_at` and `inode_write_at`
moves. -/
def chunkSize (size offset : ℕ) (inodeLength : ℤ) : ℤ :=
  min (size : ℤ) (min (inodeLength - offset) (512 - offset % 512))

/-- The loop of `inode_read_at`.  A round reads at least one byte or is the last one, so
`size` rounds are enough. -/
def readLoop (inode : Inode) : ℕ → ℕ → ℕ → List UInt8 → Op (List UInt8)
  | 0, _, _, buffer => return buffer
  | fuel + 1, size, offset, buffer => do
    if size = 0 then
      return buffer
    else
      let sectorIdx ← byteToSector inode offset
      let chunk := chunkSize size offset (← inodeLength inode)
      if chunk ≤ 0 then
        return buffer
      else
        let bytes ← cacheRead sectorIdx chunk.toNat (offset % 512)
        readLoop inode fuel (size - chunk.toNat) (offset + chunk.toNat)
          (buffer ++ ofFn bytes)

/-- `inode_read_at`: the bytes it stores into the buffer.  It returns their number.  The sum of
offset and size is an `off_t`, and there is no result when it overflows. -/
def inodeReadAt (p size offset : ℕ) : Op (List UInt8) := do
  let inode ← getInode p
  if 2 ^ 31 ≤ offset + size then
    failure
  else if (← byteToSector inode ((offset : ℤ) + size - 1)) = noSector then
    return []
  else
    readLoop inode size size offset []

/-! ### Allocation

The functions up to `inode_write_at` take `free_map_allocate` for one sector as an
argument, because it calls them in turn. -/

section Alloc

variable (alloc : Op (Option ℕ))

/-- `inode_allocate`.  Returns the inode as it is left in memory. -/
def inodeAllocate (d : InodeDisk) : Op (Bool × InodeDisk) := do
  match ← alloc with
  | none => return (false, d)
  | some s =>
    let d := d.setU32 488 s
    writeBlock s fun _ => 0
    match ← alloc with
    | none => return (false, d)
    | some s' =>
      let d := d.setU32 492 s'
      writeBlock s' fun _ => 0
      return (true, d)

/-- A sector is allocated and cleared. -/
def allocZeroed : Op (Option ℕ) := do
  match ← alloc with
  | none => return none
  | some s =>
    writeBlock s fun _ => 0
    return some s

/-- One round of the loop of `inode_extend`.  A direct sector is recorded and not
cleared; the others are cleared and not recorded. -/
def extendSector (d : InodeDisk) (sectorIdx : ℕ) : Op (Bool × InodeDisk) :=
  match determineLevel sectorIdx with
  | .direct => do
    match ← alloc with
    | none => return (false, d)
    | some s => return (true, d.setU32 (4 * sectorIdx) s)
  | .singlyIndirect => do
    let _ ← readPtr (InodeDisk.singlyIndirect d) (sectorIdx - 122)
    match ← allocZeroed alloc with
    | none => return (false, d)
    | some _ => return (true, d)
  | .doublyIndirect => do
    let i := sectorIdx - 122 - 128
    let p ← readPtr (InodeDisk.doublyIndirect d) (i / 128)
    match ← (if i % 128 = 0 then allocZeroed alloc else return some p) with
    | none => return (false, d)
    | some p =>
      let _ ← readPtr p (i % 128)
      match ← allocZeroed alloc with
      | none => return (false, d)
      | some _ => return (true, d)

def extendLoop : InodeDisk → List ℕ → Op (Bool × InodeDisk)
  | d, [] => return (true, d)
  | d, sectorIdx :: rest => do
    let (ok, d) ← extendSector alloc d sectorIdx
    if ok then extendLoop d rest else return (false, d)

/-- `inode_extend`.  The comparison with the old length is unsigned. -/
def inodeExtend (d : InodeDisk) (length : ℕ) : Op (Bool × InodeDisk) := do
  if InodeDisk.lengthBits d > length then
    return (false, d)
  else if length > maxLength then
    return (false, d)
  else
    let cur := bytesToSectors (InodeDisk.length d)
    let (ok, d) ← extendLoop alloc d (range' cur (bytesToSectors length - cur))
    if ok then return (true, d.setU32 496 length) else return (false, d)

/-- The loop of `inode_write_at`; returns the number of bytes written.  A round writes
at least one byte or is the last one. -/
def writeLoop (inode : Inode) {n : ℕ} (buffer : Block n) : ℕ → ℕ → ℕ → ℕ → Op ℕ
  | 0, _, _, written => return written
  | fuel + 1, size, offset, written => do
    if size = 0 then
      return written
    else
      let sectorIdx ← byteToSector inode offset
      let chunk := chunkSize size offset (← inodeLength inode)
      if chunk ≤ 0 then
        return written
      else
        cacheWrite sectorIdx (buffer.slice written chunk.toNat) (offset % 512)
        writeLoop inode buffer fuel (size - chunk.toNat) (offset + chunk.toNat)
          (written + chunk.toNat)

/-- The extension at the start of `inode_write_at`.  The inode it extends is a copy that
is freed again.  There is no result when the sum that is the offset overflows. -/
def extendForWrite (inode : Inode) (necessaryOffset : ℕ) : Op Bool := do
  if 2 ^ 31 ≤ necessaryOffset then
    failure
  else if (← byteToSector inode necessaryOffset) = noSector then
    let d ← readBlock inode.sector
    let (ok, _) ← inodeExtend alloc d necessaryOffset
    return ok
  else
    return true

/-- `inode_write_at` up to its loop; `none` when it returns 0 there. -/
def beginWrite (p size offset : ℕ) : Op (Option Inode) := do
  let inode ← getInode p
  if inode.denyWriteCnt ≠ 0 then
    return none
  else if ← extendForWrite alloc inode (offset + size) then
    return some inode
  else
    return none

def inodeWriteAt (p : ℕ) {size : ℕ} (buffer : Block size) (offset : ℕ) : Op ℕ := do
  match ← beginWrite alloc p size offset with
  | none => return 0
  | some inode => writeLoop inode buffer size size offset 0

end Alloc

/-- `bitmap_file_size`: whole words of four bytes. -/
def bitmapFileSize (bitCnt : ℕ) : ℕ :=
  4 * ((bitCnt + 31) / 32)

def bitmapByte (bits : ℕ → Bool) (bitCnt k : ℕ) : UInt8 :=
  UInt8.ofNat <| ((range 8).map fun j =>
    if 8 * k + j < bitCnt ∧ bits (8 * k + j) then 2 ^ j else 0).sum

def bitmapBytes (bits : ℕ → Bool) (bitCnt : ℕ) : Block (bitmapFileSize bitCnt) :=
  fun k => bitmapByte bits bitCnt k

/-- `bitmap_scan` for a group of clear bits from the first bit on. -/
def bitmapScan (bits : ℕ → Bool) (bitCnt cnt : ℕ) : Option ℕ :=
  if cnt ≤ bitCnt then
    (range (bitCnt - cnt + 1)).find? fun i =>
      (range cnt).all fun j => !bits (i + j)
  else
    none

def bitmapSetMultiple (bits : ℕ → Bool) (start cnt : ℕ) (value : Bool) : ℕ → Bool :=
  fun i => if start ≤ i ∧ i < start + cnt then value else bits i

/-- `bitmap_write` of the free map to the file `f`.  `inode_write_at` copies the bits as
they are once it has extended the file. -/
def bitmapWrite (alloc : Op (Option ℕ)) (f : ℕ) : Op Bool := do
  let σ ← get
  let file ← getFile f
  let size := bitmapFileSize σ.cache.blockSize
  match ← beginWrite alloc file.inode size 0 with
  | none => return size = 0
  | some inode => do
    let σ ← get
    let bits := bitmapBytes σ.freeMap σ.cache.blockSize
    let written ← writeLoop inode bits size size 0 0
    return written = size

/-- `free_map_allocate` with calls inside one another up to a depth. -/
def allocateDepth : ℕ → ℕ → Op (Option ℕ)
  | 0, _ => failure
  | depth + 1, cnt => do
    let σ ← get
    match bitmapScan σ.freeMap σ.cache.blockSize cnt with
    | none => return none
    | some sector =>
      modify fun σ => { σ with freeMap := bitmapSetMultiple σ.freeMap sector cnt true }
      match σ.freeMapFile with
      | none => return some sector
      | some f =>
        if ← bitmapWrite (allocateDepth depth 1) f then
          return some sector
        else
          modify fun σ =>
            { σ with freeMap := bitmapSetMultiple σ.freeMap sector cnt false }
          return none

/-- `free_map_allocate`.  Returns the first sector of the group. -/
def freeMapAllocate (cnt : ℕ) : Op (Option ℕ) := do
  let σ ← get
  allocateDepth (σ.cache.blockSize + 1) cnt

/-- `free_map_release`.  Fails on the assertion that the sectors are marked used, and
when there is no free map file. -/
def freeMapRelease (sector cnt : ℕ) : Op Unit := do
  let σ ← get
  if (range cnt).all fun j => sector + j < σ.cache.blockSize && σ.freeMap (sector + j)
  then
    modify fun σ => { σ with freeMap := bitmapSetMultiple σ.freeMap sector cnt false }
    match σ.freeMapFile with
    | none => failure
    | some f =>
      let _ ← bitmapWrite (freeMapAllocate 1) f
      return ()
  else
    failure

/-- `inode_create`.  `inode_extend` runs even when `inode_allocate` has failed, and the
inode is written in any case. -/
def inodeCreate (sector length : ℕ) : Op Bool := do
  if length ≤ maxLength then
    let d : InodeDisk := Block.setU32 (fun _ => 0) 508 inodeMagic
    let (allocated, d) ← inodeAllocate (freeMapAllocate 1) d
    let (extended, d) ← inodeExtend (freeMapAllocate 1) d length
    writeBlock sector d
    return extended && allocated
  else
    failure

def deallocateSector (d : InodeDisk) (sectorIdx : ℕ) : Op Unit :=
  match determineLevel sectorIdx with
  | .direct => freeMapRelease (InodeDisk.direct d sectorIdx) 1
  | .singlyIndirect => do
    let p ← readPtr (InodeDisk.singlyIndirect d) (sectorIdx - 122)
    freeMapRelease p 1
  | .doublyIndirect => do
    let i := sectorIdx - 122 - 128
    let p ← readPtr (InodeDisk.doublyIndirect d) (i / 128)
    let q ← readPtr p (i % 128)
    freeMapRelease q 1
    if i % 128 = 127 then
      let p ← readPtr (InodeDisk.doublyIndirect d) (i / 128)
      freeMapRelease p 1

def deallocateLoop (d : InodeDisk) : List ℕ → Op Unit
  | [] => return ()
  | sectorIdx :: rest => do
    deallocateSector d sectorIdx
    deallocateLoop d rest

def inodeDeallocate (d : InodeDisk) : Op Unit :=
  deallocateLoop d (range (bytesToSectors (InodeDisk.length d)))

/-- The first inode of a list of pointers that is on the given sector. -/
def findInode (σ : Fs) (sector : ℕ) : List ℕ → Option (ℕ × Inode)
  | [] => none
  | p :: ps =>
    match σ.inodes p with
    | none => none
    | some i => if i.sector = sector then some (p, i) else findInode σ sector ps

def inodeReopen (p : ℕ) : Op Unit := do
  let i ← getInode p
  setInode p { i with openCnt := i.openCnt + 1 }

def inodeOpen (sector : ℕ) : Op ℕ := do
  let σ ← get
  match findInode σ sector σ.openInodes with
  | some (p, _) =>
    inodeReopen p
    return p
  | none =>
    let p := σ.brk
    modify fun σ => { σ with brk := p + 1, openInodes := p :: σ.openInodes }
    setInode p ⟨sector, 1, false, 0⟩
    return p

def inodeClose (p : ℕ) : Op Unit := do
  let i ← getInode p
  let i := { i with openCnt := i.openCnt - 1 }
  setInode p i
  if i.openCnt = 0 then
    modify fun σ => { σ with openInodes := σ.openInodes.erase p }
    if i.removed then
      let d ← readBlock i.sector
      inodeDeallocate d
    modify fun σ => { σ with inodes := Function.update σ.inodes p none }

def inodeRemove (p : ℕ) : Op Unit := do
  let i ← getInode p
  setInode p { i with removed := true }

end CS162.Filesys
