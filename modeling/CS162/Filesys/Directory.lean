import CS162.Filesys.Inode

/-!
# Directories, paths and files

The functions of `filesys/directory.c`, `filesys/file.c` and `filesys/filesys.c`.  A
directory is a file of twenty-byte entries: four bytes of inode sector, fifteen bytes of name
and the `in_use` byte.  A `struct dir` is opened at position zero.
-/

namespace CS162.Filesys

open Block

abbrev CString : Type :=
  List UInt8

/-- The bytes of a `struct dir_entry`. -/
abbrev DirEntry : Type :=
  List UInt8

namespace DirEntry

def inodeSector (e : DirEntry) : ℕ :=
  (ofList e).u32 0

def name (e : DirEntry) : CString :=
  ((e.drop 4).take 15).takeWhile (· != 0)

def inUse (e : DirEntry) : Bool :=
  e.getD 19 0 != 0

/-- The entry `dir_add` stores: `strlcpy` keeps the bytes behind the terminator. -/
def add (e : DirEntry) (name : CString) (sector : ℕ) : DirEntry :=
  List.ofFn (ofU32 sector) ++
    (name.take 14 ++ [0] ++ ((e.drop 4).take 15).drop (min name.length 14 + 1)) ++ [1]

def remove (e : DirEntry) : DirEntry :=
  e.take 19 ++ [0]

end DirEntry

/-- More rounds than a loop over the entries of a directory can make: a position is
less than two to the power of thirty-one. -/
def dirFuel : ℕ :=
  2 ^ 31 / 20 + 1

/-- What `directory.c` uses of an inode: its reads and writes, and the calls on the inodes
of the entries. -/
structure DirStore (S I : Type) where
  readAt : ℕ → ℕ → Prog S (List UInt8)
  writeAt : List UInt8 → ℕ → Prog S ℕ
  openInode : ℕ → Prog S (Option I)
  removeInode : I → Prog S Unit
  closeInode : I → Prog S Unit

namespace DirStore

variable {S I : Type}

def lookupLoop (st : DirStore S I) (name : CString) : ℕ → ℕ → Prog S (Option (DirEntry × ℕ))
  | 0, _ => failure
  | fuel + 1, ofs => do
    let e ← st.readAt 20 ofs
    if e.length = 20 then
      if DirEntry.inUse e && name = DirEntry.name e then
        return some (e, ofs)
      else
        lookupLoop st name fuel (ofs + 20)
    else
      return none

def lookup (st : DirStore S I) (name : CString) : Prog S (Option (DirEntry × ℕ)) :=
  st.lookupLoop name dirFuel 0

def dirLookup (st : DirStore S I) (name : CString) : Prog S (Option I) := do
  match ← st.lookup name with
  | some (e, _) => st.openInode (DirEntry.inodeSector e)
  | none => return none

/-- The loop of `dir_add` that looks for a free entry; `last` is the entry read last. -/
def freeSlotLoop (st : DirStore S I) : ℕ → ℕ → DirEntry → Prog S (DirEntry × ℕ)
  | 0, _, _ => failure
  | fuel + 1, ofs, last => do
    let e ← st.readAt 20 ofs
    if e.length = 20 then
      if DirEntry.inUse e then freeSlotLoop st fuel (ofs + 20) e else return (e, ofs)
    else
      return (last, ofs)

def dirAdd (st : DirStore S I) (name : CString) (inodeSector : ℕ) : Prog S Bool := do
  if name = [] ∨ name.length > 14 then
    return false
  else
    match ← st.lookup name with
    | some _ => return false
    | none =>
      let (e, ofs) ← st.freeSlotLoop dirFuel 0 (List.replicate 20 0)
      let n ← st.writeAt (DirEntry.add e name inodeSector) ofs
      return n = 20

def dirRemove (st : DirStore S I) (name : CString) : Prog S Bool := do
  match ← st.lookup name with
  | none => return false
  | some (e, ofs) =>
    match ← st.openInode (DirEntry.inodeSector e) with
    | none => return false
    | some p =>
      let n ← st.writeAt (DirEntry.remove e) ofs
      if n = 20 then
        st.removeInode p
        st.closeInode p
        return true
      else
        st.closeInode p
        return false

end DirStore

/-- An inode of the file system as a store. -/
def inodeStore (dir : ℕ) : DirStore Fs ℕ where
  readAt := inodeReadAt dir
  writeAt e ofs := inodeWriteAt (freeMapAllocate 1) dir (ofList e) ofs
  openInode sector := return some (← inodeOpen sector)
  removeInode := inodeRemove
  closeInode := inodeClose

section Inodes

variable (dir : ℕ) (name : CString)

def lookup : Op (Option (DirEntry × ℕ)) :=
  (inodeStore dir).lookup name

def dirLookup : Op (Option ℕ) :=
  (inodeStore dir).dirLookup name

def dirAdd (inodeSector : ℕ) : Op Bool :=
  (inodeStore dir).dirAdd name inodeSector

def dirRemove : Op Bool :=
  (inodeStore dir).dirRemove name

end Inodes

/-- The loop of `dir_readdir` at position `pos`.  No name is both `.` and `..`, so an
entry that can be read is read again and again. -/
def readdirLoop (dir pos : ℕ) : ℕ → Op (Option CString)
  | 0 => failure
  | fuel + 1 => do
    let e ← inodeReadAt dir 20 pos
    if e.length = 20 then
      if DirEntry.name e ≠ [46] ∨ DirEntry.name e ≠ [46, 46] then
        readdirLoop dir pos fuel
      else if DirEntry.inUse e then
        return some (DirEntry.name e)
      else
        readdirLoop dir (pos + 20) fuel
    else
      return none

/-- `get_next_part`: the result, the part it copies and the rest of the string. -/
inductive NextPart where
  | done
  | part (name rest : CString)
  | tooLong
  deriving DecidableEq, Repr

def getNextPart (src : CString) : NextPart :=
  let src := src.dropWhile (· == 47)
  if src = [] then
    .done
  else
    let name := src.takeWhile (· != 47)
    if name.length ≤ 14 then .part name (src.dropWhile (· != 47)) else .tooLong

/-- The state of the loop of `parse_path`: the inodes `curr` and `next`, the last part
and the rest of the path. -/
structure Walk where
  curr : ℕ
  next : Option ℕ
  name : CString
  rest : CString

section Over

variable (lookup : ℕ → CString → Op (Option ℕ)) (isdir : ℕ → Op Bool)

/-- The loop of `parse_path`, over any `dir_lookup` and `inode_isdir`.  The last `struct dir` is
not closed, because `curr` is still in use. -/
def walkOver : ℕ → Walk → Op Walk
  | 0, w => return w
  | fuel + 1, w =>
    match getNextPart w.rest with
    | .done => return w
    | .tooLong => return w
    | .part name rest => do
      match ← lookup w.curr name with
      | none => return { w with next := none, name := name, rest := rest }
      | some q =>
        if ← isdir q then
          inodeClose w.curr
          walkOver fuel ⟨q, some q, name, rest⟩
        else
          return { w with next := some q, name := name, rest := rest }

def Walk.result (w : Walk) : Op (Option (ℕ × CString)) :=
  match getNextPart w.rest with
  | .done =>
    if w.next = some w.curr then
      return some (w.curr, [46])
    else do
      match w.next with
      | some q => inodeClose q
      | none => pure ()
      return some (w.curr, w.name)
  | _ => return none

/-- `parse_path`: the directory and the name in it.  A path has fewer parts than
bytes. -/
def parsePathOver (path : CString) : Op (Option (ℕ × CString)) := do
  if path = [] then
    return none
  else
    let σ ← get
    let curr ← inodeOpen (if path.head? = some 47 then 1 else σ.cwd)
    let w ← walkOver lookup isdir (path.length + 1) ⟨curr, some curr, [], path⟩
    w.result

/-- `sys_chdir` on the string of its argument.  After a path that does not parse `dir` is not
set, and a name that is not found leaves a null pointer; both are used. -/
def sysChdirOver (path : CString) : Op Bool := do
  match ← parsePathOver lookup isdir path with
  | none => failure
  | some (dir, name) =>
    let node ← lookup dir name
    inodeClose dir
    match node with
    | none => failure
    | some q =>
      let success ← isdir q
      let i ← getInode q
      modify fun σ => { σ with cwds := σ.cwds.set σ.current i.sector }
      return success

end Over

def isdir (q : ℕ) : Op Bool :=
  getInode q >>= inodeIsdir

def parsePath : CString → Op (Option (ℕ × CString)) :=
  parsePathOver dirLookup isdir

def sysChdir : CString → Op Bool :=
  sysChdirOver dirLookup isdir

def filesysCreate (name : CString) (initialSize : ℕ) : Op Bool := do
  match ← parsePath name with
  | none => return false
  | some (dir, basename) =>
    match ← freeMapAllocate 1 with
    | none =>
      inodeClose dir
      return false
    | some inodeSector =>
      let success ← (do
        if ← inodeCreate inodeSector initialSize then
          dirAdd dir basename inodeSector
        else
          return false)
      if !success && inodeSector ≠ 0 then
        freeMapRelease inodeSector 1
      inodeClose dir
      return success

def setFile (f : ℕ) (file : File) : Op Unit :=
  modify fun σ => { σ with files := Function.update σ.files f (some file) }

def fileOpen (p : ℕ) : Op ℕ := do
  let σ ← get
  let f := σ.brk
  modify fun σ => { σ with brk := f + 1 }
  setFile f ⟨p, 0, false⟩
  return f

def filesysOpen (name : CString) : Op (Option ℕ) := do
  match ← parsePath name with
  | none => return none
  | some (dir, basename) =>
    let inode ← dirLookup dir basename
    inodeClose dir
    match inode with
    | none => return none
    | some p => return some (← fileOpen p)

/-- `filesys_remove` up to `dir_remove`: whether the inode may be removed.  A directory
is closed again. -/
def removable (p : ℕ) : Op Bool := do
  if ← inodeIsdir (← getInode p) then
    match ← readdirLoop p 0 dirFuel with
    | some _ =>
      inodeClose p
      return false
    | none =>
      let depend ← inodeIsdepend (← getInode p)
      inodeClose p
      return !depend
  else
    return true

/-- `filesys_remove`.  `success` is used before it has a value, which is the argument
`garbage`.  An inode that is not a directory stays open after `dir_lookup`. -/
def filesysRemove (garbage : Bool) (name : CString) : Op Bool := do
  match ← parsePath name with
  | none => return false
  | some (dir, basename) =>
    match ← dirLookup dir basename with
    | none =>
      inodeClose dir
      return false
    | some p =>
      if ← removable p then
        let removed ← dirRemove dir basename
        inodeClose dir
        return removed && garbage
      else
        inodeClose dir
        return false

def fileRead (f size : ℕ) : Op (List UInt8) := do
  let file ← getFile f
  let bytes ← inodeReadAt file.inode size file.pos
  setFile f { file with pos := file.pos + bytes.length }
  return bytes

def fileWrite (f : ℕ) {size : ℕ} (buffer : Block size) : Op ℕ := do
  let file ← getFile f
  let n ← inodeWriteAt (freeMapAllocate 1) file.inode buffer file.pos
  setFile f { file with pos := file.pos + n }
  return n

def fileSeek (f pos : ℕ) : Op Unit := do
  let file ← getFile f
  setFile f { file with pos := pos }

def fileClose (f : ℕ) : Op Unit := do
  let file ← getFile f
  if file.denyWrite then
    let i ← getInode file.inode
    if 0 < i.denyWriteCnt ∧ i.denyWriteCnt ≤ i.openCnt then
      setInode file.inode { i with denyWriteCnt := i.denyWriteCnt - 1 }
    else
      failure
  inodeClose file.inode
  modify fun σ => { σ with files := Function.update σ.files f none }

def dirCreate (sector entryCnt parent : ℕ) : Op Bool := do
  if ← inodeCreate sector (entryCnt * 20) then
    let p ← inodeOpen sector
    if ← dirAdd p [46, 46] parent then
      if ← dirAdd p [46] sector then
        inodeClose p
        return true
      else
        failure
    else
      failure
  else
    return false

/-- `sys_mkdir` where it uses no variable that is not set: `dir` after a path that does not
parse, and `dir_sector` without a free sector.  The new directory is not added to its parent. -/
def mkdirSet (path : CString) : Op Bool := do
  match ← parsePath path with
  | none => failure
  | some (dir, _) =>
    let parent ← getInode dir
    inodeClose dir
    match ← freeMapAllocate 1 with
    | none => failure
    | some sector => dirCreate sector 1 parent.sector

/-- The state before `filesys_init`, over a device of `blockSize` sectors. -/
def blank (blockSize : ℕ) (disk : ℕ → Sector) (bufferBase : Fin 64 → Sector) : Fs where
  cache := Cache.init blockSize disk bufferBase
  freeMap := fun _ => false
  freeMapFile := none
  inodes := fun _ => none
  files := fun _ => none
  brk := 0
  openInodes := []
  cwds := [1]
  current := 0

end CS162.Filesys
