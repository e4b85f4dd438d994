import CS162.Filesys.Directory
import CS162.Lib.Halt

/-!
# System calls

`syscall_handler` over the memory of the calling process and the file system.  Every address
that the kernel accesses on behalf of the process is recorded in `touched`.  A call returns,
or stops: `thread_exit` ends the process, and an access to a missing page outside `get_user`
sends the kernel to whatever address is in `eax`.
-/

namespace CS162.Userprog

open Filesys

/-- `PHYS_BASE`: the addresses below are the process's, the others the kernel's. -/
def physBase : ℕ :=
  0xc0000000

/-- The virtual memory while the process runs: the bytes of the pages that are mapped,
and which of them may be written. -/
structure Memory where
  byte : ℕ → Option UInt8
  writable : ℕ → Bool
  byte_eq_none : ∀ a, 2 ^ 32 ≤ a → byte a = none

def Memory.set (mem : Memory) (a : ℕ) (b : UInt8) : Memory where
  byte x := if x = a then (mem.byte a).map fun _ => b else mem.byte x
  writable := mem.writable
  byte_eq_none x hx := by
    split_ifs with hxa
    · rw [← hxa, mem.byte_eq_none x hx]
      rfl
    · exact mem.byte_eq_none x hx

/-- `struct fnode`: an open file of the process. -/
structure Fnode where
  fd : BitVec 32
  filePtr : ℕ
  fileName : ℕ

/-- What the rest of the kernel answers: `input_getc`, the value of a variable that is
not set (in `filesys_remove`), `process_execute` and `process_wait`. -/
structure Outside where
  getc : UInt8
  garbage : Bool
  processExecute : CString → BitVec 32
  processWait : BitVec 32 → BitVec 32

/-- The machine in a system call: memory, `esp` and `eax` of the interrupt frame, the
file system, `file_list` and `next_fd` of the thread, the console, and the addresses
touched so far. -/
structure Machine where
  mem : Memory
  esp : ℕ
  eax : BitVec 32
  fs : Fs
  fileList : List Fnode
  nextFd : BitVec 32
  console : List UInt8
  outside : Outside
  touched : List ℕ

/-- Why a call does not return: the process has exited, the machine is off, or the
kernel has lost control. -/
inductive Stop where
  | exited (status : BitVec 32)
  | off
  | lost
  deriving DecidableEq

abbrev Sys (α : Type) : Type :=
  Halt Stop Machine α

def error {α : Type} : Sys α :=
  throw (.exited (-1))

def touch (a : ℕ) : Sys Unit :=
  modify fun m => { m with touched := a :: m.touched }

def load (a : ℕ) : Sys UInt8 := do
  touch a
  match (← get).mem.byte a with
  | some b => return b
  | none => throw .lost

def store (a : ℕ) (b : UInt8) : Sys Unit := do
  touch a
  let m ← get
  if (m.mem.byte a).isSome ∧ m.mem.writable a then
    modify fun m => { m with mem := m.mem.set a b }
  else
    throw .lost

def loadAll : ℕ → ℕ → Sys (List UInt8)
  | _, 0 => return []
  | a, n + 1 => do
    let b ← load a
    return b :: (← loadAll (a + 1) n)

def storeAll : ℕ → List UInt8 → Sys Unit
  | _, [] => return ()
  | a, b :: bs => do
    store a b
    storeAll (a + 1) bs

/-- A string up to its null byte, as `strlen` and `strlcpy` read it. -/
def stringLoop : ℕ → ℕ → Sys CString
  | 0, _ => throw .lost
  | fuel + 1, a => do
    let c ← load a
    if c = 0 then return [] else return c :: (← stringLoop fuel (a + 1))

/-- The string at an address.  The address space ends before the fuel. -/
def userString (a : ℕ) : Sys CString :=
  stringLoop (2 ^ 32 + 1) a

/-- `get_user_byte`.  A fault in `get_user` gives -1, which no byte is. -/
def getUserByte (uaddr : ℕ) : Sys (BitVec 32) := do
  if physBase ≤ uaddr then
    error
  else
    touch uaddr
    match (← get).mem.byte uaddr with
    | some b => return b.toBitVec.setWidth 32
    | none => error

def pow16 : ℕ → BitVec 32
  | 0 => 1
  | n + 1 => pow16 n * 16

def getUserInt (uaddr : ℕ) : Sys (BitVec 32) :=
  [0, 1, 2, 3].foldlM
    (fun res idx => return res + (← getUserByte (uaddr + idx)) * pow16 (idx * 2)) 0

/-- `get_user_ptr`: only the first byte that the pointer leads to is checked. -/
def getUserPtr (uaddr : ℕ) : Sys ℕ := do
  let ptr ← getUserInt uaddr
  if ptr = 0 then
    error
  else
    let _ ← getUserByte ptr.toNat
    return ptr.toNat

/-- The calls that `syscall_handler` dispatches. -/
inductive Call where
  | halt
  | exit
  | exec
  | wait
  | create
  | remove
  | openFile
  | filesize
  | read
  | write
  | seek
  | tell
  | close
  | practice
  | chdir
  | mkdir
  | readdir
  | isdir
  | inumber
  deriving DecidableEq, Repr

def Call.number : Call → ℕ
  | halt => 0
  | exit => 1
  | exec => 2
  | wait => 3
  | create => 4
  | remove => 5
  | openFile => 6
  | filesize => 7
  | read => 8
  | write => 9
  | seek => 10
  | tell => 11
  | close => 12
  | practice => 13
  | chdir => 16
  | mkdir => 17
  | readdir => 18
  | isdir => 19
  | inumber => 20

def Call.ofNumber : ℕ → Option Call
  | 0 => some halt
  | 1 => some exit
  | 2 => some exec
  | 3 => some wait
  | 4 => some create
  | 5 => some remove
  | 6 => some openFile
  | 7 => some filesize
  | 8 => some read
  | 9 => some write
  | 10 => some seek
  | 11 => some tell
  | 12 => some close
  | 13 => some practice
  | 16 => some chdir
  | 17 => some mkdir
  | 18 => some readdir
  | 19 => some isdir
  | 20 => some inumber
  | _ => none

theorem Call.ofNumber_number (c : Call) : Call.ofNumber c.number = some c := by
  cases c <;> rfl

/-- A call with the arguments that its handler acts on. -/
inductive Request where
  | halt
  | exit (status : BitVec 32)
  | exec (filename : ℕ)
  | wait (pid : BitVec 32)
  | create (filename : ℕ) (initialSize : BitVec 32)
  | remove (filename : ℕ)
  | openFile (filename : ℕ)
  | filesize (fd : BitVec 32)
  | read (fd : BitVec 32) (buffer : ℕ) (size : BitVec 32)
  | write (fd : BitVec 32) (buffer : ℕ) (size : BitVec 32)
  | seek (fd position : BitVec 32)
  | tell (fd : BitVec 32)
  | close (fd : BitVec 32)
  | practice (i : BitVec 32)
  | chdir (path : ℕ)
  | mkdir (path : ℕ)
  | readdir (fd : BitVec 32) (name : ℕ)
  | isdir (fd : BitVec 32)
  | inumber (fd : BitVec 32)
  deriving DecidableEq

/-- The arguments as each handler fetches them, `args` being the address of the call
number. -/
def Call.fetch (args : ℕ) : Call → Sys Request
  | halt => return .halt
  | exit => return .exit (← getUserByte (args + 4))
  | exec => return .exec (← getUserPtr (args + 4))
  | wait => return .wait (← getUserByte (args + 4))
  | create => return .create (← getUserPtr (args + 4)) (← getUserByte (args + 8))
  | remove => return .remove (← getUserPtr (args + 4))
  | openFile => return .openFile (← getUserPtr (args + 4))
  | filesize => return .filesize (← getUserByte (args + 4))
  | read => do
    let fd ← getUserByte (args + 4)
    let buffer ← getUserPtr (args + 8)
    return .read fd buffer (← getUserByte (args + 12))
  | write => do
    let fd ← getUserByte (args + 4)
    let buffer ← getUserPtr (args + 8)
    return .write fd buffer (← getUserInt (args + 12))
  | seek => return .seek (← getUserByte (args + 4)) (← getUserByte (args + 8))
  | tell => return .tell (← getUserByte (args + 4))
  | close => return .close (← getUserByte (args + 4))
  | practice => return .practice (← getUserByte (args + 4))
  | chdir => return .chdir (← getUserPtr (args + 4))
  | mkdir => return .mkdir (← getUserPtr (args + 4))
  | readdir => return .readdir (← getUserByte (args + 4)) (← getUserPtr (args + 8))
  | isdir => return .isdir (← getUserByte (args + 4))
  | inumber => return .inumber (← getUserByte (args + 4))

def fetch : Sys Request := do
  let args := (← get).esp
  let cmd ← getUserByte args
  match Call.ofNumber cmd.toNat with
  | some c => c.fetch args
  | none => error

/-- A program of the file system.  Where it fails, an assertion fails or memory is used
that is not what it is taken for. -/
def fsOp {α : Type} (x : Op α) : Sys α := do
  match x.run (← get).fs with
  | some (a, fs) =>
    modify fun m => { m with fs := fs }
    return a
  | none => throw .lost

def setEax (v : BitVec 32) : Sys Unit :=
  modify fun m => { m with eax := v }

def setSuccess (success : Bool) : Sys Unit :=
  setEax (if success then 1 else 0)

def fileInode (f : ℕ) : Op Inode := do
  getInode (← getFile f).inode

def fileIsdir (f : ℕ) : Op Bool := do
  inodeIsdir (← fileInode f)

def fileLength (f : ℕ) : Op ℤ := do
  inodeLength (← fileInode f)

def fileTell (f : ℕ) : Op ℕ :=
  return (← getFile f).pos

/-- `get_fn_from_fd`, and `error` if there is none. -/
def getFnFromFd (fd : BitVec 32) : Sys Fnode := do
  match (← get).fileList.find? fun fn => fn.fd == fd with
  | some fn => return fn
  | none => error

/-- The loop of `inode_read_at` into a user buffer; `done` bytes have been read. -/
def readInto (inode : Inode) (buffer : ℕ) : ℕ → ℕ → ℕ → ℕ → Sys ℕ
  | 0, _, _, done => return done
  | fuel + 1, size, offset, done => do
    if size = 0 then
      return done
    else
      let sectorIdx ← fsOp (byteToSector inode offset)
      let chunk := chunkSize size offset (← fsOp (inodeLength inode))
      if chunk ≤ 0 then
        return done
      else
        let bytes ← fsOp (cacheRead sectorIdx chunk.toNat (offset % 512))
        storeAll (buffer + done) (List.ofFn bytes)
        readInto inode buffer fuel (size - chunk.toNat) (offset + chunk.toNat)
          (done + chunk.toNat)

def fileReadInto (f buffer size : ℕ) : Sys ℕ := do
  let file ← fsOp (getFile f)
  let inode ← fsOp (getInode file.inode)
  let n ← (do
    if (← fsOp (byteToSector inode ((file.pos : ℤ) + size - 1))) = noSector then
      return 0
    else
      readInto inode buffer size size file.pos 0)
  fsOp (setFile f { file with pos := file.pos + n })
  return n

/-- The loop of `inode_write_at` from a user buffer; `done` bytes have been written. -/
def writeFrom (inode : Inode) (buffer : ℕ) : ℕ → ℕ → ℕ → ℕ → Sys ℕ
  | 0, _, _, done => return done
  | fuel + 1, size, offset, done => do
    if size = 0 then
      return done
    else
      let sectorIdx ← fsOp (byteToSector inode offset)
      let chunk := chunkSize size offset (← fsOp (inodeLength inode))
      if chunk ≤ 0 then
        return done
      else
        let bytes ← loadAll (buffer + done) chunk.toNat
        fsOp (cacheWrite sectorIdx (Block.ofList bytes) (offset % 512))
        writeFrom inode buffer fuel (size - chunk.toNat) (offset + chunk.toNat)
          (done + chunk.toNat)

/-- The extension in `inode_write_at`, to an offset that a negative size may make
negative. -/
def extendTo (inode : Inode) (necessaryOffset : ℤ) : Op Bool := do
  if (← byteToSector inode necessaryOffset) = noSector then
    let d ← readBlock inode.sector
    let (ok, _) ← inodeExtend (freeMapAllocate 1) d (necessaryOffset % 2 ^ 32).toNat
    return ok
  else
    return true

/-- `file_write` from a user buffer.  The loop makes no round for a negative size. -/
def fileWriteFrom (f buffer : ℕ) (size : ℤ) : Sys ℕ := do
  let file ← fsOp (getFile f)
  let inode ← fsOp (getInode file.inode)
  let n ← (do
    if inode.denyWriteCnt ≠ 0 then
      return 0
    else if ← fsOp (extendTo inode (file.pos + size)) then
      writeFrom inode buffer size.toNat size.toNat file.pos 0
    else
      return 0)
  fsOp (setFile f { file with pos := file.pos + n })
  return n

def putbuf : ℕ → ℕ → Sys Unit
  | _, 0 => return ()
  | buffer, n + 1 => do
    let c ← load buffer
    modify fun m => { m with console := m.console ++ [c] }
    putbuf (buffer + 1) n

def sysExit (status : BitVec 32) : Sys Unit := do
  setEax status
  throw (.exited status)

/-- The loop in `sys_exec` that checks the string. -/
def checkString : ℕ → ℕ → Sys Unit
  | 0, _ => throw .lost
  | fuel + 1, a => do
    if (← getUserByte a) = 0 then return () else checkString fuel (a + 1)

/-- `sys_exec`.  What it calls reads the string again, from its first byte to its null
byte. -/
def sysExec (filename : ℕ) : Sys Unit := do
  checkString (2 ^ 32 + 1) filename
  let cmdline ← userString filename
  match ← fsOp (filesysOpen (cmdline.takeWhile (· != 32))) with
  | none => setEax (-1)
  | some fp =>
    fsOp (fileClose fp)
    setEax ((← get).outside.processExecute cmdline)

def sysWait (pid : BitVec 32) : Sys Unit := do
  setEax ((← get).outside.processWait pid)

def sysCreate (filename : ℕ) (initialSize : BitVec 32) : Sys Unit := do
  let name ← userString filename
  setSuccess (← fsOp (filesysCreate name initialSize.toNat))

def sysRemove (filename : ℕ) : Sys Unit := do
  let name ← userString filename
  setSuccess (← fsOp (filesysRemove (← get).outside.garbage name))

def sysOpen (filename : ℕ) : Sys Unit := do
  let name ← userString filename
  match ← fsOp (filesysOpen name) with
  | none => setEax (-1)
  | some fp =>
    let fd := (← get).nextFd
    modify fun m => { m with
      nextFd := fd + 1
      fileList := m.fileList ++ [⟨fd, fp, filename⟩] }
    setEax fd

def sysClose (fd : BitVec 32) : Sys Unit := do
  match (← get).fileList.find? fun fn => fn.fd == fd with
  | none => return ()
  | some fn =>
    fsOp (fileClose fn.filePtr)
    modify fun m => { m with fileList := m.fileList.eraseP fun fn => fn.fd == fd }

def sysFilesize (fd : BitVec 32) : Sys Unit := do
  let fn ← getFnFromFd fd
  setEax (BitVec.ofInt 32 (← fsOp (fileLength fn.filePtr)))

/-- The file of a descriptor, which is not a directory. -/
def regularFile (fd : BitVec 32) : Sys ℕ := do
  let fn ← getFnFromFd fd
  if ← fsOp (fileIsdir fn.filePtr) then error else return fn.filePtr

def sysRead (fd : BitVec 32) (buffer : ℕ) (size : BitVec 32) : Sys Unit := do
  if fd = 0 then
    setEax ((← get).outside.getc.toBitVec.setWidth 32)
  else if fd.toInt < 0 ∨ fd = 1 then
    error
  else
    let fp ← regularFile fd
    setEax (BitVec.ofNat 32 (← fileReadInto fp buffer size.toNat))

/-- `sys_write`.  The lock of the file is one that only this thread takes. -/
def sysWrite (fd : BitVec 32) (buffer : ℕ) (size : BitVec 32) : Sys Unit := do
  if fd = 1 then
    putbuf buffer size.toNat
    setEax size
  else if fd.toInt ≤ 0 then
    error
  else
    let fp ← regularFile fd
    setEax (BitVec.ofNat 32 (← fileWriteFrom fp buffer size.toInt))

def sysSeek (fd position : BitVec 32) : Sys Unit := do
  let fn ← getFnFromFd fd
  fsOp (fileSeek fn.filePtr position.toNat)

def sysTell (fd : BitVec 32) : Sys Unit := do
  let fn ← getFnFromFd fd
  setEax (BitVec.ofNat 32 (← fsOp (fileTell fn.filePtr)))

def sysChdir (path : ℕ) : Sys Unit := do
  let name ← userString path
  setSuccess (← fsOp (Filesys.sysChdir name))

/-- `sys_mkdir`, with no result where it uses a variable that is not set. -/
def sysMkdir (path : ℕ) : Sys Unit := do
  let name ← userString path
  setSuccess (← fsOp (mkdirSet name))

/-- `sys_readdir`.  `dir_readdir` never comes to the store of a name. -/
def sysReaddir (fd : BitVec 32) : Sys Unit := do
  let fn ← getFnFromFd fd
  if ← fsOp (fileIsdir fn.filePtr) then
    setSuccess (← fsOp (do readdirLoop (← getFile fn.filePtr).inode 0 dirFuel)).isSome
  else
    error

def sysIsdir (fd : BitVec 32) : Sys Unit := do
  let fn ← getFnFromFd fd
  setSuccess (← fsOp (fileIsdir fn.filePtr))

def sysInumber (fd : BitVec 32) : Sys Unit := do
  let fn ← getFnFromFd fd
  setEax (BitVec.ofNat 32 (← fsOp (fileInode fn.filePtr)).sector)

def Request.act : Request → Sys Unit
  | halt => throw .off
  | exit status => sysExit status
  | exec filename => sysExec filename
  | wait pid => sysWait pid
  | create filename initialSize => sysCreate filename initialSize
  | remove filename => sysRemove filename
  | openFile filename => sysOpen filename
  | filesize fd => sysFilesize fd
  | read fd buffer size => sysRead fd buffer size
  | write fd buffer size => sysWrite fd buffer size
  | seek fd position => sysSeek fd position
  | tell fd => sysTell fd
  | close fd => sysClose fd
  | practice i => setEax (i + 1)
  | chdir path => sysChdir path
  | mkdir path => sysMkdir path
  | readdir fd _ => sysReaddir fd
  | isdir fd => sysIsdir fd
  | inumber fd => sysInumber fd

def syscallHandler : Sys Unit := do
  (← fetch).act

end CS162.Userprog
