import CS162.Userprog.PagedirRun

/-!
# Loading an executable

`load` of `userprog/process.c` with its helpers.  A read returns the bytes of the file, or
fewer where `limits` says so, and the page allocator has its answers in advance.  With
`checked` the 32-bit additions and subtractions have no result where they would wrap around.
An assertion that fails has no result, nor has a loop that does not end.
-/

namespace CS162.Userprog

open Threads

namespace Loading

def add32 (checked : Bool) (a b : ℕ) : Option ℕ :=
  if checked ∧ 2 ^ 32 ≤ a + b then none else some ((a + b) % 2 ^ 32)

def sub32 (checked : Bool) (a b : ℕ) : Option ℕ :=
  if checked ∧ a < b then none else some ((2 ^ 32 + a - b) % 2 ^ 32)

/-- The conversion of a `uint32_t` to `off_t`. -/
def toOff (a : ℕ) : ℤ :=
  if a < 2 ^ 31 then a else a - 2 ^ 32

def u16 (bytes : List UInt8) (off : ℕ) : ℕ :=
  (bytes.getD off 0).toNat + 256 * (bytes.getD (off + 1) 0).toNat

def u32 (bytes : List UInt8) (off : ℕ) : ℕ :=
  (Block.ofList bytes).u32 off

/-- `Elf32_Ehdr`, as far as it is read. -/
structure Ehdr where
  ident : List UInt8
  type : ℕ
  machine : ℕ
  version : ℕ
  entry : ℕ
  phoff : ℕ
  phentsize : ℕ
  phnum : ℕ

def Ehdr.size : ℕ :=
  52

def Ehdr.decode (b : List UInt8) : Ehdr where
  ident := b.take 16
  type := u16 b 16
  machine := u16 b 18
  version := u32 b 20
  entry := u32 b 24
  phoff := u32 b 28
  phentsize := u16 b 42
  phnum := u16 b 44

/-- `Elf32_Phdr`, as far as it is read. -/
structure Phdr where
  type : ℕ
  offset : ℕ
  vaddr : ℕ
  filesz : ℕ
  memsz : ℕ
  flags : ℕ

def Phdr.size : ℕ :=
  32

def Phdr.decode (b : List UInt8) : Phdr where
  type := u32 b 0
  offset := u32 b 4
  vaddr := u32 b 8
  filesz := u32 b 16
  memsz := u32 b 20
  flags := u32 b 24

/-- The checks of `load` on the executable header. -/
def Ehdr.Ok (eh : Ehdr) : Prop :=
  eh.ident.take 7 = [0x7f, 0x45, 0x4c, 0x46, 1, 1, 1] ∧ eh.type = 2 ∧ eh.machine = 3 ∧
    eh.version = 1 ∧ eh.phentsize = Phdr.size ∧ eh.phnum ≤ 1024

instance (eh : Ehdr) : Decidable eh.Ok :=
  inferInstanceAs (Decidable (_ ∧ _ ∧ _ ∧ _ ∧ _ ∧ _))

def validateSegment (ph : Phdr) (fileLength : ℕ) : Prop :=
  ph.offset % pgSize = ph.vaddr % pgSize ∧ ph.offset ≤ fileLength ∧ ph.filesz ≤ ph.memsz ∧
    ph.memsz ≠ 0 ∧ isUserVaddr ph.vaddr ∧ isUserVaddr ((ph.vaddr + ph.memsz) % 2 ^ 32) ∧
    ph.vaddr ≤ (ph.vaddr + ph.memsz) % 2 ^ 32 ∧ pgSize ≤ ph.vaddr

instance (ph : Phdr) (fileLength : ℕ) : Decidable (validateSegment ph fileLength) :=
  inferInstanceAs (Decidable (_ ∧ _ ∧ _ ∧ _ ∧ _ ∧ _ ∧ _ ∧ _))

/-- The page allocator, the position in the file, how the reads to come are cut short, and
what has been mapped. -/
structure Loader where
  pages : Pages
  pos : ℕ
  limits : List (Option ℕ)
  installed : List (ℕ × ℕ)

def fileSeek (newPos : ℤ) (s : Loader) : Option Loader :=
  if 0 ≤ newPos then some { s with pos := newPos.toNat } else none

def readBytes (file : List UInt8) (size : ℕ) (s : Loader) : List UInt8 :=
  (file.drop s.pos).take (min size ((s.limits.headD none).getD size))

def afterRead (file : List UInt8) (size : ℕ) (s : Loader) : Loader :=
  { s with pos := s.pos + (readBytes file size s).length, limits := s.limits.tail }

def installPage (k : Globals) (pd upage kpage : ℕ) (writable : Bool) (s : Loader) :
    Option (Bool × Loader) :=
  (pagedirGetPage pd upage s.pages).bind fun kaddr =>
    if kaddr = 0 then
      (pagedirSetPage k pd upage kpage writable s.pages).map fun
        | (true, pages) =>
          (true, { s with pages, installed := (pgNo upage, kpage) :: s.installed })
        | (false, pages) => (false, { s with pages })
    else some (false, s)

/-- Frees a page that could not be used, and fails. -/
def giveUp (kpage : ℕ) (s : Loader) : Option (Bool × Loader) :=
  (s.pages.freePage kpage).map fun pages => (false, { s with pages })

/-- A page is mapped, or freed where that fails. -/
def installOrFree (k : Globals) (pd upage kpage : ℕ) (writable : Bool) (s : Loader) :
    Option (Bool × Loader) :=
  (installPage k pd upage kpage writable s).bind fun
    | (false, s) => giveUp kpage s
    | (true, s) => some (true, s)

/-- The body of the loop of `load_segment`: a page is allocated, read and mapped. -/
def loadPage (k : Globals) (file : List UInt8) (pd upage pageReadBytes pageZeroBytes : ℕ)
    (writable : Bool) (s : Loader) : Option (Bool × Loader) :=
  (s.pages.getPage { user := true }).bind fun
    | (none, pages) => some (false, { s with pages })
    | (some kpage, pages) =>
      let s := { s with pages }
      let bytes := readBytes file pageReadBytes s
      let s := afterRead file pageReadBytes
        { s with pages := { pages with mem := pages.mem.store kpage bytes } }
      if bytes.length ≠ pageReadBytes then giveUp kpage s
      else
        installOrFree k pd upage kpage writable { s with pages := { s.pages with
          mem := s.pages.mem.memset (kpage + pageReadBytes) 0 pageZeroBytes } }

def loadLoop (k : Globals) (checked : Bool) (file : List UInt8) (pd : ℕ) (writable : Bool) :
    ℕ → ℕ → ℕ → ℕ → Loader → Option (Bool × Loader)
  | 0, _, _, _, _ => none
  | fuel + 1, upage, readBytes, zeroBytes, s =>
    if 0 < readBytes ∨ 0 < zeroBytes then
      let pageReadBytes := if readBytes < pgSize then readBytes else pgSize
      let pageZeroBytes := pgSize - pageReadBytes
      (loadPage k file pd upage pageReadBytes pageZeroBytes writable s).bind fun
        | (false, s) => some (false, s)
        | (true, s) =>
          (sub32 checked readBytes pageReadBytes).bind fun readBytes =>
            (sub32 checked zeroBytes pageZeroBytes).bind fun zeroBytes =>
              (add32 checked upage pgSize).bind fun upage =>
                loadLoop k checked file pd writable fuel upage readBytes zeroBytes s
    else some (true, s)

/-- `load_segment`; no address space has more than `2 ^ 20` pages. -/
def loadSegment (k : Globals) (checked : Bool) (file : List UInt8) (pd ofs upage : ℕ)
    (readBytes zeroBytes : ℕ) (writable : Bool) (s : Loader) : Option (Bool × Loader) :=
  (add32 checked readBytes zeroBytes).bind fun bytes =>
    if bytes % pgSize = 0 ∧ pgOfs upage = 0 ∧ toOff ofs % pgSize = 0 then
      (fileSeek (toOff ofs) s).bind fun s =>
        loadLoop k checked file pd writable (2 ^ 20) upage readBytes zeroBytes s
    else none

def roundUp (checked : Bool) (x : ℕ) : Option ℕ :=
  (add32 checked x pgSize).bind fun y => (sub32 checked y 1).map fun z => z / pgSize * pgSize

/-- `read_bytes` and `zero_bytes` of `load`. -/
def segmentBytes (checked : Bool) (ph : Phdr) : Option (ℕ × ℕ) :=
  let total := (add32 checked (ph.vaddr % pgSize) ph.memsz).bind (roundUp checked)
  if 0 < ph.filesz then
    (add32 checked (ph.vaddr % pgSize) ph.filesz).bind fun readBytes =>
      (total.bind fun total => sub32 checked total readBytes).map fun zeroBytes =>
        (readBytes, zeroBytes)
  else total.map fun zeroBytes => (0, zeroBytes)

def pfW : ℕ :=
  2

def loadValid (k : Globals) (checked : Bool) (file : List UInt8) (pd : ℕ) (ph : Phdr)
    (s : Loader) : Option (Bool × Loader) :=
  if validateSegment ph file.length then
    (segmentBytes checked ph).bind fun b =>
      loadSegment k checked file pd (ph.offset / pgSize * pgSize) (ph.vaddr / pgSize * pgSize)
        b.1 b.2 (ph.flags &&& pfW ≠ 0) s
  else some (false, s)

def loadHeader (k : Globals) (checked : Bool) (file : List UInt8) (pd : ℕ) (ph : Phdr)
    (s : Loader) : Option (Bool × Loader) :=
  -- PT_DYNAMIC, PT_INTERP and PT_SHLIB
  if ph.type = 2 ∨ ph.type = 3 ∨ ph.type = 5 then some (false, s)
  -- PT_LOAD
  else if ph.type = 1 then loadValid k checked file pd ph s
  else some (true, s)

/-- The loop of `load` over the program headers, of which `n` are left. -/
def loadHeaders (k : Globals) (checked : Bool) (file : List UInt8) (pd : ℕ) :
    ℕ → ℤ → Loader → Option (Bool × Loader)
  | 0, _, s => some (true, s)
  | n + 1, fileOfs, s =>
    if fileOfs < 0 ∨ file.length < fileOfs then some (false, s)
    else
      (fileSeek fileOfs s).bind fun s =>
        let bytes := readBytes file Phdr.size s
        let s := afterRead file Phdr.size s
        let fileOfs := fileOfs + Phdr.size
        if bytes.length ≠ Phdr.size then some (false, s)
        else
          (loadHeader k checked file pd (Phdr.decode bytes) s).bind fun
            | (false, s) => some (false, s)
            | (true, s) => loadHeaders k checked file pd n fileOfs s

def setupStack (k : Globals) (pd : ℕ) (s : Loader) : Option (Bool × Loader) :=
  (s.pages.getPage { user := true, zero := true }).bind fun
    | (none, pages) => some (false, { s with pages })
    | (some kpage, pages) =>
      installOrFree k pd (loaderPhysBase - pgSize) kpage true { s with pages }

/-- `t->pagedir` after `load`, and `*eip` and `*esp` when it has succeeded. -/
structure Loaded where
  pagedir : ℕ
  start : Option (ℕ × ℕ)

/-- The end of `load`, after the program headers. -/
def finishLoad (k : Globals) (pd entry : ℕ) : Bool × Loader → Option (Loaded × Loader)
  | (false, s) => some (⟨pd, none⟩, s)
  | (true, s) => (setupStack k pd s).map fun
      | (false, s) => (⟨pd, none⟩, s)
      | (true, s) => (⟨pd, some (entry, loaderPhysBase)⟩, s)

/-- `load` of a file that `filesys_open` has found or not. -/
def load (k : Globals) (checked : Bool) (file : Option (List UInt8)) (s : Loader) :
    Option (Loaded × Loader) :=
  (pagedirCreate k s.pages).bind fun
    | (none, pages) => some (⟨0, none⟩, { s with pages })
    | (some pd, pages) =>
      match file with
      | none => some (⟨pd, none⟩, { s with pages })
      | some file =>
        let s := { s with pages, pos := 0 }
        let bytes := readBytes file Ehdr.size s
        let s := afterRead file Ehdr.size s
        let eh := Ehdr.decode bytes
        if bytes.length ≠ Ehdr.size ∨ ¬ eh.Ok then some (⟨pd, none⟩, s)
        else
          (loadHeaders k checked file pd eh.phnum (toOff eh.phoff) s).bind
            (finishLoad k pd eh.entry)

end Loading

end CS162.Userprog
