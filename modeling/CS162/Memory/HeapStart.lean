import CS162.Memory.Sbrk
import CS162.Userprog.LoadSafe

/-!
# The start of the heap

`load` of homework 6 with `setup_heap` and `find_heap_start`.  It is the `load` of the project
that also keeps `last_pg`, the page at which the last segment in the order of the headers
starts, and puts the heap at the first page from there on that is not mapped.
-/

namespace CS162.Memory

open Option
open Threads Userprog Userprog.Loading

namespace HeapStart

def nextLast (ph : Phdr) (lastPg : ℕ) : ℕ :=
  if ph.type = 1 then pgRoundDown (ph.vaddr / pgSize * pgSize) else lastPg

/-- The loop of `load` over the program headers; it returns `last_pg` where it goes through. -/
def loadHeaders (k : Globals) (file : List UInt8) (pd : ℕ) :
    ℕ → ℤ → ℕ → Loader → Option (Option ℕ × Loader)
  | 0, _, lastPg, s => some (some lastPg, s)
  | n + 1, fileOfs, lastPg, s =>
    if fileOfs < 0 ∨ file.length < fileOfs then some (none, s)
    else
      (fileSeek fileOfs s).bind fun s =>
        let bytes := readBytes file Phdr.size s
        let s := afterRead file Phdr.size s
        let fileOfs := fileOfs + Phdr.size
        if bytes.length ≠ Phdr.size then some (none, s)
        else
          (loadHeader k false file pd (Phdr.decode bytes) s).bind fun
            | (false, s) => some (none, s)
            | (true, s) => loadHeaders k file pd n fileOfs (nextLast (Phdr.decode bytes) lastPg) s

def findHeapStart (pd searchStart : ℕ) (s : Loader) : Option ℕ :=
  skipMapped pd s.pages (2 ^ 20) (pgRoundUp searchStart)

def setupHeap (pd searchStart : ℕ) (s : Loader) : Option Process :=
  (findHeapStart pd searchStart s).map fun start => ⟨pd, start, start⟩

def finishLoad (k : Globals) (p : Process) (pd entry : ℕ) :
    Option ℕ × Loader → Option (Process × Option (ℕ × ℕ) × Loader)
  | (none, s) => some ({ p with pagedir := pd }, none, s)
  | (some lastPg, s) => (setupStack k pd s).bind fun
      | (false, s) => some ({ p with pagedir := pd }, none, s)
      | (true, s) => (setupHeap pd lastPg s).map fun p =>
          (p, some (entry, loaderPhysBase - 20), s)

/-- `load` of a file that `filesys_open` has found or not: the thread, `*eip` and `*esp` where
it succeeds, and the state. -/
def load (k : Globals) (p : Process) (file : Option (List UInt8)) (s : Loader) :
    Option (Process × Option (ℕ × ℕ) × Loader) :=
  (pagedirCreate k s.pages).bind fun
    | (none, pages) => some ({ p with pagedir := 0 }, none, { s with pages })
    | (some pd, pages) =>
      match file with
      | none => some ({ p with pagedir := pd }, none, { s with pages })
      | some file =>
        let s := { s with pages, pos := 0 }
        let bytes := readBytes file Ehdr.size s
        let s := afterRead file Ehdr.size s
        let eh := Ehdr.decode bytes
        if bytes.length ≠ Ehdr.size ∨ ¬ eh.Ok then some ({ p with pagedir := pd }, none, s)
        else
          (loadHeaders k file pd eh.phnum (toOff eh.phoff) 0 s).bind (finishLoad k p pd eh.entry)

def lastFrom (file : List UInt8) : ℕ → ℕ → ℕ → ℕ
  | 0, _, lastPg => lastPg
  | n + 1, ofs, lastPg => lastFrom file n (ofs + Phdr.size) (nextLast (phdrAt file ofs) lastPg)

def phdr (file : List UInt8) (i : ℕ) : Phdr :=
  phdrAt file ((ehdrOf file).phoff + Phdr.size * i)

def lastPg (file : List UInt8) : ℕ :=
  lastFrom file (ehdrOf file).phnum (ehdrOf file).phoff 0

/-- The page is one of a segment of the file. -/
def InImage (file : List UInt8) (n : ℕ) : Prop :=
  ∃ i < (ehdrOf file).phnum, (phdr file i).type = 1 ∧ (phdr file i).Covers n

section Last

variable {k : Globals} {p : Process} {file : List UInt8} {pd n ofs last : ℕ} {s : Loader}

theorem lastFrom_cases (file : List UInt8) (n ofs last : ℕ) :
    lastFrom file n ofs last = last ∨ ∃ i < n, (phdrAt file (ofs + Phdr.size * i)).type = 1 ∧
      lastFrom file n ofs last = (phdrAt file (ofs + Phdr.size * i)).vaddr / pgSize * pgSize := by
  induction n generalizing ofs last with
  | zero => exact .inl rfl
  | succ n ih =>
    rw [lastFrom]
    rcases ih (ofs + Phdr.size) (nextLast (phdrAt file ofs) last) with heq | ⟨i, hi, htype, heq⟩
    · rw [heq, nextLast]
      by_cases htype : (phdrAt file ofs).type = 1
      · refine .inr ⟨0, Nat.succ_pos n, htype, ?_⟩
        rw [if_pos htype, pgRoundDown, Nat.mul_div_cancel _ (by decide)]
        rfl
      · exact .inl (if_neg htype)
    · have hofs : ofs + Phdr.size + Phdr.size * i = ofs + Phdr.size * (i + 1) := by
        unfold Phdr.size
        omega
      rw [hofs] at htype heq
      exact .inr ⟨i + 1, by omega, htype, heq⟩

/-- The loop does what the loop of the project does. -/
theorem loadHeaders_eq (n : ℕ) (fileOfs : ℤ) (last : ℕ) (s : Loader) :
    loadHeaders k file pd n fileOfs last s =
      (Loading.loadHeaders k false file pd n fileOfs s).map fun
        | (false, s) => (none, s)
        | (true, s) => (some (lastFrom file n fileOfs.toNat last), s) := by
  induction n generalizing fileOfs last s with
  | zero => rfl
  | succ n ih =>
    rw [loadHeaders, Loading.loadHeaders]
    by_cases hout : fileOfs < 0 ∨ file.length < fileOfs
    · rw [if_pos hout, if_pos hout]
      rfl
    · have hnonneg : 0 ≤ fileOfs := by omega
      have hnext : (fileOfs + Phdr.size).toNat = fileOfs.toNat + Phdr.size := by
        unfold Phdr.size
        omega
      rw [if_neg hout, if_neg hout, fileSeek, if_pos hnonneg, bind_some, bind_some]
      dsimp only
      by_cases hfull : (readBytes file Phdr.size { s with pos := fileOfs.toNat }).length =
          Phdr.size
      · have hph : Phdr.decode (readBytes file Phdr.size { s with pos := fileOfs.toNat }) =
            phdrAt file fileOfs.toNat := congrArg Phdr.decode (readBytes_eq hfull)
        rw [if_neg (not_not.mpr hfull), if_neg (not_not.mpr hfull), hph, Option.map_bind, lastFrom]
        refine congrArg _ (funext fun r => ?_)
        rcases r with ⟨_ | _, s'⟩
        · rfl
        · change loadHeaders k file pd n (fileOfs + Phdr.size) _ s' = _
          rw [ih, hnext]
          rfl
      · rw [if_pos hfull, if_pos hfull]
        rfl

theorem loadHeaders_nonneg {fileOfs : ℤ} {s' : Loader}
    (h : Loading.loadHeaders k false file pd n fileOfs s = some (true, s')) :
    n = 0 ∨ 0 ≤ fileOfs := by
  cases n with
  | zero => exact .inl rfl
  | succ n =>
    rw [Loading.loadHeaders] at h
    by_cases hout : fileOfs < 0 ∨ file.length < fileOfs
    · rw [if_pos hout] at h
      cases h
    · exact .inr (by omega)

/-- After a `load` that succeeds the project's `load` does too, and the heap starts at the page
that is found from the last segment on. -/
theorem exists_load {p' : Process} {start : ℕ × ℕ} {s' : Loader}
    (h : load k p (some file) s = some (p', some start, s')) :
    ∃ r, Loading.load k false (some file) s = some (r, s') ∧ r.start ≠ none ∧
      p'.pagedir = r.pagedir ∧ findHeapStart p'.pagedir (lastPg file) s' = some p'.heapStart := by
  rw [load] at h
  rw [Loading.load]
  obtain ⟨⟨pd, pages⟩, hcreate, h⟩ := bind_eq_some_iff.mp h
  rw [hcreate, bind_some]
  cases pd with
  | none => cases h
  | some pd =>
    dsimp only at h ⊢
    split_ifs at h ⊢ with hbad
    · cases h
    have hfull : (readBytes file Ehdr.size { s with pages, pos := 0 }).length = Ehdr.size := by
      by_contra hne
      exact hbad (.inl hne)
    have hbytes := readBytes_eq hfull
    rw [List.drop_zero] at hbytes
    rw [hbytes] at h ⊢
    have hlast : ∀ {s1 : Loader}, Loading.loadHeaders k false file pd (ehdrOf file).phnum
        (toOff (ehdrOf file).phoff) (afterRead file Ehdr.size { s with pages, pos := 0 }) =
          some (true, s1) →
        lastFrom file (ehdrOf file).phnum (toOff (ehdrOf file).phoff).toNat 0 = lastPg file := by
      intro s1 hheaders
      rcases loadHeaders_nonneg hheaders with hzero | hnonneg
      · rw [lastPg, hzero]
        rfl
      · rw [toNat_toOff hnonneg (u32_lt _ _)]
        rfl
    rw [loadHeaders_eq] at h
    obtain ⟨r, hmap, h⟩ := bind_eq_some_iff.mp h
    obtain ⟨⟨ok, s1⟩, hheaders, rfl⟩ := map_eq_some_iff.mp hmap
    rw [ehdrOf] at hlast
    rw [hheaders, bind_some]
    cases ok with
    | false => cases h
    | true =>
      obtain ⟨⟨ok, s2⟩, hstack, h⟩ := bind_eq_some_iff.mp h
      rw [Loading.finishLoad, hstack, map_some]
      cases ok with
      | false => cases h
      | true =>
        obtain ⟨q, hheap, heq⟩ := map_eq_some_iff.mp h
        obtain ⟨start', hfind, rfl⟩ := map_eq_some_iff.mp hheap
        cases heq
        refine ⟨_, rfl, some_ne_none _, rfl, ?_⟩
        rwa [hlast hheaders] at hfind

end Last

def Present (pd n : ℕ) (s : Loader) : Prop :=
  ∃ a, pagedirGetPage pd (pgSize * n) s.pages = some a ∧ a ≠ 0

/-- Every page that is mapped, other than the stack, is below the heap. -/
def HeapAbove (p : Process) (s : Loader) : Prop :=
  ∀ n, Present p.pagedir n s → n ≠ stackPage → pgSize * n < p.heapStart

/-- From the start of the last segment on, no page is missing below a page of the image. -/
def Gapless (file : List UInt8) : Prop :=
  ∀ n m, lastPg file / pgSize ≤ n → n ≤ m → InImage file m → InImage file n

section Image

variable {k : Globals} {boot : Pages} {p p' : Process} {file : List UInt8} {pd n : ℕ}
  {start : ℕ × ℕ} {s : Loader}

theorem present_iff (h : LoadInv k boot pd s) : Present pd n s ↔ mapOf s.installed n ≠ none := by
  obtain ⟨T, hdir⟩ := h.dir
  have hmaps : Maps s.pages.mem pd T (mapOf s.installed) := hdir.maps
  constructor
  · rintro ⟨a, hget, hne⟩ hnone
    by_cases huser : isUserVaddr (pgSize * n)
    · rw [Maps.getPage_mul hmaps huser, hnone] at hget
      cases hget
      exact hne rfl
    · rw [pagedirGetPage, if_neg huser] at hget
      cases hget
  · intro hne
    obtain ⟨a, hmap⟩ := ne_none_iff_exists'.mp hne
    have hlt := (h.user (n, a) ((mapOf_eq_some hdir.keys).mp hmap)).2
    have huser : isUserVaddr (pgSize * n) := by
      unfold userTables at hlt
      unfold isUserVaddr loaderPhysBase pgSize
      omega
    refine ⟨a, ?_, fun hzero => absurd (hzero ▸ (hmaps.isPage hmap).kernel) (by decide)⟩
    rw [Maps.getPage_mul hmaps huser, hmap]
    rfl

theorem lastPg_eq (h : ∀ i < (ehdrOf file).phnum, (phdr file i).type = 1 →
    isUserVaddr (phdr file i).vaddr) :
    pgRoundUp (lastPg file) = pgSize * (lastPg file / pgSize) ∧
      lastPg file / pgSize ≤ 1024 * userTables := by
  obtain ⟨hmod, huser⟩ : lastPg file % pgSize = 0 ∧ lastPg file ≤ loaderPhysBase := by
    rcases lastFrom_cases file (ehdrOf file).phnum (ehdrOf file).phoff 0 with
      hzero | ⟨i, hi, htype, hlast⟩
    · rw [lastPg, hzero]
      decide
    · rw [lastPg, hlast]
      exact ⟨Nat.mul_mod_left _ _, (Nat.div_mul_le_self _ _).trans (h i hi htype).le⟩
  rw [pgRoundUp_eq huser]
  unfold userTables
  unfold loaderPhysBase pgSize at *
  omega

/-- The heap of a program that `load` accepts is above its image iff there is no gap. -/
theorem load_heapAbove_iff (hboot : Booted k boot) (hsupply : boot.Supply k)
    (hlen : file.length < 2 ^ 31) (limits : List (Option ℕ))
    (hload : load k p (some file) ⟨boot, 0, limits, []⟩ = some (p', some start, s)) :
    HeapAbove p' s ↔ Gapless file := by
  obtain ⟨r, hproject, hstart, hpd, hfind⟩ := exists_load hload
  obtain ⟨r', s', hall, hcases⟩ :=
    load_eq hboot hsupply (some file) (fun f hf => some.inj hf ▸ hlen) limits
  rw [hall false] at hproject
  cases hproject
  obtain ⟨hs, hsegments⟩ := hcases.resolve_left fun hfail => hstart (by rw [hfail.1])
  obtain ⟨f, hf, himage, honly⟩ := hsegments hstart
  cases hf
  obtain ⟨T, hdir⟩ := hs.dir
  rw [← hpd] at hs hdir
  -- the pages that are mapped are the image and the stack
  have himage' : ∀ n, InImage file n → mapOf s.installed n ≠ none ∧ n ≠ stackPage := by
    rintro n ⟨i, hi, htype, hcover⟩
    obtain ⟨-, hloaded, hstack⟩ := himage i hi htype
    exact ⟨hloaded.covers hcover, fun heq => hstack (heq ▸ hcover)⟩
  have honly' : ∀ n, mapOf s.installed n ≠ none → n ≠ stackPage → InImage file n := by
    intro n hne hstack
    obtain ⟨a, hmap⟩ := ne_none_iff_exists'.mp hne
    exact (honly (n, a) ((mapOf_eq_some hdir.keys).mp hmap)).resolve_left hstack
  obtain ⟨hround, hlast⟩ := lastPg_eq fun i hi htype => (himage i hi htype).1.2.2.2.2.1
  rw [findHeapStart, hround] at hfind
  rcases Maps.skipMapped_eq (s := s.pages) hdir.maps (2 ^ 20) hlast
    (Nat.lt_add_left _ (by decide)) with ⟨m, hm, hskip⟩ | ⟨-, hskip⟩
  · rw [hskip] at hfind
    have hheap : p'.heapStart = pgSize * m := (some.inj hfind).symm
    have hlt : ∀ n, pgSize * n < p'.heapStart ↔ n < m := fun n => by
      rw [hheap]
      exact Nat.mul_lt_mul_left (by decide)
    constructor
    · intro habove n n' hle hle' hn'
      obtain ⟨hmapped, hstack⟩ := himage' n' hn'
      have hbelow : n' < m := (hlt n').mp (habove n' ((present_iff hs).mpr hmapped) hstack)
      refine honly' n (hm.mapped n hle (by omega)) fun heq => ?_
      -- the stack is the last of the user pages
      obtain ⟨a, hmap⟩ := ne_none_iff_exists'.mp hmapped
      have huser := (hs.user (n', a) ((mapOf_eq_some hdir.keys).mp hmap)).2
      have hlast : stackPage + 1 = 1024 * userTables := rfl
      dsimp only at huser
      omega
    · intro hgap n hpresent hstack
      by_contra hge
      have hle : m ≤ n := not_lt.mp fun hn => hge ((hlt n).mpr hn)
      have hn := honly' n ((present_iff hs).mp hpresent) hstack
      exact (himage' m (hgap m n hm.le hle hn)).1 hm.free
  · rw [hskip] at hfind
    cases hfind

def newThread : Process :=
  ⟨0, 0, 0⟩

/-- The kernel of the sample with one more frame. -/
def morePages : Pages :=
  { samplePages with answers := [some 0xc0103000, some 0xc0200000, some 0xc0104000,
      some 0xc0201000, some 0xc0202000, some 0xc0105000] }

theorem morePages_booted : Booted ⟨0xc0101000, 1024⟩ morePages :=
  ⟨sampleBoot_booted.page, sampleBoot_booted.dir, sampleBoot_booted.user, sampleBoot_booted.tables⟩

/-- A file with two pages of zeros, and the bytes 1 and 2 of their addresses. -/
def twoPages (first second : UInt8 × UInt8) : List UInt8 :=
  [0x7f, 0x45, 0x4c, 0x46, 1, 1, 1, 0, 0, 0, 0, 0, 0, 0, 0, 0,
    2, 0, 3, 0, 1, 0, 0, 0, 0, 0x80, 4, 8, 52, 0, 0, 0, 0, 0, 0, 0, 0, 0, 0, 0,
    52, 0, 32, 0, 2, 0, 0, 0, 0, 0, 0, 0,
    1, 0, 0, 0, 0, 0, 0, 0, 0, first.1, first.2, 8, 0, 0, 0, 0, 0, 0, 0, 0, 0, 0x10, 0, 0,
    6, 0, 0, 0, 0, 0x10, 0, 0,
    1, 0, 0, 0, 0, 0, 0, 0, 0, second.1, second.2, 8, 0, 0, 0, 0, 0, 0, 0, 0, 0, 0x10, 0, 0,
    6, 0, 0, 0, 0, 0x10, 0, 0]

/-- Two pages one after the other: the heap is on the next one. -/
theorem load_heapAbove_ascending :
    ∃ p s, load ⟨0xc0101000, 1024⟩ newThread (some (twoPages (0x80, 4) (0x90, 4)))
        ⟨morePages, 0, [], []⟩ = some (p, some (0x08048000, 0xbfffffec), s) ∧
      p = ⟨0xc0103000, 0x0804a000, 0x0804a000⟩ ∧ HeapAbove p s := by
  have hrun : (load ⟨0xc0101000, 1024⟩ newThread (some (twoPages (0x80, 4) (0x90, 4)))
      ⟨morePages, 0, [], []⟩).map (fun r => (r.1, r.2.1)) =
        some (⟨0xc0103000, 0x0804a000, 0x0804a000⟩, some (0x08048000, 0xbfffffec)) := by
    decide +kernel
  obtain ⟨⟨p, start, s⟩, hload, heq⟩ := map_eq_some_iff.mp hrun
  cases heq
  refine ⟨_, s, hload, rfl, (load_heapAbove_iff morePages_booted ⟨by decide, by decide⟩
    (by decide) [] hload).mpr fun n m hle hle' hm => ?_⟩
  obtain ⟨i, hi, htype, hm⟩ := hm
  refine ⟨i, hi, htype, ?_⟩
  have hnum : (ehdrOf (twoPages (0x80, 4) (0x90, 4))).phnum = 2 := by decide
  have hlast : lastPg (twoPages (0x80, 4) (0x90, 4)) / pgSize = 0x8049 := by decide
  have hfirst : (phdr (twoPages (0x80, 4) (0x90, 4)) 0).vaddr +
      (phdr (twoPages (0x80, 4) (0x90, 4)) 0).memsz = 0x08049000 := by decide
  have hsecond : (phdr (twoPages (0x80, 4) (0x90, 4)) 1).vaddr = 0x08049000 := by decide
  unfold Phdr.Covers at *
  unfold pgSize at *
  obtain rfl | rfl : i = 0 ∨ i = 1 := by omega
  · omega
  · omega

/-- A page at `0x08050000`, and then one at `0x08048000`: the heap starts between them. -/
theorem not_heapAbove_descending :
    Booted ⟨0xc0101000, 1024⟩ morePages ∧ morePages.Supply ⟨0xc0101000, 1024⟩ ∧
    ∃ p start s, load ⟨0xc0101000, 1024⟩ newThread (some (twoPages (0, 5) (0x80, 4)))
        ⟨morePages, 0, [], []⟩ = some (p, some start, s) ∧
      p.heapStart = 0x08049000 ∧ ¬ HeapAbove p s := by
  have hrun : (load ⟨0xc0101000, 1024⟩ newThread (some (twoPages (0, 5) (0x80, 4)))
      ⟨morePages, 0, [], []⟩).map (fun r => (r.1, r.2.1,
        pagedirGetPage r.1.pagedir 0x08050000 r.2.2.pages)) =
        some (⟨0xc0103000, 0x08049000, 0x08049000⟩, some (0x08048000, 0xbfffffec),
          some 0xc0200000) := by
    decide +kernel
  obtain ⟨⟨p, start, s⟩, hload, heq⟩ := map_eq_some_iff.mp hrun
  obtain ⟨rfl, heq⟩ := Prod.mk.inj heq
  obtain ⟨rfl, hpage⟩ := Prod.mk.inj heq
  refine ⟨morePages_booted, ⟨by decide, by decide⟩, _, _, s, hload, rfl, fun habove => ?_⟩
  exact absurd (habove 0x8050 ⟨_, hpage, by decide⟩ (by decide)) (by decide)

end Image

end HeapStart

end CS162.Memory
