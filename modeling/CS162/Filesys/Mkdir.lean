import CS162.Filesys.DirEntries
import CS162.Filesys.DirMap
import CS162.Filesys.NoTrace

/-!
# Making a directory

`sys_mkdir` of `userprog/syscall.c`.  It asks for the sector of the new directory and its contents
whatever `parse_path` has returned, and enters the directory nowhere.  `dir_create` makes it with
room for one entry, into which `..` goes, so that the assertion on adding `.` fails.
-/

namespace CS162.Filesys

open Option InodeDisk Block DirEntry Function List
open Prog

variable {σ σ' τ : Fs} {inode : Inode} {p s D L : ℕ} {path : CString} {alloc : Op (Option ℕ)}

/-- What is in the uninitialised variables of `sys_mkdir`: the inode `dir` leads to, and
`dir_sector`. -/
structure Garbage where
  dir : ℕ
  sector : ℕ

def sysMkdir (garbage : Garbage) (path : CString) : Op Bool := do
  let parsed ← parsePath path
  let dir := (parsed.map Prod.fst).getD garbage.dir
  let parent ← getInode dir
  inodeClose dir
  let allocated ← freeMapAllocate 1
  let created ← dirCreate (allocated.getD garbage.sector) 1 parent.sector
  return created && (allocated.isSome && parsed.isSome)

/-- What the variables hold is of no matter where they are set before they are used. -/
theorem mkdirSet_ensures (garbage : Garbage) (path : CString) :
    Ensures (mkdirSet path) σ fun ok σ' => (sysMkdir garbage path).run σ = some (ok, σ') := by
  intro ok σ' hrun
  obtain ⟨parsed, τ, hparse, hrun⟩ := run_bind_eq_some.mp hrun
  cases parsed with
  | none => cases hrun
  | some r =>
    obtain ⟨parent, τ₁, hparent, hrun⟩ := run_bind_eq_some.mp hrun
    obtain ⟨_, τ₂, hclose, hrun⟩ := run_bind_eq_some.mp hrun
    obtain ⟨allocated, τ₃, halloc, hrun⟩ := run_bind_eq_some.mp hrun
    cases allocated with
    | none => cases hrun
    | some sector =>
      refine run_bind_eq_some.mpr ⟨some r, τ, hparse, ?_⟩
      refine run_bind_eq_some.mpr ⟨parent, τ₁, hparent, ?_⟩
      refine run_bind_eq_some.mpr ⟨_, τ₂, hclose, ?_⟩
      refine run_bind_eq_some.mpr ⟨some sector, τ₃, halloc, ?_⟩
      refine run_bind_eq_some.mpr ⟨ok, σ', hrun, ?_⟩
      simp only [Option.isSome_some, Bool.and_self, Bool.and_true]
      rfl

def Binds (σ : Fs) (D : ℕ) (name : CString) (t : Option ℕ) : Prop :=
  Does (do lookup (← inodeOpen D) name) σ fun r _ => r.map (fun e => e.1.inodeSector) = t

def sectorsOf (σ : Fs) (D : ℕ) : List ℕ :=
  let d := σ.view D
  [D, singlyIndirect d, doublyIndirect d] ++
    (range ((lengthBits d + 511) / 512)).map (direct d)

/-- A directory has been made at the path: the name was not bound before, the path leads to a
directory with the flag, which has the entries `.` and `..`, every other binding is as before, and
the sectors of the directory were taken. -/
structure MadeDirectory (σ σ' : Fs) (path : CString) (parent : ℕ) (name : CString) (D : ℕ) :
    Prop where
  parsed : Does (parsePath path) σ fun o τ =>
    ∃ p i, o = some (p, name) ∧ τ.inodes p = some i ∧ i.sector = parent
  unbound : Binds σ parent name none
  bound : Binds σ' parent name (some D)
  resolves : Does (parsePath path) σ' fun o τ =>
    ∃ p i, o = some (p, [46]) ∧ τ.inodes p = some i ∧ i.sector = D
  flag : isDir (σ'.view D) = true
  entries : ∀ n t, Binds σ' D n t ↔
    t = if n = [46] then some D else if n = [46, 46] then some parent else none
  others : ∀ E n t, σ.freeMap E = true → (E ≠ parent ∨ n ≠ name) → Binds σ E n t → Binds σ' E n t
  taken : ∀ t, σ'.freeMap t = true ↔ σ.freeMap t = true ∨ t ∈ sectorsOf σ' D

/-- `sys_mkdir` makes the directory, or it changes nothing; either way no assertion fails. -/
def AllOrNothing (garbage : Garbage) (σ : Fs) (path : CString) : Prop :=
  Does (sysMkdir garbage path) σ fun ok σ' =>
    (ok = true → ∃ parent name D, MadeDirectory σ σ' path parent name D) ∧
    (ok = false → NoTrace σ σ' [] ∧ σ'.cwds = σ.cwds)

theorem writeLoop_past {n : ℕ} (buffer : Block n) (h : σ.Sound) (hf : FileOk σ inode.sector L)
    {size offset : ℕ} (hpast : L ≤ offset) (fuel written : ℕ) :
    Ensures (writeLoop inode buffer fuel size offset written) σ fun w _ => w = written := by
  cases fuel with
  | zero => exact ensures_pure.mpr rfl
  | succ fuel =>
    rw [writeLoop]
    refine ensures_ite (fun _ => ensures_pure.mpr rfl) fun _ => ?_
    refine (byteToSector_reads inode offset σ).bind fun s τ hs => ?_
    have hfτ : FileOk τ inode.sector L := hf.of_view hs.size (by rw [hs.view h.coherent])
    refine (inodeLength_does (hs.sound h) hfτ).ensures.bind fun len υ hlen => ?_
    rw [if_pos (by rw [hlen.1, chunkSize]; omega)]
    exact ensures_pure.mpr rfl

theorem OpenDir.writeAt_past (h : OpenDir σ p inode L) {size offset : ℕ} (buffer : Block size)
    (hpast : L ≤ offset) (hsector : (offset + size + 511) / 512 = (L + 511) / 512) :
    Ensures (inodeWriteAt alloc p buffer offset) σ fun w _ => w = 0 := by
  refine ensures_bind.mpr ((getInode_does h.opened).ensures.bind fun i τ hi => ?_)
  obtain ⟨rfl, rfl⟩ := hi
  refine ensures_ite (fun _ => ensures_pure.mpr (ensures_pure.mpr rfl)) fun _ => ?_
  refine (extendForWrite_lastSector h.sound h.file (by omega) hsector).ensures.bind
    fun ok υ hok => ?_
  rw [hok.1, if_pos rfl]
  refine ensures_pure.mpr (writeLoop_past buffer hok.2.sound ?_ hpast size 0)
  exact h.file.of_view hok.2.size (by rw [hok.2.view])

theorem OpenDir.freeSlot_single (h : OpenDir σ p inode 20) (last : DirEntry) :
    Ensures ((inodeStore p).freeSlotLoop dirFuel 0 last) σ fun r σ' => Same σ σ' ∧
      (r = (entryAt σ inode.sector 0, 0) ∧ (entryAt σ inode.sector 0).inUse = false ∨
        r.1.length = 20 ∧ r.2 = 20) := by
  obtain ⟨fuel, hfuel⟩ : ∃ fuel, dirFuel = fuel + 2 := ⟨dirFuel - 2, by unfold dirFuel; omega⟩
  rw [hfuel, DirStore.freeSlotLoop]
  refine (h.readAt_entry (k := 0) le_rfl).ensures.bind fun e τ he => ?_
  obtain ⟨rfl, hτ⟩ := he
  rw [if_pos (entryAt_length _ _ _)]
  refine ensures_ite (fun _ => ?_) fun huse => ?_
  · rw [DirStore.freeSlotLoop]
    refine ((h.of_same hτ).readAt_past (k := 1) (by omega) (by omega)).ensures.bind fun e υ he => ?_
    rw [he.1, if_neg (by simp)]
    exact ensures_pure.mpr ⟨hτ.trans he.2, .inr ⟨entryAt_length _ _ _, rfl⟩⟩
  · exact ensures_pure.mpr ⟨hτ, .inl ⟨rfl, by simpa using huse⟩⟩

theorem OpenDir.writeAt_single {e : DirEntry} (h : OpenDir σ p inode 20) (he : e.length = 20) :
    Ensures (inodeWriteAt alloc p (ofList e) 0) σ fun w σ' => w = 20 →
      OpenDir σ' p inode 20 ∧ entryAt σ' inode.sector 0 = e := by
  by_cases hdeny : inode.denyWriteCnt = 0
  · refine (inodeWriteAt_within (ofList e) h.sound h.size_lt h.opened hdeny h.file
      (by omega)).ensures.mono fun w σ' hσ' _ => ?_
    have hw := hσ'.2
    have hview := hw.view_inode h.file (by omega)
    refine ⟨⟨hw.sound, by rw [hw.size]; exact h.size_lt, by rw [hw.rest]; exact h.opened,
      h.file.of_view hw.size hview⟩, ?_⟩
    refine ext_getElem ((entryAt_length _ _ _).trans he.symm) fun k _ hk => ?_
    have hdata : dataSector σ' inode.sector = dataSector σ inode.sector := by
      funext i
      rw [dataSector, hview, dataSector]
    have hbyte := hw.data (fun i j hi hj _ => by omega) k (Nat.zero_le k) (by omega)
    simp only [entryAt, fileBytes, getElem_map, getElem_range, Nat.mul_zero,
      Nat.zero_add, fileByte, hdata]
    rw [hbyte, Nat.zero_add, Nat.sub_zero, byte_of_lt hk]
    rfl
  · refine ensures_bind.mpr ((getInode_does h.opened).ensures.bind fun i τ hi => ?_)
    obtain ⟨rfl, rfl⟩ := hi
    rw [if_pos hdeny]
    exact ensures_pure.mpr (ensures_pure.mpr (by simp))

theorem OpenDir.dirAdd_single (h : OpenDir σ p inode 20) (name : CString) (s : ℕ) :
    Ensures (dirAdd p name s) σ fun ok σ' => ok = true → (entryAt σ inode.sector 0).inUse = false ∧
      OpenDir σ' p inode 20 ∧ (entryAt σ' inode.sector 0).inUse = true := by
  refine ensures_ite (fun _ => ensures_pure.mpr (by simp)) fun _ => ?_
  refine (h.lookup_does name).ensures.bind fun r τ hr => ?_
  cases r with
  | some r => exact ensures_pure.mpr (by simp)
  | none =>
    have hτ := h.of_same hr.1
    refine (hτ.freeSlot_single _).bind fun r υ hυ => ?_
    obtain ⟨hsame, ⟨rfl, huse⟩ | hend⟩ := hυ
    · have hlength : (add (entryAt τ inode.sector 0) name s).length = 20 :=
        length_add (entryAt_length _ _ _)
      refine ((hτ.of_same hsame).writeAt_single hlength).bind fun w σ' hw => ?_
      refine ensures_pure.mpr fun hok => ?_
      obtain ⟨hopen, hentry⟩ := hw (of_decide_eq_true hok)
      rw [entryAt_congr hr.1.view] at huse
      refine ⟨huse, hopen, ?_⟩
      rw [hentry]
      exact inUse_add (entryAt_length _ _ _)
    · obtain ⟨e, ofs⟩ := r
      obtain ⟨he, rfl⟩ := hend
      have hlength : (add e name s).length = 20 := length_add he
      refine ((hτ.of_same hsame).writeAt_past (ofList (add e name s)) le_rfl
        (by omega)).bind fun w σ' hw => ?_
      rw [hw]
      exact ensures_pure.mpr (by simp)

theorem dirCreate_single (h : FsOk σ) (hlt : s < σ.size) (hused : σ.freeMap s = true) (parent : ℕ) :
    Ensures (dirCreate s 1 parent) σ fun ok σ' => ok = false ∧ Marks σ σ' := by
  refine (ensures_and (inodeCreate_marks s (1 * 20) σ) (inodeCreate_ensures h hlt (1 * 20))).bind
    fun ok τ hτ => ?_
  obtain ⟨hmarks, -, A, υ, d, hg, hw, -, hbuilt⟩ := hτ
  refine ensures_ite (fun hok => ?_) fun _ => ensures_pure.mpr ⟨rfl, hmarks⟩
  have hbuilt := (hbuilt hok).1
  -- the new inode is that of a file of one entry
  have hview : τ.view s = d := by rw [hw.view, update_self]
  have hmem := hbuilt.direct_mem 0 (by omega) (by omega)
  have hfile : FileOk τ s 20 := by
    refine ⟨by rw [hw.size, hg.size]; exact hlt, by rw [hview]; exact hbuilt.length_eq, by omega,
      fun i hi => ?_, fun i hi => ?_⟩
    · obtain rfl : i = 0 := by omega
      rw [dataSector, hview, hw.size, hg.size]
      exact hg.lt _ hmem
    · obtain rfl : i = 0 := by omega
      rw [dataSector, hview]
      intro heq
      rw [heq] at hmem
      rw [hg.free s hmem] at hused
      cases hused
  have hsize : τ.size < 2 ^ 32 := by
    rw [hw.size, hg.size]
    exact h.size_lt
  have hopen : Ensures (inodeOpen s) τ fun p ρ => ∃ i, OpenDir ρ p i 20 := by
    refine (inodeOpen_cases s τ).mono fun p ρ hρ => ?_
    rcases hρ with ⟨i, hfind, rfl⟩ | ⟨rfl, rfl⟩
    · have hi := (findInode_some hfind).2
      refine ⟨_, hw.sound, hsize, update_self _ _ _, ?_⟩
      rw [hi]
      exact hfile.of_view rfl rfl
    · exact ⟨_, hw.sound, hsize, update_self _ _ _, hfile.of_view rfl rfl⟩
  refine hopen.bind fun p ρ hρ => ?_
  obtain ⟨i, hi⟩ := hρ
  refine (hi.dirAdd_single [46, 46] parent).bind fun ok1 ρ1 h1 => ?_
  refine ensures_ite (fun hok1 => ?_) fun _ => ensures_failure
  obtain ⟨-, hi1, huse⟩ := h1 hok1
  refine (hi1.dirAdd_single [46] s).bind fun ok2 ρ2 h2 => ?_
  refine ensures_ite (fun hok2 => ?_) fun _ => ensures_failure
  rw [(h2 hok2).1] at huse
  cases huse

theorem freeMapAllocate_full (h : FsOk σ) (hfull : σ.Full) :
    Ensures (freeMapAllocate 1) σ fun o σ' => o = none ∧ σ' = σ := by
  refine (freeMapAllocate_does h).ensures.mono fun o σ' ho => ?_
  cases o with
  | none => exact ⟨rfl, ho.1⟩
  | some s =>
    have hfree := ho.free
    rw [hfull s ho.lt] at hfree
    cases hfree

theorem inodeCreate_full (h : FsOk σ) (hfull : σ.Full) (hlt : s < σ.size) :
    Ensures (inodeCreate s 20) σ fun ok σ' => ok = false ∧ lengthBits (σ'.view s) = 0 := by
  have hzero : lengthBits (setU32 (fun _ => 0) 508 inodeMagic) = 0 :=
    (u32_setU32_of_disjoint (by omega)).trans u32_zero
  have hlength : length (setU32 (fun _ => 0) 508 inodeMagic) = (0 : ℕ) :=
    length_eq hzero (Nat.zero_le _)
  refine ensures_ite (fun _ => ?_) fun _ => ensures_failure
  have hallocate : Ensures (inodeAllocate (freeMapAllocate 1)
      (setU32 (fun _ => 0) 508 inodeMagic)) σ fun r σ' =>
        r = (false, setU32 (fun _ => 0) 508 inodeMagic) ∧ σ' = σ := by
    refine (freeMapAllocate_full h hfull).bind fun o τ ho => ?_
    obtain ⟨rfl, rfl⟩ := ho
    exact ensures_pure.mpr ⟨rfl, rfl⟩
  have hextend : Ensures (inodeExtend (freeMapAllocate 1)
      (setU32 (fun _ => 0) 508 inodeMagic) 20) σ fun r σ' =>
        r = (false, setU32 (fun _ => 0) 508 inodeMagic) ∧ σ' = σ := by
    rw [inodeExtend, if_neg (by omega), if_neg (by decide), hlength]
    refine Ensures.bind (P := fun r σ' =>
      r = (false, setU32 (fun _ => 0) 508 inodeMagic) ∧ σ' = σ) ?_ ?_
    · refine Ensures.bind (P := fun r σ' =>
        r = (false, setU32 (fun _ => 0) 508 inodeMagic) ∧ σ' = σ) ?_ ?_
      · refine (freeMapAllocate_full h hfull).bind fun o τ ho => ?_
        obtain ⟨rfl, rfl⟩ := ho
        exact ensures_pure.mpr ⟨rfl, rfl⟩
      · rintro r τ ⟨rfl, rfl⟩
        exact ensures_pure.mpr ⟨rfl, rfl⟩
    · rintro r τ ⟨rfl, rfl⟩
      exact ensures_pure.mpr ⟨rfl, rfl⟩
  refine hallocate.bind ?_
  rintro r τ ⟨rfl, rfl⟩
  refine hextend.bind ?_
  rintro r υ ⟨rfl, rfl⟩
  refine (writeBlock_does h.sound hlt _).ensures.bind fun _ σ' hw => ?_
  refine ensures_pure.mpr ⟨rfl, ?_⟩
  rw [hw.view, update_self]
  exact hzero

section

variable (h : FsOk σ) (hrefs : Refs σ.mapRefs σ) (hparses : Parses σ path)

include h hrefs hparses

theorem sysMkdir_parsed {Q : Bool → Fs → Prop} (garbage : Garbage)
    (hrest : ∀ parent τ, Kept σ.mapRefs σ τ → FsOk τ →
      Ensures (do
        let allocated ← freeMapAllocate 1
        let created ← dirCreate (allocated.getD garbage.sector) 1 parent
        return created && (allocated.isSome && true)) τ Q) :
    Ensures (sysMkdir garbage path) σ Q := by
  have hheld : 0 ≤ σ.mapRefs := optRef_nonneg _
  refine (ensures_and hparses.ensures (parsePath_ensures hrefs hheld path)).bind fun o τ hτ => ?_
  obtain ⟨hsome, hrefsτ, hkept⟩ := hτ
  obtain ⟨⟨dir, name⟩, rfl⟩ := isSome_iff_exists.mp hsome
  refine (getInode_ensures dir τ).bind fun i υ hi => ?_
  rw [hi.2]
  refine (inodeClose_ref hrefsτ hheld).bind fun _ ρ hρ => ?_
  have hkept := hkept.trans hρ.2
  have hok : FsOk ρ := h.of_keepsMap (hkept.keepsMap hrefs h.sound.coherent) (hkept.sound h.sound)
  exact hrest i.sector ρ hkept hok

theorem sysMkdir_loses (hfree : σ.freeSectors.card ≠ 0) (garbage : Garbage) :
    Ensures (sysMkdir garbage path) σ fun ok σ' =>
      ok = false ∧ ∃ s, σ.freeMap s = false ∧ σ'.freeMap s = true := by
  refine sysMkdir_parsed h hrefs hparses garbage fun parent τ hkept hτ => ?_
  refine (freeMapAllocate_does hτ).ensures.bind fun o υ ho => ?_
  cases o with
  | none =>
    refine absurd ?_ hfree
    rw [← freeSectors_congr hkept.size hkept.freeMap]
    exact full_iff.mp ho.2
  | some s =>
    have hused : υ.freeMap s = true := by rw [ho.freeMap, update_self]
    have hlt : s < υ.size := by
      rw [ho.size]
      exact ho.lt
    refine (dirCreate_single (ho.ok hτ) hlt hused parent).bind fun created σ' hσ' => ?_
    rw [hσ'.1]
    refine ensures_pure.mpr ⟨rfl, s, ?_, hσ'.2.used s hused⟩
    rw [← hkept.freeMap]
    exact ho.free

theorem sysMkdir_overwrites (hfull : σ.freeSectors.card = 0) (garbage : Garbage)
    (hlt : garbage.sector < σ.size) :
    Ensures (sysMkdir garbage path) σ fun ok σ' =>
      ok = false ∧ lengthBits (σ'.view garbage.sector) = 0 := by
  refine sysMkdir_parsed h hrefs hparses garbage fun parent τ hkept hτ => ?_
  have hfull : τ.Full := by
    rw [full_iff, freeSectors_congr hkept.size hkept.freeMap, hfull]
  refine (freeMapAllocate_full hτ hfull).bind fun o υ ho => ?_
  obtain ⟨rfl, rfl⟩ := ho
  have hcreate : Ensures (dirCreate garbage.sector 1 parent) υ fun ok σ' =>
      ok = false ∧ lengthBits (σ'.view garbage.sector) = 0 := by
    refine (inodeCreate_full hτ hfull (by rw [hkept.size]; exact hlt)).bind fun ok σ' hσ' => ?_
    rw [hσ'.1, if_neg (by simp)]
    exact ensures_pure.mpr ⟨rfl, hσ'.2⟩
  refine hcreate.bind fun ok σ' hσ' => ?_
  rw [hσ'.1]
  exact ensures_pure.mpr ⟨rfl, hσ'.2⟩

end

theorem sysMkdir_wild {held : ℕ → ℤ} (hrefs : Refs held σ) (hheld : 0 ≤ held)
    (hparses : ¬ Parses σ path) :
    ∃ garbage, Ensures (sysMkdir garbage path) σ fun _ _ => False := by
  cases hrun : (parsePath path).run σ with
  | none =>
    refine ⟨⟨0, 0⟩, Ensures.bind (P := fun _ _ => False) (fun o τ hτ => ?_) fun _ _ h => h.elim⟩
    rw [hrun] at hτ
    cases hτ
  | some r =>
    obtain ⟨o, τ⟩ := r
    have ho : o = none := by
      rw [eq_none_iff_forall_ne_some]
      rintro x rfl
      exact hparses ⟨_, τ, hrun, rfl⟩
    subst ho
    have hfresh := (parsePath_ensures hrefs hheld path _ _ hrun).1.fresh τ.brk le_rfl
    refine ⟨⟨τ.brk, 0⟩, ensures_bind.mpr fun o τ' hτ' => ?_⟩
    rw [hrun] at hτ'
    cases hτ'
    refine (getInode_ensures _ τ).bind fun i υ hi => ?_
    rw [show ((Option.map Prod.fst (none : Option (ℕ × CString))).getD τ.brk) = τ.brk from rfl,
      hfresh] at hi
    cases hi.1

/-- `sys_mkdir` is all or nothing for no path: when the path is parsed and a sector is free, no
value of its uninitialised variables makes it so, and otherwise some value makes it fail. -/
theorem not_allOrNothing (h : FsOk σ) (hrefs : Refs σ.mapRefs σ) (hroot : FileOk σ 1 L)
    (hL : 0 < L) (hused : σ.freeMap 1 = true) (hmap : ¬ MapData σ 1) (path : CString) :
    (∃ garbage, ¬ AllOrNothing garbage σ path) ∧
      (Parses σ path → σ.freeSectors.card ≠ 0 → ∀ garbage, ¬ AllOrNothing garbage σ path) := by
  have hfree : Parses σ path → σ.freeSectors.card ≠ 0 →
      ∀ garbage, ¬ AllOrNothing garbage σ path := by
    rintro hparses hcard garbage ⟨ok, σ', hrun, -, hnothing⟩
    obtain ⟨hok, s, hs, hs'⟩ := sysMkdir_loses h hrefs hparses hcard garbage ok σ' hrun
    rw [(hnothing hok).1.freeMap, hs] at hs'
    cases hs'
  refine ⟨?_, hfree⟩
  by_cases hparses : Parses σ path
  · by_cases hcard : σ.freeSectors.card = 0
    · refine ⟨⟨0, 1⟩, ?_⟩
      rintro ⟨ok, σ', hrun, -, hnothing⟩
      obtain ⟨hok, hzero⟩ :=
        sysMkdir_overwrites h hrefs hparses hcard ⟨0, 1⟩ hroot.sector_lt ok σ' hrun
      rw [(hnothing hok).1.view 1 hused hmap not_mem_nil, hroot.length] at hzero
      omega
    · exact ⟨⟨0, 0⟩, hfree hparses hcard _⟩
  · obtain ⟨garbage, hwild⟩ := sysMkdir_wild hrefs (optRef_nonneg _) hparses
    refine ⟨garbage, ?_⟩
    rintro ⟨ok, σ', hrun, -⟩
    exact hwild ok σ' hrun

theorem not_allOrNothing_formatted : ¬ AllOrNothing ⟨0, 0⟩ (mounted 16) [97] := by
  have hmap : ¬ MapData (mounted 16) 1 := by
    rintro ⟨sector, i, hs, hi, heq⟩
    cases hs
    have hi' : i = 0 := by
      change 512 * i < 4 at hi
      omega
    rw [hi', dataSector, mounted_view] at heq
    cases heq.trans (smallInode_direct (by omega))
  have hparses : ((parsePath [97]).run (mounted 16)).map (fun r => r.1.isSome) = some true := by
    decide +kernel
  obtain ⟨⟨o, τ⟩, hrun, ho⟩ := map_eq_some_iff.mp hparses
  exact (not_allOrNothing (mounted_ok (by decide) (by decide)) (mounted_refs 16)
    (mounted_root 16 (by decide)) (by decide) rfl hmap [97]).2 ⟨o, τ, hrun, ho⟩ (by decide) ⟨0, 0⟩

example : ((parsePath [97]).run (mounted 10)).isSome = true := by decide +kernel

/-- With two free sectors `mkdir ("a")` returns false and keeps the first, and with twelve an
assertion fails. -/
theorem sysMkdir_keeps_sector :
    (∃ σ', (sysMkdir ⟨0, 0⟩ [97]).run (mounted 10) = some (false, σ') ∧
      (mounted 10).freeMap 8 = false ∧ σ'.freeMap 8 = true ∧
      ¬ AllOrNothing ⟨0, 0⟩ (mounted 10) [97]) ∧
      (sysMkdir ⟨0, 0⟩ [97]).run (mounted 20) = none := by
  constructor
  · have hrun : ((sysMkdir ⟨0, 0⟩ [97]).run (mounted 10)).map (fun r => (r.1, r.2.freeMap 8)) =
        some (false, true) := by
      decide +kernel
    obtain ⟨⟨ok, σ'⟩, hrun, heq⟩ := map_eq_some_iff.mp hrun
    obtain ⟨rfl, hused⟩ := Prod.mk.inj heq
    refine ⟨σ', hrun, rfl, hused, ?_⟩
    rintro ⟨ok, τ, hrun', -, hnothing⟩
    rw [hrun] at hrun'
    cases hrun'
    rw [(hnothing rfl).1.freeMap] at hused
    cases hused
  · have hrun : ((sysMkdir ⟨0, 0⟩ [97]).run (mounted 20)).isNone = true := by decide +kernel
    exact isNone_iff_eq_none.mp hrun

end CS162.Filesys
