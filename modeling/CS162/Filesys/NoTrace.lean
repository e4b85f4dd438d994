import CS162.Filesys.Extend
import CS162.Filesys.Mounted

/-!
# What a failed call leaves behind

`inode_create`, `filesys_create` and the extension in `inode_write_at` give up when no
sector is free, and keep the sectors they have taken by then.  Only the sector of the
inode is given back, by `filesys_create`.  So a call that fails leaves no trace exactly
when it could not take a sector it keeps.
-/

namespace CS162.Filesys

open Option List InodeDisk Function
open Prog

variable {σ σ' τ : Fs} {inode : Inode} {s sector : ℕ} {A : List ℕ}

/-- The free map is as before, and so is every used sector: the contents of the
directories and the inodes with the lengths of the files.  The data of the free map file
and the sectors of `new`, where the call was to put a new inode, do not count. -/
structure NoTrace (σ σ' : Fs) (new : List ℕ) : Prop where
  freeMap : σ'.freeMap = σ.freeMap
  view : ∀ s, σ.freeMap s = true → ¬ MapData σ s → s ∉ new → σ'.view s = σ.view s

theorem Kept.noTrace {held : ℕ → ℤ} (h : Kept held σ σ') (hs : σ.Sound) : NoTrace σ σ' [] :=
  ⟨h.freeMap, fun s _ _ _ => by rw [h.view hs.coherent]⟩

theorem Grown.freeMap_eq_iff (hg : Grown σ A σ') : σ'.freeMap = σ.freeMap ↔ A = [] := by
  constructor
  · intro heq
    refine eq_nil_iff_forall_not_mem.mpr fun s hs => ?_
    have hfree := hg.free s hs
    rw [← heq, (hg.freeMap s).mpr (.inr hs)] at hfree
    cases hfree
  · rintro rfl
    funext s
    rw [Bool.eq_iff_iff, hg.freeMap s]
    simp

theorem Grown.eq_nil_iff (hg : Grown σ A σ') (hfull : σ'.Full) :
    A = [] ↔ σ.freeSectors.card = 0 := by
  have hcard := hg.card
  rw [full_iff] at hfull
  rw [← length_eq_zero_iff]
  omega

theorem Grown.noTrace_iff (hg : Grown σ A σ') (hfull : σ'.Full) :
    NoTrace σ σ' [] ↔ σ.freeSectors.card = 0 := by
  rw [← hg.eq_nil_iff hfull, ← hg.freeMap_eq_iff]
  exact ⟨fun h => h.freeMap, fun h => ⟨h, fun s hs hm _ => hg.view_used hs hm⟩⟩

theorem inodeCreate_noTrace (h : FsOk σ) (hlt : sector < σ.size) (length : ℕ) :
    Ensures (inodeCreate sector length) σ fun ok σ' => ok = false →
      (NoTrace σ σ' [sector] ↔ σ.freeSectors.card = 0) := by
  refine (inodeCreate_ensures h hlt length).mono fun ok σ' hσ' hok => ?_
  obtain ⟨-, A, τ, d, hg, hw, hfail, -⟩ := hσ'
  have hmap : σ'.freeMap = τ.freeMap := by rw [hw.rest]
  rw [← hg.eq_nil_iff (hfail hok), ← hg.freeMap_eq_iff, ← hmap]
  refine ⟨fun h => h.freeMap, fun h => ⟨h, fun s hs hm hne => ?_⟩⟩
  rw [hw.view, update_of_ne (by simpa using hne), hg.view_used hs hm]

theorem readBlock_ensures (h : σ.cache.Coherent) (sector : ℕ) :
    Ensures (readBlock sector) σ fun d σ' => d = σ.view sector ∧ Reads σ σ' := by
  intro d σ' hr
  refine ⟨?_, readBlock_reads sector σ d σ' hr⟩
  obtain ⟨⟨c, b⟩, hc, heq⟩ := map_eq_some_iff.mp hr
  cases heq
  rw [(Cache.bufferCacheRead_coherent h hc).1]
  exact Block.slice_full

theorem extendForWrite_grown (h : FsOk σ) (n : ℕ) :
    Ensures (extendForWrite (freeMapAllocate 1) inode n) σ fun ok σ' =>
      ∃ A, Grown σ A σ' ∧ (ok = false →
        if maxLength < n ∨ n < lengthBits (σ.view inode.sector) then A = []
        else σ'.Full) := by
  refine ensures_ite (fun _ => ensures_failure) fun _ => ?_
  refine (byteToSector_reads inode n σ).bind fun s τ hτ => ?_
  have hgτ : Grown σ [] τ := .of_same (hτ.same h.sound)
  refine ensures_ite (fun _ => ?_) fun _ => ensures_pure.mpr ⟨[], hgτ, by simp⟩
  refine (readBlock_ensures (hτ.coherent h.sound.coherent) inode.sector).bind fun d υ hd => ?_
  have hread : Reads σ υ := IsTrans.trans _ _ _ hτ hd.2
  have hview : d = σ.view inode.sector := by
    rw [hd.1, hτ.view h.sound.coherent]
  have hsame : Grown σ [] υ := .of_same (hread.same h.sound)
  rw [← hview]
  by_cases hlen : n < lengthBits d
  · rw [inodeExtend, if_pos hlen, pure_bind, ensures_pure]
    exact ⟨[], hsame, fun _ => by rw [if_pos (.inr hlen)]⟩
  by_cases hmax : maxLength < n
  · rw [inodeExtend, if_neg hlen, if_pos hmax, pure_bind, ensures_pure]
    exact ⟨[], hsame, fun _ => by rw [if_pos (.inl hmax)]⟩
  · refine (inodeExtend_ensures (hsame.ok h) rfl (by omega) (by omega)).bind fun r ρ hr => ?_
    obtain ⟨A, hg, hfail, -⟩ := hr
    refine ensures_pure.mpr ⟨[] ++ A, hsame.trans h hg, fun hok => ?_⟩
    rw [if_neg (by simp [hmax, hlen])]
    exact hfail hok

theorem extendForWrite_noTrace (h : FsOk σ) (n : ℕ) :
    Ensures (extendForWrite (freeMapAllocate 1) inode n) σ fun ok σ' => ok = false →
      (NoTrace σ σ' [] ↔ σ.freeSectors.card = 0 ∨ maxLength < n ∨
        n < lengthBits (σ.view inode.sector)) := by
  refine (extendForWrite_grown h n).mono fun ok σ' hσ' hok => ?_
  obtain ⟨A, hg, hfail⟩ := hσ'
  have hfail := hfail hok
  split_ifs at hfail with hrefused
  · refine iff_of_true ⟨hg.freeMap_eq_iff.mpr hfail, fun s hs hm _ => ?_⟩ (.inr hrefused)
    exact hg.view_used hs hm
  · rw [hg.noTrace_iff hfail]
    simp only [hrefused, or_false]

theorem inodeWriteAt_eq_zero {p size offset : ℕ} {alloc : Op (Option ℕ)} (buffer : Block size)
    (hp : σ.inodes p = some inode) (hdeny : inode.denyWriteCnt = 0)
    (hext : (extendForWrite alloc inode (offset + size)).run σ = some (false, σ')) :
    (inodeWriteAt alloc p buffer offset).run σ = some (0, σ') := by
  have hget : (getInode p).run σ = some (inode, σ) := by
    change (σ.inodes p).map _ = _
    rw [hp]
    rfl
  refine run_bind_eq_some.mpr ⟨none, σ', ?_, rfl⟩
  refine run_bind_eq_some.mpr ⟨inode, σ, hget, ?_⟩
  rw [if_neg (by simpa using hdeny)]
  exact run_bind_eq_some.mpr ⟨false, σ', hext, rfl⟩

/-- The reference that `free_map_open` holds for the free map file. -/
def Fs.mapRefs (σ : Fs) : ℕ → ℤ :=
  optRef ((σ.freeMapFile.bind σ.files).map File.inode)

theorem Kept.keepsMap (h : Kept σ.mapRefs σ σ') (hrefs : Refs σ.mapRefs σ)
    (hc : σ.cache.Coherent) : KeepsMap σ σ' := by
  have hinode : ∀ file, σ.freeMapFile.bind σ.files = some file →
      ∃ i i', σ.inodes file.inode = some i ∧ σ'.inodes file.inode = some i' ∧
        i'.sector = i.sector ∧ i'.denyWriteCnt = i.denyWriteCnt := by
    intro file hfile
    have hheld : σ.mapRefs file.inode = 1 := by
      rw [Fs.mapRefs, hfile, map_some, optRef, ref_self]
    cases hi : σ.inodes file.inode with
    | none =>
      have := hrefs.absent _ hi
      omega
    | some i =>
      obtain ⟨i', hi', hsame⟩ := h.inodes _ i (by omega) hi
      exact ⟨i, i', rfl, hi', hsame⟩
  have hbind : σ'.freeMapFile.bind σ'.files = σ.freeMapFile.bind σ.files := by
    rw [h.freeMapFile, h.files]
  have hview : σ'.view = σ.view := h.view hc
  refine ⟨h.size, h.freeMapFile, ?_, ?_, fun _ _ => by rw [hview], fun s hs => ?_⟩
  · unfold Fs.mapSector Fs.mapInode
    rw [hbind]
    cases hfile : σ.freeMapFile.bind σ.files with
    | none => rfl
    | some file =>
      obtain ⟨i, i', hi, hi', hsector, -⟩ := hinode file hfile
      rw [bind_some, bind_some, hi, hi', map_some, map_some, hsector]
  · unfold Fs.mapInode
    rw [hbind]
    cases hfile : σ.freeMapFile.bind σ.files with
    | none => rfl
    | some file =>
      obtain ⟨i, i', hi, hi', -, hdeny⟩ := hinode file hfile
      rw [bind_some, bind_some, hi, hi', map_some, map_some, hdeny]
  · rw [h.freeMap]
    exact hs

def Parses (σ : Fs) (path : CString) : Prop :=
  Does (parsePath path) σ fun o _ => o.isSome = true

theorem freeSectors_congr (hsize : σ'.size = σ.size) (hmap : σ'.freeMap = σ.freeMap) :
    σ'.freeSectors = σ.freeSectors := by
  unfold Fs.freeSectors
  rw [hsize, hmap]

/-- What is left when `filesys_create` could not make the inode on `s` or enter it in the
directory: all sectors are taken, or one is that was free before. -/
def Abandoned (σ : Fs) (s : ℕ) (σ' : Fs) : Prop :=
  (∃ A, Grown σ (s :: A) σ' ∧ σ'.Full) ∨
    ∃ a, a ≠ s ∧ a < σ.size ∧ σ.freeMap a = false ∧ σ'.freeMap a = true

theorem createEntry_abandoned (dir : ℕ) (name : CString) (length : ℕ) (h : FsOk σ)
    (ha : Allocated σ s τ) :
    Ensures (do if ← inodeCreate s length then dirAdd dir name s else return false) τ
      fun ok σ' => Marks τ σ' ∧ (ok = false → Abandoned σ s σ') := by
  have hlt : s < τ.size := by
    rw [ha.size]
    exact ha.lt
  refine (ensures_and (inodeCreate_marks s length τ)
    (inodeCreate_ensures (ha.ok h) hlt length)).bind fun ok υ hυ => ?_
  obtain ⟨hmarks, -, A, τ', d, hg, hw, hfail, hbuilt⟩ := hυ
  have hgrown : Grown σ (s :: A) υ := ((Grown.of_allocated ha).trans h hg).write hw mem_cons_self
  cases ok with
  | false =>
    have hfull : υ.Full := by
      have := hfail rfl
      intro t ht
      rw [hw.size] at ht
      rw [hw.rest]
      exact this t ht
    exact ensures_pure.mpr ⟨hmarks, fun _ => .inl ⟨A, hgrown, hfull⟩⟩
  | true =>
    -- the index sector stays, whatever `dir_add` does
    have hmem : singlyIndirect d ∈ s :: A := mem_cons_of_mem _ (hbuilt rfl).1.singly_mem
    have hne : singlyIndirect d ≠ s := by
      intro heq
      have := (hbuilt rfl).1.singly_mem
      rw [heq] at this
      exact (nodup_cons.mp hgrown.nodup).1 this
    refine (dirAdd_marks dir name s υ).mono fun ok σ' hσ' => ?_
    refine ⟨IsTrans.trans _ _ _ hmarks hσ', fun _ => .inr ⟨_, hne, hgrown.lt _ hmem,
      hgrown.free _ hmem, hσ'.used _ ?_⟩⟩
    exact (hgrown.freeMap _).mpr (.inr hmem)

theorem Abandoned.release (h : FsOk σ) (hlt : s < σ.size) (hfree : σ.freeMap s = false)
    (ha : Abandoned σ s τ) (hc : τ.cache.Coherent) :
    Ensures (freeMapRelease s 1) τ fun _ σ' => σ'.inodes = τ.inodes ∧ σ'.brk = τ.brk ∧
      σ'.cache.Coherent ∧ (NoTrace σ σ' [] ↔ σ.freeSectors.card ≤ 1) := by
  rcases ha with ⟨A, hg, hfull⟩ | ⟨a, hne, hlt', hfree', hused⟩
  · refine (freeMapRelease_released (hg.ok h) s).mono fun _ σ' hr => ?_
    refine ⟨by rw [hr.rest], by rw [hr.rest], hr.sound.coherent, ?_⟩
    have hcard := hg.card
    rw [full_iff.mp hfull, length_cons] at hcard
    have hA : σ.freeSectors.card ≤ 1 ↔ A = [] := by
      rw [← length_eq_zero_iff]
      omega
    have hs : s ∉ A := (nodup_cons.mp hg.nodup).1
    rw [hA]
    constructor
    · intro hn
      refine eq_nil_iff_forall_not_mem.mpr fun t ht => ?_
      have hts : t ≠ s := fun heq => hs (heq ▸ ht)
      have hfree := hg.free t (mem_cons_of_mem _ ht)
      rw [← hn.freeMap, hr.freeMap, update_of_ne hts,
        (hg.freeMap t).mpr (.inr (mem_cons_of_mem _ ht))] at hfree
      cases hfree
    · rintro rfl
      refine ⟨?_, fun t ht hm _ => ?_⟩
      · funext t
        rw [hr.freeMap]
        by_cases hts : t = s
        · rw [hts, update_self, hfree]
        · rw [update_of_ne hts, Bool.eq_iff_iff, hg.freeMap t]
          simp [hts]
      · rw [hr.view t (by rwa [(hg.keepsMap h).mapData]), hg.view_used ht hm]
  · refine (freeMapRelease_ensures s 1 τ).mono fun _ σ' hm => ?_
    refine ⟨by rw [hm.rest], by rw [hm.rest], hm.coherent hc, iff_of_false (fun hn => ?_) ?_⟩
    · have hkept : σ'.freeMap a = true := by
        refine hm.used a ?_
        refine (bitmapSetMultiple_outside fun j hj => ?_).trans hused
        rw [Nat.lt_one_iff.mp hj]
        exact hne
      rw [hn.freeMap, hfree'] at hkept
      cases hkept
    · rw [not_le, Finset.one_lt_card]
      exact ⟨a, mem_freeSectors.mpr ⟨hlt', hfree'⟩, s, mem_freeSectors.mpr ⟨hlt, hfree⟩, hne⟩

theorem Kept.noTrace_right {held : ℕ → ℤ} {new : List ℕ} (h : Kept held τ σ')
    (hc : τ.cache.Coherent) : NoTrace σ σ' new ↔ NoTrace σ τ new := by
  constructor
  · intro hn
    refine ⟨h.freeMap.symm.trans hn.freeMap, fun s hs hm hnew => ?_⟩
    rw [← h.view hc]
    exact hn.view s hs hm hnew
  · intro hn
    refine ⟨h.freeMap.trans hn.freeMap, fun s hs hm hnew => ?_⟩
    rw [h.view hc]
    exact hn.view s hs hm hnew

theorem Kept.noTrace_left {new : List ℕ} (h : Kept σ.mapRefs σ τ) (hrefs : Refs σ.mapRefs σ)
    (hc : σ.cache.Coherent) : NoTrace τ σ' new ↔ NoTrace σ σ' new := by
  have hdata : ∀ s, MapData τ s ↔ MapData σ s := fun s => (h.keepsMap hrefs hc).mapData
  constructor
  · intro hn
    refine ⟨hn.freeMap.trans h.freeMap, fun s hs hm hnew => ?_⟩
    rw [← h.view hc]
    exact hn.view s (by rwa [h.freeMap]) (by rwa [hdata]) hnew
  · intro hn
    refine ⟨hn.freeMap.trans h.freeMap.symm, fun s hs hm hnew => ?_⟩
    rw [h.view hc]
    exact hn.view s (by rwa [← h.freeMap]) (by rwa [← hdata]) hnew

theorem filesysCreate_noTrace (h : FsOk σ) (hzero : σ.freeMap 0 = true)
    (hrefs : Refs σ.mapRefs σ) (name : CString) (length : ℕ) :
    Ensures (filesysCreate name length) σ fun ok σ' => ok = false →
      (NoTrace σ σ' [] ↔ ¬ Parses σ name ∨ σ.freeSectors.card ≤ 1) := by
  have hheld : 0 ≤ σ.mapRefs := optRef_nonneg _
  have hcoh := h.sound.coherent
  refine (ensures_and (fun _ _ hr => hr) (parsePath_ensures hrefs hheld name)).bind fun o τ hτ => ?_
  obtain ⟨hparse, hrefsτ, hkept⟩ := hτ
  cases o with
  | none =>
    refine ensures_pure.mpr fun _ => iff_of_true (hkept.noTrace h.sound) (.inl fun hp => ?_)
    have := hp.ensures _ _ hparse
    cases this
  | some r =>
    obtain ⟨dir, basename⟩ := r
    have hparses : Parses σ name := ⟨_, _, hparse, rfl⟩
    have hτ : FsOk τ := h.of_keepsMap (hkept.keepsMap hrefs hcoh) (hkept.sound h.sound)
    have hcard : τ.freeSectors = σ.freeSectors := freeSectors_congr hkept.size hkept.freeMap
    simp only [hparses, not_true, false_or]
    refine (freeMapAllocate_does hτ).ensures.bind fun o υ hυ => ?_
    cases o with
    | none =>
      obtain ⟨rfl, hfull⟩ := hυ
      refine (inodeClose_ref hrefsτ hheld).bind fun _ σ' hσ' => ensures_pure.mpr fun _ => ?_
      refine iff_of_true ((hkept.trans hσ'.2).noTrace h.sound) ?_
      rw [← hcard, full_iff.mp hfull]
      exact Nat.zero_le _
    | some s =>
      have hs : s ≠ 0 := by
        rintro rfl
        have hfree := hυ.free
        rw [hkept.freeMap, hzero] at hfree
        cases hfree
      have hmarks : Marks τ υ :=
        ⟨hυ.rest, hυ.size, fun _ => hυ.sound.coherent, (hυ.keepsMap hτ).used⟩
      refine (createEntry_abandoned dir basename length hτ hυ).bind fun ok ρ hρ => ?_
      have hmarks : Marks τ ρ := IsTrans.trans _ _ _ hmarks hρ.1
      have hcohρ := hmarks.coherent (hkept.coherent hcoh)
      have hrefsρ := hrefsτ.of_marks hmarks
      cases ok with
      | true =>
        rw [if_neg (by simp)]
        exact (inodeClose_ref hrefsρ hheld).bind fun _ _ _ => ensures_pure.mpr (by simp)
      | false =>
        rw [if_pos (by simpa using hs)]
        refine ((hρ.2 rfl).release hτ hυ.lt hυ.free hcohρ).bind fun _ ω hω => ?_
        have hrefsω := hrefsρ.of_eq hω.1 hω.2.1.ge
        refine (inodeClose_ref hrefsω hheld).bind fun _ σ' hσ' => ?_
        refine ensures_pure.mpr fun _ => ?_
        rw [hσ'.2.noTrace_right hω.2.2.1, ← hkept.noTrace_left hrefs hcoh, hω.2.2.2, hcard]

/-- When a call fails it leaves no trace exactly when it could not take a sector that it
keeps: `inode_create` when no sector was free, `filesys_create` when the path did not
lead to a directory or at most one sector was free, and the extension in
`inode_write_at` when no sector was free or it did not come to allocating at all. -/
theorem failed_noTrace (σ : Fs) (h : FsOk σ) (hzero : σ.freeMap 0 = true)
    (hrefs : Refs σ.mapRefs σ) :
    (∀ sector length σ', sector < σ.size →
      (inodeCreate sector length).run σ = some (false, σ') →
        (NoTrace σ σ' [sector] ↔ σ.freeSectors.card = 0)) ∧
    (∀ name length σ', (filesysCreate name length).run σ = some (false, σ') →
      (NoTrace σ σ' [] ↔ ¬ Parses σ name ∨ σ.freeSectors.card ≤ 1)) ∧
    ∀ p inode offset size (buffer : Block size) σ', σ.inodes p = some inode →
      inode.denyWriteCnt = 0 →
      (extendForWrite (freeMapAllocate 1) inode (offset + size)).run σ = some (false, σ') →
        (inodeWriteAt (freeMapAllocate 1) p buffer offset).run σ = some (0, σ') ∧
        (NoTrace σ σ' [] ↔ σ.freeSectors.card = 0 ∨ maxLength < offset + size ∨
          offset + size < lengthBits (σ.view inode.sector)) := by
  refine ⟨fun sector length σ' hlt hrun => ?_, fun name length σ' hrun => ?_,
    fun p inode offset size buffer σ' hp hdeny hext => ⟨?_, ?_⟩⟩
  · exact inodeCreate_noTrace h hlt length false σ' hrun rfl
  · exact filesysCreate_noTrace h hzero hrefs name length false σ' hrun rfl
  · exact inodeWriteAt_eq_zero buffer hp hdeny hext
  · exact extendForWrite_noTrace h (offset + size) false σ' hext rfl

example : ((inodeCreate 8 600).run (mounted 9)).map Prod.fst = some false := by decide +kernel

theorem failed_noTrace_oneFree :
    ∃ σ', (filesysCreate [97] 600).run (mounted 9) = some (false, σ') ∧
      NoTrace (mounted 9) σ' [] := by
  have hrun : ((filesysCreate [97] 600).run (mounted 9)).map Prod.fst = some false := by
    decide +kernel
  obtain ⟨⟨ok, σ'⟩, hrun, rfl⟩ := map_eq_some_iff.mp hrun
  refine ⟨σ', hrun, ?_⟩
  have h := failed_noTrace (mounted 9) (mounted_ok (by decide) (by decide)) rfl (mounted_refs 9)
  exact (h.2.1 [97] 600 σ' hrun).mpr (.inr (by decide))

/-- With two free sectors one goes to the inode and is given back, and the other one is
lost. -/
theorem filesysCreate_loses_sector :
    ∃ σ', (filesysCreate [97] 600).run (mounted 10) = some (false, σ') ∧
      (mounted 10).freeMap 9 = false ∧ σ'.freeMap 9 = true ∧ ¬ NoTrace (mounted 10) σ' [] := by
  have hrun : ((filesysCreate [97] 600).run (mounted 10)).map
      (fun r => (r.1, r.2.freeMap 9)) = some (false, true) := by
    decide +kernel
  obtain ⟨⟨ok, σ'⟩, hrun, heq⟩ := map_eq_some_iff.mp hrun
  obtain ⟨rfl, hused⟩ := Prod.mk.inj heq
  refine ⟨σ', hrun, rfl, hused, fun hn => ?_⟩
  rw [hn.freeMap] at hused
  cases hused

end CS162.Filesys
