import CS162.Filesys.Extend
import CS162.Filesys.Mounted

/-!
# The sectors of a file

`byte_to_sector` over a file that `inode_create` has made.  The direct pointers lead to
different sectors.  The pointers past them were never recorded: the index blocks hold
zeros, so every position from the 123rd sector on leads to sector 0.
-/

namespace CS162.Filesys

open Prog

variable {σ σ' τ : Fs} {inode : Inode} {s sector pos length : ℕ} {A : List ℕ} {d : InodeDisk}

def MapsTo (σ : Fs) (inode : Inode) (pos s : ℕ) : Prop :=
  Does (byteToSector inode pos) σ fun s' _ => s' = s

theorem MapsTo.unique {s' : ℕ} (h : MapsTo σ inode pos s) (h' : MapsTo σ inode pos s') :
    s = s' := by
  obtain ⟨a, t, hr, rfl⟩ := h
  exact h'.ensures a t hr

/-- The sectors of the file: each position has one, marked used and apart from the
inode and its index sectors, and different indexes have different sectors.  The second
level is read where `byte_to_sector` reads it. -/
structure MapsApart (σ : Fs) (inode : Inode) (length : ℕ) : Prop where
  mapped : ∀ pos, pos < length → ∃ s, MapsTo σ inode pos s ∧ s < σ.size ∧
    σ.freeMap s = true ∧ s ≠ inode.sector ∧
    s ≠ InodeDisk.singlyIndirect (σ.view inode.sector) ∧
    s ≠ InodeDisk.doublyIndirect (σ.view inode.sector) ∧
    ∀ k, 250 + 128 * k < bytesToSectors length →
      s ≠ (σ.view (InodeDisk.doublyIndirect (σ.view inode.sector))).u32 k
  apart : ∀ pos pos' s, pos < length → pos' < length → MapsTo σ inode pos s →
    MapsTo σ inode pos' s → pos / 512 = pos' / 512

theorem mapsTo_direct (h : σ.Sound) (hlt : inode.sector < σ.size)
    (hlen : InodeDisk.length (σ.view inode.sector) = length) (hpos : pos < length)
    (hidx : pos / 512 < 122) : MapsTo σ inode pos (dataSector σ inode.sector (pos / 512)) :=
  (byteToSector_at h hlt hlen hpos (by omega) ⟨by omega, by omega, by omega⟩).mono
    fun _ _ hs => hs.1.trans (sectorOf_direct hidx)

theorem mapsTo_singly (h : σ.Sound) (hlt : inode.sector < σ.size)
    (hlen : InodeDisk.length (σ.view inode.sector) = length) (hpos : pos < length)
    (hidx : 122 ≤ pos / 512) (hidx' : pos / 512 < 250)
    (hlt' : InodeDisk.singlyIndirect (σ.view inode.sector) < σ.size) :
    MapsTo σ inode pos ((σ.view (InodeDisk.singlyIndirect (σ.view inode.sector))).u32
      (pos / 512 - 122)) :=
  (byteToSector_at h hlt hlen hpos (by omega) ⟨fun _ _ => hlt', by omega, by omega⟩).mono
    fun _ _ hs => hs.1.trans (sectorOf_singly hidx hidx')

/-- The state `inode_create` leaves when it succeeds: it took the sectors of `A` and
wrote the inode `d` over them to `sector`. -/
structure Created (σ : Fs) (sector length : ℕ) (A : List ℕ) (τ : Fs) (d : InodeDisk)
    (σ' : Fs) : Prop where
  ok : FsOk σ
  lt : sector < σ.size
  used : σ.freeMap sector = true
  max : length ≤ maxLength
  grown : Grown σ A τ
  wrote : Wrote τ sector d σ'
  built : Built τ length A d

namespace Created

section

variable (h : Created σ sector length A τ d σ')

include h

theorem size : σ'.size = σ.size :=
  h.wrote.size.trans h.grown.size

theorem view_inode : σ'.view sector = d := by
  rw [h.wrote.view, Function.update_self]

theorem length_eq : InodeDisk.length (σ'.view sector) = length := by
  rw [h.view_inode]
  exact Filesys.length_eq h.built.length_eq h.max

theorem freeMap : σ'.freeMap = τ.freeMap := by
  rw [h.wrote.rest]

theorem ne_of_mem (hs : s ∈ A) {t : ℕ} (ht : σ.freeMap t = true) : s ≠ t := by
  rintro rfl
  rw [h.grown.free s hs] at ht
  cases ht

theorem view_singly : σ'.view (InodeDisk.singlyIndirect d) = fun _ => 0 := by
  rw [h.wrote.view, Function.update_of_ne (h.ne_of_mem h.built.singly_mem h.used),
    h.built.singly_zero]

end

theorem mapsTo_direct (h : Created σ inode.sector length A τ d σ') (hpos : pos < length)
    (hidx : pos / 512 < 122) : MapsTo σ' inode pos (InodeDisk.direct d (pos / 512)) := by
  have hlt : inode.sector < σ'.size := by
    rw [h.size]
    exact h.lt
  have hmaps := Filesys.mapsTo_direct h.wrote.sound hlt h.length_eq hpos hidx
  rwa [dataSector, h.view_inode] at hmaps

theorem mapsTo_singly (h : Created σ inode.sector length A τ d σ') (hpos : pos < length)
    (hidx : 122 ≤ pos / 512) (hidx' : pos / 512 < 250) : MapsTo σ' inode pos 0 := by
  have hlt : inode.sector < σ'.size := by
    rw [h.size]
    exact h.lt
  have hlt' : InodeDisk.singlyIndirect (σ'.view inode.sector) < σ'.size := by
    rw [h.view_inode, h.size]
    exact h.grown.lt _ h.built.singly_mem
  have hmaps := Filesys.mapsTo_singly h.wrote.sound hlt h.length_eq hpos hidx hidx' hlt'
  rwa [h.view_inode, h.view_singly, Block.u32_zero] at hmaps

theorem mem_used (h : Created σ sector length A τ d σ') (hs : s ∈ A) :
    s < σ'.size ∧ σ'.freeMap s = true ∧ s ≠ sector := by
  refine ⟨?_, ?_, h.ne_of_mem hs h.used⟩
  · rw [h.size]
    exact h.grown.lt s hs
  · rw [h.freeMap]
    exact (h.grown.freeMap s).mpr (.inr hs)

theorem mapsApart (h : Created σ inode.sector length A τ d σ') (hzero : σ.freeMap 0 = true)
    (hsmall : (length + 511) / 512 ≤ 122 ∨
      (length + 511) / 512 = 123 ∧ inode.sector ≠ 0) : MapsApart σ' inode length := by
  have hnone : ∀ k, ¬ 250 + 128 * k < bytesToSectors length := by
    intro k
    rw [bytesToSectors_eq (by omega)]
    omega
  -- the one position index that is not direct leads to sector 0
  have hzero_ne : ∀ i, i < 122 → 512 * i < length → InodeDisk.direct d i ≠ 0 :=
    fun i hi hlt => h.ne_of_mem (h.built.direct_mem i hi hlt) hzero
  constructor
  case mapped =>
    intro pos hpos
    by_cases hidx : pos / 512 < 122
    · have hmem := h.built.direct_mem (pos / 512) hidx (by omega)
      have hne := h.built.direct_ne (pos / 512) hidx (by omega)
      obtain ⟨hlt, hused, hsector⟩ := h.mem_used hmem
      refine ⟨_, h.mapsTo_direct hpos hidx, hlt, hused, hsector, ?_, ?_,
        fun k hk => absurd hk (hnone k)⟩
      · rw [h.view_inode]
        exact hne.1
      · rw [h.view_inode]
        exact hne.2
    · have hsector : inode.sector ≠ 0 := by omega
      refine ⟨0, h.mapsTo_singly hpos (by omega) (by omega), ?_, ?_, hsector.symm, ?_, ?_,
        fun k hk => absurd hk (hnone k)⟩
      · have := h.lt
        rw [h.size]
        omega
      · rw [h.freeMap]
        exact (h.grown.freeMap 0).mpr (.inl hzero)
      · rw [h.view_inode]
        exact (h.ne_of_mem h.built.singly_mem hzero).symm
      · rw [h.view_inode]
        exact (h.ne_of_mem h.built.doubly_mem hzero).symm
  case apart =>
    intro pos pos' s hpos hpos' hs hs'
    by_cases hidx : pos / 512 < 122
    · have heq := (h.mapsTo_direct hpos hidx).unique hs
      by_cases hidx' : pos' / 512 < 122
      · have heq' := (h.mapsTo_direct hpos' hidx').unique hs'
        exact h.built.direct_inj _ _ hidx hidx' (by omega) (by omega) (heq.trans heq'.symm)
      · have heq' := (h.mapsTo_singly hpos' (by omega) (by omega)).unique hs'
        exact absurd (heq.trans heq'.symm) (hzero_ne _ hidx (by omega))
    · by_cases hidx' : pos' / 512 < 122
      · have heq := (h.mapsTo_singly hpos (by omega) (by omega)).unique hs
        have heq' := (h.mapsTo_direct hpos' hidx').unique hs'
        exact absurd (heq'.trans heq.symm) (hzero_ne _ hidx' (by omega))
      · omega

theorem not_mapsApart (inode : Inode) (h : Created σ inode.sector length A τ d σ')
    (hlarge : 124 ≤ (length + 511) / 512) : ¬ MapsApart σ' inode length := by
  intro hm
  have := hm.apart (122 * 512) (123 * 512) 0 (by omega) (by omega)
    (h.mapsTo_singly (by omega) (by omega) (by omega))
    (h.mapsTo_singly (by omega) (by omega) (by omega))
  omega

theorem not_mapsApart_zero (h : Created σ inode.sector length A τ d σ')
    (hsectors : (length + 511) / 512 = 123) (hinode : inode.sector = 0) :
    ¬ MapsApart σ' inode length := by
  intro hm
  obtain ⟨s, hs, -, -, hne, -⟩ := hm.mapped (122 * 512) (by omega)
  have hmaps : MapsTo σ' inode (122 * 512 : ℕ) 0 := h.mapsTo_singly (by omega) (by omega) (by omega)
  exact hne (by rw [← hmaps.unique hs, hinode])

end Created

theorem created_of_run (h : FsOk σ) (hlt : sector < σ.size) (hused : σ.freeMap sector = true)
    (hrun : (inodeCreate sector length).run σ = some (true, σ')) :
    ∃ A τ d, Created σ sector length A τ d σ' ∧
      KeepsDirect σ τ (List.range' 0 ((length + 511) / 512)) d ∧
      τ.view (InodeDisk.doublyIndirect d) = fun _ => 0 := by
  obtain ⟨hmax, A, τ, d, hg, hw, -, hb⟩ := inodeCreate_ensures h hlt length true σ' hrun
  obtain ⟨hbuilt, hrest⟩ := hb rfl
  exact ⟨A, τ, d, ⟨h, hlt, hused, hmax, hg, hw, hbuilt⟩, hrest⟩

/-- The mapping of a file that `inode_create` has made is right exactly when the file
has at most 122 sectors, or 123 and its inode is not on sector 0. -/
theorem inodeCreate_mapsApart (inode : Inode) (length : ℕ) (h : FsOk σ)
    (hzero : σ.freeMap 0 = true) (hlt : inode.sector < σ.size)
    (hused : σ.freeMap inode.sector = true)
    (hrun : (inodeCreate inode.sector length).run σ = some (true, σ')) :
    MapsApart σ' inode length ↔
      bytesToSectors length ≤ 122 ∨ bytesToSectors length = 123 ∧ inode.sector ≠ 0 := by
  obtain ⟨A, τ, d, hc, -⟩ := created_of_run h hlt hused hrun
  have hmax := hc.max
  unfold maxLength at hmax
  rw [bytesToSectors_eq (by omega)]
  constructor
  · intro hm
    by_contra hcon
    rw [not_or, not_and_or, not_not] at hcon
    rcases Nat.lt_or_ge ((length + 511) / 512) 124 with hlt | hge
    · exact hc.not_mapsApart_zero (by omega) (hcon.2.resolve_left (by omega)) hm
    · exact hc.not_mapsApart inode hge hm
  · exact hc.mapsApart hzero

/-- `filesys_create` up to the file: a sector for the inode, then the inode. -/
def allocateAndCreate (length : ℕ) : Op (Option ℕ × Bool) := do
  let sector ← freeMapAllocate 1
  let ok ← inodeCreate (sector.getD 0) length
  return (sector, ok)

theorem run_allocateAndCreate (n length : ℕ) (hn : 8 ≤ n) (hn' : n ≤ 4096)
    (h : ((allocateAndCreate length).run (mounted n)).map Prod.fst = some (some 8, true)) :
    ∃ σ σ', Allocated (mounted n) 8 σ ∧ (inodeCreate 8 length).run σ = some (true, σ') := by
  obtain ⟨⟨r, σ'⟩, hrun, hr⟩ := Option.map_eq_some_iff.mp h
  obtain rfl : r = (some 8, true) := hr
  obtain ⟨o, σ, ho, hrun⟩ := run_bind_eq_some.mp hrun
  obtain ⟨ok, υ, hok, hrun⟩ := run_bind_eq_some.mp hrun
  cases hrun
  exact ⟨σ, σ', (freeMapAllocate_does (mounted_ok hn hn')).ensures _ _ ho, hok⟩

theorem inodeCreate_mapsApart_600 :
    ∃ σ σ', Allocated (mounted 16) 8 σ ∧ (inodeCreate 8 600).run σ = some (true, σ') ∧
      MapsApart σ' ⟨8, 1, false, 0⟩ 600 := by
  obtain ⟨σ, σ', ha, hrun⟩ := run_allocateAndCreate 16 600 (by decide) (by decide)
    (by decide +kernel)
  refine ⟨σ, σ', ha, hrun, ?_⟩
  have hok : FsOk σ := ha.ok (mounted_ok (by decide) (by decide))
  have hlt : 8 < σ.size := by
    rw [ha.size]
    decide
  refine (inodeCreate_mapsApart ⟨8, 1, false, 0⟩ 600 hok ?_ hlt ?_ hrun).mpr (.inl (by decide))
  · rw [ha.freeMap]
    rfl
  · rw [ha.freeMap]
    rfl

/-- The device after `filesys_create` has made a file of 124 sectors in just enough room. -/
def largeFile :
    { σ' // (allocateAndCreate 63488).run (mounted 135) = some ((some 8, true), σ') } :=
  stateAfter (by decide +kernel)

/-- The last two sectors of this file are the same one. -/
theorem inodeCreate_not_mapsApart_63488 :
    ∃ σ σ', Allocated (mounted 135) 8 σ ∧ (inodeCreate 8 63488).run σ = some (true, σ') ∧
      ¬ MapsApart σ' ⟨8, 1, false, 0⟩ 63488 := by
  obtain ⟨σ, σ', ha, hrun⟩ := run_allocateAndCreate 135 63488 (by decide) (by decide)
    (by rw [largeFile.2, Option.map_some])
  refine ⟨σ, σ', ha, hrun, ?_⟩
  have hok : FsOk σ := ha.ok (mounted_ok (by decide) (by decide))
  have hlt : 8 < σ.size := by
    rw [ha.size]
    decide
  have hused : σ.freeMap 8 = true := by
    rw [ha.freeMap]
    rfl
  obtain ⟨A, τ, d, hc, -⟩ := created_of_run hok hlt hused hrun
  exact Created.not_mapsApart ⟨8, 1, false, 0⟩ hc (by decide)

end CS162.Filesys
