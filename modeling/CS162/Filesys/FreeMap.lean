import CS162.Filesys.Effects

/-!
# The free map

`filesys/free-map.c` on the words of the bitmap; the write of the free map file succeeds or
fails and allocates nothing.  The extents, runs of sectors that have been handed out and not
given back, are kept beside the bitmap.
-/

namespace CS162.Filesys

open Option Bitmap List
open Prog

def freeMapSector : ℕ :=
  0

def rootDirSector : ℕ :=
  1

namespace FreeMap

def init (malloc : Bool) (garbage : ℕ → BitVec 32) (blockSize : ℕ) : Option Bitmap :=
  (create malloc garbage blockSize).map fun b =>
    (b.mark freeMapSector).mark rootDirSector

/-- `free_map_allocate`.  `file` is what the write of the free map file returns, or `none`
when there is no file yet. -/
def allocate (file : Option Bool) (b : Bitmap) (cnt : ℕ) : Option (Option ℕ × Bitmap) :=
  (b.scanAndFlip 0 cnt false).bind fun
    | (none, b) => some (none, b)
    | (some sector, b) =>
      if file = some false then
        (b.setMultiple sector cnt false).map fun b => (none, b)
      else
        some (some sector, b)

/-- `free_map_release`.  What the write of the free map file returns is not looked at. -/
def release (b : Bitmap) (sector cnt : ℕ) : Option Bitmap :=
  (b.all sector cnt).bind fun all =>
    if all then b.setMultiple sector cnt false else none

/-- Consecutive sectors that `free_map_allocate` has handed out. -/
structure Extent where
  sector : ℕ
  cnt : ℕ
  deriving DecidableEq, Repr

def Extent.Has (r : Extent) (s : ℕ) : Prop :=
  r.sector ≤ s ∧ s < r.sector + r.cnt

inductive Call where
  | allocate (file : Option Bool) (cnt : ℕ)
  | release (r : Extent)
  deriving DecidableEq, Repr

abbrev State : Type :=
  Bitmap × List Extent

/-- At least one sector is asked for, and what is released has been handed out. -/
def Call.Legal (extents : List Extent) : Call → Prop
  | .allocate _ cnt => 1 ≤ cnt
  | .release r => r ∈ extents

instance (extents : List Extent) : ∀ c : Call, Decidable (c.Legal extents)
  | .allocate _ cnt => inferInstanceAs (Decidable (1 ≤ cnt))
  | .release r => inferInstanceAs (Decidable (r ∈ extents))

def Call.exec (s : State) : Call → Option State
  | .allocate file cnt => (FreeMap.allocate file s.1 cnt).map fun
      | (none, b) => (b, s.2)
      | (some sector, b) => (b, ⟨sector, cnt⟩ :: s.2)
  | .release r => (FreeMap.release s.1 r.sector r.cnt).map fun b => (b, s.2.erase r)

def step (s : State) (c : Call) : Option State :=
  if c.Legal s.2 then c.exec s else none

/-- The extents are apart, inside the device and not in the sectors of the system, and with
these they are what is marked. -/
structure Owned (n : ℕ) (s : State) : Prop where
  bitCnt : s.1.bitCnt = n
  pos : ∀ r ∈ s.2, 1 ≤ r.cnt
  inside : ∀ r ∈ s.2, r.sector + r.cnt ≤ n
  apart : s.2.Pairwise fun r r' => ∀ i, r.Has i → ¬ r'.Has i
  system : ∀ r ∈ s.2, ¬ r.Has freeMapSector ∧ ¬ r.Has rootDirSector
  marked : ∀ i, i < n → (s.1.bit i = true ↔
    i = freeMapSector ∨ i = rootDirSector ∨ ∃ r ∈ s.2, r.Has i)

variable {n cnt sector i : ℕ} {b b' : Bitmap} {extents : List Extent} {s s' : State} {r : Extent}

theorem allocate_none (hlt : b.bitCnt < 2 ^ 32) {file : Option Bool}
    (h : bitmapScan b.bit b.bitCnt cnt = none ∨ file = some false) :
    allocate file b cnt = some (none, b) := by
  unfold allocate
  cases hscan : bitmapScan b.bit b.bitCnt cnt with
  | none =>
    rw [scanAndFlip_none hlt hscan]
    rfl
  | some sector =>
    obtain ⟨hin, hclear⟩ := bitmapScan_some hscan
    obtain ⟨b1, h1, hcnt1, hbit1⟩ := scanAndFlip_some hlt hscan
    obtain ⟨b2, h2, hcnt2, hbit2⟩ := setMultiple_eq (hcnt1 ▸ hin) (hcnt1 ▸ hlt) false
    have hfile : file = some false := h.resolve_left (by rw [hscan]; nofun)
    -- the bits that were clear are clear again
    have hback : b2 = b := by
      refine ext_bit (hcnt2.trans hcnt1) fun i => ?_
      rw [hbit2, hbit1]
      unfold bitmapSetMultiple
      split_ifs with hi
      · exact (hclear i hi.1 hi.2).symm
      · rfl
    simp only [h1, bind_some, if_pos hfile, h2, map_some, hback]

theorem allocate_some (hlt : b.bitCnt < 2 ^ 32) {file : Option Bool}
    (h : bitmapScan b.bit b.bitCnt cnt = some sector) (hfile : file ≠ some false) :
    ∃ b', allocate file b cnt = some (some sector, b') ∧ b'.bitCnt = b.bitCnt ∧
      b'.bit = bitmapSetMultiple b.bit sector cnt true := by
  obtain ⟨b1, h1, hcnt1, hbit1⟩ := scanAndFlip_some hlt h
  refine ⟨b1, ?_, hcnt1, hbit1⟩
  unfold allocate
  simp only [h1, bind_some, if_neg hfile]

theorem release_some (hlt : b.bitCnt < 2 ^ 32) (hin : sector + cnt ≤ b.bitCnt)
    (hmarked : ∀ i, sector ≤ i → i < sector + cnt → b.bit i = true) :
    ∃ b', release b sector cnt = some b' ∧ b'.bitCnt = b.bitCnt ∧
      b'.bit = bitmapSetMultiple b.bit sector cnt false := by
  obtain ⟨b1, h1, hcnt1, hbit1⟩ := setMultiple_eq hin hlt false
  refine ⟨b1, ?_, hcnt1, hbit1⟩
  have hall : (range cnt).all (fun i => b.bit (sector + i)) = true := by
    refine all_eq_true.mpr fun i hi => ?_
    rw [mem_range] at hi
    exact hmarked (sector + i) (by omega) (by omega)
  rw [release, all_eq hin hlt, hall]
  exact h1

theorem Owned.clear (h : Owned n s) (hin : sector + cnt ≤ n)
    (hclear : ∀ i, sector ≤ i → i < sector + cnt → s.1.bit i = false)
    (hi : Extent.Has ⟨sector, cnt⟩ i) :
    i ≠ freeMapSector ∧ i ≠ rootDirSector ∧ ∀ r ∈ s.2, ¬ r.Has i := by
  have hmark := h.marked i (by have := hi.2; dsimp only at this; omega)
  rw [hclear i hi.1 hi.2] at hmark
  refine ⟨fun heq => ?_, fun heq => ?_, fun r hr hhas => ?_⟩
  · exact absurd (hmark.mpr (.inl heq)) (by decide)
  · exact absurd (hmark.mpr (.inr (.inl heq))) (by decide)
  · exact absurd (hmark.mpr (.inr (.inr ⟨r, hr, hhas⟩))) (by decide)

theorem Owned.allocate (h : Owned n s) (hcnt : 1 ≤ cnt)
    (hscan : bitmapScan s.1.bit s.1.bitCnt cnt = some sector) (hbitCnt : b.bitCnt = s.1.bitCnt)
    (hbit : b.bit = bitmapSetMultiple s.1.bit sector cnt true) :
    Owned n (b, ⟨sector, cnt⟩ :: s.2) := by
  obtain ⟨hin, hclear⟩ := bitmapScan_some hscan
  rw [h.bitCnt] at hin
  have hfree := fun i => h.clear hin hclear (i := i)
  refine ⟨hbitCnt.trans h.bitCnt, ?_, ?_, ?_, ?_, fun i hi => ?_⟩
  · rintro r (_ | ⟨_, hr⟩)
    · exact hcnt
    · exact h.pos r hr
  · rintro r (_ | ⟨_, hr⟩)
    · exact hin
    · exact h.inside r hr
  · exact pairwise_cons.mpr ⟨fun r hr i hi => (hfree i hi).2.2 r hr, h.apart⟩
  · rintro r (_ | ⟨_, hr⟩)
    · exact ⟨fun hhas => (hfree _ hhas).1 rfl, fun hhas => (hfree _ hhas).2.1 rfl⟩
    · exact h.system r hr
  · dsimp only
    rw [hbit, bitmapSetMultiple, exists_mem_cons_iff]
    split_ifs with hhas
    · simp only [true_iff]
      exact .inr (.inr (.inl hhas))
    · rw [h.marked i hi]
      have : ¬ Extent.Has ⟨sector, cnt⟩ i := hhas
      tauto

theorem Owned.release (h : Owned n s) (hr : r ∈ s.2) (hbitCnt : b.bitCnt = s.1.bitCnt)
    (hbit : b.bit = bitmapSetMultiple s.1.bit r.sector r.cnt false) : Owned n (b, s.2.erase r) := by
  have hsymm : ∀ {r r' : Extent}, (∀ i, r.Has i → ¬ r'.Has i) → ∀ i, r'.Has i → ¬ r.Has i :=
    fun hd i hi hi' => hd i hi' hi
  have hperm := perm_cons_erase hr
  have hsplit := pairwise_cons.mp (hperm.pairwise h.apart hsymm)
  have hmem : ∀ r' ∈ s.2.erase r, r' ∈ s.2 := fun r' hr' => mem_of_mem_erase hr'
  refine ⟨hbitCnt.trans h.bitCnt, fun r' hr' => h.pos r' (hmem r' hr'),
    fun r' hr' => h.inside r' (hmem r' hr'), hsplit.2, fun r' hr' => h.system r' (hmem r' hr'),
    fun i hi => ?_⟩
  have hold : (∃ r' ∈ s.2, r'.Has i) ↔ r.Has i ∨ ∃ r' ∈ s.2.erase r, r'.Has i :=
    (exists_congr fun r' => and_congr_left fun _ => hperm.mem_iff).trans (exists_mem_cons_iff ..)
  dsimp only
  rw [hbit, bitmapSetMultiple]
  split_ifs with hhas
  · have hhas : r.Has i := hhas
    have hsys := h.system r hr
    refine ⟨by simp, ?_⟩
    rintro (rfl | rfl | ⟨r', hr', hhas'⟩)
    · exact absurd hhas hsys.1
    · exact absurd hhas hsys.2
    · exact absurd hhas' (hsplit.1 r' hr' i hhas)
  · have hhas : ¬ r.Has i := hhas
    rw [h.marked i hi, hold]
    tauto

theorem exec_owned (h : Owned n s) (hlt : n < 2 ^ 32) (c : Call) (hc : c.Legal s.2) :
    ∃ s', c.exec s = some s' ∧ Owned n s' := by
  have hlt' : s.1.bitCnt < 2 ^ 32 := h.bitCnt ▸ hlt
  cases c with
  | allocate file cnt =>
    by_cases hfile : file = some false
    · exact ⟨s, by rw [Call.exec, allocate_none hlt' (.inr hfile)]; rfl, h⟩
    · cases hscan : bitmapScan s.1.bit s.1.bitCnt cnt with
      | none => exact ⟨s, by rw [Call.exec, allocate_none hlt' (.inl hscan)]; rfl, h⟩
      | some sector =>
        obtain ⟨b, hb, hcnt, hbit⟩ := allocate_some hlt' hscan hfile
        exact ⟨_, by rw [Call.exec, hb]; rfl, h.allocate hc hscan hcnt hbit⟩
  | release r =>
    have hin : r.sector + r.cnt ≤ s.1.bitCnt := h.bitCnt ▸ h.inside r hc
    obtain ⟨b, hb, hcnt, hbit⟩ := release_some hlt' hin fun i hi hi' =>
      (h.marked i (by rw [← h.bitCnt]; omega)).mpr (.inr (.inr ⟨r, hc, hi, hi'⟩))
    exact ⟨_, by rw [Call.exec, hb]; rfl, h.release hc hcnt hbit⟩

theorem step_owned (hlt : n < 2 ^ 32) {c : Call} (h : Owned n s) (hs : step s c = some s') :
    Owned n s' := by
  obtain ⟨hc, hexec⟩ := ite_none_right_eq_some.mp hs
  obtain ⟨t, ht, howned⟩ := exec_owned h hlt c hc
  rw [hexec] at ht
  cases ht
  exact howned

theorem init_owned {malloc : Bool} {garbage : ℕ → BitVec 32} (hlt : n < 2 ^ 32)
    (h : init malloc garbage n = some b) : Owned n (b, []) := by
  obtain ⟨b0, hcreate, rfl⟩ := map_eq_some_iff.mp h
  obtain ⟨-, hall⟩ := ite_none_right_eq_some.mp hcreate
  obtain ⟨b1, h1, hcnt1, hbit1⟩ := setAll_eq (b := ⟨n, garbage⟩) hlt false
  obtain rfl : b1 = b0 := some.inj (h1.symm.trans hall)
  refine ⟨hcnt1, nofun, nofun, List.Pairwise.nil, nofun, fun i hi => ?_⟩
  rw [bit_mark, bit_mark, hbit1 i hi]
  simp only [not_mem_nil, false_and, exists_false, or_false]
  by_cases hroot : i = rootDirSector
  · simp [hroot]
  · by_cases hmap : i = freeMapSector
    · simp [hmap]
    · simp [hroot, hmap]

/-- After every sequence of legal calls the extents that are handed out are apart, inside
the device and not in the sectors of the system; the marked sectors are exactly these and
those of the system; a call that allocates nothing changes nothing; and no legal call
fails an assertion. -/
theorem run_owned {malloc : Bool} {garbage : ℕ → BitVec 32} {b₀ : Bitmap} {calls : List Call}
    (hlt : n < 2 ^ 32) (h₀ : init malloc garbage n = some b₀)
    (hr : Run.run step (b₀, []) calls = some (b, extents)) :
    extents.Pairwise (fun r r' => ∀ i, r.Has i → ¬ r'.Has i) ∧
    (∀ r ∈ extents, r.sector + r.cnt ≤ n ∧ ¬ r.Has freeMapSector ∧ ¬ r.Has rootDirSector) ∧
    (∀ i, i < n → (b.bit i = true ↔
      i = freeMapSector ∨ i = rootDirSector ∨ ∃ r ∈ extents, r.Has i)) ∧
    (∀ file cnt b', allocate file b cnt = some (none, b') → b' = b) ∧
    ∀ c : Call, c.Legal extents → (step (b, extents) c).isSome := by
  have h : Owned n (b, extents) :=
    Run.run_invariant' (I := Owned n) (fun _ _ _ => step_owned hlt) (init_owned hlt h₀) hr
  have hlt' : b.bitCnt < 2 ^ 32 := h.bitCnt ▸ hlt
  refine ⟨h.apart, fun r hr => ⟨h.inside r hr, h.system r hr⟩, h.marked, ?_, fun c hc => ?_⟩
  · intro file cnt b' hnone
    by_cases hfile : bitmapScan b.bit b.bitCnt cnt = none ∨ file = some false
    · rw [allocate_none hlt' hfile] at hnone
      cases hnone
      rfl
    · rw [not_or] at hfile
      obtain ⟨sector, hscan⟩ := ne_none_iff_exists'.mp hfile.1
      obtain ⟨b1, h1, -⟩ := allocate_some hlt' hscan hfile.2
      rw [h1] at hnone
      cases hnone
  · obtain ⟨s', hs', -⟩ := exec_owned h hlt c hc
    rw [step, if_pos hc, hs']
    rfl

def sampleCalls : List Call :=
  [.allocate none 29, .allocate (some true) 4, .allocate (some false) 2, .release ⟨2, 29⟩]

theorem run_owned_sample :
    ∃ b₀ b, init true (fun _ => 0xffffffff) 40 = some b₀ ∧
      Run.run step (b₀, []) sampleCalls = some (b, [⟨31, 4⟩]) ∧
      ∀ i, i < 40 → (b.bit i = true ↔
        i = freeMapSector ∨ i = rootDirSector ∨ ∃ r ∈ [(⟨31, 4⟩ : Extent)], r.Has i) := by
  obtain ⟨b₀, h0⟩ := isSome_iff_exists.mp
    (by decide +kernel : (init true (fun _ => 0xffffffff) 40).isSome)
  have hrun : ((init true (fun _ => 0xffffffff) 40).bind fun b₀ =>
      Run.run step (b₀, []) sampleCalls).map Prod.snd = some [⟨31, 4⟩] := by decide +kernel
  rw [h0, bind_some] at hrun
  obtain ⟨⟨b, extents⟩, hr, rfl⟩ := map_eq_some_iff.mp hrun
  exact ⟨b₀, b, h0, hr, (run_owned (by decide) h0 hr).2.2.1⟩

end FreeMap

end CS162.Filesys
