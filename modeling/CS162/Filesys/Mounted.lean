import CS162.Filesys.Alloc
import CS162.Filesys.Refs

/-!
# A formatted device

The file system over a device of `n` sectors that has been formatted and nothing else:
sectors 2 to 4 belong to the free map file and sectors 5 to 7 to the root directory,
which holds `..` and `.`.
-/

namespace CS162.Filesys

open Block InodeDisk

/-- An inode as `inode_create` writes it, with one sector of data. -/
def smallInode (singly doubly data length : ℕ) : Sector :=
  ((((setU32 (fun _ => 0) 508 inodeMagic).setU32 488 singly).setU32 492 doubly).setU32 0
    data).setU32 496 length

def formatted (n : ℕ) : ℕ → Sector
  | 0 => smallInode 2 3 4 (bitmapFileSize n)
  | 1 => smallInode 5 6 7 320
  | 4 => write (fun _ => 0) 0 (ofList [255])
  | 7 => write (fun _ => 0) 0
      (ofList (DirEntry.add (List.replicate 20 0) [46, 46] 1 ++
        DirEntry.add (List.replicate 20 0) [46] 1))
  | _ => fun _ => 0

/-- The file system after `filesys_init` without formatting, over the formatted device:
the free map has been read and its file is open. -/
def mounted (n : ℕ) : Fs where
  cache := Cache.init n (formatted n) fun _ _ => 0
  freeMap := fun s => s < 8
  freeMapFile := some 1
  inodes := fun p => if p = 0 then some ⟨0, 1, false, 0⟩ else none
  files := fun f => if f = 1 then some ⟨0, 0, false⟩ else none
  brk := 2
  openInodes := [0]
  cwds := [1]
  current := 0

section

variable {n : ℕ}

theorem smallInode_direct {s t x L : ℕ} (hx : x < 2 ^ 32) : direct (smallInode s t x L) 0 = x :=
  (u32_setU32_of_disjoint (by omega)).trans (u32_setU32 (by omega) hx)

theorem smallInode_length {s t x L : ℕ} (hL : L < 2 ^ 32) : lengthBits (smallInode s t x L) = L :=
  u32_setU32 (by omega) hL

theorem mounted_view (n s : ℕ) : (mounted n).view s = formatted n s :=
  Cache.view_of_not_cached rfl

theorem mounted_map (hn : 8 ≤ n) (hn' : n ≤ 4096) : MapFileOk (mounted n) 0 := by
  have hsize : bitmapFileSize n ≤ 512 := by
    unfold bitmapFileSize
    omega
  have hview : (mounted n).view 0 = smallInode 2 3 4 (bitmapFileSize n) := mounted_view n 0
  have hlt : (mounted n).size = n := rfl
  have hdirect : direct ((mounted n).view 0) 0 = 4 := by
    rw [hview]
    exact smallInode_direct (by omega)
  refine ⟨fileOk_single (by omega) ?_ (by rw [hlt]; exact hsize) hdirect (by omega) (by omega),
    rfl, fun i hi => ?_⟩
  · rw [hview, smallInode_length (by omega), hlt]
  · obtain rfl : i = 0 := by
      rw [hlt] at hi
      omega
    rw [dataSector, hdirect]
    rfl

theorem mounted_root (n : ℕ) (hn : 8 ≤ n) : FileOk (mounted n) 1 320 := by
  have hview : (mounted n).view 1 = smallInode 5 6 7 320 := mounted_view n 1
  have hsize : (mounted n).size = n := rfl
  refine fileOk_single (x := 7) (by omega) ?_ (by omega) ?_ (by omega) (by omega)
  · rw [hview, smallInode_length (by omega)]
  · rw [hview]
    exact smallInode_direct (by omega)

theorem mounted_ok (hn : 8 ≤ n) (hn' : n ≤ 4096) : FsOk (mounted n) where
  sound := Cache.init_sound n _ _
  size_lt := by
    change n < 2 ^ 32
    omega
  opened _ := ⟨⟨0, 1, false, 0⟩, rfl, rfl⟩
  map sector hs := by
    cases hs
    exact mounted_map hn hn'

theorem mounted_refs (n : ℕ) : Refs (ref 0) (mounted n) := by
  have hinodes : ∀ p i, (mounted n).inodes p = some i → p = 0 ∧ i = ⟨0, 1, false, 0⟩ := by
    intro p i hp
    obtain ⟨hzero, hi⟩ := Option.ite_none_right_eq_some.mp hp
    cases hi
    exact ⟨hzero, rfl⟩
  refine ⟨fun p i hp => ?_, fun p i hp hr => ?_, fun p hp => ?_, fun p hp => ?_⟩
  · obtain ⟨rfl, rfl⟩ := hinodes p i hp
    exact (ref_self 0).le
  · obtain ⟨rfl, rfl⟩ := hinodes p i hp
    cases hr
  · have hne : p ≠ 0 := by
      rintro rfl
      cases hp
    exact (ref_of_ne hne).le
  · change 2 ≤ p at hp
    exact if_neg (by omega)

end

end CS162.Filesys
