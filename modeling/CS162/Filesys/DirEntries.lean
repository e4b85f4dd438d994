import CS162.Filesys.Effects
import CS162.Filesys.FileRead

/-!
# The entries of a directory on the device

What the loops over the entries of a directory see when its sectors are direct.  `dir_create` makes
directories of one or sixteen entries, and no write makes a file longer, so that this is every
directory there is.
-/

namespace CS162.Filesys

open Prog

variable {σ σ' τ : Fs} {inode : Inode} {p D L k : ℕ} {name : CString}

def entryAt (σ : Fs) (D k : ℕ) : DirEntry :=
  fileBytes σ D (20 * k) 20

theorem entryAt_length (σ : Fs) (D k : ℕ) : (entryAt σ D k).length = 20 := by
  rw [entryAt, fileBytes, List.length_map, List.length_range]

theorem entryAt_congr (hview : σ'.view = σ.view) (D k : ℕ) : entryAt σ' D k = entryAt σ D k :=
  fileBytes_congr hview _ _ _

/-- A directory on a sound device that is open at `p`. -/
structure OpenDir (σ : Fs) (p : ℕ) (inode : Inode) (L : ℕ) : Prop where
  sound : σ.Sound
  size_lt : σ.size < 2 ^ 32
  opened : σ.inodes p = some inode
  file : FileOk σ inode.sector L

theorem OpenDir.of_same (h : OpenDir σ p inode L) (hs : Same σ σ') : OpenDir σ' p inode L where
  sound := hs.sound
  size_lt := by
    rw [hs.size]
    exact h.size_lt
  opened := by
    rw [hs.rest]
    exact h.opened
  file := h.file.of_view hs.size (by rw [hs.view])

theorem OpenDir.readAt_entry (h : OpenDir σ p inode L) (hk : 20 * (k + 1) ≤ L) :
    Does (inodeReadAt p 20 (20 * k)) σ fun e σ' => e = entryAt σ inode.sector k ∧ Same σ σ' :=
  inodeReadAt_does h.sound h.size_lt h.opened h.file (by omega)

theorem OpenDir.readAt_past (h : OpenDir σ p inode L) (hk : L < 20 * (k + 1)) (hle : 20 * k ≤ L) :
    Does (inodeReadAt p 20 (20 * k)) σ fun e σ' => e = [] ∧ Same σ σ' := by
  have hsmall := h.file.small
  exact h.file.fileAt.readAt_past h.sound h.opened (by omega) (by omega)

/-- The directory on `D` of `L` bytes has an entry in use with the given name. -/
def HasEntry (σ : Fs) (D L : ℕ) (name : CString) (k : ℕ) : Prop :=
  20 * (k + 1) ≤ L ∧ (entryAt σ D k).inUse = true ∧ (entryAt σ D k).name = name

theorem HasEntry.congr (hview : σ'.view = σ.view) :
    HasEntry σ' D L name k ↔ HasEntry σ D L name k := by
  unfold HasEntry
  rw [entryAt_congr hview]

theorem OpenDir.lookupLoop_does (h : OpenDir σ p inode L) (name : CString) (fuel : ℕ)
    (hk : 20 * k ≤ L) (hfuel : L < 20 * (k + fuel)) :
    Does ((inodeStore p).lookupLoop name fuel (20 * k)) σ fun r σ' => Same σ σ' ∧
      ((∃ i, HasEntry σ inode.sector L name i ∧ r = some (entryAt σ inode.sector i, 20 * i)) ∨
        r = none ∧ ∀ i, k ≤ i → ¬ HasEntry σ inode.sector L name i) := by
  induction fuel generalizing σ k with
  | zero => omega
  | succ fuel ih =>
    rw [DirStore.lookupLoop]
    by_cases hlast : L < 20 * (k + 1)
    · refine (h.readAt_past hlast hk).bind fun e τ he => ?_
      rw [he.1, if_neg (by simp), does_pure]
      refine ⟨he.2, .inr ⟨rfl, fun i hi hentry => ?_⟩⟩
      have := hentry.1
      omega
    · refine (h.readAt_entry (by omega)).bind fun e τ he => ?_
      obtain ⟨rfl, hτ⟩ := he
      rw [if_pos (entryAt_length _ _ _)]
      split_ifs with hfound
      · rw [does_pure]
        rw [Bool.and_eq_true, decide_eq_true_eq] at hfound
        exact ⟨hτ, .inl ⟨k, ⟨by omega, hfound.1, hfound.2.symm⟩, rfl⟩⟩
      · have hnext := ih (h.of_same hτ) (k := k + 1) (by omega) (by omega)
        refine hnext.mono fun r σ' hr => ⟨hτ.trans hr.1, ?_⟩
        simp only [HasEntry.congr hτ.view, entryAt_congr hτ.view] at hr
        rcases hr.2 with hr | ⟨hr, hnone⟩
        · exact .inl hr
        · refine .inr ⟨hr, fun i hi hentry => ?_⟩
          rcases Nat.eq_or_lt_of_le hi with rfl | hi
          · rw [Bool.and_eq_true, decide_eq_true_eq] at hfound
            exact hfound ⟨hentry.2.1, hentry.2.2.symm⟩
          · exact hnone i hi hentry

theorem OpenDir.lookup_does (h : OpenDir σ p inode L) (name : CString) :
    Does (lookup p name) σ fun r σ' => Same σ σ' ∧
      ((∃ i, HasEntry σ inode.sector L name i ∧ r = some (entryAt σ inode.sector i, 20 * i)) ∨
        r = none ∧ ∀ i, ¬ HasEntry σ inode.sector L name i) := by
  have hsmall := h.file.small
  have hfuel : L < 20 * (0 + dirFuel) := by
    unfold dirFuel
    omega
  refine (h.lookupLoop_does name dirFuel (Nat.zero_le _) hfuel).mono fun r σ' hr => ⟨hr.1, ?_⟩
  rcases hr.2 with hr | ⟨hr, hnone⟩
  · exact .inl hr
  · exact .inr ⟨hr, fun i => hnone i (Nat.zero_le i)⟩

end CS162.Filesys
