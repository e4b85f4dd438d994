import CS162.Filesys.Effects

/-!
# Looking a name up twice

What `lookup` finds depends on the contents of the sectors and on the sector of the directory's
inode.  So two lookups of a name find the same entry when nothing is written in between.
-/

namespace CS162.Filesys

open Option
open Prog

variable {σ σ' τ τ' : Fs} {dir : ℕ} {i j : Inode}

/-- The two states show the same contents and have the same directory at `dir`. -/
structure SameDir (dir : ℕ) (σ τ : Fs) : Prop where
  left : σ.cache.Coherent
  right : τ.cache.Coherent
  view : σ.view = τ.view
  sector : (σ.inodes dir).map Inode.sector = (τ.inodes dir).map Inode.sector

theorem SameDir.reads (h : SameDir dir σ τ) (hσ : Reads σ σ') (hτ : Reads τ τ') :
    SameDir dir σ' τ' := by
  refine ⟨hσ.coherent h.left, hτ.coherent h.right, ?_, ?_⟩
  · rw [hσ.view h.left, hτ.view h.right, h.view]
  · rw [hσ.rest, hτ.rest]
    exact h.sector

theorem cacheRead_agree (sector size offset : ℕ) :
    Agree (SameDir dir) (cacheRead sector size offset) := by
  intro σ τ h b σ' hr b' τ' hr'
  refine ⟨?_, h.reads (cacheRead_reads _ _ _ σ b σ' hr) (cacheRead_reads _ _ _ τ b' τ' hr')⟩
  obtain ⟨⟨c, b⟩, hc, heq⟩ := map_eq_some_iff.mp hr
  obtain ⟨⟨c', b'⟩, hc', heq'⟩ := map_eq_some_iff.mp hr'
  cases heq
  cases heq'
  have hb := (Cache.bufferCacheRead_coherent h.left hc).1
  have hb' := (Cache.bufferCacheRead_coherent h.right hc').1
  have hview : σ.cache.view = τ.cache.view := h.view
  rw [hview] at hb
  exact hb.trans hb'.symm

theorem readPtr_agree (sector offset : ℕ) : Agree (SameDir dir) (readPtr sector offset) :=
  (cacheRead_agree _ _ _).bind fun _ => agree_pure _

theorem byteToSector_agree (inode : Inode) (pos : ℤ) :
    Agree (SameDir dir) (byteToSector inode pos) := by
  refine (cacheRead_agree _ _ _).bind fun d => agree_ite (agree_pure _) ?_
  dsimp only
  split
  · exact agree_pure _
  · exact readPtr_agree _ _
  · exact (readPtr_agree _ _).bind fun _ => readPtr_agree _ _

theorem inodeLength_agree (inode : Inode) : Agree (SameDir dir) (inodeLength inode) :=
  (cacheRead_agree _ _ _).bind fun _ => agree_pure _

theorem readLoop_agree (inode : Inode) (fuel size offset : ℕ) (buffer : List UInt8) :
    Agree (SameDir dir) (readLoop inode fuel size offset buffer) := by
  induction fuel generalizing size offset buffer with
  | zero => exact agree_pure _
  | succ fuel ih =>
    rw [readLoop]
    refine agree_ite (agree_pure _) ((byteToSector_agree _ _).bind fun s => ?_)
    refine (inodeLength_agree _).bind fun n => agree_ite (agree_pure _) ?_
    exact (cacheRead_agree _ _ _).bind fun _ => ih _ _ _

theorem byteToSector_congr (h : i.sector = j.sector) : byteToSector i = byteToSector j := by
  funext pos
  unfold byteToSector
  rw [h]

theorem inodeLength_congr (h : i.sector = j.sector) : inodeLength i = inodeLength j := by
  unfold inodeLength
  rw [h]

theorem readLoop_congr (h : i.sector = j.sector) (fuel size offset : ℕ) (buffer : List UInt8) :
    readLoop i fuel size offset buffer = readLoop j fuel size offset buffer := by
  induction fuel generalizing size offset buffer with
  | zero => rfl
  | succ fuel ih =>
    rw [readLoop, readLoop, byteToSector_congr h, inodeLength_congr h]
    simp only [ih]

theorem inodeReadAt_agree (size offset : ℕ) :
    Agree (SameDir dir) (inodeReadAt dir size offset) := by
  intro σ τ h
  refine (getInode_ensures dir σ).bind fun i σ₁ hi => ?_
  intro b σ' hr
  refine (getInode_ensures dir τ).bind fun j τ1 hj => ?_
  have hsector : i.sector = j.sector := by
    have := h.sector
    rw [hi.1, hj.1, map_some, map_some, some.injEq] at this
    exact this
  have hcont : Agree (SameDir dir) (do
      if 2 ^ 31 ≤ offset + size then
        failure
      else if (← byteToSector i ((offset : ℤ) + size - 1)) = noSector then
        return []
      else
        readLoop i size size offset []) :=
    agree_ite agree_failure ((byteToSector_agree _ _).bind fun s =>
      agree_ite (agree_pure _) (readLoop_agree _ _ _ _ _))
  simp only [← byteToSector_congr hsector, ← readLoop_congr hsector]
  rw [hi.2] at hr
  rw [hj.2]
  exact hcont σ τ h b σ' hr

theorem lookupLoop_agree (name : CString) (fuel ofs : ℕ) :
    Agree (SameDir dir) ((inodeStore dir).lookupLoop name fuel ofs) := by
  induction fuel generalizing ofs with
  | zero => exact agree_failure
  | succ fuel ih =>
    refine (inodeReadAt_agree _ _).bind fun e => agree_ite ?_ (agree_pure _)
    exact agree_ite (agree_pure _) (ih _)

theorem lookup_agree (name : CString) : Agree (SameDir dir) (lookup dir name) :=
  lookupLoop_agree _ _ _

end CS162.Filesys
