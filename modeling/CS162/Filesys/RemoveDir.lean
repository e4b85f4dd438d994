import CS162.Filesys.DirEntries
import CS162.Filesys.Mounted

/-!
# Removing a directory

`filesys_remove` of a path that leads to a directory.  `parse_path` gives the directory itself with
the name `.`, and the removal looks this name up in it.  When it is there, `dir_readdir` reads the
first entry again and again.
-/

namespace CS162.Filesys

open Option DirEntry List InodeDisk Block Function Cache
open Prog

variable {σ σ' τ : Fs} {inode : Inode} {p D L k : ℕ} {path : CString} {held : ℕ → ℤ}
  {entries : List DirEntry}

def SameCwds (σ σ' : Fs) : Prop :=
  σ'.cwds = σ.cwds

instance : IsPreorder Fs SameCwds where
  refl _ := rfl
  trans _ _ _ h h' := h'.trans h

theorem Marks.sameCwds (h : Marks σ σ') : SameCwds σ σ' := by
  rw [SameCwds, h.rest]

theorem Reads.sameCwds (h : Reads σ σ') : SameCwds σ σ' :=
  h.marks.sameCwds

theorem within_sameCwds {α : Type} {x : Op α} (h : Within Reads x) : Within SameCwds x :=
  fun σ => (h σ).mono fun _ _ => Reads.sameCwds

theorem inodeOpen_sameCwds (sector : ℕ) : Within SameCwds (inodeOpen sector) := by
  refine fun σ => (inodeOpen_cases sector σ).mono fun p σ' hσ' => ?_
  rcases hσ' with ⟨i, -, rfl⟩ | ⟨-, rfl⟩ <;> rfl

theorem freeMapRelease_sameCwds (s cnt : ℕ) : Within SameCwds (freeMapRelease s cnt) :=
  fun σ => (freeMapRelease_ensures s cnt σ).mono fun _ _ hm => hm.sameCwds

theorem deallocateSector_sameCwds (d : InodeDisk) (idx : ℕ) :
    Within SameCwds (deallocateSector d idx) := by
  unfold deallocateSector
  split
  · exact freeMapRelease_sameCwds _ _
  · exact (within_sameCwds (readPtr_reads _ _)).bind fun p => freeMapRelease_sameCwds p 1
  · refine (within_sameCwds (readPtr_reads _ _)).bind fun p => ?_
    refine (within_sameCwds (readPtr_reads _ _)).bind fun q => ?_
    refine (freeMapRelease_sameCwds q 1).bind fun _ => within_ite ?_ (within_pure _)
    exact (within_sameCwds (readPtr_reads _ _)).bind fun p => freeMapRelease_sameCwds p 1

theorem deallocateLoop_sameCwds (d : InodeDisk) (idxs : List ℕ) :
    Within SameCwds (deallocateLoop d idxs) := by
  induction idxs with
  | nil => exact within_pure _
  | cons idx idxs ih => exact (deallocateSector_sameCwds d idx).bind fun _ => ih

theorem inodeClose_sameCwds (p : ℕ) : Within SameCwds (inodeClose p) := by
  refine (within_sameCwds (getInode_reads p)).bind fun i => ?_
  refine Within.bind (within_modify fun _ => rfl) fun _ => within_ite ?_ (within_pure _)
  refine Within.bind (within_modify fun _ => rfl) fun _ => ?_
  have hlast : Within SameCwds (modify fun σ : Fs =>
      { σ with inodes := update σ.inodes p none }) := within_modify fun _ => rfl
  refine within_ite ?_ hlast
  refine (within_sameCwds (readBlock_reads _)).bind fun d => ?_
  exact (deallocateLoop_sameCwds d _).bind fun _ => hlast

theorem dirLookup_sameCwds (dir : ℕ) (name : CString) : Within SameCwds (dirLookup dir name) := by
  refine (within_sameCwds (lookup_reads dir name)).bind fun o => ?_
  cases o with
  | none => exact within_pure _
  | some e => exact (inodeOpen_sameCwds _).bind fun _ => within_pure _

theorem walkOver_sameCwds (fuel : ℕ) (w : Walk) :
    Within SameCwds (walkOver dirLookup isdir fuel w) := by
  induction fuel generalizing w with
  | zero => exact within_pure _
  | succ fuel ih =>
    rw [walkOver]
    split
    · exact within_pure _
    · exact within_pure _
    · refine (dirLookup_sameCwds _ _).bind fun o => ?_
      cases o with
      | none => exact within_pure _
      | some q =>
        refine (within_sameCwds ((getInode_reads q).bind inodeIsdir_reads)).bind fun isDir =>
          within_ite ?_ ?_
        · exact (inodeClose_sameCwds _).bind fun _ => ih _
        · exact within_pure _

theorem parsePath_sameCwds (path : CString) : Within SameCwds (parsePath path) := by
  refine within_ite (within_pure _) ?_
  refine within_get.bind fun σ => (inodeOpen_sameCwds _).bind fun curr => ?_
  refine (walkOver_sameCwds _ _).bind fun w => ?_
  unfold Walk.result
  split
  · refine within_ite (within_pure _) ?_
    split
    · exact (inodeClose_sameCwds _).bind fun _ => within_pure _
    · exact within_pure _
  · exact within_pure _

theorem OpenDir.readdirLoop_stuck (h : OpenDir σ p inode L) (hL : 20 ≤ L) (fuel : ℕ) :
    Ensures (readdirLoop p 0 fuel) σ fun _ _ => False := by
  induction fuel generalizing σ with
  | zero => exact ensures_failure
  | succ fuel ih =>
    rw [readdirLoop]
    refine (h.readAt_entry (k := 0) hL).ensures.bind fun e τ he => ?_
    rw [if_pos (by rw [he.1, entryAt_length])]
    -- no name is `.` and `..`
    have hname : name e ≠ [46] ∨ name e ≠ [46, 46] := by
      by_contra hboth
      push Not at hboth
      rw [hboth.1] at hboth
      cases hboth.2
    rw [if_pos hname]
    exact ih (h.of_same he.2)

theorem OpenDir.removable_stuck (h : OpenDir σ p inode L) (hL : 20 ≤ L)
    (hdir : isDir (σ.view inode.sector) = true) : Ensures (removable p) σ fun _ _ => False := by
  refine (getInode_does h.opened).ensures.bind fun i τ hi => ?_
  obtain ⟨rfl, rfl⟩ := hi
  have hisdir : Does (inodeIsdir i) τ fun b σ' => b = true ∧ Same τ σ' := by
    refine (readBlock_does h.sound h.file.sector_lt).bind fun d υ hd => ?_
    rw [does_pure, hd.1]
    exact ⟨hdir, hd.2⟩
  refine hisdir.ensures.bind fun b υ hb => ?_
  rw [hb.1, if_pos rfl]
  exact ((h.of_same hb.2).readdirLoop_stuck hL dirFuel).bind fun _ _ hfalse => hfalse.elim

/-- `parse_path` takes the path to the directory on `D`, which has the flag. -/
def NamesDirectory (σ : Fs) (path : CString) (D : ℕ) : Prop :=
  isDir (σ.view D) = true ∧
    Does (parsePath path) σ fun o τ =>
      ∃ p i, o = some (p, [46]) ∧ τ.inodes p = some i ∧ i.sector = D

/-- An entry of the directory is in use, besides `.` and `..`. -/
def Occupied (σ : Fs) (D L : ℕ) : Prop :=
  ∃ name k, HasEntry σ D L name k ∧ name ≠ [46] ∧ name ≠ [46, 46]

def IsOpen (σ : Fs) (D : ℕ) : Prop :=
  ∃ p ∈ σ.openInodes, ∃ i, σ.inodes p = some i ∧ i.sector = D

/-- `filesys_remove` ends, removes the directory exactly when it may be removed, and leaves the
working directories alone. -/
def RemovesExactly (garbage : Bool) (σ : Fs) (path : CString) (D L : ℕ) : Prop :=
  Does (filesysRemove garbage path) σ fun ok σ' =>
    (ok = true ↔ ¬ Occupied σ D L ∧ ¬ IsOpen σ D ∧ D ∉ σ.cwds) ∧ σ'.cwds = σ.cwds

theorem inodeClose_does (h : Refs (held + ref p) σ) (hheld : 0 ≤ held)
    (hp : σ.inodes p = some inode) : Does (inodeClose p) σ fun _ σ' => σ'.cwds = σ.cwds := by
  refine (getInode_does hp).bind fun i τ hi => ?_
  obtain ⟨rfl, rfl⟩ := hi
  have hone : 1 ≤ (held + ref p) p := by
    have hp : 0 ≤ held p := hheld p
    rw [Pi.add_apply, ref_self]
    omega
  dsimp only
  rw [does_bind, setInode, does_modify]
  split_ifs with hzero hremoved
  · have := h.removed p i hp hremoved
    omega
  · rw [does_bind, does_modify, does_modify]
  · rw [does_pure]

theorem openDir_of_parsed (hs : σ.Sound) (hsize : σ.size < 2 ^ 32) (hdir : FileOk σ D L)
    (hkept : Kept held σ τ) (hp : τ.inodes p = some inode) (hD : inode.sector = D) :
    OpenDir τ p inode L := by
  refine ⟨hkept.sound hs, by rw [hkept.size]; exact hsize, hp, ?_⟩
  rw [hD]
  exact hdir.of_view hkept.size (by rw [hkept.view hs.coherent])

theorem filesysRemove_stuck {garbage : Bool} (hs : σ.Sound) (hsize : σ.size < 2 ^ 32)
    (hrefs : Refs held σ) (hheld : 0 ≤ held) (hdir : FileOk σ D L)
    (hnames : NamesDirectory σ path D)
    (hself : ∀ k, HasEntry σ D L [46] k → (entryAt σ D k).inodeSector = D)
    (hdot : HasEntry σ D L [46] k) : Ensures (filesysRemove garbage path) σ fun _ _ => False := by
  obtain ⟨hflag, hparse⟩ := hnames
  refine (ensures_and hparse.ensures (parsePath_ensures hrefs hheld path)).bind fun o τ hτ => ?_
  obtain ⟨⟨p, inode, rfl, hp, rfl⟩, hrefsτ, hkept⟩ := hτ
  have hopen := openDir_of_parsed hs hsize hdir hkept hp rfl
  have hview : τ.view = σ.view := hkept.view hs.coherent
  have hlookup : Ensures (dirLookup p [46]) τ fun o υ =>
      ∃ q i, o = some q ∧ OpenDir υ q i L ∧ i.sector = inode.sector ∧ υ.view = σ.view := by
    refine (hopen.lookup_does [46]).ensures.bind fun r υ hr => ?_
    obtain ⟨hυ, ⟨k', hk', rfl⟩ | ⟨-, hnone⟩⟩ := hr
    · rw [HasEntry.congr hview] at hk'
      have hsector : (entryAt τ inode.sector k').inodeSector = inode.sector := by
        rw [entryAt_congr hview]
        exact hself k' hk'
      dsimp only
      rw [hsector]
      refine (inodeOpen_cases _ υ).bind fun q ρ hρ => ensures_pure.mpr ?_
      have hfile : FileOk υ inode.sector L := hopen.file.of_view hυ.size (by rw [hυ.view])
      have hlt : υ.size < 2 ^ 32 := by
        rw [hυ.size]
        exact hopen.size_lt
      have hviewυ : υ.view = σ.view := hυ.view.trans hview
      rcases hρ with ⟨i, hfind, rfl⟩ | ⟨rfl, rfl⟩
      · have hi := (findInode_some hfind).2
        refine ⟨q, _, rfl, ⟨hυ.sound, hlt, update_self _ _ _, ?_⟩, hi, hviewυ⟩
        rw [hi]
        exact hfile.of_view rfl rfl
      · exact ⟨_, _, rfl, ⟨hυ.sound, hlt, update_self _ _ _, hfile.of_view rfl rfl⟩, rfl, hviewυ⟩
    · exact absurd ((HasEntry.congr hview).mpr hdot) (hnone k)
  refine hlookup.bind fun o υ hυ => ?_
  obtain ⟨q, i, rfl, hq, hi, hviewυ⟩ := hυ
  have hL : 20 ≤ L := by
    have := hdot.1
    omega
  have hflag : isDir (υ.view i.sector) = true := by
    rw [hviewυ, hi]
    exact hflag
  exact (hq.removable_stuck hL hflag).bind fun _ _ hfalse => hfalse.elim

theorem filesysRemove_refuses (garbage : Bool) (hs : σ.Sound) (hsize : σ.size < 2 ^ 32)
    (hrefs : Refs held σ) (hheld : 0 ≤ held) (hdir : FileOk σ D L)
    (hnames : NamesDirectory σ path D) (hdot : ∀ k, ¬ HasEntry σ D L [46] k) :
    Does (filesysRemove garbage path) σ fun ok σ' => ok = false ∧ σ'.cwds = σ.cwds := by
  obtain ⟨-, o, τ, hrun, p, inode, rfl, hp, rfl⟩ := hnames
  obtain ⟨hrefsτ, hkept⟩ := parsePath_ensures hrefs hheld path _ _ hrun
  have hcwds : τ.cwds = σ.cwds := parsePath_sameCwds path σ _ _ hrun
  have hopen := openDir_of_parsed hs hsize hdir hkept hp rfl
  rw [map_some, optRef] at hrefsτ
  refine does_bind.mpr ⟨_, τ, hrun, ?_⟩
  have hlookup : Does (dirLookup p [46]) τ fun o υ => o = none ∧ Same τ υ := by
    refine (hopen.lookup_does [46]).bind fun r υ hr => ?_
    obtain ⟨hυ, ⟨k, hk, -⟩ | ⟨rfl, -⟩⟩ := hr
    · rw [HasEntry.congr (hkept.view hs.coherent)] at hk
      exact absurd hk (hdot k)
    · exact does_pure.mpr ⟨rfl, hυ⟩
  refine hlookup.bind fun o υ hυ => ?_
  obtain ⟨rfl, hυ⟩ := hυ
  have hinodes : υ.inodes = τ.inodes := by rw [hυ.rest]
  have hrefsυ := hrefsτ.of_eq hinodes (by rw [hυ.rest])
  refine (inodeClose_does hrefsυ hheld (by rw [hinodes, hp])).bind fun _ σ' hσ' => ?_
  refine does_pure.mpr ⟨rfl, ?_⟩
  rw [hσ', hυ.rest]
  exact hcwds

/-- The removal of a directory is exact only when there is no `.` in it and it may not be removed
anyway. -/
theorem removesExactly_iff (garbage : Bool) (hs : σ.Sound) (hsize : σ.size < 2 ^ 32)
    (hrefs : Refs 0 σ) (hdir : FileOk σ D L) (hnames : NamesDirectory σ path D)
    (hself : ∀ k, HasEntry σ D L [46] k → (entryAt σ D k).inodeSector = D) :
    RemovesExactly garbage σ path D L ↔
      (∀ k, ¬ HasEntry σ D L [46] k) ∧ (Occupied σ D L ∨ IsOpen σ D ∨ D ∈ σ.cwds) := by
  by_cases hdot : ∀ k, ¬ HasEntry σ D L [46] k
  · have hrefuses := filesysRemove_refuses garbage hs hsize hrefs le_rfl hdir hnames hdot
    constructor
    · intro hexact
      obtain ⟨ok, σ', hrun, hok, -⟩ := hrefuses
      have hiff := (hexact.ensures _ _ hrun).1
      refine ⟨hdot, ?_⟩
      by_contra hmay
      push Not at hmay
      rw [hok] at hiff
      exact Bool.false_ne_true (hiff.mpr hmay)
    · rintro ⟨-, hmay⟩
      refine hrefuses.mono fun ok σ' hok => ⟨?_, hok.2⟩
      rw [hok.1]
      refine iff_of_false Bool.false_ne_true ?_
      rintro ⟨hempty, hclosed, hcwd⟩
      rcases hmay with h | h | h
      · exact hempty h
      · exact hclosed h
      · exact hcwd h
  · refine iff_of_false ?_ fun h => hdot h.1
    push Not at hdot
    obtain ⟨k, hk⟩ := hdot
    rintro ⟨ok, σ', hrun, -⟩
    exact filesysRemove_stuck hs hsize hrefs le_rfl hdir hnames hself hk ok σ' hrun

/-- A device with a directory `a` on sector 8 that has the flag, with the given entries. -/
def nested (entries : List DirEntry) : ℕ → Sector
  | 7 => write (fun _ => 0) 0 (ofList
      (add (replicate 20 0) [46, 46] 1 ++ add (replicate 20 0) [46] 1 ++
        add (replicate 20 0) [97] 8))
  | 8 => (smallInode 9 10 11 (20 * entries.length)).setU32 500 1
  | 11 => write (fun _ => 0) 0 (ofList entries.flatten)
  | s => formatted 16 s

def nestedFs (entries : List DirEntry) (cwds : List ℕ) : Fs :=
  { mounted 16 with
    cache := init 16 (nested entries) fun _ _ => 0
    freeMap := fun s => s < 12
    cwds := cwds }

theorem nestedFs_file {cwds : List ℕ} (h : entries.length ≤ 25) :
    FileOk (nestedFs entries cwds) 8 (20 * entries.length) := by
  have hview : (nestedFs entries cwds).view 8 =
      (smallInode 9 10 11 (20 * entries.length)).setU32 500 1 := view_of_not_cached rfl
  have hsize : (nestedFs entries cwds).size = 16 := rfl
  refine fileOk_single (x := 11) (by omega) ?_ (by omega) ?_ (by omega) (by omega)
  · rw [hview]
    exact (u32_setU32_of_disjoint (by omega)).trans (smallInode_length (by omega))
  · rw [hview]
    exact (u32_setU32_of_disjoint (by omega)).trans (smallInode_direct (by omega))

theorem nestedFs_sound (entries : List DirEntry) (cwds : List ℕ) : (nestedFs entries cwds).Sound :=
  init_sound _ _ _

theorem nestedFs_refs (entries : List DirEntry) (cwds : List ℕ) :
    Refs 0 (nestedFs entries cwds) := by
  have hmap : Refs (ref 0) (nestedFs entries cwds) := (mounted_refs 16).of_eq rfl le_rfl
  exact hmap.mono (ref_nonneg 0)

theorem nestedFs_names {cwds : List ℕ} (hflag : isDir ((nestedFs entries cwds).view 8) = true)
    (h : ((parsePath [97]).run (nestedFs entries cwds)).map (fun r =>
    (r.1, (r.2.inodes 3).map Inode.sector)) = some (some (3, [46]), some 8)) :
    NamesDirectory (nestedFs entries cwds) [97] 8 := by
  obtain ⟨⟨o, τ⟩, hrun, heq⟩ := map_eq_some_iff.mp h
  obtain ⟨rfl, hsector⟩ := Prod.mk.inj heq
  obtain ⟨i, hi, hi'⟩ := map_eq_some_iff.mp hsector
  exact ⟨hflag, _, τ, hrun, 3, i, rfl, hi, hi'⟩

example : ((filesysOpen [97]).run (nestedFs [] [1])).isSome = true := by decide +kernel

/-- A directory without `.` that is the working directory of a thread. -/
theorem removesExactly_cwd :
    RemovesExactly true (nestedFs [add (replicate 20 0) [46, 46] 1] [1, 8]) [97] 8
      20 := by
  have hnone : ∀ k, ¬ HasEntry (nestedFs [add (replicate 20 0) [46, 46] 1] [1, 8]) 8
      20 [46] k := by
    rintro k ⟨hk, hentry⟩
    obtain rfl : k = 0 := by omega
    revert hentry
    decide +kernel
  exact (removesExactly_iff true (nestedFs_sound _ _) (by decide) (nestedFs_refs _ _)
    (nestedFs_file (by decide)) (nestedFs_names (by decide +kernel) (by decide +kernel))
    fun k hk => absurd hk (hnone k)).mpr ⟨hnone, .inr (.inr (by decide))⟩

/-- An empty directory that nobody uses is not removed: the call does not end. -/
theorem not_removesExactly_empty :
    ∃ σ : Fs, NamesDirectory σ [97] 8 ∧ ¬ Occupied σ 8 40 ∧ ¬ IsOpen σ 8 ∧ 8 ∉ σ.cwds ∧
      ∀ garbage, (filesysRemove garbage [97]).run σ = none := by
  have hentries : ∀ k, 20 * (k + 1) ≤ 40 → k = 0 ∨ k = 1 := fun k hk => by omega
  refine ⟨nestedFs [add (replicate 20 0) [46, 46] 1, add (replicate 20 0) [46] 8] [1], ?_⟩
  have hnames : NamesDirectory (nestedFs [add (replicate 20 0) [46, 46] 1,
    add (replicate 20 0) [46] 8] [1]) [97] 8 :=
    nestedFs_names (by decide +kernel) (by decide +kernel)
  refine ⟨hnames, ?_, ?_, by decide, fun garbage => ?_⟩
  · rintro ⟨name, k, ⟨hk, -, rfl⟩, hne⟩
    revert hne
    rcases hentries k hk with rfl | rfl <;> decide +kernel
  · rintro ⟨p, hp, i, hi, hsector⟩
    obtain rfl : p = 0 := mem_singleton.mp hp
    cases hi
    cases hsector
  · rw [eq_none_iff_forall_ne_some]
    rintro ⟨ok, σ'⟩ hrun
    refine filesysRemove_stuck (k := 1) (nestedFs_sound _ _) (by decide) (nestedFs_refs _ _)
      le_rfl (nestedFs_file (by decide)) hnames ?_ (by unfold HasEntry; decide +kernel) ok σ' hrun
    rintro k ⟨hk, -, hname⟩
    revert hname
    rcases hentries k hk with rfl | rfl <;> decide +kernel

end CS162.Filesys
