import CS162.Filesys.Effects

/-!
# References to open inodes

Only the last close of a removed inode gives its sectors back.  `Refs held σ` says that the
call in progress holds `held p` references to the inode at `p` and that a removed inode has
another opener besides.  A call that closes what it opened then never releases a sector.
-/

namespace CS162.Filesys


open Prog Function Slots

variable {held held' : ℕ → ℤ} {σ σ' τ : Fs} {p q dir sector : ℕ} {i : Inode}

/-- The references the call in progress holds are counted, and a removed inode has an
opener besides. -/
structure Refs (held : ℕ → ℤ) (σ : Fs) : Prop where
  cnt : ∀ p i, σ.inodes p = some i → held p ≤ i.openCnt
  removed : ∀ p i, σ.inodes p = some i → i.removed = true → held p < i.openCnt
  absent : ∀ p, σ.inodes p = none → held p ≤ 0
  fresh : ∀ p, σ.brk ≤ p → σ.inodes p = none

theorem Refs.mono (h : Refs held σ) (hle : held' ≤ held) : Refs held' σ where
  cnt p i hp := (hle p).trans (h.cnt p i hp)
  removed p i hp hr := (hle p).trans_lt (h.removed p i hp hr)
  absent p hp := (hle p).trans (h.absent p hp)
  fresh := h.fresh

theorem Refs.of_eq (h : Refs held σ) (hinodes : σ'.inodes = σ.inodes)
    (hbrk : σ.brk ≤ σ'.brk) : Refs held σ' where
  cnt := by
    rw [hinodes]
    exact h.cnt
  removed := by
    rw [hinodes]
    exact h.removed
  absent := by
    rw [hinodes]
    exact h.absent
  fresh p hp := by
    rw [hinodes]
    exact h.fresh p (hbrk.trans hp)

theorem Refs.of_marks (h : Refs held σ) (hm : Marks σ σ') : Refs held σ' :=
  h.of_eq (by rw [hm.rest]) (by rw [hm.rest])

/-- What a call leaves alone: the contents of the device, the free map, the files, and
the inodes it holds references to. -/
structure Kept (held : ℕ → ℤ) (σ σ' : Fs) : Prop where
  size : σ'.size = σ.size
  freeMap : σ'.freeMap = σ.freeMap
  freeMapFile : σ'.freeMapFile = σ.freeMapFile
  files : σ'.files = σ.files
  brk : σ.brk ≤ σ'.brk
  sound : σ.Sound → σ'.Sound
  coherent : σ.cache.Coherent → σ'.cache.Coherent
  view : σ.cache.Coherent → σ'.view = σ.view
  inodes : ∀ p i, 0 < held p → σ.inodes p = some i →
    ∃ i', σ'.inodes p = some i' ∧ i'.sector = i.sector ∧ i'.denyWriteCnt = i.denyWriteCnt

theorem Kept.mono (h : Kept held σ σ') (hle : held' ≤ held) : Kept held' σ σ' :=
  { h with inodes := fun p i hp => h.inodes p i (hp.trans_le (hle p)) }

theorem Kept.trans (h : Kept held σ τ) (h' : Kept held τ σ') : Kept held σ σ' where
  size := h'.size.trans h.size
  freeMap := h'.freeMap.trans h.freeMap
  freeMapFile := h'.freeMapFile.trans h.freeMapFile
  files := h'.files.trans h.files
  brk := h.brk.trans h'.brk
  sound := h'.sound ∘ h.sound
  coherent := h'.coherent ∘ h.coherent
  view hc := (h'.view (h.coherent hc)).trans (h.view hc)
  inodes p i hp hi := by
    obtain ⟨j, hj, hsector, hdeny⟩ := h.inodes p i hp hi
    obtain ⟨k, hk, hsector', hdeny'⟩ := h'.inodes p j hp hj
    exact ⟨k, hk, hsector'.trans hsector, hdeny'.trans hdeny⟩

theorem Reads.kept (h : Reads σ σ') : Kept held σ σ' where
  size := h.size
  freeMap := by rw [h.rest]
  freeMapFile := by rw [h.rest]
  files := by rw [h.rest]
  brk := by rw [h.rest]
  sound := h.sound
  coherent := h.coherent
  view := h.view
  inodes p i _ hi := ⟨i, by rw [h.rest]; exact hi, rfl, rfl⟩

def ref (p : ℕ) : ℕ → ℤ :=
  Pi.single p 1

theorem ref_self (p : ℕ) : ref p p = 1 :=
  Pi.single_eq_same p 1

theorem ref_of_ne (h : q ≠ p) : ref p q = 0 :=
  Pi.single_eq_of_ne h 1

theorem ref_nonneg (p : ℕ) : 0 ≤ ref p := by
  intro q
  by_cases hqp : q = p
  · rw [hqp, ref_self]
    exact zero_le_one
  · rw [ref_of_ne hqp]
    exact le_rfl

theorem le_add_ref (held : ℕ → ℤ) (p : ℕ) : held ≤ held + ref p :=
  le_add_of_nonneg_right (ref_nonneg p)

theorem Refs.set (h : Refs held σ) (hinodes : σ'.inodes = update σ.inodes p (some i))
    (hbrk : σ.brk ≤ σ'.brk) (hp : p < σ'.brk) (hheld : ∀ q, q ≠ p → held' q ≤ held q)
    (hcnt : held' p ≤ i.openCnt) (hremoved : i.removed = true → held' p < i.openCnt) :
    Refs held' σ' where
  cnt q j hq := by
    rcases of_update_some (hinodes ▸ hq) with ⟨rfl, rfl⟩ | ⟨hqp, hq⟩
    · exact hcnt
    · exact (hheld q hqp).trans (h.cnt q j hq)
  removed q j hq hr := by
    rcases of_update_some (hinodes ▸ hq) with ⟨rfl, rfl⟩ | ⟨hqp, hq⟩
    · exact hremoved hr
    · exact (hheld q hqp).trans_lt (h.removed q j hq hr)
  absent q hq := by
    rw [hinodes] at hq
    by_cases hqp : q = p
    · rw [hqp, update_self] at hq
      cases hq
    · rw [update_of_ne hqp] at hq
      exact (hheld q hqp).trans (h.absent q hq)
  fresh q hq := by
    have hqp : q ≠ p := by omega
    rw [hinodes, update_of_ne hqp]
    exact h.fresh q (hbrk.trans hq)

theorem Refs.free (h : Refs held σ) (hinodes : σ'.inodes = update σ.inodes p none)
    (hbrk : σ.brk ≤ σ'.brk) (hheld : ∀ q, q ≠ p → held' q ≤ held q) (hp : held' p ≤ 0) :
    Refs held' σ' := by
  refine ⟨fun q j hq => ?_, fun q j hq hr => ?_, fun q hq => ?_, fun q hq => ?_⟩
  · obtain ⟨hqp, hq⟩ := of_update_none (hinodes ▸ hq)
    exact (hheld q hqp).trans (h.cnt q j hq)
  · obtain ⟨hqp, hq⟩ := of_update_none (hinodes ▸ hq)
    exact (hheld q hqp).trans_lt (h.removed q j hq hr)
  · by_cases hqp : q = p
    · rwa [hqp]
    · rw [hinodes, update_of_ne hqp] at hq
      exact (hheld q hqp).trans (h.absent q hq)
  · rw [hinodes, update_apply]
    split_ifs
    · rfl
    · exact h.fresh q (hbrk.trans hq)

theorem Kept.of_update {o : Option Inode} {brk : ℕ} {openInodes : List ℕ} (hbrk : σ.brk ≤ brk)
    (h : ∀ j, 0 < held p → σ.inodes p = some j →
      ∃ i, o = some i ∧ i.sector = j.sector ∧ i.denyWriteCnt = j.denyWriteCnt) :
    Kept held σ { σ with
      inodes := update σ.inodes p o
      brk := brk
      openInodes := openInodes } := by
  refine ⟨rfl, rfl, rfl, rfl, hbrk, id, id, fun _ => rfl, fun q j hq hj => ?_⟩
  dsimp only
  by_cases hqp : q = p
  · subst hqp
    rw [update_self]
    exact h j hq hj
  · rw [update_of_ne hqp]
    exact ⟨j, hj, rfl, rfl⟩

theorem findInode_some {ps : List ℕ} (h : findInode σ sector ps = some (p, i)) :
    σ.inodes p = some i ∧ i.sector = sector := by
  induction ps with
  | nil => cases h
  | cons q ps ih =>
    rw [findInode] at h
    cases hq : σ.inodes q with
    | none =>
      rw [hq] at h
      cases h
    | some j =>
      rw [hq] at h
      dsimp only at h
      split_ifs at h with hj
      · cases h
        exact ⟨hq, hj⟩
      · exact ih h

theorem findInode_congr (h : σ'.inodes = σ.inodes) (ps : List ℕ) :
    findInode σ' sector ps = findInode σ sector ps := by
  induction ps with
  | nil => rfl
  | cons q ps ih => rw [findInode, findInode, ih, h]

theorem Reads.findInode (h : Reads σ σ') :
    findInode σ' sector σ'.openInodes = findInode σ sector σ.openInodes := by
  have hopen : σ'.openInodes = σ.openInodes := by rw [h.rest]
  have hinodes : σ'.inodes = σ.inodes := by rw [h.rest]
  rw [hopen, findInode_congr hinodes]

theorem findInode_update {ps : List ℕ} {i' : Inode} (h : findInode σ sector ps = some (p, i))
    (hsector : i'.sector = i.sector) :
    findInode { σ with inodes := update σ.inodes p (some i') } sector ps =
      some (p, i') := by
  obtain ⟨hp, hi⟩ := findInode_some h
  induction ps with
  | nil => cases h
  | cons q ps ih =>
    rw [findInode] at h ⊢
    by_cases hqp : q = p
    · subst hqp
      dsimp only
      rw [update_self]
      exact if_pos (hsector.trans hi)
    · dsimp only
      rw [update_of_ne hqp]
      cases hq : σ.inodes q with
      | none =>
        rw [hq] at h
        cases h
      | some j =>
        rw [hq] at h
        dsimp only at h ⊢
        split_ifs at h ⊢ with hj
        · cases h
          exact absurd rfl hqp
        · exact ih h

theorem inodeOpen_cases (sector : ℕ) (σ : Fs) :
    Ensures (inodeOpen sector) σ fun p σ' =>
      (∃ i, findInode σ sector σ.openInodes = some (p, i) ∧
        σ' = { σ with
          inodes := update σ.inodes p (some { i with openCnt := i.openCnt + 1 }) }) ∨
      p = σ.brk ∧ σ' = { σ with
        inodes := update σ.inodes p (some ⟨sector, 1, false, 0⟩)
        brk := p + 1
        openInodes := p :: σ.openInodes } := by
  rw [inodeOpen, ensures_bind, ensures_get]
  cases hfind : findInode σ sector σ.openInodes with
  | none =>
    rw [ensures_bind, ensures_modify, ensures_bind, setInode, ensures_modify, ensures_pure]
    exact .inr ⟨rfl, rfl⟩
  | some r =>
    obtain ⟨p, i⟩ := r
    have hp := (findInode_some hfind).1
    rw [ensures_bind]
    refine ((getInode_does hp).ensures).bind fun j τ hj => ?_
    obtain ⟨rfl, rfl⟩ := hj
    rw [setInode, ensures_modify, ensures_pure]
    exact .inl ⟨j, rfl, rfl⟩

theorem inodeOpen_ensures (h : Refs held σ) (sector : ℕ) :
    Ensures (inodeOpen sector) σ fun p σ' => Refs (held + ref p) σ' ∧ (∀ held', Kept held' σ σ') ∧
      ∃ i, findInode σ' sector σ'.openInodes = some (p, i) := by
  have hother : ∀ p q, q ≠ p → (held + ref p) q ≤ held q := by
    intro p q hqp
    rw [Pi.add_apply, ref_of_ne hqp, add_zero]
  refine (inodeOpen_cases sector σ).mono fun p σ' hσ' => ?_
  rcases hσ' with ⟨i, hfind, rfl⟩ | ⟨rfl, rfl⟩
  · have hp := (findInode_some hfind).1
    have hlt : p < σ.brk := by
      by_contra hle
      rw [h.fresh p (by omega)] at hp
      cases hp
    refine ⟨h.set rfl le_rfl hlt (hother p) ?_ fun hr => ?_, fun held' => ?_, _,
      findInode_update hfind rfl⟩
    · have := h.cnt p i hp
      rw [Pi.add_apply, ref_self]
      dsimp only
      omega
    · have := h.removed p i hp hr
      rw [Pi.add_apply, ref_self]
      dsimp only
      omega
    · refine .of_update le_rfl fun j _ hj => ?_
      rw [hp] at hj
      cases hj
      exact ⟨_, rfl, rfl, rfl⟩
  · have hnone := h.fresh σ.brk le_rfl
    have hzero := h.absent σ.brk hnone
    refine ⟨h.set rfl (Nat.le_succ _) (Nat.lt_succ_self _) (hother _) ?_ fun hr => ?_,
      fun held' => .of_update (Nat.le_succ _) fun j _ hj => ?_, ⟨sector, 1, false, 0⟩, ?_⟩
    · rw [Pi.add_apply, ref_self]
      dsimp only
      omega
    · cases hr
    · rw [hnone] at hj
      cases hj
    · dsimp only [findInode]
      rw [update_self]
      exact if_pos rfl

theorem inodeClose_ensures (h : Refs held σ) (hp : 0 < held p) :
    Ensures (inodeClose p) σ fun _ σ' => Refs (held - ref p) σ' ∧ Kept (held - ref p) σ σ' := by
  have hother : ∀ q, q ≠ p → (held - ref p) q ≤ held q := by
    intro q hqp
    rw [Pi.sub_apply, ref_of_ne hqp, sub_zero]
  refine (getInode_ensures p σ).bind fun i τ hτ => ?_
  obtain ⟨hi, hτ⟩ := hτ
  rw [hτ]
  have hcnt := h.cnt p i hi
  have hlt : p < σ.brk := by
    by_contra hle
    rw [h.fresh p (by omega)] at hi
    cases hi
  dsimp only
  rw [ensures_bind, setInode, ensures_modify]
  split_ifs with hzero hremoved
  · -- a removed inode has an opener besides, so this was not the last one
    have := h.removed p i hi hremoved
    omega
  · rw [ensures_bind, ensures_modify, ensures_modify]
    rw [update_idem]
    refine ⟨h.free rfl le_rfl hother ?_, .of_update le_rfl fun j hpos hj => ?_⟩
    · rw [Pi.sub_apply, ref_self]
      omega
    · rw [Pi.sub_apply, ref_self] at hpos
      omega
  · rw [ensures_pure]
    refine ⟨h.set rfl le_rfl hlt hother ?_ fun hr => ?_, .of_update le_rfl fun j _ hj => ?_⟩
    · rw [Pi.sub_apply, ref_self]
      dsimp only
      omega
    · have := h.removed p i hi hr
      rw [Pi.sub_apply, ref_self]
      dsimp only
      omega
    · rw [hi] at hj
      cases hj
      exact ⟨_, rfl, rfl, rfl⟩

theorem inodeClose_ref (h : Refs (held + ref p) σ) (hheld : 0 ≤ held) :
    Ensures (inodeClose p) σ fun _ σ' => Refs held σ' ∧ Kept held σ σ' := by
  have hpos : 0 < (held + ref p) p := by
    have hp : 0 ≤ held p := hheld p
    rw [Pi.add_apply, ref_self]
    omega
  have hsub : held + ref p - ref p = held := add_sub_cancel_right held (ref p)
  refine (inodeClose_ensures h hpos).mono fun _ σ' hσ' => ?_
  rwa [hsub] at hσ'

def optRef : Option ℕ → ℕ → ℤ
  | none => 0
  | some p => ref p

theorem optRef_nonneg (o : Option ℕ) : 0 ≤ optRef o := by
  cases o with
  | none => exact le_rfl
  | some p => exact ref_nonneg p

theorem dirLookup_ensures (h : Refs held σ) (dir : ℕ) (name : CString) :
    Ensures (dirLookup dir name) σ fun o σ' => Refs (held + optRef o) σ' ∧ Kept held σ σ' := by
  refine (lookup_reads dir name σ).bind fun o τ hτ => ?_
  have hrefs : Refs held τ := h.of_marks hτ.marks
  cases o with
  | none =>
    refine ensures_pure.mpr ⟨?_, hτ.kept⟩
    rwa [optRef, add_zero]
  | some e =>
    refine (inodeOpen_ensures hrefs _).bind fun p υ hυ => ?_
    exact ensures_pure.mpr ⟨hυ.1, hτ.kept.trans (hυ.2.1 held)⟩

/-- The references the loop of `parse_path` ends with: the directory, and the inode of
the last part when it is another one. -/
def WalkRefs (held : ℕ → ℤ) (w : Walk) (σ : Fs) : Prop :=
  (w.next = none ∨ w.next = some w.curr) ∧ Refs (held + ref w.curr) σ ∨
    ∃ q, w.next = some q ∧ Refs (held + ref w.curr + ref q) σ

theorem walkOver_ensures (hheld : 0 ≤ held) (fuel : ℕ) (w : Walk)
    (h : Refs (held + ref w.curr) σ) (hnext : w.next = some w.curr) :
    Ensures (walkOver dirLookup isdir fuel w) σ fun w' σ' =>
      WalkRefs held w' σ' ∧ Kept held σ σ' := by
  have hrefl : ∀ τ : Fs, Kept held τ τ := fun τ => (refl τ : Reads τ τ).kept
  induction fuel generalizing σ w with
  | zero => exact ensures_pure.mpr ⟨.inl ⟨.inr hnext, h⟩, hrefl σ⟩
  | succ fuel ih =>
    rw [walkOver]
    split
    · exact ensures_pure.mpr ⟨.inl ⟨.inr hnext, h⟩, hrefl σ⟩
    · exact ensures_pure.mpr ⟨.inl ⟨.inr hnext, h⟩, hrefl σ⟩
    · rename_i name rest _
      have hle : held ≤ held + ref w.curr := le_add_ref _ _
      refine (dirLookup_ensures h w.curr name).bind fun o τ hτ => ?_
      obtain ⟨hrefs, hkept⟩ := hτ
      have hkept : Kept held σ τ := hkept.mono hle
      cases o with
      | none =>
        rw [optRef, add_zero] at hrefs
        exact ensures_pure.mpr ⟨.inl ⟨.inl rfl, hrefs⟩, hkept⟩
      | some q =>
        refine ((getInode_reads q).bind inodeIsdir_reads τ).bind fun isDir υ hread => ?_
        have hrefs : Refs (held + ref w.curr + ref q) υ := hrefs.of_marks hread.marks
        have hkept := hkept.trans hread.kept
        split_ifs
        · -- the walk goes on in `q`
          have hq : 0 ≤ held + ref q := add_nonneg hheld (ref_nonneg q)
          rw [add_right_comm] at hrefs
          refine (inodeClose_ref hrefs hq).bind fun _ ρ hρ => ?_
          have hkept := hkept.trans (hρ.2.mono (le_add_ref _ q))
          refine (ih ⟨q, some q, name, rest⟩ hρ.1 rfl).mono fun w' σ' hw' => ?_
          exact ⟨hw'.1, hkept.trans hw'.2⟩
        · exact ensures_pure.mpr ⟨.inr ⟨q, rfl, hrefs⟩, hkept⟩

theorem parsePath_ensures (h : Refs held σ) (hheld : 0 ≤ held) (path : CString) :
    Ensures (parsePath path) σ fun o σ' =>
      Refs (held + optRef (o.map Prod.fst)) σ' ∧ Kept held σ σ' := by
  have hrefl : Kept held σ σ := (refl σ : Reads σ σ).kept
  unfold parsePath parsePathOver
  by_cases hempty : path = []
  · rw [if_pos hempty]
    refine ensures_pure.mpr ⟨?_, hrefl⟩
    rwa [Option.map_none, optRef, add_zero]
  · rw [if_neg hempty, ensures_bind, ensures_get]
    refine (inodeOpen_ensures h _).bind fun curr τ hτ => ?_
    have hkept : Kept held σ τ := hτ.2.1 held
    refine (walkOver_ensures hheld _ ⟨curr, some curr, [], path⟩ hτ.1 rfl).bind fun w υ hυ => ?_
    have hkept := hkept.trans hυ.2
    have hdir : Refs (held + ref w.curr) υ := by
      rcases hυ.1 with ⟨-, hrefs⟩ | ⟨q, -, hrefs⟩
      · exact hrefs
      · exact hrefs.mono (le_add_ref _ q)
    have hnone : Refs held υ := hdir.mono (le_add_ref _ _)
    unfold Walk.result
    split
    · split_ifs with hcurr
      · exact ensures_pure.mpr ⟨hdir, hkept⟩
      · rcases hυ.1 with ⟨hnext, -⟩ | ⟨q, hnext, hrefs⟩
        · rw [hnext.resolve_right hcurr]
          exact ensures_pure.mpr ⟨hdir, hkept⟩
        · rw [hnext]
          have hle : held ≤ held + ref w.curr := le_add_ref _ _
          refine (inodeClose_ref hrefs (hheld.trans hle)).bind fun _ ρ hρ => ?_
          exact ensures_pure.mpr ⟨hρ.1, hkept.trans (hρ.2.mono hle)⟩
    · refine ensures_pure.mpr ⟨?_, hkept⟩
      rwa [Option.map_none, optRef, add_zero]

end CS162.Filesys
