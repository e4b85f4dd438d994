import CS162.Filesys.Refs

/-!
# The table of open inodes

`open_inodes` against two counts for every pointer: the handles that are out and the files
among them that deny writes.  `Table kept cnt deny σ` says that the table agrees with the
counts.  The files of `file.c` are a second layer, which decides which counts go with which
handles.  In a run of calls the counters have the width of an `int`.
-/

namespace CS162.Filesys

open List Function

open Prog

variable {kept : ℕ → Prop} {cnt cnt' deny deny' : ℕ → ℕ} {σ σ' τ : Fs}
  {p q f sector : ℕ} {i j : Inode}

/-- `inode_open`, where `malloc` says whether memory is left. -/
def tryInodeOpen (malloc : Bool) (sector : ℕ) : Op (Option ℕ) := do
  let σ ← get
  if findInode σ sector σ.openInodes = none ∧ malloc = false then
    return none
  else
    return some (← inodeOpen sector)

/-- `file_open` of an inode, where `calloc` says whether memory is left. -/
def tryFileOpen (calloc : Bool) (p : ℕ) : Op (Option ℕ) := do
  if calloc then
    return some (← fileOpen p)
  else
    inodeClose p
    return none

def fileReopen (calloc : Bool) (f : ℕ) : Op (Option ℕ) := do
  let file ← getFile f
  inodeReopen file.inode
  tryFileOpen calloc file.inode

/-- `inode_deny_write`.  The counter is an `int`. -/
def inodeDenyWrite (p : ℕ) : Op Unit := do
  let i ← getInode p
  let denyWriteCnt := (i.denyWriteCnt + 1).bmod (2 ^ 32)
  setInode p { i with denyWriteCnt }
  if denyWriteCnt ≤ i.openCnt then pure () else failure

def inodeAllowWrite (p : ℕ) : Op Unit := do
  let i ← getInode p
  if 0 < i.denyWriteCnt ∧ i.denyWriteCnt ≤ i.openCnt then
    setInode p { i with denyWriteCnt := i.denyWriteCnt - 1 }
  else
    failure

def fileDenyWrite (f : ℕ) : Op Unit := do
  let file ← getFile f
  if file.denyWrite then
    return ()
  else
    setFile f { file with denyWrite := true }
    inodeDenyWrite file.inode

def fileAllowWrite (f : ℕ) : Op Unit := do
  let file ← getFile f
  if file.denyWrite then
    setFile f { file with denyWrite := false }
    inodeAllowWrite file.inode
  else
    return ()

/-- The table agrees with the counts: a pointer is in `open_inodes`, and leads to an
inode, exactly when it has handles, and no two of the inodes are on the same sector.
Only inodes that are `kept` may be marked as removed. -/
structure Table (kept : ℕ → Prop) (cnt deny : ℕ → ℕ) (σ : Fs) : Prop where
  nodup : σ.openInodes.Nodup
  mem_iff : ∀ p, p ∈ σ.openInodes ↔ 0 < cnt p
  some_iff : ∀ p, (∃ i, σ.inodes p = some i) ↔ 0 < cnt p
  one : ∀ p q i j, σ.inodes p = some i → σ.inodes q = some j → i.sector = j.sector → p = q
  openCnt : ∀ p i, σ.inodes p = some i → i.openCnt = cnt p
  denyWriteCnt : ∀ p i, σ.inodes p = some i → i.denyWriteCnt = deny p
  removed : ∀ p i, σ.inodes p = some i → i.removed = true → kept p
  deny_le : ∀ p, deny p ≤ cnt p
  fresh : ∀ p, σ.brk ≤ p → cnt p = 0

/-- A call changes the table and the heap, and no inode moves to another sector. -/
structure TableOnly (σ σ' : Fs) : Prop where
  rest : σ' = { σ with
    inodes := σ'.inodes
    brk := σ'.brk
    openInodes := σ'.openInodes }
  brk : σ.brk ≤ σ'.brk
  sector : ∀ p i j, σ.inodes p = some i → σ'.inodes p = some j → j.sector = i.sector

section

variable (h : Table kept cnt deny σ)

include h

theorem Table.lt_brk (hp : 0 < cnt p) : p < σ.brk := by
  by_contra hle
  have := h.fresh p (by omega)
  omega

theorem Table.set (hinodes : σ'.inodes = update σ.inodes p (some i))
    (hbrk : σ.brk ≤ σ'.brk) (hp : p < σ'.brk) (hnodup : σ'.openInodes.Nodup)
    (hmem : ∀ q, q ∈ σ'.openInodes ↔ q = p ∨ q ∈ σ.openInodes)
    (hother : ∀ q, q ≠ p → cnt' q = cnt q ∧ deny' q = deny q)
    (hone : ∀ q j, q ≠ p → σ.inodes q = some j → j.sector ≠ i.sector) (hcnt : i.openCnt = cnt' p)
    (hdeny : i.denyWriteCnt = deny' p) (hremoved : i.removed = true → kept p) (hpos : 0 < cnt' p)
    (hle : deny' p ≤ cnt' p) : Table kept cnt' deny' σ' := by
  have hself : σ'.inodes p = some i := by rw [hinodes, update_self]
  have hne : ∀ q, q ≠ p → σ'.inodes q = σ.inodes q := fun q hqp => by
    rw [hinodes, update_of_ne hqp]
  have hcases : ∀ q j, σ'.inodes q = some j → q = p ∧ i = j ∨ q ≠ p ∧ σ.inodes q = some j :=
    fun q j hq => Slots.of_update_some (hinodes ▸ hq)
  refine ⟨hnodup, fun q => ?_, fun q => ?_, fun q r j k hq hr hs => ?_, fun q j hq => ?_,
    fun q j hq => ?_, fun q j hq => ?_, fun q => ?_, fun q hq => ?_⟩
  · rw [hmem]
    by_cases hqp : q = p
    · simp [hqp, hpos]
    · simp [hqp, (hother q hqp).1, h.mem_iff]
  · by_cases hqp : q = p
    · rw [hqp, hself]
      exact ⟨fun _ => hpos, fun _ => ⟨i, rfl⟩⟩
    · rw [hne q hqp, (hother q hqp).1]
      exact h.some_iff q
  · rcases hcases q j hq with ⟨rfl, rfl⟩ | ⟨hqp, hq⟩
    · rcases hcases r k hr with ⟨rfl, -⟩ | ⟨hrp, hr⟩
      · rfl
      · exact absurd hs.symm (hone r k hrp hr)
    · rcases hcases r k hr with ⟨rfl, rfl⟩ | ⟨-, hr⟩
      · exact absurd hs (hone q j hqp hq)
      · exact h.one q r j k hq hr hs
  · rcases hcases q j hq with ⟨rfl, rfl⟩ | ⟨hqp, hq⟩
    · exact hcnt
    · rw [(hother q hqp).1]
      exact h.openCnt q j hq
  · rcases hcases q j hq with ⟨rfl, rfl⟩ | ⟨hqp, hq⟩
    · exact hdeny
    · rw [(hother q hqp).2]
      exact h.denyWriteCnt q j hq
  · rcases hcases q j hq with ⟨rfl, rfl⟩ | ⟨-, hq⟩
    · exact hremoved
    · exact h.removed q j hq
  · by_cases hqp : q = p
    · rw [hqp]
      exact hle
    · rw [(hother q hqp).1, (hother q hqp).2]
      exact h.deny_le q
  · rw [(hother q (by omega)).1]
    exact h.fresh q (hbrk.trans hq)

theorem Table.recount (hp : σ.inodes p = some j) (hinodes : σ'.inodes = update σ.inodes p (some i))
    (hbrk : σ'.brk = σ.brk) (hopen : σ'.openInodes = σ.openInodes) (hsector : i.sector = j.sector)
    (hother : ∀ q, q ≠ p → cnt' q = cnt q ∧ deny' q = deny q) (hcnt : i.openCnt = cnt' p)
    (hdeny : i.denyWriteCnt = deny' p) (hremoved : i.removed = true → kept p) (hpos : 0 < cnt' p)
    (hle : deny' p ≤ cnt' p) : Table kept cnt' deny' σ' := by
  have hlisted := (h.mem_iff p).mpr ((h.some_iff p).mp ⟨j, hp⟩)
  refine h.set hinodes hbrk.ge ?_ ?_ (fun q => ?_) hother (fun q k hqp hq hs => hqp ?_) hcnt hdeny
    hremoved hpos hle
  · rw [hbrk]
    exact h.lt_brk ((h.some_iff p).mp ⟨j, hp⟩)
  · rw [hopen]
    exact h.nodup
  · rw [hopen]
    exact ⟨.inr, fun hq => hq.elim (fun heq => heq ▸ hlisted) id⟩
  · exact h.one q p k j hq hp (hs.trans hsector)

theorem Table.free (hinodes : σ'.inodes = update σ.inodes p none) (hbrk : σ'.brk = σ.brk)
    (hopen : σ'.openInodes = σ.openInodes.erase p) (hother : ∀ q, q ≠ p → cnt' q = cnt q)
    (hzero : cnt' p = 0) (hdeny : deny p = 0) : Table kept cnt' deny σ' := by
  have hself : σ'.inodes p = none := by rw [hinodes, update_self]
  have hold : ∀ q k, σ'.inodes q = some k → q ≠ p ∧ σ.inodes q = some k := fun q k hq =>
    Slots.of_update_none (hinodes ▸ hq)
  refine ⟨hopen ▸ h.nodup.erase p, fun q => ?_, fun q => ?_, fun q r k l hq hr => ?_,
    fun q k hq => ?_, fun q k hq => ?_, fun q k hq => ?_, fun q => ?_, fun q hq => ?_⟩
  · rw [hopen, h.nodup.mem_erase_iff]
    by_cases hqp : q = p
    · simp [hqp, hzero]
    · simp [hqp, hother q hqp, h.mem_iff]
  · by_cases hqp : q = p
    · simp [hqp, hself, hzero]
    · rw [hinodes, update_of_ne hqp, hother q hqp]
      exact h.some_iff q
  · exact h.one q r k l (hold q k hq).2 (hold r l hr).2
  · rw [hother q (hold q k hq).1]
    exact h.openCnt q k (hold q k hq).2
  · exact h.denyWriteCnt q k (hold q k hq).2
  · exact h.removed q k (hold q k hq).2
  · by_cases hqp : q = p
    · rw [hqp, hdeny]
      exact Nat.zero_le _
    · rw [hother q hqp]
      exact h.deny_le q
  · by_cases hqp : q = p
    · rw [hqp, hzero]
    · rw [hother q hqp]
      exact h.fresh q (hbrk ▸ hq)

end

theorem TableOnly.of_update (hp : σ.inodes p = some j) (hsector : i.sector = j.sector) :
    TableOnly σ { σ with inodes := update σ.inodes p (some i) } := by
  refine ⟨rfl, le_rfl, fun q k l hk hl => ?_⟩
  rcases Slots.of_update_some hl with ⟨rfl, rfl⟩ | ⟨-, hl⟩
  · rw [hp] at hk
    cases hk
    exact hsector
  · rw [hk] at hl
    cases hl
    rfl

theorem inodeReopen_table (h : Table kept cnt deny σ) (hp : 0 < cnt p) :
    Does (inodeReopen p) σ fun _ σ' =>
      Table kept (update cnt p (cnt p + 1)) deny σ' ∧ TableOnly σ σ' := by
  obtain ⟨i, hi⟩ := (h.some_iff p).mpr hp
  have hle := h.deny_le p
  refine (getInode_does hi).bind fun k τ hk => ?_
  obtain ⟨rfl, rfl⟩ := hk
  rw [setInode, does_modify]
  refine ⟨h.recount hi rfl rfl rfl rfl (fun q hqp => ⟨update_of_ne hqp _ cnt, rfl⟩) ?_
    (h.denyWriteCnt p k hi) (h.removed p k hi) ?_ ?_, .of_update hi rfl⟩
  · rw [update_self]
    rw [h.openCnt p k hi]
    push_cast
    rfl
  · rw [update_self]
    omega
  · rw [update_self]
    omega

theorem findInode_none {ps : List ℕ} (h : findInode σ sector ps = none)
    (hps : ∀ p ∈ ps, ∃ i, σ.inodes p = some i) (hp : p ∈ ps) (hi : σ.inodes p = some i) :
    i.sector ≠ sector := by
  induction ps with
  | nil => cases hp
  | cons q ps ih =>
    obtain ⟨k, hk⟩ := hps q mem_cons_self
    rw [findInode, hk] at h
    dsimp only at h
    split_ifs at h with hs
    rcases mem_cons.mp hp with rfl | hp
    · rw [hk] at hi
      cases hi
      exact hs
    · exact ih h (fun r hr => hps r (mem_cons_of_mem q hr)) hp

section

variable (h : Table kept cnt deny σ)

include h

theorem inodeOpen_table (sector : ℕ) :
    Does (inodeOpen sector) σ fun p σ' => Table kept (update cnt p (cnt p + 1)) deny σ' ∧
      TableOnly σ σ' ∧ ∃ i, σ'.inodes p = some i ∧ i.sector = sector := by
  rw [inodeOpen, does_bind, does_get]
  cases hfind : findInode σ sector σ.openInodes with
  | some r =>
    obtain ⟨p, i⟩ := r
    obtain ⟨hi, hsector⟩ := findInode_some hfind
    refine (inodeReopen_table h ((h.some_iff p).mp ⟨i, hi⟩)).bind fun _ τ hτ => ?_
    obtain ⟨htable, honly⟩ := hτ
    have hpos : 0 < update cnt p (cnt p + 1) p := by
      rw [update_self]
      omega
    obtain ⟨j, hj⟩ := (htable.some_iff p).mpr hpos
    exact does_pure.mpr ⟨htable, honly, j, hj, (honly.sector p i j hi hj).trans hsector⟩
  | none =>
    have hfresh := h.fresh σ.brk le_rfl
    have hdeny : deny σ.brk = 0 := by
      have := h.deny_le σ.brk
      omega
    have hnone : ∀ j, σ.inodes σ.brk ≠ some j := fun j hj => by
      have := (h.some_iff σ.brk).mp ⟨j, hj⟩
      omega
    rw [does_bind, does_modify, does_bind, setInode, does_modify, does_pure]
    refine ⟨h.set rfl (Nat.le_succ _) (Nat.lt_succ_self _) ?_ (fun q => mem_cons)
      (fun q hqp => ⟨update_of_ne hqp _ cnt, rfl⟩) (fun q j _ hq => ?_) ?_ ?_ (by simp) ?_ ?_,
      ⟨rfl, Nat.le_succ _, ?_⟩, _, update_self .., rfl⟩
    · refine nodup_cons.mpr ⟨fun hm => ?_, h.nodup⟩
      have := (h.mem_iff σ.brk).mp hm
      omega
    · have hopen := (h.mem_iff q).mpr ((h.some_iff q).mp ⟨j, hq⟩)
      exact findInode_none hfind (fun r hr => (h.some_iff r).mpr ((h.mem_iff r).mp hr)) hopen hq
    · rw [update_self, hfresh]
      rfl
    · rw [hdeny]
      rfl
    · rw [update_self]
      omega
    · rw [hdeny]
      exact Nat.zero_le _
    · intro q j k hj hk
      rcases Slots.of_update_some hk with ⟨rfl, -⟩ | ⟨-, hk⟩
      · exact absurd hj (hnone j)
      · rw [hj] at hk
        cases hk
        rfl

theorem inodeClose_table (hp : deny p < cnt p) (hkept : kept p → 1 < cnt p) :
    Does (inodeClose p) σ fun _ σ' =>
      Table kept (update cnt p (cnt p - 1)) deny σ' ∧ TableOnly σ σ' := by
  obtain ⟨i, hi⟩ := (h.some_iff p).mpr (by omega)
  have hopenCnt := h.openCnt p i hi
  refine (getInode_does hi).bind fun k τ hk => ?_
  obtain ⟨rfl, rfl⟩ := hk
  dsimp only
  rw [does_bind, setInode, does_modify]
  split_ifs with hlast hr
  · have := hkept (h.removed p k hi hr)
    omega
  · rw [does_bind, does_modify, does_modify]
    rw [update_idem]
    refine ⟨h.free rfl rfl rfl (fun q hqp => update_of_ne hqp _ cnt) ?_ ?_,
      rfl, le_rfl, fun q j l hj hl => ?_⟩
    · rw [update_self]
      omega
    · omega
    · rw [(Slots.of_update_none hl).2] at hj
      cases hj
      rfl
  · rw [does_pure]
    refine ⟨h.recount hi rfl rfl rfl rfl (fun q hqp => ⟨update_of_ne hqp _ cnt, rfl⟩) ?_
      (h.denyWriteCnt p k hi) (h.removed p k hi) ?_ ?_, .of_update hi rfl⟩
    · rw [update_self]
      dsimp only
      omega
    · rw [update_self]
      omega
    · rw [update_self]
      omega

theorem Table.setDeny (hi : σ.inodes p = some i) {n : ℕ} {d : ℤ} (hle : n ≤ cnt p) (hd : d = n)
    (hσ : σ' = { σ with inodes := update σ.inodes p (some { i with denyWriteCnt := d }) }) :
    Table kept cnt (update deny p n) σ' ∧ TableOnly σ σ' := by
  subst hσ
  refine ⟨h.recount hi rfl rfl rfl rfl (fun q hqp => ⟨rfl, update_of_ne hqp _ deny⟩)
    (h.openCnt p i hi) ?_ (h.removed p i hi) ((h.some_iff p).mp ⟨i, hi⟩) ?_, .of_update hi rfl⟩
  · rw [update_self]
    exact hd
  · rwa [update_self]

theorem inodeDenyWrite_table (hp : deny p < cnt p) (hint : cnt p < 2 ^ 31) :
    Does (inodeDenyWrite p) σ fun _ σ' =>
      Table kept cnt (update deny p (deny p + 1)) σ' ∧ TableOnly σ σ' := by
  obtain ⟨i, hi⟩ := (h.some_iff p).mpr (by omega)
  have hopenCnt := h.openCnt p i hi
  have hdeny := h.denyWriteCnt p i hi
  refine (getInode_does hi).bind fun k τ hk => ?_
  obtain ⟨rfl, rfl⟩ := hk
  have hwidth : (k.denyWriteCnt + 1).bmod (2 ^ 32) = k.denyWriteCnt + 1 :=
    Int.bmod_eq_of_le_mul_two (by omega) (by omega)
  dsimp only
  rw [hwidth, does_bind, setInode, does_modify, if_pos (by omega), does_pure]
  exact h.setDeny hi (by omega) (by omega) rfl

theorem inodeAllowWrite_table (hp : 0 < deny p) :
    Does (inodeAllowWrite p) σ fun _ σ' =>
      Table kept cnt (update deny p (deny p - 1)) σ' ∧ TableOnly σ σ' := by
  have hle := h.deny_le p
  obtain ⟨i, hi⟩ := (h.some_iff p).mpr (by omega)
  have hopenCnt := h.openCnt p i hi
  have hdeny := h.denyWriteCnt p i hi
  refine (getInode_does hi).bind fun k τ hk => ?_
  obtain ⟨rfl, rfl⟩ := hk
  rw [if_pos (by omega), setInode, does_modify]
  exact h.setDeny hi (by omega) (by omega) rfl

end

/-- The handles that are out: the pointers to inodes, once for each handle, and the open
files. -/
structure Handles where
  inodes : List ℕ
  files : List ℕ
  deriving DecidableEq, Repr

namespace Handles

variable {H : Handles} {files files' : ℕ → Option File} {file : File}

def filesOn (H : Handles) (files : ℕ → Option File) (p : ℕ) : ℕ :=
  H.files.countP fun f => (files f).any fun file => file.inode = p

def denying (H : Handles) (files : ℕ → Option File) (p : ℕ) : ℕ :=
  H.files.countP fun f => (files f).any fun file => file.inode = p ∧ file.denyWrite

def onInode (H : Handles) (files : ℕ → Option File) (p : ℕ) : ℕ :=
  H.inodes.count p + H.filesOn files p

def addInode (H : Handles) (p : ℕ) : Handles :=
  { H with inodes := p :: H.inodes }

def dropInode (H : Handles) (p : ℕ) : Handles :=
  { H with inodes := H.inodes.erase p }

def addFile (H : Handles) (f : ℕ) : Handles :=
  { H with files := f :: H.files }

def dropFile (H : Handles) (f : ℕ) : Handles :=
  { H with files := H.files.erase f }

theorem denying_le_filesOn (H : Handles) (files : ℕ → Option File) (p : ℕ) :
    H.denying files p ≤ H.filesOn files p := by
  refine countP_mono_left fun f _ hf => ?_
  cases hfile : files f with
  | none =>
    rw [hfile] at hf
    cases hf
  | some file =>
    rw [hfile] at hf
    simp only [Option.any_some, decide_eq_true_eq] at hf ⊢
    exact hf.1

theorem onInode_addInode (p : ℕ) :
    (H.addInode p).onInode files = update (H.onInode files) p (H.onInode files p + 1) := by
  funext q
  have hfiles : (H.addInode p).filesOn files q = H.filesOn files q := rfl
  rw [onInode, hfiles, addInode]
  by_cases hqp : q = p
  · rw [hqp, update_self, count_cons_self, onInode]
    omega
  · rw [update_of_ne hqp, count_cons_of_ne (Ne.symm hqp), onInode]

theorem onInode_dropInode (hp : p ∈ H.inodes) :
    (H.dropInode p).onInode files = update (H.onInode files) p (H.onInode files p - 1) := by
  have hpos := count_pos_iff.mpr hp
  funext q
  have hfiles : (H.dropInode p).filesOn files q = H.filesOn files q := rfl
  rw [onInode, hfiles, dropInode]
  by_cases hqp : q = p
  · rw [hqp, update_self, count_erase_self, onInode]
    omega
  · rw [update_of_ne hqp, count_erase_of_ne hqp, onInode]

theorem denying_lt_of_mem (hp : p ∈ H.inodes) (files : ℕ → Option File) :
    H.denying files p < H.onInode files p := by
  have hpos := count_pos_iff.mpr hp
  have hle := H.denying_le_filesOn files p
  unfold onInode
  omega

theorem counts_congr (h : ∀ g ∈ H.files, files' g = files g) :
    H.onInode files' = H.onInode files ∧ H.denying files' = H.denying files := by
  constructor
  · funext p
    unfold onInode filesOn
    rw [countP_congr fun g hg => by rw [h g hg]]
  · funext p
    exact countP_congr fun g hg => by rw [h g hg]

theorem counts_dropFile (hf : f ∈ H.files) (hfile : files f = some file) (p : ℕ) :
    H.onInode files p = (H.dropFile f).onInode files p + (if file.inode = p then 1 else 0) ∧
      H.denying files p = (H.dropFile f).denying files p +
        if file.inode = p ∧ file.denyWrite then 1 else 0 := by
  have hperm := perm_cons_erase hf
  constructor
  · unfold onInode filesOn
    rw [hperm.countP_eq, countP_cons, hfile]
    simp only [Option.any_some, decide_eq_true_eq]
    exact (Nat.add_assoc _ _ _).symm
  · unfold denying
    rw [hperm.countP_eq, countP_cons, hfile]
    simp only [Option.any_some, decide_eq_true_eq]
    rfl

theorem counts_addFile (hfile : files f = some file) (p : ℕ) :
    (H.addFile f).onInode files p = H.onInode files p + (if file.inode = p then 1 else 0) ∧
      (H.addFile f).denying files p = H.denying files p +
        if file.inode = p ∧ file.denyWrite then 1 else 0 := by
  unfold onInode filesOn denying addFile
  rw [countP_cons, countP_cons, hfile]
  simp only [Option.any_some, decide_eq_true_eq]
  exact ⟨(Nat.add_assoc _ _ _).symm, trivial⟩

end Handles

/-- Fewer than 2³¹ handles of every inode are out. -/
def Few (s : Handles × Fs) : Prop :=
  ∀ p ∈ s.2.openInodes, s.1.onInode s.2.files p < 2 ^ 31

instance (s : Handles × Fs) : Decidable (Few s) :=
  inferInstanceAs (Decidable (∀ p ∈ s.2.openInodes, s.1.onInode s.2.files p < 2 ^ 31))

/-- The table counts exactly the handles that are out, and the open files are those in
memory. -/
structure Counted (H : Handles) (σ : Fs) : Prop where
  table : Table (fun _ => False) (H.onInode σ.files) (H.denying σ.files) σ
  files_nodup : H.files.Nodup
  files_iff : ∀ f, f ∈ H.files ↔ ∃ file, σ.files f = some file
  files_lt : ∀ f ∈ H.files, f < σ.brk

section

variable {H H' : Handles} {file : File}

theorem Counted.of_inodes (h : Counted H σ) (hfiles : H'.files = H.files) (honly : TableOnly σ σ')
    (ht : Table (fun _ => False) (H'.onInode σ.files) (H'.denying σ.files) σ') : Counted H' σ' := by
  have hsame : σ'.files = σ.files := by rw [honly.rest]
  refine ⟨by rw [hsame]; exact ht, hfiles ▸ h.files_nodup, fun f => ?_, fun f hf => ?_⟩
  · rw [hfiles, hsame]
    exact h.files_iff f
  · rw [hfiles] at hf
    exact (h.files_lt f hf).trans_le honly.brk

theorem Table.of_eq (h : Table kept cnt deny σ) (hinodes : σ'.inodes = σ.inodes)
    (hopen : σ'.openInodes = σ.openInodes) (hbrk : σ.brk ≤ σ'.brk) : Table kept cnt deny σ' := by
  refine ⟨hopen ▸ h.nodup, hopen ▸ h.mem_iff, hinodes ▸ h.some_iff, hinodes ▸ h.one,
    hinodes ▸ h.openCnt, hinodes ▸ h.denyWriteCnt, hinodes ▸ h.removed, h.deny_le,
    fun p hp => h.fresh p (hbrk.trans hp)⟩

theorem getFile_does (hf : σ.files f = some file) :
    Does (getFile f) σ fun r σ' => r = file ∧ σ' = σ :=
  ⟨file, σ, by change (σ.files f).map _ = _; rw [hf]; rfl, rfl, rfl⟩

theorem setFile_does :
    Does (setFile f file) σ fun _ σ' =>
      σ' = { σ with files := update σ.files f (some file) } :=
  does_modify.mpr rfl

section

variable (h : Counted H σ)

include h

theorem inodeReopen_counted (hp : 0 < H.onInode σ.files p) :
    Does (inodeReopen p) σ fun _ σ' => Counted (H.addInode p) σ' := by
  refine (inodeReopen_table h.table hp).mono fun _ σ' hσ' => h.of_inodes rfl hσ'.2 ?_
  rw [Handles.onInode_addInode]
  exact hσ'.1

theorem tryInodeOpen_counted (malloc : Bool) (sector : ℕ) :
    Does (tryInodeOpen malloc sector) σ fun o σ' => Counted (o.elim H H.addInode) σ' := by
  rw [tryInodeOpen, does_bind, does_get]
  split_ifs with hnone
  · exact does_pure.mpr h
  · refine (inodeOpen_table h.table sector).bind fun p τ hτ => does_pure.mpr ?_
    refine h.of_inodes rfl hτ.2.1 ?_
    rw [Option.elim_some, Handles.onInode_addInode]
    exact hτ.1

theorem inodeClose_counted (hp : p ∈ H.inodes) :
    Does (inodeClose p) σ fun _ σ' => Counted (H.dropInode p) σ' := by
  refine (inodeClose_table h.table (H.denying_lt_of_mem hp _) nofun).mono fun _ σ' hσ' =>
    h.of_inodes rfl hσ'.2 ?_
  rw [Handles.onInode_dropInode hp]
  exact hσ'.1

theorem Counted.addFile (hp : p ∈ H.inodes)
    (hfiles : σ'.files = update σ.files σ.brk (some ⟨p, 0, false⟩))
    (hinodes : σ'.inodes = σ.inodes) (hopen : σ'.openInodes = σ.openInodes)
    (hbrk : σ'.brk = σ.brk + 1) : Counted ((H.dropInode p).addFile σ.brk) σ' := by
  have hfresh : σ.brk ∉ H.files := fun hm => absurd (h.files_lt _ hm) (lt_irrefl _)
  have hself : σ'.files σ.brk = some ⟨p, 0, false⟩ := by rw [hfiles, update_self]
  have hother : ∀ g, g ≠ σ.brk → σ'.files g = σ.files g := fun g hg => by
    rw [hfiles, update_of_ne hg]
  obtain ⟨hon, hden⟩ := (H.dropInode p).counts_congr fun g hg =>
    hother g fun heq => hfresh (heq ▸ hg)
  have hpos := H.denying_lt_of_mem hp σ.files
  refine ⟨?_, nodup_cons.mpr ⟨hfresh, h.files_nodup⟩, fun g => ?_, fun g hg => ?_⟩
  · have hcnt : ((H.dropInode p).addFile σ.brk).onInode σ'.files = H.onInode σ.files := by
      funext q
      rw [(Handles.counts_addFile hself q).1, hon, Handles.onInode_dropInode hp]
      by_cases hqp : q = p
      · rw [hqp, update_self, if_pos rfl]
        omega
      · rw [update_of_ne hqp, if_neg (Ne.symm hqp), Nat.add_zero]
    have hdeny : ((H.dropInode p).addFile σ.brk).denying σ'.files = H.denying σ.files := by
      funext q
      rw [(Handles.counts_addFile hself q).2, hden, if_neg (by simp), Nat.add_zero]
      rfl
    rw [hcnt, hdeny]
    exact h.table.of_eq hinodes hopen (by omega)
  · by_cases hg : g = σ.brk
    · rw [hg, hself]
      exact ⟨fun _ => ⟨_, rfl⟩, fun _ => mem_cons_self⟩
    · rw [hother g hg, ← h.files_iff]
      exact ⟨fun hm => (mem_cons.mp hm).resolve_left hg, mem_cons_of_mem _⟩
  · have hlt : g ≤ σ.brk := by
      rcases mem_cons.mp hg with rfl | hg
      · exact le_rfl
      · exact (h.files_lt g hg).le
    omega

theorem tryFileOpen_counted (hp : p ∈ H.inodes) (calloc : Bool) :
    Does (tryFileOpen calloc p) σ fun o σ' =>
      Counted (o.elim (H.dropInode p) (H.dropInode p).addFile) σ' := by
  unfold tryFileOpen
  cases calloc with
  | false => exact (inodeClose_counted h hp).bind fun _ τ hτ => does_pure.mpr hτ
  | true =>
    rw [if_pos rfl, does_bind, fileOpen, does_bind, does_get, does_bind, does_modify, does_bind,
      setFile, does_modify, does_pure, does_pure]
    exact h.addFile hp rfl rfl rfl rfl

theorem fileReopen_counted (hf : f ∈ H.files) (calloc : Bool) :
    Does (fileReopen calloc f) σ fun o σ' => Counted (o.elim H H.addFile) σ' := by
  obtain ⟨file, hfile⟩ := (h.files_iff f).mp hf
  have hpos : 0 < H.onInode σ.files file.inode := by
    rw [(Handles.counts_dropFile hf hfile file.inode).1, if_pos rfl]
    exact Nat.succ_pos _
  have hback : (H.addInode file.inode).dropInode file.inode = H := by
    unfold Handles.addInode Handles.dropInode
    rw [erase_cons_head]
  refine (getFile_does hfile).bind fun r τ hr => ?_
  obtain ⟨rfl, rfl⟩ := hr
  refine (inodeReopen_counted h hpos).bind fun _ υ hυ => ?_
  have := tryFileOpen_counted hυ mem_cons_self calloc
  rwa [hback] at this

theorem Counted.dropFile (hfiles : σ'.files = update σ.files f none)
    (hbrk : σ.brk ≤ σ'.brk) (ht : Table (fun _ => False) ((H.dropFile f).onInode σ.files)
      ((H.dropFile f).denying σ.files) σ') : Counted (H.dropFile f) σ' := by
  have hnot : f ∉ H.files.erase f := h.files_nodup.not_mem_erase
  have hother : ∀ g, g ≠ f → σ'.files g = σ.files g := fun g hg => by
    rw [hfiles, update_of_ne hg]
  obtain ⟨hon, hden⟩ := (H.dropFile f).counts_congr fun g hg =>
    hother g fun heq => hnot (heq ▸ hg)
  refine ⟨?_, h.files_nodup.erase f, fun g => ?_, fun g hg => ?_⟩
  · rw [hon, hden]
    exact ht
  · unfold Handles.dropFile
    rw [h.files_nodup.mem_erase_iff]
    by_cases hg : g = f
    · rw [hg, hfiles, update_self]
      simp
    · rw [hother g hg, ← h.files_iff]
      exact ⟨fun hm => hm.2, fun hm => ⟨hg, hm⟩⟩
  · exact (h.files_lt g (mem_of_mem_erase hg)).trans_le hbrk

end

theorem fileClose_eq (f : ℕ) :
    fileClose f = getFile f >>= fun file =>
      (if file.denyWrite then inodeAllowWrite file.inode else pure ()) >>= fun _ =>
        inodeClose file.inode >>= fun _ =>
          modify fun σ => { σ with files := update σ.files f none } := by
  unfold fileClose inodeAllowWrite
  congr
  funext file
  split
  · rw [bind_assoc]
    refine bind_congr fun i => ?_
    split <;> rfl
  · rfl

variable (h : Counted H σ) (hf : f ∈ H.files)

include h hf

theorem allow_table (hfile : σ.files f = some file) :
    Does (if file.denyWrite then inodeAllowWrite file.inode else pure ()) σ fun _ σ' =>
      Table (fun _ => False) (H.onInode σ.files) ((H.dropFile f).denying σ.files) σ' ∧
        TableOnly σ σ' := by
  have hsplit := Handles.counts_dropFile hf hfile
  split_ifs with hd
  · have hpos : 0 < H.denying σ.files file.inode := by
      rw [(hsplit file.inode).2, if_pos ⟨rfl, hd⟩]
      exact Nat.succ_pos _
    have hdeny : update (H.denying σ.files) file.inode
        (H.denying σ.files file.inode - 1) = (H.dropFile f).denying σ.files := by
      funext q
      by_cases hq : q = file.inode
      · rw [hq, update_self, (hsplit file.inode).2, if_pos ⟨rfl, hd⟩, Nat.add_sub_cancel]
      · rw [update_of_ne hq, (hsplit q).2, if_neg fun hh => hq hh.1.symm, Nat.add_zero]
    rw [← hdeny]
    exact inodeAllowWrite_table h.table hpos
  · have hdeny : H.denying σ.files = (H.dropFile f).denying σ.files := by
      funext q
      rw [(hsplit q).2, if_neg fun hh => hd hh.2, Nat.add_zero]
    rw [← hdeny]
    exact does_pure.mpr ⟨h.table, rfl, le_rfl, fun p i j hi hj => by
      rw [hi] at hj
      cases hj
      rfl⟩

theorem fileClose_counted : Does (fileClose f) σ fun _ σ' => Counted (H.dropFile f) σ' := by
  obtain ⟨file, hfile⟩ := (h.files_iff f).mp hf
  have hsplit := Handles.counts_dropFile hf hfile
  have hlt : (H.dropFile f).denying σ.files file.inode < H.onInode σ.files file.inode := by
    have hle := (H.dropFile f).denying_le_filesOn σ.files file.inode
    rw [(hsplit file.inode).1, if_pos rfl]
    unfold Handles.onInode
    omega
  have hcnt : update (H.onInode σ.files) file.inode
      (H.onInode σ.files file.inode - 1) = (H.dropFile f).onInode σ.files := by
    funext q
    by_cases hq : q = file.inode
    · rw [hq, update_self, (hsplit file.inode).1, if_pos rfl, Nat.add_sub_cancel]
    · rw [update_of_ne hq, (hsplit q).1, if_neg (Ne.symm hq), Nat.add_zero]
  rw [fileClose_eq]
  refine (getFile_does hfile).bind fun r τ hr => ?_
  obtain ⟨rfl, rfl⟩ := hr
  refine (allow_table h hf hfile).bind fun _ υ hυ => ?_
  refine (inodeClose_table hυ.1 hlt nofun).bind fun _ ρ hρ => does_modify.mpr ?_
  have hfiles : ρ.files = τ.files := by rw [hρ.2.rest, hυ.2.rest]
  have htable := hρ.1
  rw [hcnt] at htable
  refine h.dropFile ?_ (hυ.2.brk.trans hρ.2.brk) (htable.of_eq rfl rfl le_rfl)
  rw [hfiles]

theorem Counted.setFlag (hfile : σ.files f = some file) {b : Bool}
    (hfiles : σ'.files = update σ.files f (some { file with denyWrite := b }))
    (hbrk : σ.brk ≤ σ'.brk) (ht : Table (fun _ => False) (H.onInode σ.files) deny σ')
    (hdeny : ∀ q, deny q = (H.dropFile f).denying σ.files q +
      if file.inode = q ∧ b then 1 else 0) : Counted H σ' := by
  have hself : σ'.files f = some { file with denyWrite := b } := by
    rw [hfiles, update_self]
  have hother : ∀ g, g ≠ f → σ'.files g = σ.files g := fun g hg => by
    rw [hfiles, update_of_ne hg]
  obtain ⟨hon, hden⟩ := (H.dropFile f).counts_congr fun g hg =>
    hother g fun heq => h.files_nodup.not_mem_erase (heq ▸ hg)
  have hcnt : H.onInode σ'.files = H.onInode σ.files := by
    funext q
    rw [(Handles.counts_dropFile hf hself q).1, hon, (Handles.counts_dropFile hf hfile q).1]
  have hdeny' : H.denying σ'.files = deny := by
    funext q
    rw [(Handles.counts_dropFile hf hself q).2, hden, hdeny]
  refine ⟨by rw [hcnt, hdeny']; exact ht, h.files_nodup, fun g => ?_, fun g hg =>
    (h.files_lt g hg).trans_le hbrk⟩
  by_cases hg : g = f
  · rw [hg, hself]
    exact ⟨fun _ => ⟨_, rfl⟩, fun _ => hf⟩
  · rw [hother g hg]
    exact h.files_iff g

theorem fileDenyWrite_counted (hfew : Few (H, σ)) :
    Does (fileDenyWrite f) σ fun _ σ' => Counted H σ' := by
  obtain ⟨file, hfile⟩ := (h.files_iff f).mp hf
  have hsplit := Handles.counts_dropFile hf hfile
  refine (getFile_does hfile).bind fun r τ hr => ?_
  obtain ⟨rfl, rfl⟩ := hr
  split_ifs with hd
  · exact does_pure.mpr h
  · have hlt : H.denying τ.files r.inode < H.onInode τ.files r.inode := by
      have hle := (H.dropFile f).denying_le_filesOn τ.files r.inode
      rw [(hsplit r.inode).1, (hsplit r.inode).2, if_pos rfl, if_neg fun hh => hd hh.2]
      unfold Handles.onInode
      omega
    refine setFile_does.bind fun _ υ hυ => ?_
    have htable := h.table.of_eq (by rw [hυ] : υ.inodes = _) (by rw [hυ]) (by rw [hυ])
    have hint := hfew r.inode ((h.table.mem_iff r.inode).mpr (Nat.zero_lt_of_lt hlt))
    refine (inodeDenyWrite_table htable hlt hint).mono fun _ σ' hσ' => ?_
    refine h.setFlag hf hfile (by rw [hσ'.2.rest, hυ]) ?_ hσ'.1 fun q => ?_
    · exact (le_of_eq (by rw [hυ])).trans hσ'.2.brk
    by_cases hq : q = r.inode
    · rw [hq, update_self, (hsplit r.inode).2, if_neg fun hh => hd hh.2, if_pos ⟨rfl, rfl⟩]
    · rw [update_of_ne hq, (hsplit q).2, if_neg fun hh => hd hh.2, if_neg fun hh => hq hh.1.symm]

theorem fileAllowWrite_counted : Does (fileAllowWrite f) σ fun _ σ' => Counted H σ' := by
  obtain ⟨file, hfile⟩ := (h.files_iff f).mp hf
  have hsplit := Handles.counts_dropFile hf hfile
  refine (getFile_does hfile).bind fun r τ hr => ?_
  obtain ⟨rfl, rfl⟩ := hr
  split_ifs with hd
  · have hpos : 0 < H.denying τ.files r.inode := by
      rw [(hsplit r.inode).2, if_pos ⟨rfl, hd⟩]
      exact Nat.succ_pos _
    refine setFile_does.bind fun _ υ hυ => ?_
    have htable := h.table.of_eq (by rw [hυ] : υ.inodes = _) (by rw [hυ]) (by rw [hυ])
    refine (inodeAllowWrite_table htable hpos).mono fun _ σ' hσ' => ?_
    refine h.setFlag hf hfile (by rw [hσ'.2.rest, hυ]) ?_ hσ'.1 fun q => ?_
    · exact (le_of_eq (by rw [hυ])).trans hσ'.2.brk
    rw [if_neg fun hh => absurd hh.2 (by decide), Nat.add_zero]
    by_cases hq : q = r.inode
    · rw [hq, update_self, (hsplit r.inode).2, if_pos ⟨rfl, hd⟩, Nat.add_sub_cancel]
    · rw [update_of_ne hq, (hsplit q).2, if_neg fun hh => hq hh.1.symm, Nat.add_zero]
  · exact does_pure.mpr h

end

/-- The counters as they are stored, in an `int`. -/
def Inode.narrow (i : Inode) : Inode :=
  { i with openCnt := i.openCnt.bmod (2 ^ 32), denyWriteCnt := i.denyWriteCnt.bmod (2 ^ 32) }

/-- It is enough to do this after each call: what a call compares is what was stored before it, or
zero. -/
def Fs.narrow (σ : Fs) : Fs :=
  { σ with inodes := fun p => (σ.inodes p).map Inode.narrow }

theorem Fs.narrow_inodes (σ : Fs) (p : ℕ) : σ.narrow.inodes p = (σ.inodes p).map Inode.narrow :=
  rfl

/-- A call.  A pointer may be null where the function allows it, and a flag says whether
memory is left where the function allocates. -/
inductive HandleCall where
  | inodeOpen (malloc : Bool) (sector : ℕ)
  | inodeReopen (p : Option ℕ)
  | inodeClose (p : Option ℕ)
  | fileOpen (calloc : Bool) (p : Option ℕ)
  | fileReopen (calloc : Bool) (f : ℕ)
  | fileClose (f : Option ℕ)
  | fileDenyWrite (f : ℕ)
  | fileAllowWrite (f : ℕ)
  deriving DecidableEq, Repr

namespace HandleCall

def exec (H : Handles) : HandleCall → Op Handles
  | inodeOpen malloc sector => do
    let o ← tryInodeOpen malloc sector
    return o.elim H H.addInode
  | inodeReopen none => return H
  | inodeReopen (some p) => do
    Filesys.inodeReopen p
    return H.addInode p
  | inodeClose none => return H
  | inodeClose (some p) => do
    Filesys.inodeClose p
    return H.dropInode p
  | fileOpen _ none => return H
  | fileOpen calloc (some p) => do
    let o ← tryFileOpen calloc p
    return o.elim (H.dropInode p) (H.dropInode p).addFile
  | fileReopen calloc f => do
    let o ← Filesys.fileReopen calloc f
    return o.elim H H.addFile
  | fileClose none => return H
  | fileClose (some f) => do
    Filesys.fileClose f
    return H.dropFile f
  | fileDenyWrite f => do
    Filesys.fileDenyWrite f
    return H
  | fileAllowWrite f => do
    Filesys.fileAllowWrite f
    return H

/-- The call uses a handle that is out.  An inode may also be reopened through a file
that is open on it. -/
def Legal (H : Handles) (σ : Fs) : HandleCall → Prop
  | inodeReopen (some p) => 0 < H.onInode σ.files p
  | inodeClose (some p) => p ∈ H.inodes
  | fileOpen _ (some p) => p ∈ H.inodes
  | fileReopen _ f => f ∈ H.files
  | fileClose (some f) => f ∈ H.files
  | fileDenyWrite f => f ∈ H.files
  | fileAllowWrite f => f ∈ H.files
  | _ => True

instance (H : Handles) (σ : Fs) : ∀ c : HandleCall, Decidable (c.Legal H σ)
  | inodeOpen _ _ => isTrue trivial
  | inodeReopen none => isTrue trivial
  | inodeReopen (some p) => inferInstanceAs (Decidable (0 < H.onInode σ.files p))
  | inodeClose none => isTrue trivial
  | inodeClose (some p) => inferInstanceAs (Decidable (p ∈ H.inodes))
  | fileOpen _ none => isTrue trivial
  | fileOpen _ (some p) => inferInstanceAs (Decidable (p ∈ H.inodes))
  | fileReopen _ f => inferInstanceAs (Decidable (f ∈ H.files))
  | fileClose none => isTrue trivial
  | fileClose (some f) => inferInstanceAs (Decidable (f ∈ H.files))
  | fileDenyWrite f => inferInstanceAs (Decidable (f ∈ H.files))
  | fileAllowWrite f => inferInstanceAs (Decidable (f ∈ H.files))

/-- One call that is legal; a failed assertion and the use of freed memory have no
result. -/
def step (s : Handles × Fs) (c : HandleCall) : Option (Handles × Fs) :=
  if c.Legal s.1 s.2 then ((c.exec s.1).run s.2).map fun r => (r.1, r.2.narrow) else none

theorem exec_counted {H : Handles} (h : Counted H σ) (hfew : Few (H, σ)) (c : HandleCall)
    (hc : c.Legal H σ) : Does (c.exec H) σ fun H' σ' => Counted H' σ' := by
  cases c with
  | inodeOpen malloc sector =>
    exact (tryInodeOpen_counted h malloc sector).bind fun _ _ ho => does_pure.mpr ho
  | inodeReopen p =>
    cases p with
    | none => exact does_pure.mpr h
    | some p => exact (inodeReopen_counted h hc).bind fun _ _ hτ => does_pure.mpr hτ
  | inodeClose p =>
    cases p with
    | none => exact does_pure.mpr h
    | some p => exact (inodeClose_counted h hc).bind fun _ _ hτ => does_pure.mpr hτ
  | fileOpen calloc p =>
    cases p with
    | none => exact does_pure.mpr h
    | some p => exact (tryFileOpen_counted h hc calloc).bind fun _ _ hτ => does_pure.mpr hτ
  | fileReopen calloc f =>
    exact (fileReopen_counted h hc calloc).bind fun _ _ hτ => does_pure.mpr hτ
  | fileClose f =>
    cases f with
    | none => exact does_pure.mpr h
    | some f => exact (fileClose_counted h hc).bind fun _ _ hτ => does_pure.mpr hτ
  | fileDenyWrite f =>
    exact (fileDenyWrite_counted h hc hfew).bind fun _ _ hτ => does_pure.mpr hτ
  | fileAllowWrite f => exact (fileAllowWrite_counted h hc).bind fun _ _ hτ => does_pure.mpr hτ

/-- A call comes from a state in which the handles are counted without a bound. -/
theorem step_counted {s s' : Handles × Fs} {c : HandleCall} (h : Counted s.1 s.2)
    (hfew : Few s) (hs : step s c = some s') : ∃ τ, Counted s'.1 τ ∧ s'.2 = τ.narrow := by
  obtain ⟨hc, hr⟩ := Option.ite_none_right_eq_some.mp hs
  obtain ⟨⟨H, τ⟩, hrun, rfl⟩ := Option.map_eq_some_iff.mp hr
  exact ⟨τ, (exec_counted h hfew c hc).ensures _ _ hrun, rfl⟩

end HandleCall

/-- No inode and no file is open, as after `inode_init`. -/
structure Fs.NothingOpen (σ : Fs) : Prop where
  openInodes : σ.openInodes = []
  inodes : ∀ p, σ.inodes p = none
  files : ∀ f, σ.files f = none

theorem Fs.NothingOpen.counted (h : σ.NothingOpen) : Counted ⟨[], []⟩ σ := by
  have hnone : ∀ p i, σ.inodes p ≠ some i := fun p i hi => by
    rw [h.inodes p] at hi
    cases hi
  refine ⟨⟨?_, fun p => ?_, fun p => ?_, fun p q i j hi => absurd hi (hnone p i),
    fun p i hi => absurd hi (hnone p i), fun p i hi => absurd hi (hnone p i),
    fun p i hi => absurd hi (hnone p i), fun p => le_rfl, fun p _ => rfl⟩,
    nodup_nil, fun f => ?_, nofun⟩
  · rw [h.openInodes]
    exact nodup_nil
  · rw [h.openInodes]
    exact ⟨nofun, nofun⟩
  · exact ⟨fun ⟨i, hi⟩ => absurd hi (hnone p i), nofun⟩
  · rw [h.files f]
    exact ⟨nofun, nofun⟩

/-- The table of open inodes counts exactly the handles `H`. -/
structure TableExact (H : Handles) (σ : Fs) : Prop where
  nodup : σ.openInodes.Nodup
  one_per_sector : ∀ p ∈ σ.openInodes, ∀ q ∈ σ.openInodes,
    (σ.inodes p).map Inode.sector = (σ.inodes q).map Inode.sector → p = q
  listed_iff : ∀ p, p ∈ σ.openInodes ↔ 0 < H.onInode σ.files p
  counts : ∀ p ∈ σ.openInodes, ∃ i, σ.inodes p = some i ∧
    i.openCnt = H.onInode σ.files p ∧ i.denyWriteCnt = H.denying σ.files p

theorem Counted.tableExact {H : Handles} (h : Counted H σ) : TableExact H σ := by
  have hsome : ∀ p ∈ σ.openInodes, ∃ i, σ.inodes p = some i := fun p hp =>
    (h.table.some_iff p).mpr ((h.table.mem_iff p).mp hp)
  refine ⟨h.table.nodup, fun p hp q hq heq => ?_, h.table.mem_iff, fun p hp => ?_⟩
  · obtain ⟨i, hi⟩ := hsome p hp
    obtain ⟨j, hj⟩ := hsome q hq
    rw [hi, hj] at heq
    exact h.table.one p q i j hi hj (Option.some.inj heq)
  · obtain ⟨i, hi⟩ := hsome p hp
    exact ⟨i, hi, h.table.openCnt p i hi, h.table.denyWriteCnt p i hi⟩

theorem Counted.narrow {H : Handles} (h : Counted H σ) (hfew : Few (H, σ.narrow)) :
    σ.narrow = σ := by
  have hinodes : σ.narrow.inodes = σ.inodes := by
    funext p
    rw [Fs.narrow_inodes]
    cases hp : σ.inodes p with
    | none => rfl
    | some i =>
      have hmem := (h.table.mem_iff p).mpr ((h.table.some_iff p).mp ⟨i, hp⟩)
      have hlt : H.onInode σ.files p < 2 ^ 31 := hfew p hmem
      have hopen := h.table.openCnt p i hp
      have hdeny := h.table.denyWriteCnt p i hp
      have hle := h.table.deny_le p
      rw [Option.map_some, Inode.narrow, Int.bmod_eq_of_le_mul_two (by omega) (by omega),
        Int.bmod_eq_of_le_mul_two (by omega) (by omega)]
  change { σ with inodes := σ.narrow.inodes } = σ
  rw [hinodes]

/-- A counter that is an `int` does not equal a number beyond it. -/
theorem TableExact.few {H : Handles} (h : TableExact H σ.narrow) : Few (H, σ.narrow) := by
  intro p hp
  obtain ⟨i, hi, hopen, -⟩ := h.counts p hp
  obtain ⟨j, -, rfl⟩ := Option.map_eq_some_iff.mp hi
  have hlt := Int.bmod_lt (x := j.openCnt) (m := 2 ^ 32) (by decide)
  dsimp only [Inode.narrow] at hopen ⊢
  omega

/-- The table counts the handles that are out, and no legal call fails an assertion. -/
def Exact (s : Handles × Fs) : Prop :=
  TableExact s.1 s.2 ∧ ∀ c : HandleCall, c.Legal s.1 s.2 → (HandleCall.step s c).isSome

theorem Counted.exact {s : Handles × Fs} (h : Counted s.1 s.2) (hfew : Few s) : Exact s := by
  refine ⟨h.tableExact, fun c hc => ?_⟩
  obtain ⟨H', σ', hrun, -⟩ := HandleCall.exec_counted h hfew c hc
  rw [HandleCall.step, if_pos hc, hrun]
  rfl

/-- In every state of a sequence of legal calls the table is exact, if and only if there are
always fewer handles of one inode than an `int` can count. -/
theorem run_tableExact {σ₀ : Fs} (h : σ₀.NothingOpen) (calls : List HandleCall) :
    Run.Always HandleCall.step Exact (⟨[], []⟩, σ₀) calls ↔
      Run.Always HandleCall.step Few (⟨[], []⟩, σ₀) calls := by
  have hfew : Few (⟨[], []⟩, σ₀) := by
    intro p hp
    rw [h.openInodes] at hp
    cases hp
  have hcounted := h.counted
  -- the counts are exact up to the first state with too many handles
  suffices hrun : ∀ s : Handles × Fs, Counted s.1 s.2 → Few s →
      (Run.Always HandleCall.step Exact s calls ↔ Run.Always HandleCall.step Few s calls) from
    hrun _ hcounted hfew
  clear hcounted hfew
  induction calls with
  | nil => exact fun s hs hfew => iff_of_true (hs.exact hfew) hfew
  | cons c calls ih =>
    intro s hs hfew
    have hnext : ∀ s', HandleCall.step s c = some s' → (Run.Always HandleCall.step Exact s' calls ↔
        Run.Always HandleCall.step Few s' calls) := by
      intro s' hs'
      obtain ⟨τ, hτ, hnarrow⟩ := HandleCall.step_counted hs hfew hs'
      obtain ⟨H', σ'⟩ := s'
      obtain rfl : σ' = τ.narrow := hnarrow
      by_cases hfew' : Few (H', τ.narrow)
      · refine ih _ ?_ hfew'
        rw [hτ.narrow hfew']
        exact hτ
      · exact iff_of_false (fun hall => hfew' hall.head.1.few) fun hall => hfew' hall.head
    exact ⟨fun hall => ⟨hfew, fun s' hs' => (hnext s' hs').mp (hall.2 s' hs')⟩,
      fun hall => ⟨hs.exact hfew, fun s' hs' => (hnext s' hs').mpr (hall.2 s' hs')⟩⟩

/-- Two files on sector 7, one of which denies writes, and a call that finds no memory. -/
def sharedCalls : List HandleCall :=
  [.inodeOpen true 7, .fileOpen true (some 0), .fileReopen true 1, .fileDenyWrite 2,
    .inodeOpen false 7, .inodeOpen false 8, .inodeClose (some 0), .fileClose (some 1)]

theorem run_tableExact_shared :
    (Run.run HandleCall.step (⟨[], []⟩, blank 16 (fun _ _ => 0) fun _ _ => 0) sharedCalls).map
        (fun s => (s.1, s.2.inodes 0)) = some (⟨[], [2]⟩, some ⟨7, 1, false, 1⟩) ∧
      Run.Always HandleCall.step Exact (⟨[], []⟩, blank 16 (fun _ _ => 0) fun _ _ => 0)
        sharedCalls :=
  ⟨by decide +kernel,
    (run_tableExact ⟨rfl, fun _ => rfl, fun _ => rfl⟩ sharedCalls).mpr (by decide +kernel)⟩

/-- A blank device with one open inode. -/
def withInode (i : Inode) : Fs :=
  { blank 16 (fun _ _ => 0) fun _ _ => 0 with
    inodes := update (fun _ => none) 0 (some i)
    brk := 1
    openInodes := [0] }

theorem withInode_narrow (i : Inode) : (withInode i).narrow = withInode i.narrow := by
  have hinodes : (withInode i).narrow.inodes = (withInode i.narrow).inodes := by
    funext p
    rw [Fs.narrow_inodes]
    by_cases hp : p = 0
    · subst hp
      rfl
    · have hnone : ∀ j, (withInode j).inodes p = none := by
        intro j
        change update (fun _ => none) 0 (some j) p = none
        rw [update_of_ne hp]
      rw [hnone, hnone]
      rfl
  change { withInode i with inodes := (withInode i).narrow.inodes } = _
  rw [hinodes]
  rfl

/-- The inode on sector 7, opened once and reopened `n` times. -/
def reopened (n : ℕ) : Handles × Fs :=
  (⟨replicate (n + 1) 0, []⟩, withInode (Inode.narrow ⟨7, n + 1, false, 0⟩))

theorem step_reopened (n : ℕ) :
    HandleCall.step (reopened n) (.inodeReopen (some 0)) = some (reopened (n + 1)) := by
  have hlegal : (HandleCall.inodeReopen (some 0)).Legal (reopened n).1 (reopened n).2 := by
    change 0 < (replicate (n + 1) 0).count 0 + 0
    rw [count_replicate_self]
    omega
  have hrun : ∀ i : Inode, (inodeReopen 0).run (withInode i) =
      some ((), withInode { i with openCnt := i.openCnt + 1 }) := by
    intro i
    have hset : ∀ j, { withInode i with inodes := update (withInode i).inodes 0 (some j) } =
        withInode j := by
      intro j
      unfold withInode
      rw [update_idem]
    obtain ⟨k, τ, hget, rfl, rfl⟩ := getInode_does (show (withInode i).inodes 0 = some i from rfl)
    exact run_bind_eq_some.mpr ⟨k, _, hget, congrArg (fun σ => some ((), σ)) (hset _)⟩
  have hexec : ((HandleCall.inodeReopen (some 0)).exec (reopened n).1).run (reopened n).2 =
      some ((reopened n).1.addInode 0, withInode _) :=
    run_bind_eq_some.mpr ⟨(), _, hrun _, rfl⟩
  rw [HandleCall.step, if_pos hlegal, hexec, Option.map_some, withInode_narrow]
  refine congrArg some (Prod.ext rfl (congrArg withInode ?_))
  simp only [Inode.narrow, Int.bmod_add_bmod]
  push_cast
  rfl

theorem run_reopened (n k : ℕ) :
    Run.run HandleCall.step (reopened k) (replicate n (.inodeReopen (some 0))) =
      some (reopened (k + n)) := by
  induction n generalizing k with
  | zero => rfl
  | succ n ih => rw [replicate_succ, Run.run_cons, step_reopened, Option.bind_some, ih,
      Nat.add_right_comm, Nat.add_assoc]

theorem reopened_openCnt (n : ℕ) :
    ((reopened n).2.inodes 0).map Inode.openCnt = some (((n : ℤ) + 1).bmod (2 ^ 32)) := by
  simp only [reopened, withInode, update_self, Option.map_some, Inode.narrow]

theorem not_tableExact_reopened {n : ℕ} (hn : ((n : ℤ) + 1).bmod (2 ^ 32) ≠ n + 1) :
    ¬ TableExact (reopened n).1 (reopened n).2 := by
  intro h
  obtain ⟨i, hi, hopen, -⟩ := h.counts 0 (mem_singleton.mpr rfl)
  have hcount : (reopened n).1.onInode (reopened n).2.files 0 = n + 1 := count_replicate_self
  have hcnt := reopened_openCnt n
  rw [hi, Option.map_some, hopen, hcount, Option.some.injEq] at hcnt
  exact hn (hcnt.symm.trans (Nat.cast_succ n))

/-- 2³¹ handles of one inode. -/
theorem run_not_tableExact :
    ∃ s, Run.run HandleCall.step (⟨[], []⟩, blank 16 (fun _ _ => 0) fun _ _ => 0)
        (.inodeOpen true 7 :: replicate (2 ^ 31 - 1) (.inodeReopen (some 0))) = some s ∧
      (s.2.inodes 0).map Inode.openCnt = some (-2 ^ 31) ∧ ¬ TableExact s.1 s.2 := by
  have hfirst : HandleCall.step (⟨[], []⟩, blank 16 (fun _ _ => 0) fun _ _ => 0)
      (.inodeOpen true 7) = some (reopened 0) :=
    congrArg (fun σ => some ((⟨[0], []⟩ : Handles), σ)) (withInode_narrow ⟨7, 1, false, 0⟩)
  refine ⟨reopened (2 ^ 31 - 1), ?_, ?_, not_tableExact_reopened (by decide)⟩
  · rw [Run.run_cons, hfirst, Option.bind_some, run_reopened, Nat.zero_add]
  · rw [reopened_openCnt]
    decide

end CS162.Filesys
