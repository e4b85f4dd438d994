import CS162.Filesys.Lookup
import CS162.Filesys.Mounted

/-!
# The life of a file

A file is created, used through handles and removed.  No call takes the mark of its inode's
sector away again: `inode_deallocate` does not release it, and is not even called, because
`filesys_remove` keeps the reference that `dir_lookup` gave it.
-/

namespace CS162.Filesys

open Option Function List DirEntry

open Prog

variable {held : ℕ → ℤ} {σ σ' τ : Fs} {s f p : ℕ} {hs : List ℕ} {file : File}

/-- Sectors that are marked stay marked. -/
def Stays (σ σ' : Fs) : Prop :=
  ∀ s, σ.freeMap s = true → σ'.freeMap s = true

theorem Stays.trans (h : Stays σ τ) (h' : Stays τ σ') : Stays σ σ' :=
  fun s hs => h' s (h s hs)

theorem Kept.stays (h : Kept held σ σ') : Stays σ σ' :=
  fun s hs => by rw [h.freeMap]; exact hs

theorem filesysCreate_stays (h : Refs held σ) (hheld : 0 ≤ held) (hc : σ.cache.Coherent)
    (name : CString) (length : ℕ) :
    Ensures (filesysCreate name length) σ fun ok σ' => ok = true → Refs held σ' ∧
      σ'.cache.Coherent ∧ ∃ s, σ.freeMap s = false ∧ σ'.freeMap s = true := by
  refine (parsePath_ensures h hheld name).bind fun o τ hτ => ?_
  cases o with
  | none => exact ensures_pure.mpr (by simp)
  | some r =>
    obtain ⟨dir, basename⟩ := r
    have hrefs : Refs (held + ref dir) τ := hτ.1
    have hcoh := hτ.2.coherent hc
    refine (freeMapAllocate_ensures 1 τ).bind fun o υ hυ => ?_
    cases o with
    | none =>
      have hrefs := hrefs.of_marks hυ.1
      exact (inodeClose_ref hrefs hheld).bind fun _ _ _ => ensures_pure.mpr (by simp)
    | some s =>
      obtain ⟨hfree, hused⟩ := hυ.2 s rfl 0 Nat.zero_lt_one
      rw [hτ.2.freeMap] at hfree
      have hentry : Within Marks (do
          if ← inodeCreate s length then dirAdd dir basename s else return false) :=
        (inodeCreate_marks s length).bind fun ok =>
          within_ite (dirAdd_marks _ _ _) (within_pure _)
      refine (hentry υ).bind fun ok ρ hρ => ?_
      have hmarks : Marks τ ρ := IsTrans.trans _ _ _ hυ.1 hρ
      have hrefs := hrefs.of_marks hmarks
      cases ok with
      | false =>
        refine ensures_ite (fun _ => ?_) fun _ => ?_
        · refine (freeMapRelease_ensures s 1 ρ).bind fun _ ω hω => ?_
          have hrefs : Refs (held + ref dir) ω := hrefs.of_eq (by rw [hω.rest]) (by rw [hω.rest])
          exact (inodeClose_ref hrefs hheld).bind fun _ _ _ => ensures_pure.mpr (by simp)
        · exact (inodeClose_ref hrefs hheld).bind fun _ _ _ => ensures_pure.mpr (by simp)
      | true =>
        rw [if_neg (by simp)]
        refine (inodeClose_ref hrefs hheld).bind fun _ σ' hσ' => ?_
        refine ensures_pure.mpr fun _ => ⟨hσ'.1, ?_, s, hfree, ?_⟩
        · exact hσ'.2.coherent (hmarks.coherent hcoh)
        · rw [hσ'.2.freeMap]
          exact hρ.used s hused

/-- What a program does with a file by name and by handle. -/
inductive Use where
  | openFile
  | read (f size : ℕ)
  | write (f : ℕ) (data : List UInt8)
  | seek (f pos : ℕ)
  | close (f : ℕ)
  deriving DecidableEq, Repr

def Use.run (name : CString) (handles : List ℕ) : Use → Op (List ℕ)
  | .openFile => do
    match ← filesysOpen name with
    | some f => return f :: handles
    | none => return handles
  | .read f size => do
    if f ∈ handles then
      let _ ← fileRead f size
      return handles
    else
      failure
  | .write f data => do
    if f ∈ handles then
      let _ ← fileWrite f (Block.ofList data)
      return handles
    else
      failure
  | .seek f pos => do
    if f ∈ handles then
      fileSeek f pos
      return handles
    else
      failure
  | .close f => do
    if f ∈ handles then
      fileClose f
      return handles.erase f
    else
      failure

def useAll (name : CString) : List ℕ → List Use → Op (List ℕ)
  | handles, [] => return handles
  | handles, u :: us => do
    let handles ← u.run name handles
    useAll name handles us

def Fs.inodeOf (σ : Fs) (f : ℕ) : Option ℕ :=
  (σ.files f).map File.inode

def Fs.handleRefs (σ : Fs) (hs : List ℕ) : ℕ → ℤ :=
  (hs.map fun f => optRef (σ.inodeOf f)).sum

/-- The handles are open and hold their references. -/
structure Session (held : ℕ → ℤ) (hs : List ℕ) (σ : Fs) : Prop where
  coherent : σ.cache.Coherent
  refs : Refs (held + σ.handleRefs hs) σ
  nodup : hs.Nodup
  lt : ∀ f ∈ hs, f < σ.brk

theorem handleRefs_cons (σ : Fs) (f : ℕ) (hs : List ℕ) :
    σ.handleRefs (f :: hs) = optRef (σ.inodeOf f) + σ.handleRefs hs :=
  sum_cons

theorem handleRefs_erase (hf : f ∈ hs) :
    σ.handleRefs hs = σ.handleRefs (hs.erase f) + optRef (σ.inodeOf f) := by
  rw [add_comm, ← handleRefs_cons]
  exact ((perm_cons_erase hf).map _).sum_eq

theorem handleRefs_congr (h : ∀ f ∈ hs, σ'.inodeOf f = σ.inodeOf f) :
    σ'.handleRefs hs = σ.handleRefs hs := by
  unfold Fs.handleRefs
  rw [map_congr_left fun f hf => by rw [h f hf]]

theorem handleRefs_nonneg (σ : Fs) (hs : List ℕ) : 0 ≤ σ.handleRefs hs := by
  induction hs with
  | nil => exact le_rfl
  | cons f hs ih =>
    rw [handleRefs_cons]
    exact add_nonneg (optRef_nonneg _) ih

theorem Session.of_eq (h : Session held hs σ) (hcoh : σ'.cache.Coherent)
    (hinodes : σ'.inodes = σ.inodes) (hbrk : σ.brk ≤ σ'.brk)
    (hfiles : ∀ f ∈ hs, σ'.inodeOf f = σ.inodeOf f) : Session held hs σ' where
  coherent := hcoh
  refs := by
    rw [handleRefs_congr hfiles]
    exact h.refs.of_eq hinodes hbrk
  nodup := h.nodup
  lt f hf := (h.lt f hf).trans_le hbrk

theorem Session.of_marks (h : Session held hs σ) (hm : Marks σ σ') : Session held hs σ' := by
  refine h.of_eq (hm.coherent h.coherent) (by rw [hm.rest]) (by rw [hm.rest]) fun f _ => ?_
  rw [hm.rest]
  rfl

theorem inodeOf_self {o : Option File} (h : σ'.files = update σ.files f o) :
    σ'.inodeOf f = o.map File.inode := by
  unfold Fs.inodeOf
  rw [h, update_self]

theorem inodeOf_of_ne {o : Option File} {g : ℕ} (h : σ'.files = update σ.files f o)
    (hg : g ≠ f) : σ'.inodeOf g = σ.inodeOf g := by
  unfold Fs.inodeOf
  rw [h, update_of_ne hg]

section

variable (h : Session held hs σ)

include h

theorem Session.setFile (hf : σ.files f = some file) (pos : ℕ) :
    Session held hs
      { σ with files := update σ.files f (some { file with pos := pos }) } := by
  refine h.of_eq h.coherent rfl le_rfl fun g _ => ?_
  by_cases hgf : g = f
  · rw [hgf, inodeOf_self rfl, Fs.inodeOf, hf]
    rfl
  · exact inodeOf_of_ne rfl hgf

theorem Session.openFile (hrefs : Refs (held + σ.handleRefs hs + ref file.inode) σ) :
    Session held (σ.brk :: hs)
      { σ with brk := σ.brk + 1, files := update σ.files σ.brk (some file) } := by
  have hnew : σ.brk ∉ hs := fun hmem => lt_irrefl _ (h.lt _ hmem)
  refine ⟨h.coherent, ?_, nodup_cons.mpr ⟨hnew, h.nodup⟩, fun f hf => ?_⟩
  · rw [handleRefs_cons, inodeOf_self rfl, handleRefs_congr fun f hf =>
      inodeOf_of_ne rfl (ne_of_mem_of_not_mem hf hnew), add_comm (optRef _), ← add_assoc]
    exact hrefs.of_eq rfl (Nat.le_succ _)
  · rcases mem_cons.mp hf with rfl | hf
    · exact Nat.lt_succ_self _
    · exact (h.lt f hf).trans (Nat.lt_succ_self _)

theorem Session.of_kept (hrefs : Refs (held + σ.handleRefs hs) τ)
    (hkept : Kept (held + σ.handleRefs hs) σ τ) : Session held hs τ := by
  have hfiles : τ.handleRefs hs = σ.handleRefs hs :=
    handleRefs_congr fun f _ => congrArg (fun files => (files f).map File.inode) hkept.files
  refine ⟨hkept.coherent h.coherent, ?_, h.nodup, fun f hf => (h.lt f hf).trans_le hkept.brk⟩
  rwa [hfiles]

theorem filesysOpen_session (hheld : 0 ≤ held) (name : CString) :
    Ensures (filesysOpen name) σ fun o σ' =>
      Stays σ σ' ∧ Session held (match o with | some f => f :: hs | none => hs) σ' := by
  have hall : 0 ≤ held + σ.handleRefs hs := add_nonneg hheld (handleRefs_nonneg σ hs)
  refine (parsePath_ensures h.refs hall name).bind fun o τ hτ => ?_
  obtain ⟨hrefs, hkept⟩ := hτ
  cases o with
  | none =>
    rw [map_none, optRef, add_zero] at hrefs
    exact ensures_pure.mpr ⟨hkept.stays, h.of_kept hrefs hkept⟩
  | some r =>
    obtain ⟨dir, basename⟩ := r
    refine (dirLookup_ensures hrefs dir basename).bind fun o υ hυ => ?_
    have hkept := hkept.trans (hυ.2.mono (le_add_ref _ _))
    have hrefs := hυ.1
    rw [add_right_comm] at hrefs
    refine (inodeClose_ref hrefs (add_nonneg hall (optRef_nonneg o))).bind fun _ ρ hρ => ?_
    have hle : held + σ.handleRefs hs ≤ held + σ.handleRefs hs + optRef o :=
      le_add_of_nonneg_right (optRef_nonneg o)
    have hkept := hkept.trans (hρ.2.mono hle)
    have hsession := h.of_kept (hρ.1.mono hle) hkept
    cases o with
    | none => exact ensures_pure.mpr ⟨hkept.stays, hsession⟩
    | some p =>
      -- the new handle keeps the reference that `dir_lookup` has given
      dsimp only [fileOpen]
      rw [ensures_bind, ensures_bind, ensures_get, ensures_bind, ensures_modify,
        ensures_bind, setFile, ensures_modify, ensures_pure, ensures_pure]
      have hfiles : ρ.handleRefs hs = σ.handleRefs hs :=
        handleRefs_congr fun f _ =>
          congrArg (fun files => (files f).map File.inode) hkept.files
      refine ⟨hkept.stays, hsession.openFile ?_⟩
      rw [hfiles]
      exact hρ.1

theorem Session.refs_erase (hf : f ∈ hs) (hfile : σ.files f = some file) :
    Refs (held + σ.handleRefs (hs.erase f) + ref file.inode) σ := by
  have hinode : σ.inodeOf f = some file.inode := by
    rw [Fs.inodeOf, hfile, map_some]
  have hrefs := h.refs
  rw [handleRefs_erase hf, hinode, ← add_assoc] at hrefs
  exact hrefs

theorem fileClose_session (hheld : 0 ≤ held) (hf : f ∈ hs) :
    Ensures (fileClose f) σ fun _ σ' => Stays σ σ' ∧ Session held (hs.erase f) σ' := by
  have hpos : 0 ≤ held + σ.handleRefs (hs.erase f) := add_nonneg hheld (handleRefs_nonneg σ _)
  have hnot : f ∉ hs.erase f := h.nodup.not_mem_erase
  refine (getFile_ensures f σ).bind fun file τ hτ => ?_
  obtain ⟨hfile, hτ⟩ := hτ
  rw [hτ]
  have hrefs := h.refs_erase hf hfile
  -- the part after `file_allow_write`, which does not matter for the references
  have hclose : ∀ υ : Fs, Refs (held + σ.handleRefs (hs.erase f) + ref file.inode) υ →
      υ.cache = σ.cache → υ.freeMap = σ.freeMap → υ.files = σ.files → υ.brk = σ.brk →
      Ensures (do
        inodeClose file.inode
        modify fun σ => { σ with files := update σ.files f none }) υ
        fun _ σ' => Stays σ σ' ∧ Session held (hs.erase f) σ' := by
    intro υ hυ hcache hmap hfiles hbrk
    have hcoh : υ.cache.Coherent := by
      rw [hcache]
      exact h.coherent
    refine (inodeClose_ref hυ hpos).bind fun _ ρ hρ => ?_
    have hupd : update ρ.files f none = update σ.files f none := by
      rw [hρ.2.files, hfiles]
    refine ensures_modify.mpr ⟨?_, hρ.2.coherent hcoh, ?_, h.nodup.erase f, fun g hg => ?_⟩
    · intro s hs
      rw [hρ.2.freeMap, hmap]
      exact hs
    · rw [handleRefs_congr fun g hg => inodeOf_of_ne hupd (ne_of_mem_of_not_mem hg hnot)]
      exact hρ.1.of_eq rfl le_rfl
    · have hlt := h.lt g (mem_of_mem_erase hg)
      rw [← hbrk] at hlt
      exact hlt.trans_le hρ.2.brk
  refine ensures_ite (fun _ => ?_) fun _ => hclose σ hrefs rfl rfl rfl rfl
  refine (getInode_ensures file.inode σ).bind fun i τ' hi => ?_
  obtain ⟨hi, hτ'⟩ := hi
  rw [hτ']
  refine ensures_ite (fun _ => ?_) fun _ => ?_
  · rw [ensures_bind, setInode, ensures_modify]
    refine hclose _ (hrefs.set rfl le_rfl ?_ (fun _ _ => le_rfl) (hrefs.cnt _ i hi)
      (hrefs.removed _ i hi)) rfl rfl rfl rfl
    by_contra hle
    rw [hrefs.fresh _ (Nat.le_of_not_lt hle)] at hi
    cases hi
  · exact ensures_bind.mpr ensures_failure

theorem use_session (hheld : 0 ≤ held) (name : CString) (u : Use) :
    Ensures (u.run name hs) σ fun hs' σ' => Stays σ σ' ∧ Session held hs' σ' := by
  cases u with
  | openFile =>
    refine (filesysOpen_session h hheld name).bind fun o τ hτ => ?_
    cases o with
    | none => exact ensures_pure.mpr hτ
    | some f => exact ensures_pure.mpr hτ
  | read f size =>
    refine ensures_ite (fun _ => ?_) fun _ => ensures_failure
    rw [ensures_bind]
    refine (getFile_ensures f σ).bind fun file τ hτ => ?_
    obtain ⟨hfile, hτ⟩ := hτ
    rw [hτ]
    refine (within_marks (inodeReadAt_reads _ _ _) σ).bind fun bytes υ hυ => ?_
    have hfile : υ.files f = some file := by
      rw [hυ.rest]
      exact hfile
    rw [ensures_bind, setFile, ensures_modify, ensures_pure, ensures_pure]
    exact ⟨hυ.used, (h.of_marks hυ).setFile hfile _⟩
  | write f data =>
    refine ensures_ite (fun _ => ?_) fun _ => ensures_failure
    rw [ensures_bind]
    refine (getFile_ensures f σ).bind fun file τ hτ => ?_
    obtain ⟨hfile, hτ⟩ := hτ
    rw [hτ]
    refine (inodeWriteAt_marks (freeMapAllocate_marks 1) _ _ _ σ).bind fun n υ hυ => ?_
    have hfile : υ.files f = some file := by
      rw [hυ.rest]
      exact hfile
    rw [ensures_bind, setFile, ensures_modify, ensures_pure, ensures_pure]
    exact ⟨hυ.used, (h.of_marks hυ).setFile hfile _⟩
  | seek f pos =>
    refine ensures_ite (fun _ => ?_) fun _ => ensures_failure
    rw [ensures_bind]
    refine (getFile_ensures f σ).bind fun file τ hτ => ?_
    obtain ⟨hfile, hτ⟩ := hτ
    rw [hτ, setFile, ensures_modify, ensures_pure]
    exact ⟨fun _ => id, h.setFile hfile pos⟩
  | close f =>
    refine ensures_ite (fun hf => ?_) fun _ => ensures_failure
    refine (fileClose_session h hheld hf).bind fun _ τ hτ => ensures_pure.mpr hτ

end

theorem useAll_session (hheld : 0 ≤ held) (name : CString) (us : List Use) (h : Session held hs σ) :
    Ensures (useAll name hs us) σ fun hs' σ' => Stays σ σ' ∧ Session held hs' σ' := by
  induction us generalizing hs σ with
  | nil => exact ensures_pure.mpr ⟨fun _ => id, h⟩
  | cons u us ih =>
    refine (use_session h hheld name u).bind fun hs' τ hτ => ?_
    refine (ih hτ.2).mono fun hs'' σ' hσ' => ⟨hτ.1.trans hσ'.1, hσ'.2⟩

theorem inodeOpen_found {sector : ℕ} {i : Inode}
    (h : findInode σ sector σ.openInodes = some (p, i)) :
    Ensures (inodeOpen sector) σ fun q _ => q = p := by
  rw [inodeOpen, ensures_bind, ensures_get, h]
  exact ensures_bind.mpr fun _ _ _ => ensures_pure.mpr rfl

theorem removable_reads (h : Refs held σ) (hp : 0 < held p) :
    Ensures (removable p) σ fun ok σ' => ok = true → Reads σ σ' := by
  refine (getInode_reads p σ).bind fun i τ hτ => ?_
  refine (inodeIsdir_reads i τ).bind fun isDir υ hυ => ?_
  have hread : Reads σ υ := IsTrans.trans _ _ _ hτ hυ
  refine ensures_ite (fun _ => ?_) fun _ => ensures_pure.mpr fun _ => hread
  have hloop : ∀ fuel pos, Within Reads (readdirLoop p pos fuel) := by
    intro fuel
    induction fuel with
    | zero => exact fun _ => within_failure
    | succ fuel ih =>
      intro pos
      refine (inodeReadAt_reads _ _ _).bind fun e => within_ite ?_ (within_pure _)
      exact within_ite (ih _) (within_ite (within_pure _) (ih _))
  refine (hloop _ _ υ).bind fun o ρ hρ => ?_
  cases o with
  | some name =>
    refine ensures_bind.mpr fun _ _ _ => ensures_pure.mpr ?_
    simp
  | none =>
    have hrefs : Refs held ρ := h.of_marks (IsTrans.trans _ _ _ hread hρ).marks
    refine (getInode_ensures p ρ).bind fun j ω hj => ?_
    have hcnt : 0 < j.openCnt := hp.trans_le (hrefs.cnt p j hj.1)
    dsimp only [inodeIsdepend]
    rw [ensures_bind, ensures_bind]
    intro contained _ _
    refine ensures_pure.mpr (ensures_bind.mpr fun _ _ _ => ensures_pure.mpr ?_)
    simp [hcnt]

theorem dirRemove_stays {dir ofs : ℕ} {e : DirEntry} {i : Inode} (name : CString) (hheld : 0 ≤ held)
    (h : Refs (held + ref p) σ) (hlookup : Ensures (lookup dir name) σ fun o _ => o = some (e, ofs))
    (hfind : findInode σ (inodeSector e) σ.openInodes = some (p, i)) :
    Ensures (dirRemove dir name) σ fun ok σ' => ok = true → Stays σ σ' ∧ Refs held σ' := by
  refine (ensures_and hlookup (lookup_reads dir name σ)).bind fun o τ hτ => ?_
  obtain ⟨rfl, hread⟩ := hτ
  have hrefs : Refs (held + ref p) τ := h.of_marks hread.marks
  have hfind : findInode τ (inodeSector e) τ.openInodes = some (p, i) := hread.findInode.trans hfind
  change Ensures ((inodeOpen (inodeSector e) >>= fun q => pure (some q)) >>= _) τ _
  rw [ensures_bind]
  refine (ensures_and (inodeOpen_found hfind) (inodeOpen_ensures hrefs _)).bind fun q υ hυ =>
    ensures_pure.mpr ?_
  obtain ⟨rfl, hrefs, hkept, -⟩ := hυ
  refine (inodeWriteAt_marks (freeMapAllocate_marks 1) _ _ _ υ).bind fun n ρ hρ => ?_
  have hrefs := hrefs.of_marks hρ
  have hstays : Stays σ ρ := fun s hs =>
    hρ.used s ((hkept 0).stays s (hread.marks.used s hs))
  refine ensures_ite (fun _ => ?_) fun _ => ?_
  · rw [ensures_bind]
    refine (getInode_ensures q ρ).bind fun j ω hj => ?_
    obtain ⟨hj, hω⟩ := hj
    rw [hω, setInode, ensures_modify]
    have hcnt := hrefs.cnt q j hj
    rw [Pi.add_apply, ref_self] at hcnt
    -- one of the two references is forgotten
    have hremoved : Refs (held + ref q) { ρ with
        inodes := update ρ.inodes q (some { j with removed := true }) } := by
      refine hrefs.set rfl le_rfl ?_ (fun t _ => le_add_ref _ q t) ?_ fun _ => ?_
      · by_contra hle
        rw [hrefs.fresh _ (Nat.le_of_not_lt hle)] at hj
        cases hj
      · dsimp only
        omega
      · dsimp only
        omega
    refine (inodeClose_ref hremoved hheld).bind fun _ σ' hσ' => ensures_pure.mpr fun _ => ?_
    refine ⟨fun s hs => ?_, hσ'.1⟩
    rw [hσ'.2.freeMap]
    exact hstays s hs
  · exact ensures_bind.mpr fun _ _ _ => ensures_pure.mpr (by simp)

theorem sameDir_of_kept {dir : ℕ} (h : Refs (held + ref dir) σ) (hheld : 0 ≤ held)
    (hc : σ.cache.Coherent) (hk : Kept (held + ref dir) σ τ) : SameDir dir σ τ := by
  refine ⟨hc, hk.coherent hc, (hk.view hc).symm, ?_⟩
  have hpos : 0 < (held + ref dir) dir := by
    have hp : 0 ≤ held dir := hheld dir
    rw [Pi.add_apply, ref_self]
    omega
  cases hi : σ.inodes dir with
  | none =>
    have := h.absent dir hi
    omega
  | some i =>
    obtain ⟨j, hj, hsector, -⟩ := hk.inodes dir i hpos hi
    rw [hj, map_some, map_some, hsector]

theorem filesysRemove_stays (h : Refs held σ) (hheld : 0 ≤ held) (hc : σ.cache.Coherent)
    (garbage : Bool) (name : CString) :
    Ensures (filesysRemove garbage name) σ fun ok σ' => ok = true → Stays σ σ' := by
  refine (parsePath_ensures h hheld name).bind fun o τ hτ => ?_
  obtain ⟨hrefs, hkept⟩ := hτ
  cases o with
  | none => exact ensures_pure.mpr (by simp)
  | some r =>
    obtain ⟨dir, basename⟩ := r
    have hcoh := hkept.coherent hc
    have hdir : 0 ≤ held + ref dir := add_nonneg hheld (ref_nonneg dir)
    rw [ensures_bind]
    refine (ensures_and (fun _ _ hr => hr) (lookup_reads dir basename τ)).bind fun o υ hυ => ?_
    obtain ⟨hrun, hread⟩ := hυ
    cases o with
    | none =>
      refine ensures_pure.mpr (ensures_bind.mpr fun _ _ _ => ensures_pure.mpr ?_)
      simp
    | some entry =>
      obtain ⟨e, ofs⟩ := entry
      have hrefs0 := hrefs
      have hrefs := hrefs.of_marks hread.marks
      refine (inodeOpen_ensures hrefs _).bind fun p ρ hρ => ?_
      obtain ⟨hrefs, hkept', i, hfind⟩ := hρ
      refine ensures_pure.mpr ?_
      have hpos : 0 < (held + ref dir + ref p) p := by
        have hp : 0 ≤ (held + ref dir) p := hdir p
        rw [Pi.add_apply _ (ref p), ref_self]
        omega
      refine (removable_reads hrefs hpos).bind fun ok ω hω => ?_
      cases ok with
      | false => exact ensures_bind.mpr fun _ _ _ => ensures_pure.mpr (by simp)
      | true =>
        have hread' : Reads ρ ω := hω rfl
        have hrefsω := hrefs.of_marks hread'.marks
        have hfind : findInode ω (inodeSector e) ω.openInodes = some (p, i) :=
          hread'.findInode.trans hfind
        have hsame : SameDir dir τ ω := sameDir_of_kept hrefs0 hheld hcoh
          ((hread.kept.trans (hkept' _)).trans hread'.kept)
        have hlookup : Ensures (lookup dir basename) ω fun o _ => o = some (e, ofs) :=
          fun o _ hr => ((lookup_agree basename τ ω hsame _ _ hrun) o _ hr).1.symm
        refine (dirRemove_stays basename hdir hrefsω hlookup hfind).bind fun ok ν hν => ?_
        cases ok with
        | false => exact ensures_bind.mpr fun _ _ _ => ensures_pure.mpr (by simp)
        | true =>
          obtain ⟨hstays, hrefsν⟩ := hν rfl
          refine (inodeClose_ref hrefsν hheld).bind fun _ σ' hσ' => ?_
          refine ensures_pure.mpr fun _ s hs => ?_
          rw [hσ'.2.freeMap]
          refine hstays s (hread'.marks.used s ?_)
          exact (hkept' 0).stays s (hread.marks.used s (hkept.stays s hs))

/-- A file that is created, used until every handle is closed, and removed leaves the
free map different from what it was. -/
theorem lifetime_freeMap_ne {σ₁ σ₂ σ₃ : Fs} (σ : Fs) (name : CString) (length : ℕ)
    (us : List Use) (garbage : Bool) (hc : σ.cache.Coherent) (hrefs : Refs 0 σ)
    (hcreate : (filesysCreate name length).run σ = some (true, σ₁))
    (huse : (useAll name [] us).run σ₁ = some ([], σ₂))
    (hremove : (filesysRemove garbage name).run σ₂ = some (true, σ₃)) :
    σ₃.freeMap ≠ σ.freeMap := by
  obtain ⟨hrefs1, hc1, s, hfree, hused⟩ :=
    filesysCreate_stays hrefs le_rfl hc name length true σ₁ hcreate rfl
  have hsession : Session 0 [] σ₁ := by
    refine ⟨hc1, ?_, nodup_nil, fun f hf => by cases hf⟩
    exact hrefs1
  obtain ⟨hstays, hsession2⟩ := useAll_session le_rfl name us hsession [] σ₂ huse
  have hrefs2 : Refs 0 σ₂ := hsession2.refs
  have hstays' := filesysRemove_stays hrefs2 le_rfl hsession2.coherent garbage name true σ₃
    hremove rfl
  intro heq
  have hmark := hstays' s (hstays s hused)
  rw [heq, hfree] at hmark
  cases hmark

def sampleUse : List Use :=
  [.openFile, .read 6 100, .write 6 [1, 2, 3], .close 6]

/-- A whole life on the formatted device of 16 sectors. -/
def sampleLife : Op (Bool × List ℕ × Bool) := do
  let created ← filesysCreate [97] 600
  let handles ← useAll [97] [] sampleUse
  let removed ← filesysRemove true [97]
  return (created, handles, removed)

theorem sampleLife_runs :
    ∃ σ₁ σ2 σ3, (filesysCreate [97] 600).run (mounted 16) = some (true, σ₁) ∧
      (useAll [97] [] sampleUse).run σ₁ = some ([], σ2) ∧
      (filesysRemove true [97]).run σ2 = some (true, σ3) ∧ σ3.freeMap 8 = true := by
  have hrun : (sampleLife.run (mounted 16)).map (fun r => (r.1, r.2.freeMap 8)) =
      some ((true, [], true), true) := by
    decide +kernel
  obtain ⟨⟨r, σ3⟩, hrun, heq⟩ := map_eq_some_iff.mp hrun
  obtain ⟨rfl, hused⟩ := Prod.mk.inj heq
  obtain ⟨created, σ₁, hcreate, hrun⟩ := run_bind_eq_some.mp hrun
  obtain ⟨handles, σ2, huse, hrun⟩ := run_bind_eq_some.mp hrun
  obtain ⟨removed, σ4, hremove, hrun⟩ := run_bind_eq_some.mp hrun
  cases hrun
  exact ⟨σ₁, σ2, σ3, hcreate, huse, hremove, hused⟩

theorem lifetime_freeMap_ne_sample :
    ∃ σ₁ σ₂ σ₃, (filesysCreate [97] 600).run (mounted 16) = some (true, σ₁) ∧
      (useAll [97] [] sampleUse).run σ₁ = some ([], σ₂) ∧
      (filesysRemove true [97]).run σ₂ = some (true, σ₃) ∧
      σ₃.freeMap ≠ (mounted 16).freeMap := by
  obtain ⟨σ₁, σ₂, σ₃, hcreate, huse, hremove, -⟩ := sampleLife_runs
  refine ⟨σ₁, σ₂, σ₃, hcreate, huse, hremove, ?_⟩
  exact lifetime_freeMap_ne (mounted 16) [97] 600 sampleUse true
    (Cache.init_sound _ _ _).coherent ((mounted_refs 16).mono (ref_nonneg 0)) hcreate huse hremove

/-- The sector of the inode is still marked when the file is gone. -/
theorem sampleLife_loses_sectors :
    ∃ σ₁ σ₂ σ₃, (filesysCreate [97] 600).run (mounted 16) = some (true, σ₁) ∧
      (useAll [97] [] sampleUse).run σ₁ = some ([], σ₂) ∧
      (filesysRemove true [97]).run σ₂ = some (true, σ₃) ∧
      (mounted 16).freeMap 8 = false ∧ σ₃.freeMap 8 = true := by
  obtain ⟨σ₁, σ₂, σ₃, hcreate, huse, hremove, hused⟩ := sampleLife_runs
  exact ⟨σ₁, σ₂, σ₃, hcreate, huse, hremove, rfl, hused⟩

end CS162.Filesys
