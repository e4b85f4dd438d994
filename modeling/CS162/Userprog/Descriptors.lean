import CS162.Filesys.Mounted
import CS162.Userprog.Confined

/-!
# The open files of a process

`file_list` and `next_fd` over any sequence of system calls.  A call adds an entry at the end
with the next descriptor, takes the first entry with a descriptor out, or leaves the table as
it is; `TableMoves` says so of the handler as a whole.
-/

namespace CS162.Userprog

open Filesys Halt List

/-- The open files of the process and the next descriptor. -/
@[grind] def Machine.table (m : Machine) : List Fnode × BitVec 32 :=
  (m.fileList, m.nextFd)

/-- The program does not change the table. -/
abbrev Quiet {α : Type} (x : Sys α) : Prop :=
  Spares Machine.table x

variable {m m' m'' u : Machine}

@[grind ←] theorem fsOp_quiet {α : Type} (x : Op α) : Quiet (fsOp x) := by
  grind [fsOp]

@[grind ←] theorem setEax_quiet (v : BitVec 32) : Quiet (setEax v) :=
  fun _ => rfl

@[grind ←] theorem load_quiet (a : ℕ) : Quiet (load a) := by
  grind [load, touch]

@[grind ←] theorem store_quiet (a : ℕ) (b : UInt8) : Quiet (store a b) := by
  grind [store, touch]

@[grind ←] theorem loadAll_quiet (a n : ℕ) : Quiet (loadAll a n) := by
  induction n generalizing a <;> grind [loadAll]

@[grind ←] theorem storeAll_quiet (a : ℕ) (bs : List UInt8) : Quiet (storeAll a bs) := by
  induction bs generalizing a <;> grind [storeAll]

@[grind ←] theorem stringLoop_quiet (fuel a : ℕ) : Quiet (stringLoop fuel a) := by
  induction fuel generalizing a <;> grind [stringLoop]

@[grind ←] theorem userString_quiet (a : ℕ) : Quiet (userString a) :=
  stringLoop_quiet _ a

@[grind ←] theorem putbuf_quiet (a n : ℕ) : Quiet (putbuf a n) := by
  induction n generalizing a <;> grind [putbuf]

@[grind ←] theorem getUserByte_quiet (a : ℕ) : Quiet (getUserByte a) := by
  grind [getUserByte, error, touch]

@[grind ←] theorem checkString_quiet (fuel a : ℕ) : Quiet (checkString fuel a) := by
  induction fuel generalizing a <;> grind [checkString]

@[grind ←] theorem readInto_quiet (inode : Inode) (buffer fuel size offset done : ℕ) :
    Quiet (readInto inode buffer fuel size offset done) := by
  induction fuel generalizing size offset done <;> grind [readInto]

@[grind ←] theorem writeFrom_quiet (inode : Inode) (buffer fuel size offset done : ℕ) :
    Quiet (writeFrom inode buffer fuel size offset done) := by
  induction fuel generalizing size offset done <;> grind [writeFrom]

@[grind ←] theorem getFnFromFd_quiet (fd : BitVec 32) : Quiet (getFnFromFd fd) := by
  grind [getFnFromFd, error]

@[grind ←] theorem regularFile_quiet (fd : BitVec 32) : Quiet (regularFile fd) := by
  grind [regularFile, error]

@[grind ←] theorem fileReadInto_quiet (f buffer size : ℕ) :
    Quiet (fileReadInto f buffer size) := by
  grind [fileReadInto]

@[grind ←] theorem fileWriteFrom_quiet (f buffer : ℕ) (size : ℤ) :
    Quiet (fileWriteFrom f buffer size) := by
  grind [fileWriteFrom]

theorem sysExec_quiet (p : ℕ) : Quiet (sysExec p) := by
  refine (checkString_quiet _ p).bind fun _ => (userString_quiet p).bind fun name => ?_
  exact (fsOp_quiet _).bind fun fp => by cases fp <;> grind

theorem sysChdir_quiet (p : ℕ) : Quiet (sysChdir p) := by
  refine (userString_quiet p).bind fun name => (fsOp_quiet _).bind fun r => ?_
  grind [setSuccess]

theorem sysMkdir_quiet (p : ℕ) : Quiet (sysMkdir p) := by
  refine (userString_quiet p).bind fun name => (fsOp_quiet _).bind fun r => ?_
  grind [setSuccess]

/-- A call that opens nothing and closes nothing leaves the table as it is. -/
theorem Request.act_quiet (r : Request) (hopen : ∀ p, r ≠ .openFile p)
    (hclose : ∀ fd, r ≠ .close fd) : Quiet r.act := by
  cases r with
  | openFile p => exact absurd rfl (hopen p)
  | close fd => exact absurd rfl (hclose fd)
  | exec p => exact sysExec_quiet p
  | chdir p => exact sysChdir_quiet p
  | mkdir p => exact sysMkdir_quiet p
  | halt | exit | wait | practice => grind [act, sysExit, sysWait]
  | create | remove => grind [act, sysCreate, sysRemove, setSuccess]
  | read | write => grind [act, sysRead, sysWrite, error]
  | filesize | seek | tell => grind [act, sysFilesize, sysSeek, sysTell]
  | readdir | isdir | inumber =>
    grind [act, sysReaddir, sysIsdir, sysInumber, setSuccess, error]

/-- What one call may do to the table.  A descriptor to close is fetched as one byte. -/
inductive TableMoves (files : List Fnode) (next : BitVec 32) : List Fnode × BitVec 32 → Prop
  | same : TableMoves files next (files, next)
  | opened (fp filename : ℕ) : TableMoves files next (files ++ [⟨next, fp, filename⟩], next + 1)
  | closed {fd : BitVec 32} (hfd : fd.toNat < 256) :
      TableMoves files next (files.eraseP fun fn => fn.fd == fd, next)

theorem fetch_close (m : Machine) :
    Ends fetch m (fun _ _ => True) fun r _ => ∀ fd, r = .close fd → fd.toNat < 256 := by
  refine ends_bind.mpr (ends_get.mpr ?_)
  refine Ends.bind (P := fun _ _ => True) ends_true fun cmd m₁ _ => ?_
  cases Call.ofNumber cmd.toNat with
  | none => trivial
  | some c =>
    cases c with
    | close =>
      refine (getUserByte_byteAt _ m₁).bind fun v _ hv => ends_pure.mpr fun fd hfd => ?_
      cases hfd
      exact hv ▸ m₁.byteAt_lt _
    | _ => simp [Call.fetch, ends_bind, -bind_pure_comp]

theorem Request.act_moves (r : Request) (hr : ∀ fd, r = .close fd → fd.toNat < 256) (m : Machine) :
    Ends r.act m (fun _ _ => True) fun _ m' => TableMoves m.fileList m.nextFd m'.table := by
  have hquiet : ∀ m' : Machine, m'.table = m.table → TableMoves m.fileList m.nextFd m'.table :=
    fun m' h => h ▸ .same
  cases r with
  | openFile p =>
    refine (userString_quiet p m).bind fun name m₁ h₁ => (fsOp_quiet _ m₁).bind fun fp m₂ h₂ => ?_
    have htable := h₂.trans h₁
    cases fp with
    | none => exact hquiet m₂ htable
    | some fp =>
      obtain ⟨hfiles, hnext⟩ := Prod.mk.inj htable
      rw [← hfiles, ← hnext]
      exact .opened fp p
  | close fd =>
    refine ends_bind.mpr (ends_get.mpr ?_)
    cases m.fileList.find? fun fn => fn.fd == fd with
    | none => exact .same
    | some fn =>
      refine (fsOp_quiet _ m).bind fun _ m₁ h₁ => ?_
      obtain ⟨hfiles, hnext⟩ := Prod.mk.inj h₁
      rw [← hfiles, ← hnext]
      exact .closed (hr fd rfl)
  | _ => exact (act_quiet _ (by simp) (by simp) m).mono (fun _ _ => id) fun _ m' => hquiet m'

/-- One call, in the machine `u` as the process and the others have left it; only the table is
still that of `m`.  There is no next state when the call does not return. -/
def callStep (m u : Machine) : Option Machine :=
  match syscallHandler.exec { u with fileList := m.fileList, nextFd := m.nextFd } with
  | (.ok _, m') => some m'
  | (.error _, _) => none

theorem callStep_moves (h : callStep m u = some m') :
    TableMoves m.fileList m.nextFd m'.table := by
  unfold callStep at h
  generalize hm : { u with fileList := m.fileList, nextFd := m.nextFd } = m₀ at h
  have hends : Ends syscallHandler m₀ (fun _ _ => True) fun _ m' =>
      TableMoves m₀.fileList m₀.nextFd m'.table := by
    obtain ⟨res, m₁, hfetch⟩ : ∃ res m₁, fetch.exec m₀ = (res, m₁) := ⟨_, _, rfl⟩
    refine ends_bind.mpr ?_
    cases res with
    | error e => exact (ends_of_error hfetch).mpr trivial
    | ok r =>
      have hmoves := r.act_moves ((ends_of_ok hfetch).mp (fetch_close m₀)) m₁
      have hkept := ((ends_of_ok hfetch).mp (fetch_checked m₀)).2
      rw [ends_of_ok hfetch]
      rwa [congrArg Machine.fileList hkept, congrArg Machine.nextFd hkept] at hmoves
  split at h
  · rename_i hexec
    cases h
    subst hm
    exact (ends_of_ok hexec).mp hends
  · cases h

/-- The descriptors are in order, above those of the console, below the next one, and not
negative. -/
structure TableOk (m : Machine) : Prop where
  sorted : m.fileList.Pairwise fun fn fn' => fn.fd.toNat < fn'.fd.toNat
  bounds : ∀ fn ∈ m.fileList, 2 ≤ fn.fd.toNat ∧ fn.fd.toNat < m.nextFd.toNat
  next : 2 ≤ m.nextFd.toNat ∧ m.nextFd.toNat < 2 ^ 31

/-- No descriptor has been used again since the first of two states. -/
structure Since (m m' : Machine) : Prop where
  next : m.nextFd.toNat ≤ m'.nextFd.toNat
  files : ∀ fn ∈ m'.fileList, fn ∈ m.fileList ∨ m.nextFd.toNat ≤ fn.fd.toNat

theorem Since.trans (h : Since m m') (h' : Since m' m'') : Since m m'' := by
  refine ⟨h.next.trans h'.next, fun fn hfn => ?_⟩
  rcases h'.files fn hfn with hfn | hfn
  · exact h.files fn hfn
  · exact .inr (h.next.trans hfn)

theorem TableOk.step (h : TableOk m) (hlt : m.nextFd.toNat + 1 < 2 ^ 31)
    (hstep : callStep m u = some m') :
    TableOk m' ∧ Since m m' ∧ m'.nextFd.toNat ≤ m.nextFd.toNat + 1 := by
  have hmoves := callStep_moves hstep
  obtain ⟨hsorted, hbounds, hnext⟩ := h
  generalize htable : m'.table = table at hmoves
  cases hmoves with
  | same =>
    obtain ⟨hfiles, hfd⟩ := Prod.mk.inj htable
    refine ⟨⟨?_, ?_, ?_⟩, ⟨?_, fun fn hfn => .inl ?_⟩, ?_⟩ <;> grind
  | opened fp filename =>
    obtain ⟨hfiles, hfd⟩ := Prod.mk.inj htable
    have hsucc : m'.nextFd.toNat = m.nextFd.toNat + 1 := by
      rw [hfd, BitVec.toNat_add]
      exact Nat.mod_eq_of_lt (Nat.lt_trans hlt (by decide))
    have hlast : ∀ fn ∈ m'.fileList, fn ∈ m.fileList ∨ fn.fd = m.nextFd := by grind
    refine ⟨⟨?_, fun fn hfn => ?_, by omega⟩, ⟨by omega, fun fn hfn => ?_⟩, hsucc.le⟩
    · rw [hfiles, pairwise_append]
      exact ⟨hsorted, pairwise_singleton _ _, by grind⟩
    · rcases hlast fn hfn with hfn | hfn
      · have := hbounds fn hfn
        omega
      · rw [hfn]
        omega
    · exact (hlast fn hfn).imp_right fun heq => by rw [heq]
  | closed hfd =>
    obtain ⟨hfiles, hfd⟩ := Prod.mk.inj htable
    have hsub : m'.fileList.Sublist m.fileList := hfiles ▸ eraseP_sublist
    refine ⟨⟨hsorted.sublist hsub, ?_, ?_⟩, ⟨?_, fun fn hfn => .inl (hsub.subset hfn)⟩, ?_⟩ <;>
      grind

/-- In every state that a new process comes to by system calls, whatever it and the others do
between them, its descriptors are distinct, in order and above those of the console; and
from there on no descriptor is given out a second time, also after it has been closed. -/
theorem run_descriptors (calls later : List Machine) (hfiles : m.fileList = [])
    (hnext : m.nextFd = 2) (hlen : calls.length + later.length < 2 ^ 31 - 2) :
    Run.Always callStep (fun m' => TableOk m' ∧ Run.Always callStep (Since m') m' later)
      m calls := by
  have hnat : m.nextFd.toNat = 2 := by rw [hnext]; rfl
  refine Run.always_of_budget
    (I := fun n m' => TableOk m' ∧ m'.nextFd.toNat + n + later.length < 2 ^ 31)
    (fun n m₁ u m₂ h hstep => ?_) (fun n m₁ h => ⟨h.1, ?_⟩) ⟨⟨?_, ?_, by omega⟩, by omega⟩
  · obtain ⟨hok, -, hle⟩ := h.1.step (by omega) hstep
    exact ⟨hok, by omega⟩
  · refine Run.always_of_budget
      (I := fun n m₂ => TableOk m₂ ∧ Since m₁ m₂ ∧ m₂.nextFd.toNat + n < 2 ^ 31)
      (fun n m₂ u m₃ h hstep => ?_) (fun n m₂ h => h.2.1) ⟨h.1, ⟨le_rfl, fun _ => .inl⟩, by omega⟩
    obtain ⟨hok, hsince, hle⟩ := h.1.step (by omega) hstep
    exact ⟨hok, h.2.1.trans hsince, by omega⟩
  · rw [hfiles]
    exact .nil
  · rw [hfiles]
    exact fun _ hfn => absurd hfn not_mem_nil

/-- The process opens the root of a formatted device. -/
def opening : Machine :=
  { sampleMachine [6, 0, 0, 0, 8, 16, 0, 0, 47, 0] with fs := mounted 16 }

/-- It closes descriptor 2, and opens the root again. -/
def closing : Machine :=
  { sampleMachine [12, 0, 0, 0, 2, 0, 0, 0] with
    fs := (syscallHandler.exec opening).2.fs
    fileList := (syscallHandler.exec opening).2.fileList }

def reopening : Machine :=
  { opening with fs := (syscallHandler.exec closing).2.fs }

theorem run_descriptors_reopened :
    ((Run.run callStep (sampleMachine []) [opening, closing, reopening]).map fun m =>
      m.fileList.map Fnode.fd) = some [3] ∧
    Run.Always callStep (fun m' => TableOk m' ∧
      Run.Always callStep (Since m') m' [closing, reopening]) (sampleMachine []) [opening] :=
  ⟨by decide +kernel, run_descriptors _ _ rfl rfl (by decide)⟩

/-- A file whose descriptor does not fit in one byte stays open, whatever the process
calls. -/
theorem run_late_files_stay (m : Machine) (calls : List Machine) :
    Run.Always callStep (fun m' => ∀ fn ∈ m.fileList, 256 ≤ fn.fd.toNat → fn ∈ m'.fileList)
      m calls := by
  refine Run.always_of_budget
    (I := fun _ m' => ∀ fn ∈ m.fileList, 256 ≤ fn.fd.toNat → fn ∈ m'.fileList)
    (fun _ m₁ u m₂ h hstep fn hfn hlate => ?_) (fun _ _ => id) fun _ hfn _ => hfn
  have hmem := h fn hfn hlate
  have hmoves := callStep_moves hstep
  generalize htable : m₂.table = table at hmoves
  cases hmoves with
  | same => exact (Prod.mk.inj htable).1 ▸ hmem
  | opened fp filename =>
    rw [(Prod.mk.inj htable).1]
    exact mem_append_left _ hmem
  | closed hfd =>
    rw [(Prod.mk.inj htable).1]
    refine (mem_eraseP_of_neg ?_).mpr hmem
    rw [beq_iff_eq]
    rintro rfl
    omega

end CS162.Userprog
