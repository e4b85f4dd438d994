import CS162.Filesys.RemoveDir

/-!
# Reading at the end of a file, and listing a directory

`inode_read_at` looks the last byte of its range up before it reads anything, so that a range
that ends beyond the file is not read at all.  `dir_readdir` skips every entry that is not both
`.` and `..`, without going on to the next.
-/

namespace CS162.Filesys

open Prog List

variable {σ : Fs} {inode : Inode} {L : ℕ}

/-- A read returns the bytes of its range that are in the file, except when the range begins
inside the file and ends beyond it, where it returns none, and when its end overflows. -/
theorem inodeReadAt_iff {p : ℕ} (size offset : ℕ) (h : σ.Sound) (hsize : σ.size < 2 ^ 32)
    (hp : σ.inodes p = some inode) (hf : FileAt σ inode.sector L) :
    Does (inodeReadAt p size offset) σ (fun r σ' => Same σ σ' ∧
      r = bytesAt σ inode.sector offset (min size (L - offset))) ↔
        offset + size < 2 ^ 31 ∧ ¬ (offset < L ∧ L < offset + size) := by
  have hmax := hf.max
  unfold maxLength at hmax
  by_cases hle : offset + size ≤ L
  · refine iff_of_true ((hf.readAt_within h hsize hp hle).mono fun r σ' hr => ⟨hr.2, ?_⟩) (by omega)
    rw [hr.1, min_eq_left (by omega)]
  by_cases hint : offset + size < 2 ^ 31
  · have hnone := hf.readAt_past h hp (by omega) hint
    constructor
    · rintro ⟨r, σ', hrun, -, hr⟩
      rw [(hnone.ensures r σ' hrun).1, eq_comm, bytesAt, map_eq_nil_iff, range_eq_nil] at hr
      omega
    · intro hcond
      refine hnone.mono fun r σ' hr => ⟨hr.2, ?_⟩
      rw [hr.1, eq_comm, bytesAt, map_eq_nil_iff, range_eq_nil]
      omega
  · refine iff_of_false ?_ fun hcond => hint hcond.1
    rintro ⟨r, σ', hrun, -⟩
    obtain ⟨i, τ, -, hrun⟩ := run_bind_eq_some.mp hrun
    rw [if_pos (by omega)] at hrun
    cases hrun

/-- The formatted device with the root directory open at 2; it has 320 bytes. -/
def rootOpen : Fs :=
  { mounted 16 with
    inodes := Function.update (mounted 16).inodes 2 (some ⟨1, 1, false, 0⟩)
    openInodes := [2, 0] }

theorem rootOpen_openDir : OpenDir rootOpen 2 ⟨1, 1, false, 0⟩ 320 where
  sound := (mounted_ok (by decide) (by decide)).sound
  size_lt := by decide
  opened := rfl
  file := (mounted_root 16 (by decide)).of_view rfl rfl

theorem inodeReadAt_entry : ∃ r σ', (inodeReadAt 2 20 0).run rootOpen = some (r, σ') ∧
    r = bytesAt rootOpen 1 0 20 := by
  obtain ⟨r, σ', hrun, -, hr⟩ := (inodeReadAt_iff 20 0 rootOpen_openDir.sound
    rootOpen_openDir.size_lt rootOpen_openDir.opened rootOpen_openDir.file.fileAt).mpr (by omega)
  exact ⟨r, σ', hrun, hr⟩

/-- A whole sector asked for where 320 bytes are left. -/
theorem inodeReadAt_straddling :
    ((inodeReadAt 2 512 0).run rootOpen).map Prod.fst = some [] ∧
      (bytesAt rootOpen 1 0 (min 512 (320 - 0))).length = 320 := by
  refine ⟨by decide +kernel, ?_⟩
  rw [bytesAt, length_map, length_range]
  rfl

/-- `dir_readdir` at position `pos` of a directory, for at most `fuel` rounds of its loop: the
name, and the position it leaves. -/
def dirReaddir (fuel dir pos : ℕ) : Op (Option CString × ℕ) := do
  return (← readdirLoop dir pos fuel, 0)

/-- Calls of `dir_readdir` until it returns false, at most `n`: the names. -/
def readdirAll (fuel dir : ℕ) : ℕ → ℕ → Op (List CString)
  | 0, _ => failure
  | n + 1, pos => do
    match ← dirReaddir fuel dir pos with
    | (none, _) => return []
    | (some name, pos) => return name :: (← readdirAll fuel dir n pos)

/-- The names in use in the directory on `D` of `L` bytes, other than `.` and `..`. -/
def namesIn (σ : Fs) (D L : ℕ) : List CString :=
  (((range (L / 20)).map (entryAt σ D)).filter fun e => e.inUse ∧
    e.name ≠ [46] ∧ e.name ≠ [46, 46]).map DirEntry.name

def Lists (σ : Fs) (p D L : ℕ) : Prop :=
  ∃ fuel n, Does (readdirAll fuel p n 0) σ fun names _ => names = namesIn σ D L

/-- A directory can be listed exactly when it has no slot. -/
theorem OpenDir.lists_iff {p : ℕ} (h : OpenDir σ p inode L) :
    Lists σ p inode.sector L ↔ L < 20 := by
  constructor
  · rintro ⟨fuel, n, names, σ', hrun, -⟩
    by_contra hL
    cases n with
    | zero => cases hrun
    | succ n =>
      obtain ⟨r, τ, hr, -⟩ := run_bind_eq_some.mp hrun
      obtain ⟨o, υ, ho, -⟩ := run_bind_eq_some.mp hr
      exact h.readdirLoop_stuck (by omega) fuel o υ ho
  · intro hL
    have hnames : namesIn σ inode.sector L = [] := by
      rw [namesIn, Nat.div_eq_of_lt hL]
      rfl
    refine ⟨1, 1, ?_⟩
    have hfirst : Does (dirReaddir 1 p 0) σ fun r _ => r = (none, 0) := by
      rw [dirReaddir, readdirLoop, bind_assoc]
      refine (h.readAt_past (k := 0) (by omega) (by omega)).bind fun e τ he => ?_
      rw [he.1, if_neg (by simp), pure_bind]
      exact does_pure.mpr rfl
    refine hfirst.bind fun r τ hr => ?_
    rw [hr]
    exact does_pure.mpr hnames.symm

theorem rootOpen_not_lists : ¬ Lists rootOpen 2 1 320 := by
  rw [rootOpen_openDir.lists_iff]
  decide

/-- In the formatted root the loop is still at the first entry after any number of rounds. -/
theorem dirReaddir_root : (fun fuel => (dirReaddir fuel 2 0).run rootOpen) = fun _ => none := by
  funext fuel
  cases hrun : (dirReaddir fuel 2 0).run rootOpen with
  | none => rfl
  | some r =>
    obtain ⟨o, τ, ho, -⟩ := run_bind_eq_some.mp (show _ = some (r.1, r.2) from hrun)
    exact (rootOpen_openDir.readdirLoop_stuck (by decide) fuel o τ ho).elim

end CS162.Filesys
