import CS162.Filesys.PathTree

/-!
# The references that a path leaves

`parse_path` hands the reference of its current directory over from component to component;
the exits for a path that does not lead to a directory forget it.  `sys_chdir` never closes
the inode it looks up, and sets the current directory whatever the inode is.
-/

namespace CS162.Filesys

open Prog Function

namespace Tree

variable {T : Tree} {kept : ℕ → Prop} {cnt deny : ℕ → ℕ} {σ σ' : Fs} {p : ℕ}

def handles (σ : Fs) (p : ℕ) : ℤ :=
  (σ.inodes p).elim 0 Inode.openCnt

theorem handles_eq (h : Table kept cnt deny σ) (p : ℕ) : handles σ p = cnt p := by
  unfold handles
  cases hp : σ.inodes p with
  | none =>
    by_contra hne
    obtain ⟨i, hi⟩ := inode_of_handle h (Nat.pos_of_ne_zero fun hzero => hne (by rw [hzero]; rfl))
    rw [hp] at hi
    cases hi
  | some i => exact h.openCnt p i hp

theorem handles_congr (h : Table kept cnt deny σ) (h' : Table kept cnt deny σ') :
    handles σ' = handles σ := by
  funext p
  rw [handles_eq h, handles_eq h']

theorem handles_bump (h : Table kept cnt deny σ) (h' : Table kept (bump cnt p) deny σ') :
    handles σ' = update (handles σ) p (handles σ p + 1) := by
  funext q
  rw [handles_eq h']
  by_cases hq : q = p
  · rw [hq, bump_self, update_self, handles_eq h]
    rfl
  · rw [update_of_ne hq, handles_eq h, bump, update_of_ne hq]

theorem Left.handles_ne (hleft : Left kept cnt deny p σ') (h : Table kept cnt deny σ) :
    handles σ' ≠ handles σ := by
  intro heq
  obtain ⟨q, hq⟩ := hleft
  have hmore : bump cnt p p ≤ q.elim (bump cnt p) (bump (bump cnt p)) p := by
    cases q with
    | none => exact le_rfl
    | some q => exact le_bump _ q p
  have hp := congrFun heq p
  rw [handles_eq h, handles_eq hq] at hp
  rw [bump_self] at hmore
  omega

/-- A path that is not followed leaves no count changed, and one that is followed adds one
handle of the directory, which `inode_close` takes back. -/
def Balanced (σ : Fs) (r : Option (ℕ × CString)) (σ' : Fs) : Prop :=
  match r with
  | none => handles σ' = handles σ
  | some (p, _) => handles σ' = update (handles σ) p (handles σ p + 1) ∧
      Does (inodeClose p) σ' fun _ σ'' => handles σ'' = handles σ

/-- `parse_path` balances its references exactly on the empty path and on the paths that lead
to a directory, but for one component by which a directory without the flag refers to itself. -/
theorem parsePath_balanced_iff (h : Table (fun p => 0 < cnt p) cnt deny σ) (path : CString) :
    Does (T.parsePath path) σ fun r σ' => (Balanced σ r σ' ↔ path = [] ∨
      T.Leads (start σ.cwd path) path ∧ ¬ T.Loops (start σ.cwd path) path) := by
  by_cases hnil : path = []
  · subst hnil
    rw [parsePath_nil]
    exact does_pure.mpr (iff_of_true rfl (.inl rfl))
  refine (parsePath_does h hnil).mono fun r σ' hr => ?_
  obtain ⟨hleads, -, hheld⟩ := hr
  cases r with
  | none =>
    obtain ⟨p, hleft⟩ := hheld
    refine iff_of_false (hleft.handles_ne h) (not_or.mpr ⟨hnil, fun hl => ?_⟩)
    exact absurd (hleads.mpr hl.1) Bool.false_ne_true
  | some r =>
    obtain ⟨hloops, hheld⟩ | ⟨hloops, hheld⟩ := hheld
    · refine iff_of_false (fun hbal => ?_) (not_or.mpr ⟨hnil, fun hl => hl.2 hloops⟩)
      have hself := congrFun hbal.1 r.1
      rw [handles_eq hheld, bump_self, bump_self, update_self, handles_eq h] at hself
      omega
    · refine iff_of_true ⟨handles_bump h hheld, ?_⟩ (.inr ⟨hleads.mp rfl, hloops⟩)
      exact (close_bump hheld (h.deny_le _) id).mono fun _ σ'' hclose => handles_congr h hclose.1

/-- "/a/f" is followed to the directory on sector 2. -/
theorem parsePath_balanced_file : ∃ r σ',
    (smallTree.parsePath [47, 97, 47, 102]).run (blank 16 (fun _ _ => 0) fun _ _ => 0) =
      some (r, σ') ∧ Balanced (blank 16 (fun _ _ => 0) fun _ _ => 0) r σ' := by
  obtain ⟨r, σ', hrun, hiff⟩ :=
    parsePath_balanced_iff (T := smallTree) table_blank [47, 97, 47, 102]
  refine ⟨r, σ', hrun, hiff.mpr (.inr ⟨⟨nofun, ?_, ?_⟩, fun hloops => nomatch hloops.1⟩)⟩ <;>
    decide +kernel

example :
    ((smallTree.parsePath [47]).run (blank 16 (fun _ _ => 0) fun _ _ => 0)).isSome = true := by
  decide +kernel

/-- "/f/a" stops at a name that is not there, and the root stays open. -/
theorem parsePath_unbalanced : ∃ σ',
    (smallTree.parsePath [47, 102, 47, 97]).run (blank 16 (fun _ _ => 0) fun _ _ => 0) =
      some (none, σ') ∧ ¬ Balanced (blank 16 (fun _ _ => 0) fun _ _ => 0) none σ' := by
  have hobs : ((smallTree.parsePath [47, 102, 47, 97]).run
      (blank 16 (fun _ _ => 0) fun _ _ => 0)).map (fun x => (x.1, handles x.2 0)) =
        some (none, 1) := by
    decide +kernel
  obtain ⟨⟨r, σ'⟩, hrun, hx⟩ := Option.map_eq_some_iff.mp hobs
  obtain ⟨rfl, hone⟩ := Prod.mk.inj hx
  refine ⟨σ', hrun, fun hbal => ?_⟩
  have := congrFun hbal 0
  rw [hone] at this
  cases this

end Tree

namespace Tree

variable {T : Tree} {cnt deny : ℕ → ℕ} {σ : Fs}

def sysChdir (T : Tree) (path : CString) : Op Bool :=
  sysChdirOver T.dirLookup T.inodeIsdir path

def target (T : Tree) (start : ℕ) (path : CString) : Option ℕ :=
  if path ≠ [] ∧ ∀ c ∈ components path, c.length ≤ 14 then T.resolve start (components path)
  else none

/-- `sys_chdir` returns whether the path resolves to a directory, which is then the current
one; otherwise the current directory stays.  No reference is left. -/
def ChdirOk (T : Tree) (σ : Fs) (path : CString) : Prop :=
  Does (T.sysChdir path) σ fun success σ' =>
    (success = true ↔ (T.target (start σ.cwd path) path).isSome) ∧
    (success = true → T.target (start σ.cwd path) path = some σ'.cwd) ∧
    (success = false → σ'.cwd = σ.cwd) ∧ handles σ' = handles σ

/-- A call that returns leaves a handle of the inode it has looked up. -/
theorem sysChdir_ensures (h : Table (fun p => 0 < cnt p) cnt deny σ) (path : CString) :
    Ensures (T.sysChdir path) σ fun _ σ' => ∃ q, handles σ q < handles σ' q := by
  unfold sysChdir sysChdirOver
  by_cases hnil : path = []
  · subst hnil
    change Ensures (T.parsePath [] >>= _) σ _
    rw [parsePath_nil, pure_bind]
    exact ensures_failure
  refine (parsePath_does h hnil).ensures.bind fun r τ hr => ?_
  cases r with
  | none => exact ensures_failure
  | some r =>
    -- one handle of the directory, or two, of which the call closes one
    obtain ⟨more, hle, hheld⟩ : ∃ more, (∀ p, cnt p ≤ more p) ∧
        Table (fun p => 0 < cnt p) (bump more r.1) deny τ := by
      obtain ⟨-, hheld⟩ | ⟨-, hheld⟩ := hr.2.2
      · exact ⟨bump cnt r.1, le_bump cnt r.1, hheld⟩
      · exact ⟨cnt, fun _ => le_rfl, hheld⟩
    obtain ⟨i, hi⟩ := inode_of_handle hheld (by rw [bump_self]; exact Nat.succ_pos _)
    refine (dirLookup_does hheld hi r.2).ensures.bind fun node υ hnode => ?_
    cases hlook : T.lookup i.sector r.2 with
    | none =>
      rw [hlook] at hnode
      rw [hnode.1]
      exact Ensures.bind (P := fun _ _ => True) (fun _ _ _ => trivial) fun _ _ _ => ensures_failure
    | some s =>
      rw [hlook] at hnode
      obtain ⟨q, j, rfl, -, -, htable, -⟩ := hnode
      refine (close_bump_bump htable ((h.deny_le _).trans (hle _))
        fun hk => hk.trans_le (hle _)).ensures.bind fun _ ρ hρ => ?_
      obtain ⟨j', hj'⟩ := inode_of_handle hρ.1 (by rw [bump_self]; exact Nat.succ_pos _)
      refine (inodeIsdir_does hj').ensures.bind fun b ρ' hb => ?_
      rw [hb.2]
      refine (getInode_does hj').ensures.bind fun k ρ'' hk => ?_
      rw [hk.2, ensures_bind, ensures_modify, ensures_pure]
      have hmore : handles ρ q = _ := handles_eq hρ.1 q
      refine ⟨q, ?_⟩
      change _ < handles ρ q
      rw [hmore, bump_self, handles_eq h]
      have := hle q
      omega

theorem not_chdirOk (h : Table (fun p => 0 < cnt p) cnt deny σ) (path : CString) :
    ¬ T.ChdirOk σ path := by
  rintro ⟨success, σ', hrun, -, -, -, heq⟩
  obtain ⟨q, hq⟩ := sysChdir_ensures h path success σ' hrun
  exact absurd (congrFun heq q) hq.ne'

theorem not_chdirOk_root :
    ¬ smallTree.ChdirOk (blank 16 (fun _ _ => 0) fun _ _ => 0) [47] :=
  not_chdirOk (T := smallTree) table_blank [47]

/-- The file "/a/f" is no directory, which the call returns; still its sector is the current
directory and it stays open. -/
theorem sysChdir_file : ((smallTree.sysChdir [47, 97, 47, 102]).run
    (blank 16 (fun _ _ => 0) fun _ _ => 0)).map
      (fun x => (x.1, x.2.cwd, handles x.2 3)) = some (false, 3, 1) := by
  decide +kernel

end Tree

end CS162.Filesys
