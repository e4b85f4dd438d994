import CS162.Filesys.OpenTable

/-!
# Paths in a tree of directories

`parse_path` over any `dir_lookup` and `inode_isdir`.  Here it runs in a tree that is given
by its bindings, with the table of open inodes as it is.  The loop is compared with a function
that follows the components one by one, and that function with the whole path.
-/

namespace CS162.Filesys

open Prog List Function

/-- The parts of a path between slashes that are not empty. -/
def components (path : CString) : List CString :=
  (path.splitOnP (· == 47)).filter (· ≠ [])

theorem components_nil : components [] = [] := by
  rw [components, splitOnP_nil]
  rfl

theorem components_slash (s : CString) : components (47 :: s) = components s := by
  rw [components, ← nil_append (47 :: s), splitOnP_append_cons [] s (by decide),
    splitOnP_nil, filter_append]
  rfl

theorem components_dropWhile (s : CString) : components (s.dropWhile (· == 47)) = components s := by
  induction s with
  | nil => rfl
  | cons c s ih =>
    rw [dropWhile_cons]
    split_ifs with hc
    · rw [ih, eq_of_beq hc, components_slash]
    · rfl

theorem components_cons {c : UInt8} (s : CString) (hc : c ≠ 47) :
    components (c :: s) = (c :: s).takeWhile (· != 47) ::
      components ((c :: s).dropWhile (· != 47)) := by
  have hne : (c :: s).takeWhile (· != 47) ≠ [] := by
    rw [takeWhile_cons_of_pos (by simpa using hc)]
    exact nofun
  have hpart : ∀ x ∈ (c :: s).takeWhile (· != 47), (x == 47) = false := by
    intro x hx
    simpa using mem_takeWhile_imp hx
  conv_lhs => rw [← takeWhile_append_dropWhile (p := (· != 47)) (l := c :: s)]
  cases hrest : (c :: s).dropWhile (· != 47) with
  | nil =>
    rw [append_nil, components_nil, components, splitOnP_eq_singleton hpart]
    simp [hne]
  | cons x rest =>
    have hx : x = 47 := by
      have := head_dropWhile_not (· != 47) (l := c :: s) (by rw [hrest]; exact nofun)
      simpa [hrest] using this
    rw [hx, components_slash, components, splitOnP_append_cons_of_forall_mem hpart 47 (by decide)]
    simp [hne, components]

theorem getNextPart_components (src : CString) :
    match getNextPart src with
    | .done => components src = []
    | .part name rest => components src = name :: components rest ∧ name.length ≤ 14 ∧
        rest.length < src.length
    | .tooLong => ∃ c cs, components src = c :: cs ∧ 14 < c.length := by
  have hskip := components_dropWhile src
  have hlen := (dropWhile_suffix (· == 47) (l := src)).length_le
  unfold getNextPart
  cases hsrc : src.dropWhile (· == 47) with
  | nil =>
    rw [hsrc, components_nil] at hskip
    exact hskip.symm
  | cons c s =>
    have hc : c ≠ 47 := by
      have := head_dropWhile_not (· == 47) (l := src) (by rw [hsrc]; exact nofun)
      simpa [hsrc] using this
    have hrest := (dropWhile_suffix (· != 47) (l := s)).length_le
    rw [hsrc, components_cons s hc] at hskip
    rw [hsrc, length_cons] at hlen
    dsimp only
    rw [if_neg (cons_ne_nil c s)]
    split_ifs with hshort
    · refine ⟨hskip.symm, hshort, ?_⟩
      rw [dropWhile_cons_of_pos (by simpa using hc)]
      omega
    · exact ⟨_, _, hskip.symm, by omega⟩

/-- A tree of directories: what `dir_lookup` finds in the directory on a sector, and the
`is_dir` flags of the inodes. -/
structure Tree where
  lookup : ℕ → CString → Option ℕ
  isDir : ℕ → Bool

namespace Tree

variable (T : Tree)

def dirLookup (p : ℕ) (name : CString) : Op (Option ℕ) := do
  let i ← getInode p
  match T.lookup i.sector name with
  | some sector => return some (← inodeOpen sector)
  | none => return none

def inodeIsdir (p : ℕ) : Op Bool := do
  let i ← getInode p
  return T.isDir i.sector

def parsePath (path : CString) : Op (Option (ℕ × CString)) :=
  parsePathOver T.dirLookup T.inodeIsdir path

def next (d : ℕ) (c : CString) : Option ℕ :=
  (T.lookup d c).filter fun s => T.isDir s

/-- The directory that components lead to, one after the other. -/
def resolve (d : ℕ) : List CString → Option ℕ
  | [] => some d
  | c :: cs => (T.next d c).bind fun s => resolve s cs

theorem resolve_append (d : ℕ) (cs cs' : List CString) :
    T.resolve d (cs ++ cs') = (T.resolve d cs).bind fun s => T.resolve s cs' := by
  induction cs generalizing d with
  | nil => rfl
  | cons c cs ih =>
    rw [cons_append, resolve, resolve, Option.bind_assoc]
    congr
    funext s
    exact ih s

/-- Where following components ends: in a directory, at a component that is no directory
with others behind it, or at one that is too long. -/
inductive Outcome where
  | arrived (d : ℕ)
  | stopped (d : ℕ) (c : CString) (rest : List CString)
  | tooLong

def follow (d : ℕ) : List CString → Outcome
  | [] => .arrived d
  | c :: cs =>
    if 14 < c.length then
      .tooLong
    else
      match T.next d c with
      | some s => follow s cs
      | none => .stopped d c cs

theorem follow_spec (d : ℕ) (cs : List CString) :
    match T.follow d cs with
    | .arrived d' => (∀ c ∈ cs, c.length ≤ 14) ∧ T.resolve d cs = some d'
    | .stopped d' c rest => ∃ front, cs = front ++ c :: rest ∧ (∀ x ∈ front, x.length ≤ 14) ∧
        c.length ≤ 14 ∧ T.resolve d front = some d' ∧ T.next d' c = none
    | .tooLong => ∃ c ∈ cs, 14 < c.length := by
  induction cs generalizing d with
  | nil => exact ⟨nofun, rfl⟩
  | cons c cs ih =>
    rw [follow]
    split_ifs with hlong
    · exact ⟨c, mem_cons_self, hlong⟩
    cases hnext : T.next d c with
    | none => exact ⟨[], rfl, nofun, by omega, rfl, hnext⟩
    | some s =>
      have hres : ∀ xs, T.resolve d (c :: xs) = T.resolve s xs := fun xs => by
        rw [resolve, hnext, Option.bind_some]
      have hs := ih s
      dsimp only
      cases hf : T.follow s cs with
      | arrived d' =>
        rw [hf] at hs
        refine ⟨fun x hx => ?_, (hres cs).trans hs.2⟩
        rcases mem_cons.mp hx with rfl | hx
        · omega
        · exact hs.1 x hx
      | stopped d' x rest =>
        rw [hf] at hs
        obtain ⟨front, rfl, hfront, hx, hd, hnone⟩ := hs
        refine ⟨c :: front, rfl, fun y hy => ?_, hx, (hres front).trans hd, hnone⟩
        rcases mem_cons.mp hy with rfl | hy
        · omega
        · exact hfront y hy
      | tooLong =>
        rw [hf] at hs
        obtain ⟨x, hx, hlen⟩ := hs
        exact ⟨x, mem_cons_of_mem c hx, hlen⟩

variable {T} {kept : ℕ → Prop} {cnt deny : ℕ → ℕ} {σ σ' : Fs} {i : Inode} {p q d d' : ℕ}
  {path : CString} {front rest : List CString} {w : Walk}

/-- One handle of the inode at `p` more. -/
def bump (cnt : ℕ → ℕ) (p : ℕ) : ℕ → ℕ :=
  update cnt p (cnt p + 1)

theorem bump_self (cnt : ℕ → ℕ) (p : ℕ) : bump cnt p p = cnt p + 1 :=
  update_self ..

theorem le_bump (cnt : ℕ → ℕ) (p q : ℕ) : cnt q ≤ bump cnt p q := by
  by_cases hqp : q = p
  · rw [hqp, bump_self]
    exact Nat.le_succ _
  · rw [bump, update_of_ne hqp]

theorem bump_drop (cnt : ℕ → ℕ) (p : ℕ) : update (bump cnt p) p (bump cnt p p - 1) = cnt := by
  rw [bump_self, Nat.add_sub_cancel, bump, update_idem, update_eq_self]

theorem bump_comm (cnt : ℕ → ℕ) (p q : ℕ) : bump (bump cnt p) q = bump (bump cnt q) p := by
  by_cases hpq : p = q
  · rw [hpq]
  · unfold bump
    rw [update_of_ne (Ne.symm hpq), update_of_ne hpq, update_comm (Ne.symm hpq)]

theorem close_bump (h : Table kept (bump cnt p) deny σ) (hdeny : deny p ≤ cnt p)
    (hkept : kept p → 0 < cnt p) :
    Does (inodeClose p) σ fun _ σ' => Table kept cnt deny σ' ∧ TableOnly σ σ' := by
  have hcnt := bump_self cnt p
  have hlt : deny p < bump cnt p p := by omega
  have hclose := inodeClose_table h hlt fun hk => by
    have := hkept hk
    omega
  rwa [bump_drop] at hclose

theorem close_bump_bump (h : Table kept (bump (bump cnt p) q) deny σ) (hdeny : deny p ≤ cnt p)
    (hkept : kept p → 0 < cnt p) :
    Does (inodeClose p) σ fun _ σ' => Table kept (bump cnt q) deny σ' ∧ TableOnly σ σ' := by
  have hle := le_bump cnt q p
  rw [bump_comm] at h
  exact close_bump h (hdeny.trans hle) fun hk => (hkept hk).trans_le hle

theorem inode_of_handle (h : Table kept cnt deny σ) (hp : 0 < cnt p) : ∃ i, σ.inodes p = some i :=
  (h.some_iff p).mpr hp

theorem dirLookup_does (h : Table kept cnt deny σ) (hi : σ.inodes p = some i) (name : CString) :
    Does (T.dirLookup p name) σ fun r σ' =>
      match T.lookup i.sector name with
      | none => r = none ∧ σ' = σ
      | some s => ∃ q j, r = some q ∧ σ'.inodes q = some j ∧ j.sector = s ∧
          Table kept (bump cnt q) deny σ' ∧ TableOnly σ σ' := by
  refine (getInode_does hi).bind fun k τ hk => ?_
  obtain ⟨rfl, rfl⟩ := hk
  cases T.lookup k.sector name with
  | none => exact does_pure.mpr ⟨rfl, rfl⟩
  | some s =>
    refine (inodeOpen_table h s).bind fun q τ' hq => does_pure.mpr ?_
    obtain ⟨htable, honly, j, hj, hs⟩ := hq
    exact ⟨q, j, rfl, hj, hs, htable, honly⟩

theorem inodeIsdir_does (hi : σ.inodes p = some i) :
    Does (T.inodeIsdir p) σ fun b σ' => b = T.isDir i.sector ∧ σ' = σ := by
  refine (getInode_does hi).bind fun k τ hk => ?_
  obtain ⟨rfl, rfl⟩ := hk
  exact does_pure.mpr ⟨rfl, rfl⟩

/-- How the loop of `parse_path` ends.  Besides `curr` it may leave a handle of a file in
`next`, which is `curr` itself where a directory without the flag has an entry for itself. -/
def Ends (T : Tree) (kept : ℕ → Prop) (cnt deny : ℕ → ℕ) (w : Walk) (σ : Fs) : Outcome → Prop
  | .arrived d => getNextPart w.rest = .done ∧ w.next = some w.curr ∧
      Table kept (bump cnt w.curr) deny σ ∧ ∃ i, σ.inodes w.curr = some i ∧ i.sector = d
  | .stopped d c rest => components w.rest = rest ∧ w.name = c ∧
      (w.next = some w.curr ↔ T.isDir d = false ∧ T.lookup d c = some d) ∧
      Table kept (w.next.elim (bump cnt w.curr) (bump (bump cnt w.curr))) deny σ ∧
      ∃ i, σ.inodes w.curr = some i ∧ i.sector = d
  | .tooLong => getNextPart w.rest = .tooLong

/-- A handle of the inode at `p` is left, and perhaps one of another inode. -/
def Left (kept : ℕ → Prop) (cnt deny : ℕ → ℕ) (p : ℕ) (σ : Fs) : Prop :=
  ∃ q : Option ℕ, Table kept (q.elim (bump cnt p) (bump (bump cnt p))) deny σ

theorem walkOver_ends (hdeny : ∀ p, deny p ≤ cnt p) (hkept : ∀ p, kept p → 0 < cnt p) (fuel : ℕ)
    (w : Walk) (h : Table kept (bump cnt w.curr) deny σ) (hi : σ.inodes w.curr = some i)
    (hnext : w.next = some w.curr) (hfuel : w.rest.length < fuel) :
    Does (walkOver T.dirLookup T.inodeIsdir fuel w) σ fun w' σ' =>
      Ends T kept cnt deny w' σ' (T.follow i.sector (components w.rest)) ∧
      Left kept cnt deny w'.curr σ' := by
  induction fuel generalizing w σ i with
  | zero => omega
  | succ fuel ih =>
    have hpart := getNextPart_components w.rest
    rw [walkOver]
    cases hget : getNextPart w.rest with
    | done =>
      rw [hget] at hpart
      rw [hpart]
      exact does_pure.mpr ⟨⟨hget, hnext, h, i, hi, rfl⟩, none, h⟩
    | tooLong =>
      rw [hget] at hpart
      obtain ⟨c, cs, hcs, hlong⟩ := hpart
      rw [hcs, follow, if_pos hlong]
      exact does_pure.mpr ⟨hget, none, h⟩
    | part name rest =>
      rw [hget] at hpart
      obtain ⟨hcs, hshort, hlen⟩ := hpart
      rw [hcs, follow, if_neg (by omega)]
      refine (dirLookup_does h hi name).bind fun r τ hr => ?_
      cases hlook : T.lookup i.sector name with
      | none =>
        rw [hlook] at hr
        obtain ⟨rfl, rfl⟩ := hr
        have hnone : T.next i.sector name = none := by rw [next, hlook]; rfl
        rw [hnone]
        have hne : none ≠ some w.curr := (Option.some_ne_none _).symm
        refine does_pure.mpr ⟨⟨rfl, rfl, iff_of_false hne fun hself => ?_, h, i, hi, rfl⟩, none, h⟩
        rw [hlook] at hself
        cases hself.2
      | some s =>
        rw [hlook] at hr
        obtain ⟨q, j, rfl, hj, rfl, htable, honly⟩ := hr
        have hcurr : 0 < bump (bump cnt w.curr) q w.curr := by
          have := le_bump (bump cnt w.curr) q w.curr
          rw [bump_self] at this
          omega
        obtain ⟨i', hi'⟩ := inode_of_handle htable hcurr
        have hsector := honly.sector _ _ _ hi hi'
        refine (inodeIsdir_does hj).bind fun b υ hb => ?_
        obtain ⟨rfl, rfl⟩ := hb
        cases hd : T.isDir j.sector with
        | false =>
          have hnone : T.next i.sector name = none := by
            rw [next, hlook, Option.filter_some, hd]
            rfl
          rw [hnone]
          refine does_pure.mpr ⟨⟨rfl, rfl, ?_, htable, i', hi', hsector⟩, some q, htable⟩
          constructor
          · intro heq
            obtain rfl : q = w.curr := Option.some.inj heq
            rw [hj] at hi'
            cases hi'
            exact ⟨hsector ▸ hd, hlook.trans (congrArg some hsector)⟩
          · intro hself
            have hsame : j.sector = i.sector := Option.some.inj (hlook.symm.trans hself.2)
            exact congrArg some (htable.one q w.curr j i' hj hi' (hsame.trans hsector.symm))
        | true =>
          have hsome : T.next i.sector name = some j.sector := by
            rw [next, hlook, Option.filter_some, hd]
            rfl
          rw [hsome]
          refine (close_bump_bump htable (hdeny _) (hkept _)).bind fun _ ρ hρ => ?_
          obtain ⟨j', hj'⟩ := inode_of_handle hρ.1 (by rw [bump_self]; omega)
          have hsector' := hρ.2.sector _ _ _ hj hj'
          have hnextdir := ih ⟨q, some q, name, rest⟩ hρ.1 hj' rfl (by dsimp only; omega)
          rwa [hsector'] at hnextdir

/-- The path leads to a directory: it is not empty, no component is too long, and all of
them but the last are followed from one directory to the next. -/
def Leads (T : Tree) (start : ℕ) (path : CString) : Prop :=
  path ≠ [] ∧ (∀ c ∈ components path, c.length ≤ 14) ∧
    (T.resolve start (components path).dropLast).isSome

/-- The directory on sector `d` and the name are those of the path: the directory it
resolves to with the name ".", or else the directory before the last component with that
component. -/
def Names (T : Tree) (start : ℕ) (path : CString) (d : ℕ) (name : CString) : Prop :=
  match T.resolve start (components path) with
  | some d' => d = d' ∧ name = [46]
  | none => T.resolve start (components path).dropLast = some d ∧
      (components path).getLast? = some name

def start (cwd : ℕ) (path : CString) : ℕ :=
  if path.head? = some 47 then 1 else cwd

/-- The path is one component, by which a start directory without the flag refers to itself. -/
def Loops (T : Tree) (start : ℕ) (path : CString) : Prop :=
  T.isDir start = false ∧ ∃ c, components path = [c] ∧ T.lookup start c = some start

/-- A directory that is entered has the flag. -/
theorem isDir_of_resolve (h : T.resolve d front = some d') (hne : front ≠ []) :
    T.isDir d' = true := by
  induction front generalizing d with
  | nil => exact absurd rfl hne
  | cons c cs ih =>
    rw [resolve] at h
    obtain ⟨s, hs, hres⟩ := Option.bind_eq_some_iff.mp h
    cases cs with
    | nil =>
      cases hres
      exact (Option.filter_eq_some_iff.mp hs).2
    | cons c' cs => exact ih hres (cons_ne_nil _ _)

theorem loops_iff {c : CString} (hcs : components path = front ++ [c])
    (hd : T.resolve d front = some d') :
    T.Loops d path ↔ T.isDir d' = false ∧ T.lookup d' c = some d' := by
  cases front with
  | nil =>
    cases hd
    rw [Loops, hcs]
    simp
  | cons x front =>
    rw [isDir_of_resolve hd (cons_ne_nil x front), Loops, hcs]
    simp

theorem leads_arrived (hpath : path ≠ []) (hshort : ∀ c ∈ components path, c.length ≤ 14)
    (hres : T.resolve d (components path) = some d') : T.Leads d path := by
  refine ⟨hpath, hshort, ?_⟩
  rcases eq_nil_or_concat (components path) with hnil | ⟨front, c, hcs⟩
  · rw [hnil]
    rfl
  · rw [hcs, concat_eq_append, dropLast_concat]
    rw [hcs, concat_eq_append, resolve_append] at hres
    obtain ⟨s, hs, -⟩ := Option.bind_eq_some_iff.mp hres
    rw [hs]
    rfl

theorem resolve_stopped {c : CString} (hd : T.resolve d front = some d')
    (hnone : T.next d' c = none) : T.resolve d (front ++ c :: rest) = none := by
  rw [resolve_append, hd, Option.bind_some, resolve, hnone, Option.bind_none]

theorem not_leads_stopped {c : CString} (hcs : components path = front ++ c :: rest)
    (hd : T.resolve d front = some d') (hnone : T.next d' c = none) (hrest : rest ≠ []) :
    ¬ T.Leads d path := by
  rintro ⟨-, -, hsome⟩
  rw [hcs, dropLast_append_of_ne_nil (cons_ne_nil _ _),
    dropLast_cons_of_ne_nil hrest, resolve_stopped hd hnone] at hsome
  cases hsome

theorem getNextPart_eq_done_iff (src : CString) :
    getNextPart src = .done ↔ components src = [] := by
  have hpart := getNextPart_components src
  cases hget : getNextPart src with
  | done =>
    rw [hget] at hpart
    exact ⟨fun _ => hpart, fun _ => rfl⟩
  | part name rest =>
    rw [hget] at hpart
    exact ⟨nofun, fun hnil => by rw [hnil] at hpart; cases hpart.1⟩
  | tooLong =>
    rw [hget] at hpart
    obtain ⟨c, cs, hcs, -⟩ := hpart
    exact ⟨nofun, fun hnil => by rw [hnil] at hcs; cases hcs⟩

theorem result_of_ne_done (h : getNextPart w.rest ≠ .done) : w.result = return none := by
  unfold Walk.result
  cases hget : getNextPart w.rest with
  | done => exact absurd hget h
  | part name rest => rfl
  | tooLong => rfl

theorem result_stopped (hdeny : ∀ p, deny p ≤ cnt p) (hkept : ∀ p, kept p → 0 < cnt p)
    (h : Table kept (w.next.elim (bump cnt w.curr) (bump (bump cnt w.curr))) deny σ)
    (hi : σ.inodes w.curr = some i) (hne : w.next ≠ some w.curr)
    (hdone : getNextPart w.rest = .done) :
    Does w.result σ fun r σ' => r = some (w.curr, w.name) ∧
      (∃ j, σ'.inodes w.curr = some j ∧ j.sector = i.sector) ∧
      Table kept (bump cnt w.curr) deny σ' := by
  unfold Walk.result
  rw [hdone]
  rw [if_neg hne]
  cases hnext : w.next with
  | none =>
    rw [hnext] at h
    exact does_pure.mpr ⟨rfl, ⟨i, hi, rfl⟩, h⟩
  | some q =>
    rw [hnext, Option.elim_some] at h
    have hle := le_bump cnt w.curr q
    refine (close_bump h ((hdeny q).trans hle) fun hk => (hkept q hk).trans_le hle).bind
      fun _ τ hτ => does_pure.mpr ⟨rfl, ?_⟩
    obtain ⟨j, hj⟩ := inode_of_handle hτ.1 (by rw [bump_self]; exact Nat.succ_pos _)
    exact ⟨⟨j, hj, hτ.2.sector _ _ _ hi hj⟩, hτ.1⟩

/-- The handles that `parse_path` leaves: of the directory it returns one, or two where the path
loops; otherwise some that nobody knows of. -/
def Held (T : Tree) (kept : ℕ → Prop) (cnt deny : ℕ → ℕ) (d : ℕ) (path : CString) (σ : Fs) :
    Option (ℕ × CString) → Prop
  | some r => T.Loops d path ∧ Table kept (bump (bump cnt r.1) r.1) deny σ ∨
      ¬ T.Loops d path ∧ Table kept (bump cnt r.1) deny σ
  | none => ∃ p, Left kept cnt deny p σ

theorem result_ends (hdeny : ∀ p, deny p ≤ cnt p) (hkept : ∀ p, kept p → 0 < cnt p)
    (hpath : path ≠ []) (h : Ends T kept cnt deny w σ (T.follow d (components path)))
    (hleft : Left kept cnt deny w.curr σ) :
    Does w.result σ fun r σ' => (r.isSome ↔ T.Leads d path) ∧
      (¬ T.Loops d path → ∀ p name, r = some (p, name) → ∃ i, σ'.inodes p = some i ∧
        T.Names d path i.sector name) ∧ Held T kept cnt deny d path σ' r := by
  have hspec := T.follow_spec d (components path)
  cases hf : T.follow d (components path) with
  | arrived d' =>
    rw [hf] at h hspec
    obtain ⟨hdone, hnext, htable, i, hi, hsector⟩ := h
    unfold Walk.result
    rw [hdone]
    rw [if_pos hnext]
    have hloops : ¬ T.Loops d path := by
      rintro ⟨hdir, c, hcs, hself⟩
      have hres := hspec.2
      rw [hcs, resolve, next, hself, Option.filter_some, hdir] at hres
      cases hres
    refine does_pure.mpr ⟨⟨fun _ => leads_arrived hpath hspec.1 hspec.2, fun _ => rfl⟩, ?_,
      .inr ⟨hloops, htable⟩⟩
    rintro - p name heq
    cases heq
    refine ⟨i, hi, ?_⟩
    rw [Names, hspec.2]
    exact ⟨hsector, rfl⟩
  | stopped d' c rest =>
    rw [hf] at h hspec
    obtain ⟨hrest, hname, hself, htable, i, hi, hsector⟩ := h
    obtain ⟨front, hcs, hfront, hc, hd, hnone⟩ := hspec
    by_cases hdone : getNextPart w.rest = .done
    · have hnil : rest = [] := hrest.symm.trans ((getNextPart_eq_done_iff _).mp hdone)
      subst hnil
      rw [← loops_iff hcs hd] at hself
      have hdrop : (components path).dropLast = front := by rw [hcs, dropLast_concat]
      have hleads : T.Leads d path := by
        refine ⟨hpath, fun x hx => ?_, ?_⟩
        · rw [hcs] at hx
          rcases mem_append.mp hx with hx | hx
          · exact hfront x hx
          · rwa [mem_singleton.mp hx]
        · rw [hdrop, hd]
          rfl
      by_cases hnext : w.next = some w.curr
      · -- the second handle of `curr` is taken for none
        unfold Walk.result
        rw [hdone]
        rw [if_pos hnext]
        rw [hnext] at htable
        exact does_pure.mpr ⟨⟨fun _ => hleads, fun _ => rfl⟩,
          fun hloops => absurd (hself.mp hnext) hloops, .inl ⟨hself.mp hnext, htable⟩⟩
      refine (result_stopped hdeny hkept htable hi hnext hdone).mono fun r τ hr => ?_
      obtain ⟨rfl, ⟨j, hj, hjs⟩, hheld⟩ := hr
      refine ⟨⟨fun _ => hleads, fun _ => rfl⟩, ?_, .inr ⟨fun hl => hnext (hself.mpr hl), hheld⟩⟩
      · rintro - p name heq
        cases heq
        refine ⟨j, hj, ?_⟩
        rw [Names, hcs, resolve_stopped hd hnone, ← hcs, hdrop, hjs, hsector]
        refine ⟨hd, ?_⟩
        rw [hcs, getLast?_concat, hname]
    · have hmore : rest ≠ [] := fun hnil =>
        hdone ((getNextPart_eq_done_iff _).mpr (hrest.trans hnil))
      rw [result_of_ne_done hdone]
      exact does_pure.mpr
        ⟨⟨nofun, fun hl => absurd hl (not_leads_stopped hcs hd hnone hmore)⟩, nofun, _, hleft⟩
  | tooLong =>
    rw [hf] at h hspec
    obtain ⟨c, hc, hlong⟩ := hspec
    have hget : getNextPart w.rest = .tooLong := h
    rw [result_of_ne_done (by rw [hget]; exact nofun)]
    exact does_pure.mpr ⟨⟨nofun, fun hl => absurd (hl.2.1 c hc) (by omega)⟩, nofun, _, hleft⟩

theorem parsePath_does (h : Table (fun p => 0 < cnt p) cnt deny σ) (hpath : path ≠ []) :
    Does (T.parsePath path) σ fun r σ' => (r.isSome ↔ T.Leads (start σ.cwd path) path) ∧
      (¬ T.Loops (start σ.cwd path) path → ∀ p name, r = some (p, name) →
        ∃ i, σ'.inodes p = some i ∧ T.Names (start σ.cwd path) path i.sector name) ∧
      Held T (fun p => 0 < cnt p) cnt deny (start σ.cwd path) path σ' r := by
  have hkept : ∀ p, 0 < cnt p → 0 < cnt p := fun _ => id
  unfold parsePath parsePathOver
  rw [if_neg hpath, does_bind, does_get]
  refine (inodeOpen_table h _).bind fun curr τ hτ => ?_
  obtain ⟨htable, -, i, hi, hsector⟩ := hτ
  change i.sector = start σ.cwd path at hsector
  have hloop := walkOver_ends (T := T) h.deny_le hkept (path.length + 1)
    ⟨curr, some curr, [], path⟩ htable hi rfl (Nat.lt_succ_self _)
  refine hloop.bind fun w υ hw => ?_
  rw [hsector] at hw
  exact result_ends h.deny_le hkept hpath hw.1 hw.2

theorem parsePath_nil (T : Tree) : T.parsePath [] = return none := by
  rw [parsePath, parsePathOver, if_pos rfl]

/-- `parse_path` follows the tree: it succeeds exactly on the paths that lead to a
directory, and then yields that directory and the name in it.  Any inodes may be open
before, removed ones among them. -/
theorem parsePath_tree (h : Table (fun p => 0 < cnt p) cnt deny σ) (hroot : T.isDir 1 = true)
    (hcwd : T.isDir σ.cwd = true) (path : CString) :
    Does (T.parsePath path) σ fun r σ' =>
      (r.isSome ↔ T.Leads (start σ.cwd path) path) ∧
      ∀ p name, r = some (p, name) → ∃ i, σ'.inodes p = some i ∧
        T.Names (start σ.cwd path) path i.sector name := by
  by_cases hnil : path = []
  · subst hnil
    rw [parsePath_nil]
    exact does_pure.mpr ⟨⟨nofun, fun hleads => absurd rfl hleads.1⟩, nofun⟩
  · refine (parsePath_does h hnil).mono fun r σ' hr => ⟨hr.1, hr.2.1 fun hloops => ?_⟩
    have hdir := hloops.1
    unfold start at hdir
    split_ifs at hdir
    · rw [hroot] at hdir
      cases hdir
    · rw [hcwd] at hdir
      cases hdir

/-- The root with the directory "a" in sector 2, in which "f" is a file. -/
def smallTree : Tree where
  lookup d name :=
    if (d, name) = (1, [97]) then some 2
    else if (d, name) = (2, [102]) then some 3
    else if (d, name) = (2, [46, 46]) then some 1
    else none
  isDir d := d = 1 ∨ d = 2

theorem table_blank : Table (fun _ => 0 < 0) (fun _ => 0) (fun _ => 0)
    (blank 16 (fun _ _ => 0) fun _ _ => 0) :=
  ⟨nodup_nil, fun _ => ⟨nofun, nofun⟩, fun _ => ⟨nofun, nofun⟩, nofun, nofun, nofun, nofun,
    fun _ => le_rfl, fun _ _ => rfl⟩

/-- "/a//f" is the name "f" in the directory on sector 2. -/
theorem parsePath_tree_file :
    ∃ i σ', (smallTree.parsePath [47, 97, 47, 47, 102]).run
        (blank 16 (fun _ _ => 0) fun _ _ => 0) = some (some (1, [102]), σ') ∧
      σ'.inodes 1 = some i ∧ i.sector = 2 ∧
      smallTree.Names 1 [47, 97, 47, 47, 102] i.sector [102] := by
  have hobs : ((smallTree.parsePath [47, 97, 47, 47, 102]).run
      (blank 16 (fun _ _ => 0) fun _ _ => 0)).map
        (fun x => (x.1, (x.2.inodes 1).map Inode.sector)) = some (some (1, [102]), some 2) := by
    decide +kernel
  obtain ⟨r, σ', hrun, -, hnames⟩ := parsePath_tree (T := smallTree) table_blank rfl rfl
    [47, 97, 47, 47, 102]
  rw [hrun, Option.map_some, Option.some.injEq, Prod.mk.injEq] at hobs
  obtain ⟨rfl, hsector⟩ := hobs
  obtain ⟨i, hi, hname⟩ := hnames 1 [102] rfl
  rw [hi, Option.map_some, Option.some.injEq] at hsector
  exact ⟨i, σ', hrun, hi, hsector, hname⟩

end Tree

end CS162.Filesys
