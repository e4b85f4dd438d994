import CS162.Userprog.Decode

/-!
# Addresses that a system call touches

A call should touch user addresses only, and end the process when the string or the buffer it is
given reaches `PHYS_BASE`.
-/

namespace CS162.Userprog

open Filesys Halt List

variable {α β : Type} {m m' : Machine} {lo hi lo' hi' : ℕ}

/-- Every address touched between two states is in the range from `lo` to `hi`. -/
def Between (lo hi : ℕ) (m m' : Machine) : Prop :=
  ∀ a ∈ m'.touched, a ∈ m.touched ∨ lo ≤ a ∧ a < hi

theorem Between.of_eq (h : m'.touched = m.touched) : Between lo hi m m' :=
  fun _ ha => .inl (h ▸ ha)

theorem Between.trans {m'' : Machine} (h : Between lo hi m m') (h' : Between lo hi m' m'') :
    Between lo hi m m'' := by
  intro a ha
  rcases h' a ha with ha | ha
  · exact h a ha
  · exact .inr ha

theorem Between.mono (h : Between lo hi m m') (hlo : lo' ≤ lo) (hhi : hi ≤ hi') :
    Between lo' hi' m m' := by
  intro a ha
  rcases h a ha with ha | ha
  · exact .inl ha
  · exact .inr ⟨hlo.trans ha.1, ha.2.trans_le hhi⟩

/-- The program touches only the range.  It loses control or returns, and ends the
process only if it `exits`. -/
def Confined (exits : Bool) (lo hi : ℕ) (x : Sys α) : Prop :=
  ∀ m, Ends x m (fun e m' => (e = .lost ∨ exits = true) ∧ Between lo hi m m') fun _ m' =>
    Between lo hi m m'

variable {exits : Bool} {x : Sys α} {a p : ℕ} {fd : BitVec 32} {r : Request}

theorem Confined.bind {f : α → Sys β} (hx : Confined exits lo hi x)
    (hf : ∀ a, Confined exits lo hi (f a)) : Confined exits lo hi (x >>= f) := by
  intro m
  refine (hx m).bind fun a t ht => ?_
  exact (hf a t).mono (fun e s hs => ⟨hs.1, ht.trans hs.2⟩) fun b s hs => ht.trans hs

theorem Confined.mono (hx : Confined exits lo hi x) (hlo : lo' ≤ lo) (hhi : hi ≤ hi') :
    Confined exits lo' hi' x :=
  fun m => (hx m).mono (fun _ _ hs => ⟨hs.1, hs.2.mono hlo hhi⟩) fun _ _ hs => hs.mono hlo hhi

theorem confined_pure (a : α) : Confined exits lo hi (pure a) :=
  fun _ => Between.of_eq rfl

theorem confined_get : Confined exits lo hi (get : Sys Machine) :=
  fun _ => Between.of_eq rfl

theorem confined_lost : Confined exits lo hi (throw .lost : Sys α) :=
  fun _ => ⟨.inl rfl, Between.of_eq rfl⟩

theorem confined_throw (e : Stop) : Confined true lo hi (throw e : Sys α) :=
  fun _ => ⟨.inr rfl, Between.of_eq rfl⟩

theorem confined_modify {g : Machine → Machine} (hg : ∀ m, (g m).touched = m.touched) :
    Confined exits lo hi (modify g : Sys PUnit) :=
  fun m => Between.of_eq (hg m)

theorem confined_ite {c : Prop} [Decidable c] {y : Sys α} (hx : Confined exits lo hi x)
    (hy : Confined exits lo hi y) : Confined exits lo hi (if c then x else y) := by
  split_ifs
  · exact hx
  · exact hy

theorem touch_confined (hlo : lo ≤ a) (hhi : a < hi) : Confined exits lo hi (touch a) := by
  intro m b hb
  rcases mem_cons.mp hb with rfl | hb
  · exact .inr ⟨hlo, hhi⟩
  · exact .inl hb

theorem setEax_confined (v : BitVec 32) : Confined exits lo hi (setEax v) :=
  confined_modify fun _ => rfl

theorem fsOp_confined (x : Op α) : Confined exits lo hi (fsOp x) := by
  refine confined_get.bind fun m => ?_
  cases x.run m.fs with
  | none => exact confined_lost
  | some r =>
    refine Confined.bind ?_ fun _ => confined_pure _
    exact confined_modify fun _ => rfl

theorem load_confined (hlo : lo ≤ a) (hhi : a < hi) : Confined exits lo hi (load a) := by
  refine (touch_confined hlo hhi).bind fun _ => confined_get.bind fun m => ?_
  cases m.mem.byte a with
  | none => exact confined_lost
  | some b => exact confined_pure b

theorem store_confined (b : UInt8) (hlo : lo ≤ a) (hhi : a < hi) :
    Confined exits lo hi (store a b) := by
  refine (touch_confined hlo hhi).bind fun _ => confined_get.bind fun m => ?_
  exact confined_ite (confined_modify fun _ => rfl) confined_lost

theorem loadAll_confined (a n : ℕ) : Confined exits a (a + n) (loadAll a n) := by
  induction n generalizing a with
  | zero => exact confined_pure _
  | succ n ih =>
    refine (load_confined le_rfl (by omega)).bind fun b => ?_
    exact ((ih (a + 1)).mono (by omega) (by omega)).bind fun bs => confined_pure _

theorem storeAll_confined (a : ℕ) (bs : List UInt8) :
    Confined exits a (a + bs.length) (storeAll a bs) := by
  induction bs generalizing a with
  | nil => exact confined_pure _
  | cons b bs ih =>
    rw [length_cons]
    refine (store_confined b le_rfl (by omega)).bind fun _ => ?_
    exact (ih (a + 1)).mono (by omega) (by omega)

theorem putbuf_confined (a n : ℕ) : Confined exits a (a + n) (putbuf a n) := by
  induction n generalizing a with
  | zero => exact confined_pure _
  | succ n ih =>
    refine (load_confined le_rfl (by omega)).bind fun c => Confined.bind ?_ fun _ => ?_
    · exact confined_modify fun _ => rfl
    · exact (ih (a + 1)).mono (by omega) (by omega)

theorem chunkSize_le (size offset : ℕ) (length : ℤ) :
    (chunkSize size offset length).toNat ≤ size := by
  unfold chunkSize
  omega

theorem readInto_confined (inode : Inode) (buffer fuel size offset done : ℕ) :
    Confined exits buffer (buffer + done + size) (readInto inode buffer fuel size offset done) := by
  induction fuel generalizing size offset done with
  | zero => exact confined_pure _
  | succ fuel ih =>
    refine confined_ite (confined_pure _) ?_
    refine (fsOp_confined _).bind fun sector => (fsOp_confined _).bind fun length => ?_
    have hle := chunkSize_le size offset length
    refine confined_ite (confined_pure _) ((fsOp_confined _).bind fun bytes => ?_)
    have hstore : Confined exits _ _ _ := storeAll_confined (buffer + done) (ofFn bytes)
    rw [length_ofFn] at hstore
    refine (hstore.mono (by omega) (by omega)).bind fun _ => ?_
    exact (ih _ _ _).mono le_rfl (by omega)

theorem writeFrom_confined (inode : Inode) (buffer fuel size offset done : ℕ) :
    Confined exits buffer (buffer + done + size)
      (writeFrom inode buffer fuel size offset done) := by
  induction fuel generalizing size offset done with
  | zero => exact confined_pure _
  | succ fuel ih =>
    refine confined_ite (confined_pure _) ?_
    refine (fsOp_confined _).bind fun sector => (fsOp_confined _).bind fun length => ?_
    have hle := chunkSize_le size offset length
    refine confined_ite (confined_pure _) ?_
    refine ((loadAll_confined _ _).mono (by omega) (by omega)).bind fun bytes => ?_
    refine (fsOp_confined _).bind fun _ => ?_
    exact (ih _ _ _).mono le_rfl (by omega)

theorem fileReadInto_confined (f buffer size : ℕ) :
    Confined exits buffer (buffer + size) (fileReadInto f buffer size) := by
  refine (fsOp_confined _).bind fun file => (fsOp_confined _).bind fun inode => ?_
  refine Confined.bind ((fsOp_confined _).bind fun sector => ?_) fun n =>
    (fsOp_confined _).bind fun _ => confined_pure _
  exact confined_ite (confined_pure _) (readInto_confined inode buffer size size file.pos 0)

theorem fileWriteFrom_confined (f buffer : ℕ) (size : ℤ) :
    Confined exits buffer (buffer + size.toNat) (fileWriteFrom f buffer size) := by
  refine (fsOp_confined _).bind fun file => (fsOp_confined _).bind fun inode => ?_
  refine Confined.bind ?_ fun n => (fsOp_confined _).bind fun _ => confined_pure _
  refine confined_ite (confined_pure _) ((fsOp_confined _).bind fun ok => ?_)
  exact confined_ite (writeFrom_confined inode buffer _ _ file.pos 0) (confined_pure _)

theorem load_ends (a : ℕ) (m : Machine) :
    Ends (load a) m (fun e m' => e = .lost ∧ m' = { m with touched := a :: m.touched })
      fun b m' => m.mem.byte a = some b ∧ m' = { m with touched := a :: m.touched } := by
  unfold load touch
  rw [ends_bind, ends_modify, ends_bind, ends_get]
  cases hb : m.mem.byte a with
  | none => exact ⟨rfl, rfl⟩
  | some b => exact ⟨rfl, rfl⟩

theorem Between.touch (hlo : lo ≤ a) (hhi : a < hi) :
    Between lo hi m { m with touched := a :: m.touched } := by
  intro b hb
  rcases mem_cons.mp hb with rfl | hb
  · exact .inr ⟨hlo, hhi⟩
  · exact .inl hb

theorem stringLoop_ends (fuel p n : ℕ)
    (h : m.mem.byte (p + n) = some 0 ∨ m.mem.byte (p + n) = none) :
    Ends (stringLoop fuel p) m (fun e m' => e = .lost ∧ Between p (p + n + 1) m m')
      fun _ m' => Between p (p + n + 1) m m' := by
  induction fuel generalizing p n m with
  | zero => exact ⟨rfl, Between.of_eq rfl⟩
  | succ fuel ih =>
    have hfirst : Between p (p + n + 1) m { m with touched := p :: m.touched } :=
      Between.touch le_rfl (by omega)
    refine ends_bind.mpr ((load_ends p m).mono ?_ ?_)
    · rintro e m' ⟨rfl, rfl⟩
      exact ⟨rfl, hfirst⟩
    · rintro c m' ⟨hc, rfl⟩
      split_ifs with hzero
      · exact hfirst
      · cases n with
        | zero =>
          rw [Nat.add_zero, hc] at h
          rcases h with h | h
          · exact absurd (Option.some.inj h) hzero
          · cases h
        | succ n =>
          have hnext := ih (m := { m with touched := p :: m.touched }) (p + 1) n
            (by rwa [Nat.add_right_comm])
          refine ends_bind.mpr (hnext.mono (fun e m' hm => ⟨hm.1, ?_⟩) fun s m' hm => ?_)
          · exact hfirst.trans (hm.2.mono (by omega) (by omega))
          · exact hfirst.trans (hm.mono (by omega) (by omega))

theorem stringLoop_confined (fuel p : ℕ) : Confined exits p (p + fuel) (stringLoop fuel p) := by
  induction fuel generalizing p with
  | zero => exact confined_lost
  | succ fuel ih =>
    refine (load_confined le_rfl (by omega)).bind fun c => ?_
    refine confined_ite (confined_pure _) (Confined.bind ?_ fun s => confined_pure _)
    exact (ih (p + 1)).mono (by omega) (by omega)

/-- The program reads the string at `p` and then touches nothing more. -/
def OnString (p : ℕ) (x : Sys Unit) : Prop :=
  ∃ k : CString → Sys Unit, x = userString p >>= k ∧
    ∀ s exits lo hi, Confined exits lo hi (k s)

theorem OnString.confined {x : Sys Unit} (h : OnString p x) :
    Confined false p (p + (2 ^ 32 + 1)) x := by
  obtain ⟨k, rfl, hk⟩ := h
  exact (stringLoop_confined _ p).bind fun s => hk s false _ _

theorem OnString.ends {n : ℕ} {x : Sys Unit} (h : OnString p x)
    (hend : m.mem.byte (p + n) = some 0 ∨ m.mem.byte (p + n) = none) :
    Ends x m (fun _ m' => Between p (p + n + 1) m m') fun _ m' => Between p (p + n + 1) m m' := by
  obtain ⟨k, rfl, hk⟩ := h
  refine ends_bind.mpr ((stringLoop_ends _ p n hend).mono (fun _ _ hm => hm.2) fun s m' hm => ?_)
  exact (hk s true _ _ m').mono (fun _ _ hs => hm.trans hs.2) fun _ _ hs => hm.trans hs

theorem sysCreate_onString (p : ℕ) (n : BitVec 32) : OnString p (sysCreate p n) :=
  ⟨_, rfl, fun _ _ _ _ => (fsOp_confined _).bind fun _ => setEax_confined _⟩

theorem sysRemove_onString (p : ℕ) : OnString p (sysRemove p) :=
  ⟨_, rfl, fun _ _ _ _ => confined_get.bind fun _ =>
    (fsOp_confined _).bind fun _ => setEax_confined _⟩

theorem sysOpen_onString (p : ℕ) : OnString p (sysOpen p) := by
  refine ⟨_, rfl, fun s exits lo hi => (fsOp_confined _).bind fun fp => ?_⟩
  cases fp with
  | none => exact setEax_confined _
  | some fp =>
    refine confined_get.bind fun m => Confined.bind ?_ fun _ => setEax_confined _
    exact confined_modify fun _ => rfl

theorem sysChdir_onString (p : ℕ) : OnString p (sysChdir p) :=
  ⟨_, rfl, fun _ _ _ _ => (fsOp_confined _).bind fun _ => setEax_confined _⟩

theorem sysMkdir_onString (p : ℕ) : OnString p (sysMkdir p) :=
  ⟨_, rfl, fun _ _ _ _ => (fsOp_confined _).bind fun _ => setEax_confined _⟩

/-- The program touches user addresses only and changes nothing else; if it stops, the
process has been ended with status -1. -/
def Checked (x : Sys α) : Prop :=
  ∀ m, Ends x m (fun e m' => e = .exited (-1) ∧ Between 0 physBase m m') fun _ m' =>
    Between 0 physBase m m' ∧ m' = { m with touched := m'.touched }

theorem Checked.bind {f : α → Sys β} (hx : Checked x) (hf : ∀ a, Checked (f a)) :
    Checked (x >>= f) := by
  intro m
  refine ends_bind.mpr ((hx m).mono (fun _ _ => id) fun a t ht => ?_)
  refine (hf a t).mono (fun e s hs => ⟨hs.1, ht.1.trans hs.2⟩) fun b s hs => ⟨ht.1.trans hs.1, ?_⟩
  rw [hs.2, ht.2]

theorem checked_pure (a : α) : Checked (pure a) :=
  fun _ => ⟨Between.of_eq rfl, rfl⟩

theorem checked_get : Checked (get : Sys Machine) :=
  fun _ => ⟨Between.of_eq rfl, rfl⟩

theorem checked_error : Checked (error : Sys α) :=
  fun _ => ⟨rfl, Between.of_eq rfl⟩

theorem getUserByte_ends (a : ℕ) (m : Machine) :
    Ends (getUserByte a) m (fun e m' => e = .exited (-1) ∧ Between 0 physBase m m')
      fun v m' => a < physBase ∧ m.mem.byte a = some (UInt8.ofNat v.toNat) ∧
        m' = { m with touched := a :: m.touched } := by
  unfold getUserByte touch
  split_ifs with ha
  · exact ⟨rfl, Between.of_eq rfl⟩
  · have hlt : a < physBase := Nat.lt_of_not_le ha
    rw [ends_bind, ends_modify, ends_bind, ends_get]
    cases hb : m.mem.byte a with
    | none => exact ⟨rfl, Between.touch (Nat.zero_le _) hlt⟩
    | some b =>
      refine ends_pure.mpr ⟨hlt, ?_, rfl⟩
      rw [BitVec.toNat_setWidth, Nat.mod_eq_of_lt (by have := b.toBitVec.isLt; omega)]
      exact congrArg some b.ofNat_toNat.symm

theorem getUserByte_checked (a : ℕ) : Checked (getUserByte a) := by
  intro m
  refine (getUserByte_ends a m).mono (fun _ _ => id) fun v m' hv => ?_
  obtain ⟨ha, -, rfl⟩ := hv
  exact ⟨Between.touch (Nat.zero_le _) ha, rfl⟩

theorem getUserInt_checked (a : ℕ) : Checked (getUserInt a) := by
  unfold getUserInt
  simp only [foldlM_cons, foldlM_nil, bind_assoc, pure_bind]
  exact (getUserByte_checked _).bind fun _ => (getUserByte_checked _).bind fun _ =>
    (getUserByte_checked _).bind fun _ => (getUserByte_checked _).bind fun _ => checked_pure _

theorem getUserPtr_checked (a : ℕ) : Checked (getUserPtr a) := by
  refine (getUserInt_checked a).bind fun ptr => ?_
  split_ifs
  · exact checked_error
  · exact (getUserByte_checked _).bind fun _ => checked_pure _

theorem Call.fetch_checked (args : ℕ) (c : Call) : Checked (c.fetch args) := by
  cases c with
  | halt => exact checked_pure _
  | exec | remove | openFile | chdir | mkdir =>
    exact (getUserPtr_checked _).bind fun _ => checked_pure _
  | create =>
    exact (getUserPtr_checked _).bind fun _ =>
      (getUserByte_checked _).bind fun _ => checked_pure _
  | read =>
    exact (getUserByte_checked _).bind fun _ => (getUserPtr_checked _).bind fun _ =>
      (getUserByte_checked _).bind fun _ => checked_pure _
  | write =>
    exact (getUserByte_checked _).bind fun _ => (getUserPtr_checked _).bind fun _ =>
      (getUserInt_checked _).bind fun _ => checked_pure _
  | seek =>
    exact (getUserByte_checked _).bind fun _ =>
      (getUserByte_checked _).bind fun _ => checked_pure _
  | readdir =>
    exact (getUserByte_checked _).bind fun _ =>
      (getUserPtr_checked _).bind fun _ => checked_pure _
  | exit | wait | filesize | tell | close | practice | isdir | inumber =>
    exact (getUserByte_checked _).bind fun _ => checked_pure _

theorem fetch_checked : Checked fetch := by
  refine checked_get.bind fun m => (getUserByte_checked _).bind fun cmd => ?_
  cases Call.ofNumber cmd.toNat with
  | none => exact checked_error
  | some c => exact c.fetch_checked m.esp

theorem checkString_ends (fuel p : ℕ) (hpos : 0 < fuel) (hfuel : physBase < p + fuel) :
    Ends (checkString fuel p) m (fun e m' => e = .exited (-1) ∧ Between 0 physBase m m')
      fun _ m' => Between 0 physBase m m' ∧ m' = { m with touched := m'.touched } ∧
        ∃ n, p + n < physBase ∧ m.mem.byte (p + n) = some 0 := by
  induction fuel generalizing p m with
  | zero => omega
  | succ fuel ih =>
    refine ends_bind.mpr ((getUserByte_ends p m).mono (fun _ _ => id) ?_)
    rintro v m' ⟨hp, hv, rfl⟩
    have hfirst : Between 0 physBase m { m with touched := p :: m.touched } :=
      Between.touch (Nat.zero_le _) hp
    split_ifs with hzero
    · refine ends_pure.mpr ⟨hfirst, rfl, 0, hp, ?_⟩
      rw [hzero] at hv
      exact hv
    · refine (ih (p + 1) (by omega) (by omega)).mono (fun e s hs => ⟨hs.1, hfirst.trans hs.2⟩) ?_
      rintro - s ⟨hbetween, hs, n, hn, hnul⟩
      refine ⟨hfirst.trans hbetween, hs, n + 1, by omega, ?_⟩
      rw [← hnul, Nat.add_right_comm, Nat.add_assoc]

/-- The bytes from an address up to `PHYS_BASE` are mapped, and none of them ends a
string. -/
def Memory.RunsOn (mem : Memory) (p : ℕ) : Prop :=
  ∀ a, p ≤ a → a < physBase → ∃ b, mem.byte a = some b ∧ b ≠ 0

/-- The string or the buffer of a call reaches `PHYS_BASE`.  The length of a buffer is the whole
word that the process passes; of that of a read the handler fetches the low byte only. -/
def Request.Reaches (m : Machine) : Request → Prop
  | exec p | create p _ | remove p | openFile p | chdir p | mkdir p => m.mem.RunsOn p
  | read _ buffer _ => physBase < buffer + (m.slot 3).toNat
  | write _ buffer size => physBase < buffer + size.toNat
  | _ => False

/-- The descriptor is one of an open file that is not known to be a directory. -/
def Machine.Usable (m : Machine) (fd : BitVec 32) : Prop :=
  1 < fd.toInt ∧ ∃ fn, m.fileList.find? (fun fn => fn.fd == fd) = some fn ∧
    ((fileIsdir fn.filePtr).run m.fs).map Prod.fst ≠ some true

/-- No check on the way ends the process: `exec` checks its string, and `read` and
`write` their descriptor. -/
def Request.Unchecked (m : Machine) : Request → Prop
  | exec _ => False
  | read fd _ _ => fd = 0 ∨ m.Usable fd
  | write fd _ _ => fd = 1 ∨ m.Usable fd
  | _ => True

/-- The call ends the process with status -1 and touches nothing. -/
def Refuses (x : Sys α) (m : Machine) : Prop :=
  Ends x m (fun e m' => e = .exited (-1) ∧ m'.touched = m.touched) fun _ _ => False

theorem Refuses.bind (f : α → Sys β) (h : Refuses x m) : Refuses (x >>= f) m :=
  ends_bind.mpr (h.mono (fun _ _ => id) fun _ _ => False.elim)

theorem regularFile_usable (h : m.Usable fd) :
    Ends (regularFile fd) m (fun e _ => e = .lost) fun _ _ => True := by
  obtain ⟨-, fn, hfind, hdir⟩ := h
  unfold regularFile getFnFromFd fsOp
  rw [ends_bind, ends_bind, ends_get, hfind, ends_pure, ends_bind, ends_bind, ends_get]
  cases hrun : (fileIsdir fn.filePtr).run m.fs with
  | none => exact ends_throw.mpr rfl
  | some r =>
    obtain ⟨b, fs⟩ := r
    rw [hrun] at hdir
    cases b with
    | true => exact absurd rfl hdir
    | false => trivial

theorem regularFile_refuses (hfd : 1 < fd.toInt) (h : ¬ m.Usable fd) :
    Refuses (regularFile fd) m := by
  unfold Refuses regularFile getFnFromFd fsOp
  rw [ends_bind, ends_bind, ends_get]
  cases hfind : m.fileList.find? fun fn => fn.fd == fd with
  | none => exact ⟨rfl, rfl⟩
  | some fn =>
    have hdir : ((fileIsdir fn.filePtr).run m.fs).map Prod.fst = some true := by
      by_contra hne
      exact h ⟨hfd, fn, hfind, hne⟩
    obtain ⟨⟨b, fs⟩, hrun, rfl⟩ := Option.map_eq_some_iff.mp hdir
    rw [ends_pure, ends_bind, ends_bind, ends_get, hrun]
    exact ⟨rfl, rfl⟩

theorem one_lt_toInt (hneg : ¬ fd.toInt < 0) (h0 : fd ≠ 0) (h1 : fd ≠ 1) : 1 < fd.toInt := by
  have h0' : fd.toInt ≠ 0 := fun heq => h0 (BitVec.eq_of_toInt_eq heq)
  have h1' : fd.toInt ≠ 1 := fun heq => h1 (BitVec.eq_of_toInt_eq heq)
  omega

theorem Machine.Usable.ne (h : m.Usable fd) : ¬ fd.toInt < 0 ∧ fd ≠ 0 ∧ fd ≠ 1 := by
  have hfd := h.1
  refine ⟨by omega, ?_, ?_⟩ <;> rintro rfl <;> exact absurd hfd (by decide)

theorem getFnFromFd_confined (fd : BitVec 32) : Confined true lo hi (getFnFromFd fd) := by
  refine confined_get.bind fun m => ?_
  cases m.fileList.find? fun fn => fn.fd == fd with
  | none => exact confined_throw _
  | some fn => exact confined_pure fn

theorem regularFile_confined (fd : BitVec 32) : Confined true lo hi (regularFile fd) := by
  refine (getFnFromFd_confined fd).bind fun fn => (fsOp_confined _).bind fun b => ?_
  exact confined_ite (confined_throw _) (confined_pure _)

section Transfer

variable (fd : BitVec 32) (buffer : ℕ) (size : BitVec 32)

theorem sysRead_confined : Confined true buffer (buffer + size.toNat) (sysRead fd buffer size) := by
  refine confined_ite (confined_get.bind fun _ => setEax_confined _) ?_
  refine confined_ite (confined_throw _) ((regularFile_confined fd).bind fun fp => ?_)
  exact (fileReadInto_confined fp buffer _).bind fun _ => setEax_confined _

theorem sysWrite_confined :
    Confined true buffer (buffer + size.toNat) (sysWrite fd buffer size) := by
  have hsize : size.toInt.toNat ≤ size.toNat := by
    rw [BitVec.toInt_eq_toNat_cond]
    split_ifs
    · exact le_rfl
    · omega
  refine confined_ite ((putbuf_confined buffer _).bind fun _ => setEax_confined _) ?_
  refine confined_ite (confined_throw _) ((regularFile_confined fd).bind fun fp => ?_)
  exact ((fileWriteFrom_confined fp buffer _).mono le_rfl (by omega)).bind fun _ =>
    setEax_confined _

variable {fd}

theorem sysRead_taken (h : fd = 0 ∨ m.Usable fd) :
    Ends (sysRead fd buffer size) m (fun e _ => e = .lost) fun _ _ => True := by
  unfold sysRead
  rcases h with rfl | h
  · trivial
  · obtain ⟨hneg, h0, h1⟩ := h.ne
    rw [if_neg h0, if_neg (not_or.mpr ⟨hneg, h1⟩)]
    refine (regularFile_usable h).bind fun fp m' _ => ?_
    have hrest : Confined false buffer (buffer + size.toNat) _ :=
      (fileReadInto_confined fp buffer size.toNat).bind fun n => setEax_confined (BitVec.ofNat 32 n)
    exact (hrest m').mono (fun _ _ hs => hs.1.resolve_right (by decide)) fun _ _ _ => trivial

theorem sysRead_refuses (h : ¬ (fd = 0 ∨ m.Usable fd)) : Refuses (sysRead fd buffer size) m := by
  obtain ⟨h0, husable⟩ := not_or.mp h
  unfold sysRead
  rw [if_neg h0]
  split_ifs with hfd
  · exact ⟨rfl, rfl⟩
  · obtain ⟨hneg, h1⟩ := not_or.mp hfd
    exact (regularFile_refuses (one_lt_toInt hneg h0 h1) husable).bind _

theorem sysWrite_taken (h : fd = 1 ∨ m.Usable fd) :
    Ends (sysWrite fd buffer size) m (fun e _ => e = .lost) fun _ _ => True := by
  unfold sysWrite
  rcases h with rfl | h
  · have hput : Confined false buffer (buffer + size.toNat) _ :=
      (putbuf_confined buffer size.toNat).bind fun _ => setEax_confined size
    rw [if_pos rfl]
    exact (hput m).mono (fun _ _ hs => hs.1.resolve_right (by decide)) fun _ _ _ => trivial
  · obtain ⟨-, -, h1⟩ := h.ne
    have hfd := h.1
    rw [if_neg h1, if_neg (by omega)]
    refine (regularFile_usable h).bind fun fp m' _ => ?_
    have hrest : Confined false buffer (buffer + size.toInt.toNat) _ :=
      (fileWriteFrom_confined fp buffer size.toInt).bind fun n =>
        setEax_confined (BitVec.ofNat 32 n)
    exact (hrest m').mono (fun _ _ hs => hs.1.resolve_right (by decide)) fun _ _ _ => trivial

theorem sysWrite_refuses (h : ¬ (fd = 1 ∨ m.Usable fd)) : Refuses (sysWrite fd buffer size) m := by
  obtain ⟨h1, husable⟩ := not_or.mp h
  unfold sysWrite
  rw [if_neg h1]
  split_ifs with hfd
  · exact ⟨rfl, rfl⟩
  · have h0 : fd ≠ 0 := by
      rintro rfl
      exact hfd (by decide)
    exact (regularFile_refuses (one_lt_toInt (by omega) h0 h1) husable).bind _

end Transfer

theorem Request.act_taken (r : Request) (hreach : r.Reaches m) (h : r.Unchecked m) :
    Ends r.act m (fun e _ => e = .lost) fun _ _ => True := by
  have hstring : ∀ {p : ℕ} {x : Sys Unit}, OnString p x →
      Ends x m (fun e _ => e = .lost) fun _ _ => True := fun hx =>
    (hx.confined m).mono (fun _ _ hs => hs.1.resolve_right (by decide)) fun _ _ _ => trivial
  cases r with
  | create p n => exact hstring (sysCreate_onString p n)
  | remove p => exact hstring (sysRemove_onString p)
  | openFile p => exact hstring (sysOpen_onString p)
  | chdir p => exact hstring (sysChdir_onString p)
  | mkdir p => exact hstring (sysMkdir_onString p)
  | read fd buffer size => exact sysRead_taken buffer size h
  | write fd buffer size => exact sysWrite_taken buffer size h
  | exec p => exact h.elim
  | _ => exact hreach.elim

/-- What is required of a call. -/
def Request.Proper (r : Request) (m : Machine) : Prop :=
  Ends r.act m
    (fun e m' => Between 0 physBase m m' ∧ (r.Reaches m → e = .exited (-1)))
    fun _ m' => Between 0 physBase m m' ∧ ¬ r.Reaches m

theorem Confined.proper (hx : Confined true lo hi r.act) (hhi : hi ≤ physBase)
    (hr : ¬ r.Reaches m) : r.Proper m :=
  (hx m).mono (fun _ _ hs => ⟨hs.2.mono (Nat.zero_le _) hhi, fun h => absurd h hr⟩)
    fun _ _ hs => ⟨hs.mono (Nat.zero_le _) hhi, hr⟩

theorem Refuses.proper (hx : Refuses r.act m) : r.Proper m :=
  hx.mono (fun _ _ hs => ⟨.of_eq hs.2, fun _ => hs.1⟩) fun _ _ => False.elim

theorem OnString.proper (hx : OnString p r.act) (hreach : r.Reaches m ↔ m.mem.RunsOn p)
    (h : ¬ r.Reaches m) : r.Proper m := by
  have hend := h
  rw [hreach, Memory.RunsOn] at hend
  push Not at hend
  obtain ⟨a, hpa, ha, hbyte⟩ := hend
  obtain ⟨n, rfl⟩ := Nat.exists_eq_add_of_le hpa
  have hstop : m.mem.byte (p + n) = some 0 ∨ m.mem.byte (p + n) = none := by
    cases hb : m.mem.byte (p + n) with
    | none => exact .inr rfl
    | some b => rw [hbyte b hb]; exact .inl rfl
  exact (hx.ends hstop).mono (fun _ _ hs => ⟨hs.mono (Nat.zero_le _) ha, fun hr => absurd hr h⟩)
    fun _ _ hs => ⟨hs.mono (Nat.zero_le _) ha, h⟩

theorem sysExec_proper (p : ℕ) : (Request.exec p).Proper m := by
  have hchecked := checkString_ends (m := m) (2 ^ 32 + 1) p (by omega) (by rw [physBase]; omega)
  refine ends_bind.mpr (hchecked.mono (fun e m' hm => ⟨hm.2, fun _ => hm.1⟩) ?_)
  rintro - m' ⟨hbetween, hm', n, hn, hnul⟩
  have hreach : ¬ (Request.exec p).Reaches m := by
    intro hruns
    obtain ⟨b, hb, hne⟩ := hruns (p + n) (Nat.le_add_right p n) hn
    rw [hnul] at hb
    exact hne (Option.some.inj hb).symm
  have hstring : Ends (userString p) m' _ _ := stringLoop_ends (2 ^ 32 + 1) p n
    (.inl (by rw [hm']; exact hnul))
  refine ends_bind.mpr (hstring.mono (fun e s hs => ?_) fun cmdline s hs => ?_)
  · exact ⟨hbetween.trans (hs.2.mono (Nat.zero_le _) hn), fun hr => absurd hr hreach⟩
  · have hall := hbetween.trans (hs.mono (Nat.zero_le _) hn)
    refine ((?_ : Confined true 0 physBase _) s).mono
      (fun _ _ hu => ⟨hall.trans hu.2, fun hr => absurd hr hreach⟩)
      fun _ _ hu => ⟨hall.trans hu, hreach⟩
    refine (fsOp_confined _).bind fun fp => ?_
    cases fp with
    | none => exact setEax_confined _
    | some fp =>
      exact (fsOp_confined _).bind fun _ => confined_get.bind fun _ => setEax_confined _

theorem fileQuery_confined (fd : BitVec 32) (ask : Fnode → Op α) (reply : α → BitVec 32) :
    Confined true 0 0 (do
      let fn ← getFnFromFd fd
      let a ← fsOp (ask fn)
      setEax (reply a)) := by
  refine (getFnFromFd_confined fd).bind fun fn => ?_
  exact (fsOp_confined _).bind fun _ => setEax_confined _

theorem Checked.keeps (h : Checked x) (m : Machine) :
    Ends x m (fun _ _ => True) fun _ m' => m' = { m with touched := m'.touched } :=
  (h m).mono (fun _ _ _ => trivial) fun _ _ hm => hm.2

theorem getUserByte_byteAt (a : ℕ) (m : Machine) :
    Ends (getUserByte a) m (fun _ _ => True) fun v _ => v.toNat = m.byteAt a := by
  unfold getUserByte touch Machine.byteAt
  split_ifs
  · trivial
  · rw [ends_bind, ends_modify, ends_bind, ends_get]
    cases m.mem.byte a with
    | none => trivial
    | some b =>
      have := b.toBitVec.isLt
      rw [ends_pure, BitVec.toNat_setWidth, Nat.mod_eq_of_lt (by omega)]
      rfl

/-- The length that is fetched for a read is at most the one that is passed. -/
theorem fetch_read (m : Machine) : Ends fetch m (fun _ _ => True) fun r _ =>
    ∀ fd buffer size, r = .read fd buffer size → size.toNat ≤ (m.slot 3).toNat := by
  refine ends_bind.mpr (ends_get.mpr ?_)
  refine ((getUserByte_checked _).keeps m).bind fun cmd m₁ h₁ => ?_
  cases Call.ofNumber cmd.toNat with
  | none => trivial
  | some c =>
    cases c with
    | read =>
      refine ((getUserByte_checked _).keeps m₁).bind fun fd m₂ h₂ => ?_
      refine ((getUserPtr_checked _).keeps m₂).bind fun buffer m₃ h₃ => ?_
      refine (getUserByte_byteAt _ m₃).bind fun v _ hv => ends_pure.mpr fun _ _ _ heq => ?_
      cases heq
      have hbyte : m₃.byteAt (m.esp + 12) = m.byteAt (m.esp + 4 * 3) := by rw [h₃, h₂, h₁]; rfl
      rw [hv, hbyte, m.slot_toNat]
      omega
    | _ => simp [Call.fetch, ends_bind, -bind_pure_comp]

theorem Request.act_proper (r : Request) (h : ¬ (r.Reaches m ∧ r.Unchecked m))
    (hread : ∀ fd buffer size, r = .read fd buffer size → size.toNat ≤ (m.slot 3).toNat) :
    r.Proper m := by
  have hquiet : ∀ {r : Request}, Confined true 0 0 r.act → ¬ r.Reaches m → r.Proper m :=
    fun hx hr => hx.proper (Nat.zero_le _) hr
  cases r with
  | halt => exact hquiet (confined_throw _) id
  | exit status => exact hquiet ((setEax_confined _).bind fun _ => confined_throw _) id
  | exec p => exact sysExec_proper p
  | wait pid => exact hquiet (confined_get.bind fun _ => setEax_confined _) id
  | create p n => exact (sysCreate_onString p n).proper Iff.rfl fun hr => h ⟨hr, trivial⟩
  | remove p => exact (sysRemove_onString p).proper Iff.rfl fun hr => h ⟨hr, trivial⟩
  | openFile p => exact (sysOpen_onString p).proper Iff.rfl fun hr => h ⟨hr, trivial⟩
  | chdir p => exact (sysChdir_onString p).proper Iff.rfl fun hr => h ⟨hr, trivial⟩
  | mkdir p => exact (sysMkdir_onString p).proper Iff.rfl fun hr => h ⟨hr, trivial⟩
  | filesize fd => exact hquiet (fileQuery_confined fd _ _) id
  | read fd buffer size =>
    have hsize := hread fd buffer size rfl
    by_cases hr : physBase < buffer + (m.slot 3).toNat
    · refine Refuses.proper ?_
      exact sysRead_refuses buffer size fun htaken => h ⟨hr, htaken⟩
    · exact (sysRead_confined fd buffer size).proper (by omega) hr
  | write fd buffer size =>
    by_cases hr : physBase < buffer + size.toNat
    · refine Refuses.proper ?_
      exact sysWrite_refuses buffer size fun htaken => h ⟨hr, htaken⟩
    · exact (sysWrite_confined fd buffer size).proper (Nat.le_of_not_lt hr) hr
  | seek fd position =>
    exact hquiet ((getFnFromFd_confined fd).bind fun fn => fsOp_confined _) id
  | tell fd => exact hquiet (fileQuery_confined fd _ _) id
  | close fd =>
    refine hquiet (confined_get.bind fun m' => ?_) id
    cases m'.fileList.find? fun fn => fn.fd == fd with
    | none => exact confined_pure _
    | some fn =>
      refine (fsOp_confined _).bind fun _ => ?_
      exact confined_modify fun _ => rfl
  | practice i => exact hquiet (setEax_confined _) id
  | readdir fd name =>
    refine hquiet ((getFnFromFd_confined fd).bind fun fn => ?_) id
    refine (fsOp_confined _).bind fun b => confined_ite ?_ (confined_throw _)
    exact (fsOp_confined _).bind fun _ => setEax_confined _
  | isdir fd => exact hquiet (fileQuery_confined fd _ _) id
  | inumber fd => exact hquiet (fileQuery_confined fd _ _) id

/-- The state in which a call begins: nothing has been touched for it. -/
def Machine.enter (m : Machine) : Machine :=
  { m with touched := [] }

/-- The request that the stack of the process holds, if the arguments can be fetched. -/
def Machine.request (m : Machine) : Option Request :=
  (fetch.exec m.enter).1.toOption

/-- The call touches user addresses only, and ends the process with status -1 if its
string or buffer reaches `PHYS_BASE`. -/
def Machine.Kept (m : Machine) : Prop :=
  (∀ a ∈ (syscallHandler.exec m.enter).2.touched, a < physBase) ∧
    ((∃ r, m.request = some r ∧ r.Reaches m) →
      (syscallHandler.exec m.enter).1 = .error (.exited (-1)))

/-- The string or buffer of the call reaches `PHYS_BASE`, and no other check ends the
process. -/
def Machine.Crosses (m : Machine) : Prop :=
  ∃ r, m.request = some r ∧ r.Reaches m ∧ r.Unchecked m

theorem Between.below (h : Between 0 physBase m.enter m') : ∀ a ∈ m'.touched, a < physBase := by
  intro a ha
  rcases h a ha with ha | ha
  · cases ha
  · exact ha.2

theorem exec_of_request (h : m.request = some r) :
    ∃ m', syscallHandler.exec m.enter = r.act.exec m' ∧ Between 0 physBase m.enter m' ∧
      m' = { m with touched := m'.touched } ∧
      ∀ fd buffer size, r = .read fd buffer size → size.toNat ≤ (m.slot 3).toNat := by
  have hfetch := fetch_checked m.enter
  have hread := fetch_read m.enter
  obtain ⟨res, m', hexec⟩ : ∃ res m', fetch.exec m.enter = (res, m') := ⟨_, _, rfl⟩
  rw [Machine.request, hexec] at h
  cases res with
  | error e => cases h
  | ok r' =>
    obtain rfl : r' = r := Option.some.inj h
    rw [ends_of_ok hexec] at hfetch hread
    refine ⟨m', ?_, hfetch.1, hfetch.2, hread⟩
    rw [syscallHandler, exec_bind, hexec]

theorem exec_of_no_request (h : m.request = none) :
    (syscallHandler.exec m.enter).1 = .error (.exited (-1)) ∧
      Between 0 physBase m.enter (syscallHandler.exec m.enter).2 := by
  have hfetch := fetch_checked m.enter
  obtain ⟨res, m', hexec⟩ : ∃ res m', fetch.exec m.enter = (res, m') := ⟨_, _, rfl⟩
  rw [Machine.request, hexec] at h
  cases res with
  | ok r => cases h
  | error e =>
    obtain ⟨rfl, hbetween⟩ := (ends_of_error hexec).mp hfetch
    rw [syscallHandler, exec_bind, hexec]
    exact ⟨rfl, hbetween⟩

/-- A system call keeps to user memory exactly when its string or buffer does not reach
`PHYS_BASE`, or when another check ends the process. -/
theorem kept_iff (m : Machine) : m.Kept ↔ ¬ m.Crosses := by
  constructor
  · rintro ⟨-, hends⟩ ⟨r, hr, hreach, hunchecked⟩
    obtain ⟨m', hexec, -, hm', -⟩ := exec_of_request hr
    have htaken : Ends r.act m' (fun e _ => e = .lost) fun _ _ => True := by
      rw [hm']
      exact r.act_taken hreach hunchecked
    have hstop := hends ⟨r, hr, hreach⟩
    rw [hexec] at hstop
    rw [ends_of_error (Prod.ext hstop rfl)] at htaken
    cases htaken
  · intro hcross
    cases hr : m.request with
    | none =>
      obtain ⟨hstop, hbetween⟩ := exec_of_no_request hr
      exact ⟨hbetween.below, fun _ => hstop⟩
    | some r =>
      obtain ⟨m', hexec, hbetween, hm', hread⟩ := exec_of_request hr
      have hproper : r.Proper m' := by
        rw [hm']
        exact r.act_proper (fun hh => hcross ⟨r, hr, hh⟩) hread
      have hreaches : r.Reaches m' ↔ r.Reaches m := by rw [hm']; rfl
      obtain ⟨res, m'', hact⟩ : ∃ res m'', r.act.exec m' = (res, m'') := ⟨_, _, rfl⟩
      rw [Machine.Kept, hexec, hact, hr]
      rw [Request.Proper, hreaches] at hproper
      cases res with
      | ok _ =>
        rw [ends_of_ok hact] at hproper
        refine ⟨(hbetween.trans hproper.1).below, ?_⟩
        rintro ⟨r', heq, hreach⟩
        cases heq
        exact absurd hreach hproper.2
      | error e =>
        rw [ends_of_error hact] at hproper
        refine ⟨(hbetween.trans hproper.1).below, ?_⟩
        rintro ⟨r', heq, hreach⟩
        cases heq
        exact congrArg Except.error (hproper.2 hreach)

/-- The stack of a call that writes two bytes to the console, of which the second is the
first of the kernel. -/
def leakStack : List UInt8 :=
  [9, 0, 0, 0, 1, 0, 0, 0, 255, 255, 255, 191, 2, 0, 0, 0]

/-- The kernel prints a byte of its own memory. -/
theorem write_leaks :
    (syscallHandler.exec (sampleMachine leakStack).enter).1.isOk = true ∧
      physBase ∈ (syscallHandler.exec (sampleMachine leakStack).enter).2.touched := by
  decide +kernel

end CS162.Userprog
