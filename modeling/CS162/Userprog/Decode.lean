import CS162.Userprog.Syscall

/-!
# The arguments of a system call

What the handlers fetch from a stack that is mapped.  `get_user_ptr` and `get_user_int`
put four bytes together; `get_user_byte` takes only the lowest of them, and all integer
arguments but the size in `write` are fetched with it.
-/

namespace CS162.Userprog

open Halt

def Machine.byteAt (m : Machine) (a : ℕ) : ℕ :=
  ((m.mem.byte a).getD 0).toNat

/-- The 32-bit value in slot `k` of the stack; the call number is in slot 0. -/
def Machine.slot (m : Machine) (k : ℕ) : BitVec 32 :=
  BitVec.ofNat 32 (m.byteAt (m.esp + 4 * k) + 256 * m.byteAt (m.esp + 4 * k + 1) +
    256 ^ 2 * m.byteAt (m.esp + 4 * k + 2) + 256 ^ 3 * m.byteAt (m.esp + 4 * k + 3))

def Machine.Mapped (m : Machine) (a : ℕ) : Prop :=
  a < physBase ∧ ∃ b, m.mem.byte a = some b

/-- The slots of the call number and of three arguments are mapped. -/
def Machine.StackMapped (m : Machine) : Prop :=
  ∀ i < 16, m.Mapped (m.esp + i)

/-- The pointer in slot `k` passes the checks of `get_user_ptr`. -/
def Machine.PointerOk (m : Machine) (k : ℕ) : Prop :=
  m.slot k ≠ 0 ∧ m.Mapped (m.slot k).toNat

theorem Machine.byteAt_lt (m : Machine) (a : ℕ) : m.byteAt a < 256 :=
  UInt8.toNat_lt _

theorem Machine.slot_toNat (m : Machine) (k : ℕ) :
    (m.slot k).toNat = m.byteAt (m.esp + 4 * k) + 256 * m.byteAt (m.esp + 4 * k + 1) +
      256 ^ 2 * m.byteAt (m.esp + 4 * k + 2) + 256 ^ 3 * m.byteAt (m.esp + 4 * k + 3) := by
  have h0 := m.byteAt_lt (m.esp + 4 * k)
  have h1 := m.byteAt_lt (m.esp + 4 * k + 1)
  have h2 := m.byteAt_lt (m.esp + 4 * k + 2)
  have h3 := m.byteAt_lt (m.esp + 4 * k + 3)
  rw [slot, BitVec.toNat_ofNat]
  exact Nat.mod_eq_of_lt (by omega)

variable {α β : Type} {m : Machine} {a k : ℕ}

/-- The program returns `v` and only touches memory. -/
def Fetches (x : Sys α) (m : Machine) (v : α) : Prop :=
  ∃ t, x.exec m = (.ok v, { m with touched := t })

theorem fetches_pure (v : α) : Fetches (pure v) m v :=
  ⟨m.touched, rfl⟩

theorem fetches_get : Fetches get m m :=
  ⟨m.touched, rfl⟩

theorem Fetches.bind {x : Sys α} {f : α → Sys β} {v : α} {w : β} (hx : Fetches x m v)
    (hf : ∀ t, Fetches (f v) { m with touched := t } w) : Fetches (x >>= f) m w := by
  obtain ⟨t, ht⟩ := hx
  obtain ⟨t', ht'⟩ := hf t
  refine ⟨t', ?_⟩
  rw [exec_bind, ht]
  exact ht'

theorem getUserByte_fetches (h : m.Mapped a) :
    Fetches (getUserByte a) m (BitVec.ofNat 32 (m.byteAt a)) := by
  obtain ⟨ha, b, hb⟩ := h
  have htouch : Fetches (touch a) m () := ⟨a :: m.touched, rfl⟩
  have hvalue : b.toBitVec.setWidth 32 = BitVec.ofNat 32 (m.byteAt a) := by
    apply BitVec.eq_of_toNat_eq
    rw [BitVec.toNat_setWidth, BitVec.toNat_ofNat, Machine.byteAt, hb]
    rfl
  rw [getUserByte, if_neg (Nat.not_le.mpr ha), ← hvalue]
  refine htouch.bind fun t => fetches_get.bind fun t' => ?_
  dsimp only
  rw [hb]
  exact fetches_pure _

theorem pow16_eq (n : ℕ) : pow16 n = BitVec.ofNat 32 (16 ^ n) := by
  induction n with
  | zero => rfl
  | succ n ih =>
    rw [pow16, ih, Nat.pow_succ, BitVec.ofNat_mul]
    rfl

theorem getUserInt_fetches (hk : k < 4) (h : m.StackMapped) :
    Fetches (getUserInt (m.esp + 4 * k)) m (m.slot k) := by
  have hbyte : ∀ j < 4, ∀ t, Fetches (getUserByte (m.esp + 4 * k + j)) { m with touched := t }
      (BitVec.ofNat 32 (m.byteAt (m.esp + 4 * k + j))) := by
    intro j hj t
    refine getUserByte_fetches (m := { m with touched := t }) ?_
    rw [Nat.add_assoc]
    exact h (4 * k + j) (by omega)
  have hsum : m.slot k = 0 + BitVec.ofNat 32 (m.byteAt (m.esp + 4 * k)) * pow16 (0 * 2) +
      BitVec.ofNat 32 (m.byteAt (m.esp + 4 * k + 1)) * pow16 (1 * 2) +
      BitVec.ofNat 32 (m.byteAt (m.esp + 4 * k + 2)) * pow16 (2 * 2) +
      BitVec.ofNat 32 (m.byteAt (m.esp + 4 * k + 3)) * pow16 (3 * 2) := by
    simp only [Machine.slot, pow16_eq, BitVec.ofNat_eq_ofNat, ← BitVec.ofNat_mul,
      ← BitVec.ofNat_add]
    congr 1
    omega
  rw [hsum]
  unfold getUserInt
  simp only [List.foldlM_cons, List.foldlM_nil, bind_assoc, pure_bind]
  refine (hbyte 0 (by omega) m.touched).bind fun t => ?_
  refine (hbyte 1 (by omega) t).bind fun t => ?_
  refine (hbyte 2 (by omega) t).bind fun t => ?_
  refine (hbyte 3 (by omega) t).bind fun t => ?_
  exact fetches_pure _

theorem getUserPtr_fetches (hk : k < 4) (h : m.StackMapped) (hptr : m.PointerOk k) :
    Fetches (getUserPtr (m.esp + 4 * k)) m (m.slot k).toNat := by
  refine (getUserInt_fetches hk h).bind fun t => ?_
  rw [if_neg hptr.1]
  exact (getUserByte_fetches (m := { m with touched := t }) hptr.2).bind fun t' => fetches_pure _

/-- What `get_user_byte` leaves of the value in a slot. -/
def lowByte (v : BitVec 32) : BitVec 32 :=
  BitVec.ofNat 32 (v.toNat % 256)

theorem lowByte_eq_iff (v : BitVec 32) : lowByte v = v ↔ v.toNat < 256 := by
  constructor
  · intro h
    rw [← h, lowByte, BitVec.toNat_ofNat]
    omega
  · intro h
    rw [lowByte, Nat.mod_eq_of_lt h, BitVec.ofNat_toNat, BitVec.setWidth_eq]

theorem getUserByte_slot (hk : k < 4) (h : m.StackMapped) :
    Fetches (getUserByte (m.esp + 4 * k)) m (lowByte (m.slot k)) := by
  have hlow : lowByte (m.slot k) = BitVec.ofNat 32 (m.byteAt (m.esp + 4 * k)) := by
    have := m.byteAt_lt (m.esp + 4 * k)
    rw [lowByte, m.slot_toNat]
    congr 1
    omega
  rw [hlow]
  exact getUserByte_fetches (h (4 * k) (by omega))

/-- The slots of a call that hold pointers. -/
def Call.pointerSlots : Call → List ℕ
  | exec | create | remove | openFile | chdir | mkdir => [1]
  | read | write | readdir => [2]
  | _ => []

/-- The slots of a call that hold integers. -/
def Call.integerSlots : Call → List ℕ
  | exit | wait | filesize | tell | close | practice | readdir | isdir | inumber => [1]
  | create => [2]
  | read | write => [1, 3]
  | seek => [1, 2]
  | _ => []

/-- The integer that a handler acts on as the argument in a slot. -/
def Request.integer : Request → ℕ → Option (BitVec 32)
  | exit status, 1 => some status
  | wait pid, 1 => some pid
  | create _ initialSize, 2 => some initialSize
  | filesize fd, 1 => some fd
  | read fd _ _, 1 => some fd
  | read _ _ size, 3 => some size
  | write fd _ _, 1 => some fd
  | write _ _ size, 3 => some size
  | seek fd _, 1 => some fd
  | seek _ position, 2 => some position
  | tell fd, 1 => some fd
  | close fd, 1 => some fd
  | practice i, 1 => some i
  | readdir fd _, 1 => some fd
  | isdir fd, 1 => some fd
  | inumber fd, 1 => some fd
  | _, _ => none

/-- The request that the handler makes of the slots. -/
def Call.request (m : Machine) : Call → Request
  | halt => .halt
  | exit => .exit (lowByte (m.slot 1))
  | exec => .exec (m.slot 1).toNat
  | wait => .wait (lowByte (m.slot 1))
  | create => .create (m.slot 1).toNat (lowByte (m.slot 2))
  | remove => .remove (m.slot 1).toNat
  | openFile => .openFile (m.slot 1).toNat
  | filesize => .filesize (lowByte (m.slot 1))
  | read => .read (lowByte (m.slot 1)) (m.slot 2).toNat (lowByte (m.slot 3))
  | write => .write (lowByte (m.slot 1)) (m.slot 2).toNat (m.slot 3)
  | seek => .seek (lowByte (m.slot 1)) (lowByte (m.slot 2))
  | tell => .tell (lowByte (m.slot 1))
  | close => .close (lowByte (m.slot 1))
  | practice => .practice (lowByte (m.slot 1))
  | chdir => .chdir (m.slot 1).toNat
  | mkdir => .mkdir (m.slot 1).toNat
  | readdir => .readdir (lowByte (m.slot 1)) (m.slot 2).toNat
  | isdir => .isdir (lowByte (m.slot 1))
  | inumber => .inumber (lowByte (m.slot 1))

theorem Call.fetch_request (c : Call) (h : m.StackMapped)
    (hptr : ∀ k ∈ c.pointerSlots, m.PointerOk k) : Fetches (c.fetch m.esp) m (c.request m) := by
  have hbyte : ∀ k < 4, ∀ t, Fetches (getUserByte (m.esp + 4 * k)) { m with touched := t }
      (lowByte (m.slot k)) :=
    fun k hk t => getUserByte_slot (m := { m with touched := t }) hk h
  have hpointer : ∀ k < 4, m.PointerOk k → ∀ t,
      Fetches (getUserPtr (m.esp + 4 * k)) { m with touched := t } (m.slot k).toNat :=
    fun k hk hp t => getUserPtr_fetches (m := { m with touched := t }) hk h hp
  have hword : ∀ k < 4, ∀ t, Fetches (getUserInt (m.esp + 4 * k)) { m with touched := t }
      (m.slot k) :=
    fun k hk t => getUserInt_fetches (m := { m with touched := t }) hk h
  cases c with
  | halt => exact fetches_pure _
  | exec | remove | openFile | chdir | mkdir =>
    refine (hpointer 1 (by decide) (hptr 1 (by decide)) m.touched).bind fun _ => ?_
    exact fetches_pure _
  | create =>
    refine (hpointer 1 (by decide) (hptr 1 (by decide)) m.touched).bind fun t => ?_
    exact (hbyte 2 (by decide) t).bind fun _ => fetches_pure _
  | read =>
    refine (hbyte 1 (by decide) m.touched).bind fun t => ?_
    refine (hpointer 2 (by decide) (hptr 2 (by decide)) t).bind fun t => ?_
    exact (hbyte 3 (by decide) t).bind fun _ => fetches_pure _
  | write =>
    refine (hbyte 1 (by decide) m.touched).bind fun t => ?_
    refine (hpointer 2 (by decide) (hptr 2 (by decide)) t).bind fun t => ?_
    exact (hword 3 (by decide) t).bind fun _ => fetches_pure _
  | seek =>
    refine (hbyte 1 (by decide) m.touched).bind fun t => ?_
    exact (hbyte 2 (by decide) t).bind fun _ => fetches_pure _
  | readdir =>
    refine (hbyte 1 (by decide) m.touched).bind fun t => ?_
    exact (hpointer 2 (by decide) (hptr 2 (by decide)) t).bind fun _ => fetches_pure _
  | exit | wait | filesize | tell | close | practice | isdir | inumber =>
    exact (hbyte 1 (by decide) m.touched).bind fun _ => fetches_pure _

theorem fetch_request (c : Call) (h : m.StackMapped) (hnum : (lowByte (m.slot 0)).toNat = c.number)
    (hptr : ∀ k ∈ c.pointerSlots, m.PointerOk k) : Fetches fetch m (c.request m) := by
  refine fetches_get.bind fun t => ?_
  have hfirst := getUserByte_slot (m := { m with touched := t }) (k := 0) (by decide) h
  refine hfirst.bind fun t' => ?_
  have hcmd' : (lowByte (Machine.slot { m with touched := t } 0)).toNat = c.number := hnum
  rw [hcmd', c.ofNumber_number]
  exact Call.fetch_request (m := { m with touched := t' }) c h hptr

theorem Call.request_integer (c : Call) (m : Machine) (hk : k ∈ c.integerSlots) :
    (c.request m).integer k =
      some (if c = .write ∧ k = 3 then m.slot k else lowByte (m.slot k)) := by
  revert k
  cases c <;> simp [integerSlots, request, Request.integer]

/-- On a mapped stack an integer argument is decoded whole exactly when it is the size
in `write` or fits in a byte.  Of the call number the low byte counts. -/
theorem fetch_integer_iff (c : Call) (h : m.StackMapped)
    (hnum : (lowByte (m.slot 0)).toNat = c.number)
    (hptr : ∀ k ∈ c.pointerSlots, m.PointerOk k) :
    ∃ r m', fetch.exec m = (.ok r, m') ∧ syscallHandler.exec m = r.act.exec m' ∧
      ∀ k ∈ c.integerSlots, ∃ v, r.integer k = some v ∧
        (v = m.slot k ↔ c = .write ∧ k = 3 ∨ (m.slot k).toNat < 256) := by
  obtain ⟨t, ht⟩ := fetch_request c h hnum hptr
  refine ⟨_, _, ht, ?_, fun k hk => ⟨_, c.request_integer m hk, ?_⟩⟩
  · rw [syscallHandler, exec_bind, ht]
  · split_ifs with hwrite
    · exact ⟨fun _ => .inl hwrite, fun _ => rfl⟩
    · rw [lowByte_eq_iff, or_iff_right hwrite]

/-- A process with memory from a list of bytes at address 4096 and zeros around it. -/
def sampleMachine (bytes : List UInt8) : Machine where
  mem := {
    byte := fun a =>
      if a < 2 ^ 32 then some (if 4096 ≤ a then bytes.getD (a - 4096) 0 else 0) else none
    writable := fun _ => true
    byte_eq_none := fun _ ha => if_neg (Nat.not_lt.mpr ha) }
  esp := 4096
  eax := 0
  fs := Filesys.blank 16 (fun _ _ => 0) fun _ _ => 0
  fileList := []
  nextFd := 2
  console := []
  outside := ⟨0, false, fun _ => 0, fun _ => 0⟩
  touched := []

theorem sampleMachine_stackMapped (bytes : List UInt8) : (sampleMachine bytes).StackMapped := by
  intro i hi
  have hesp : (sampleMachine bytes).esp = 4096 := rfl
  refine ⟨by rw [hesp, physBase]; omega, _, if_pos ?_⟩
  rw [hesp]
  omega

/-- The stack of a call that writes 300 bytes from address 4096 to the console. -/
def writeStack : List UInt8 :=
  [9, 0, 0, 0, 1, 0, 0, 0, 0, 16, 0, 0, 44, 1, 0, 0]

theorem fetch_integer_iff_write :
    ∃ r m', fetch.exec (sampleMachine writeStack) = (.ok r, m') ∧
      r.integer 1 = some 1 ∧ r.integer 3 = some 300 := by
  have hptr : ∀ k ∈ Call.write.pointerSlots, (sampleMachine writeStack).PointerOk k := by
    intro k hk
    obtain rfl := List.mem_singleton.mp hk
    exact ⟨by decide, by decide, _, rfl⟩
  obtain ⟨r, m', hr, -, hint⟩ := fetch_integer_iff (m := sampleMachine writeStack) .write
    (sampleMachine_stackMapped _) (by decide) hptr
  obtain ⟨fd, hfd, hfdiff⟩ := hint 1 (by decide)
  obtain ⟨size, hsize, hsizeiff⟩ := hint 3 (by decide)
  exact ⟨r, m', hr, hfd.trans (congrArg some (hfdiff.mpr (by decide))),
    hsize.trans (congrArg some (hsizeiff.mpr (by decide)))⟩

/-- `exit (-1)` is carried out as `exit (255)`. -/
theorem fetch_exit_truncated :
    (sampleMachine [1, 0, 0, 0, 255, 255, 255, 255]).slot 1 = -1 ∧
      (fetch.exec (sampleMachine [1, 0, 0, 0, 255, 255, 255, 255])).1.toOption =
        some (.exit 255) := by
  decide

end CS162.Userprog
