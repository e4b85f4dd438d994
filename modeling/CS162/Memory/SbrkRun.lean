import CS162.Memory.Sbrk

/-!
# Runs of `sbrk`

A process moves its break while others take pages from the user pool and give them back.
When the heap shrinks, `fit_brk_pg` gives back as many frames as pages are removed, beginning
with the frame of the lowest one: `Together` says that these are the frames of the removed
pages.  A run keeps the heap exact if and only if its calls are of this kind.
-/

namespace CS162.Memory

open Threads Userprog Filesys Option

/-- The process, the pools, and the runs of user pages that others have. -/
structure Machine where
  proc : Process
  alloc : Palloc
  others : List Grant

def Machine.frame (s : Machine) (n : ℕ) : Option ℕ :=
  frameOf s.alloc s.proc.pagedir n

inductive SbrkCall where
  | sbrk (increment : BitVec 32)
  | get (zero : Bool) (pageCnt : ℕ)
  | free (r : Grant)
  /-- Others are going to free the first pages of a grant without the rest. -/
  | split (r : Grant) (cnt : ℕ)
  deriving DecidableEq, Repr

/-- The break stays between the start of the heap and the stack, and others free what they
have. -/
def SbrkCall.Legal (stack : ℕ) (s : Machine) : SbrkCall → Prop
  | .sbrk increment => (s.proc.heapStart : ℤ) ≤ s.proc.brk + increment.toInt ∧
      s.proc.brk + increment.toInt ≤ stack
  | .get _ _ => True
  | .free r => r ∈ s.others
  | .split r cnt => r ∈ s.others ∧ 0 < cnt ∧ cnt < r.cnt

instance (stack : ℕ) (s : Machine) : ∀ c : SbrkCall, Decidable (c.Legal stack s)
  | .sbrk _ => inferInstanceAs (Decidable (_ ∧ _))
  | .get _ _ => inferInstanceAs (Decidable True)
  | .free r => inferInstanceAs (Decidable (r ∈ s.others))
  | .split _ _ => inferInstanceAs (Decidable (_ ∧ _))

def sbrkStep (k : Globals) (s : Machine) : SbrkCall → Option Machine
  | .sbrk increment => (syscallSbrk k s.proc increment s.alloc).map fun r =>
    { s with proc := r.2.1, alloc := r.2.2 }
  | .get zero pageCnt => (s.alloc.getMultiple { user := true, zero } pageCnt).map fun
      | (none, a) => { s with alloc := a }
      | (some pages, a) => { s with alloc := a, others := ⟨true, pages, pageCnt⟩ :: s.others }
  | .free r => (s.alloc.freeMultiple r.pages r.cnt).map fun a =>
    { s with alloc := a, others := s.others.erase r }
  | .split r cnt => some { s with
      others := { r with cnt } ::
        { r with pages := r.pages + pgSize * cnt, cnt := r.cnt - cnt } :: s.others.erase r }

def InHeap (stack : ℕ) (p : Process) (n : ℕ) : Prop :=
  p.heapStart ≤ pgSize * n ∧ pgSize * n < stack

/-- The pages of the heap up to the break are mapped, each to a frame of its own that is in
use. -/
structure HeapExact (stack : ℕ) (s : Machine) : Prop where
  mapped : ∀ n, InHeap stack s.proc n →
    ((s.frame n).isSome ↔ pgSize * n < pgRoundUp s.proc.brk)
  used : ∀ n f, InHeap stack s.proc n → s.frame n = some f →
    ∃ idx < s.alloc.userPool.usedMap.bitCnt, f = s.alloc.userPool.base + pgSize * idx ∧
      s.alloc.userPool.usedMap.bit idx = true
  own : ∀ n n' f, InHeap stack s.proc n → s.frame n = some f → s.frame n' = some f → n = n'
  apart : ∀ n f, InHeap stack s.proc n → s.frame n = some f → ∀ r ∈ s.others, ¬ r.Has f

/-- Pages that are new are zero. -/
def NewZero (s s' : Machine) : Prop :=
  ∀ n f, s.frame n = none → s'.frame n = some f → ∀ x, InPage f x → s'.alloc.mem x = 0

/-- When the heap shrinks, the frames that are given back are those of the pages that are
removed. -/
def Returns (s s' : Machine) : Prop :=
  pgRoundUp s'.proc.brk < pgRoundUp s.proc.brk →
    ∀ idx < s.alloc.userPool.usedMap.bitCnt, (s'.alloc.userPool.usedMap.bit idx = true ↔
      s.alloc.userPool.usedMap.bit idx = true ∧
        ¬ ∃ n, s.frame n = some (s.alloc.userPool.base + pgSize * idx) ∧ s'.frame n = none)

/-- The call does what it should. -/
def Exact (k : Globals) (stack : ℕ) (s : Machine) (c : SbrkCall) : Prop :=
  ∃ s', sbrkStep k s c = some s' ∧ HeapExact stack s' ∧ NewZero s s' ∧ Returns s s'

/-- The frames of the pages that the call removes are those that follow the frame of the lowest
one. -/
def Together (s : Machine) : SbrkCall → Prop
  | .sbrk increment =>
    let src := pgRoundUp s.proc.brk / pgSize
    let trg := pgRoundUp (s.proc.trgBrk increment) / pgSize
    trg < src → ∃ f, s.frame trg = some f ∧
      ∀ a, (∃ n, trg ≤ n ∧ n < src ∧ s.frame n = some a) ↔ ∃ j < src - trg, a = f + pgSize * j
  | _ => True

/-- The run is a run of pages of the pool that are in use. -/
def RunOf (p : Threads.Pool) (r : Grant) : Prop :=
  ∃ idx, r.pages = p.base + pgSize * idx ∧ r.cnt ≠ 0 ∧ idx + r.cnt ≤ p.usedMap.bitCnt ∧
    ∀ j < r.cnt, p.usedMap.bit (idx + j) = true

/-- The frames of the process are in use and apart, also from the pages that others have. -/
structure Owned (k : Globals) (stack : ℕ) (s : Machine) (T M : ℕ → Option ℕ) : Prop where
  space : Space k s.alloc s.proc.pagedir T M
  start_mod : s.proc.heapStart % pgSize = 0
  stack_mod : stack % pgSize = 0
  stack_le : stack ≤ loaderPhysBase
  le_brk : s.proc.heapStart ≤ s.proc.brk
  brk_le : s.proc.brk ≤ stack
  inj : ∀ n n' f, M n = some f → M n' = some f → n = n'
  marked : ∀ n idx, M n = some (s.alloc.userPool.base + pgSize * idx) →
    s.alloc.userPool.usedMap.bit idx = true
  grants : ∀ r ∈ s.others, RunOf s.alloc.userPool r
  apart : ∀ n f, M n = some f → ∀ r ∈ s.others, ¬ r.Has f
  pairwise : s.others.Pairwise fun r r' => ∀ a, r.Has a → ¬ r'.Has a

/-- The heap is mapped up to the break. -/
def MappedTo (stack : ℕ) (p : Process) (M : ℕ → Option ℕ) : Prop :=
  ∀ n, InHeap stack p n → ((M n).isSome ↔ pgSize * n < pgRoundUp p.brk)

section Pools

variable {p : Threads.Pool} {b : Bitmap} {r : Grant} {idx cnt i : ℕ}

theorem RunOf.has_iff {j : ℕ} (hpages : r.pages = p.base + pgSize * idx) :
    r.Has (p.base + pgSize * j) ↔ idx ≤ j ∧ j < idx + r.cnt := by
  unfold Grant.Has
  rw [hpages]
  unfold pgSize
  omega

theorem RunOf.bit_of_has (h : RunOf p r) (hr : r.Has (p.base + pgSize * i)) :
    p.usedMap.bit i = true := by
  obtain ⟨idx, hpages, -, -, hbit⟩ := h
  obtain ⟨hle, hlt⟩ := (RunOf.has_iff hpages).mp hr
  have := hbit (i - idx) (by omega)
  rwa [Nat.add_sub_cancel' hle] at this

theorem RunOf.bit_of_byte {x : ℕ} (h : RunOf p r) (hx : r.Has x) :
    p.usedMap.bit ((x - p.base) / pgSize) = true := by
  have hpages := h.choose_spec.1
  refine h.bit_of_has ?_
  unfold Grant.Has at *
  unfold pgSize at *
  omega

theorem RunOf.set (h : RunOf p r) (hcnt : b.bitCnt = p.usedMap.bitCnt)
    (hbit : ∀ i, r.Has (p.base + pgSize * i) → p.usedMap.bit i = true → b.bit i = true) :
    RunOf { p with usedMap := b } r := by
  obtain ⟨idx, hpages, hpos, hin, hused⟩ := h
  refine ⟨idx, hpages, hpos, hin.trans_eq hcnt.symm, fun j hj => hbit _ ?_ (hused j hj)⟩
  exact (RunOf.has_iff hpages).mpr ⟨Nat.le_add_right _ _, by omega⟩

end Pools

/-- The call does what it should and leads to a state in which the next one can. -/
def Kept (k : Globals) (stack : ℕ) (s : Machine) (c : SbrkCall) : Prop :=
  ∃ s' T' M', sbrkStep k s c = some s' ∧ Owned k stack s' T' M' ∧ MappedTo stack s'.proc M' ∧
    NewZero s s' ∧ Returns s s'

section Steps

variable {k : Globals} {stack : ℕ} {s : Machine} {T M : ℕ → Option ℕ} {r : Grant}
  {increment : BitVec 32}

namespace Owned

theorem frame_eq (h : Owned k stack s T M) (n : ℕ) : s.frame n = M n :=
  h.space.frameOf_eq n

theorem brk_le_base (h : Owned k stack s T M) : s.proc.brk ≤ loaderPhysBase :=
  h.brk_le.trans h.stack_le

variable {n f idx cnt trg : ℕ} {T' : ℕ → Option ℕ} {a : Palloc} {b : Bitmap}

section

variable (h : Owned k stack s T M)

include h

theorem used (hn : M n = some f) :
    ∃ idx < s.alloc.userPool.usedMap.bitCnt, f = s.alloc.userPool.base + pgSize * idx ∧
      s.alloc.userPool.usedMap.bit idx = true := by
  obtain ⟨idx, hidx, rfl⟩ := h.space.frames n f hn
  exact ⟨idx, hidx, rfl, h.marked n idx hn⟩

theorem heapExact (hm : MappedTo stack s.proc M) :
    HeapExact stack s where
  mapped n hn := by
    rw [h.frame_eq]
    exact hm n hn
  used n f _ hf := h.used ((h.frame_eq n).symm.trans hf)
  own n n' f _ hf hf' :=
    h.inj n n' f ((h.frame_eq n).symm.trans hf) ((h.frame_eq n').symm.trans hf')
  apart n f _ hf := h.apart n f ((h.frame_eq n).symm.trans hf)

theorem newZero_of_same {s' : Machine} (h' : Owned k stack s' T' M) : NewZero s s' := by
  intro n f hn hn'
  rw [h.frame_eq] at hn
  rw [h'.frame_eq, hn] at hn'
  cases hn'

theorem kept_of_others {s' : Machine} {c : SbrkCall} (hm : MappedTo stack s.proc M)
    (hstep : sbrkStep k s c = some s') (h' : Owned k stack s' T M) (hproc : s'.proc = s.proc) :
    Kept k stack s c :=
  ⟨s', T, M, hstep, h', hproc.symm ▸ hm, h.newZero_of_same h', fun hlt =>
    absurd hlt (by rw [hproc]; exact lt_irrefl _)⟩

end

theorem get (h : Owned k stack s T M) (zero : Bool) (cnt : ℕ) :
    ∃ s', sbrkStep k s (.get zero cnt) = some s' ∧ Owned k stack s' T M ∧ s'.proc = s.proc := by
  have hsame : ∀ {o}, s.alloc.getMultiple { user := true, zero } cnt = some (none, o) →
      o = s.alloc → ∃ s', sbrkStep k s (.get zero cnt) = some s' ∧ Owned k stack s' T M ∧
        s'.proc = s.proc := by
    rintro o hget rfl
    refine ⟨s, ?_, h, rfl⟩
    rw [sbrkStep, hget]
    rfl
  by_cases hcnt : cnt = 0
  · subst hcnt
    exact hsame (Palloc.getMultiple_zero _ _) rfl
  cases hscan : bitmapScan s.alloc.userPool.usedMap.bit s.alloc.userPool.usedMap.bitCnt cnt with
  | none =>
    exact hsame (@Palloc.getMultiple_none s.alloc { user := true, zero } cnt h.space.layout hcnt
      hscan) rfl
  | some idx =>
    obtain ⟨hin, hclear⟩ := bitmapScan_some hscan
    obtain ⟨a, b, hget, ha, hpool, -, hbcnt, hbit, -⟩ := h.space.getUser hcnt zero hscan
    -- a page that is in use is not in the new run
    have hnot : ∀ i, s.alloc.userPool.usedMap.bit i = true → ¬ Grant.Has
        ⟨true, s.alloc.userPool.base + pgSize * idx, cnt⟩
        (s.alloc.userPool.base + pgSize * i) := by
      intro i hi hhas
      obtain ⟨hle, hlt⟩ := (RunOf.has_iff rfl).mp hhas
      rw [hclear i hle hlt] at hi
      cases hi
    have hbit' : ∀ i, s.alloc.userPool.usedMap.bit i = true → b.bit i = true := by
      intro i hi
      rw [hbit, bitmapSetMultiple]
      split_ifs
      · rfl
      · exact hi
    have hnew : RunOf { s.alloc.userPool with usedMap := b }
        ⟨true, s.alloc.userPool.base + pgSize * idx, cnt⟩ := by
      refine ⟨idx, rfl, hcnt, hin.trans_eq hbcnt.symm, fun j hj => ?_⟩
      rw [hbit]
      exact if_pos ⟨Nat.le_add_right _ _, Nat.add_lt_add_left hj idx⟩
    refine ⟨{ s with
      alloc := a
      others := ⟨true, s.alloc.userPool.base + pgSize * idx, cnt⟩ :: s.others }, ?_, ?_, rfl⟩
    · rw [sbrkStep, hget]
      rfl
    · refine { h with space := ha, marked := ?_, grants := ?_, apart := ?_, pairwise := ?_ }
      · intro n i hn
        rw [hpool] at hn ⊢
        exact hbit' i (h.marked n i hn)
      · intro r hr
        rw [hpool]
        rcases List.mem_cons.mp hr with rfl | hr
        · exact hnew
        · exact (h.grants r hr).set hbcnt fun i _ hi => hbit' i hi
      · intro n f hn r hr
        rcases List.mem_cons.mp hr with rfl | hr
        · obtain ⟨i, -, rfl, hi⟩ := h.used hn
          exact hnot i hi
        · exact h.apart n f hn r hr
      · refine List.pairwise_cons.mpr ⟨fun r hr x hx hx' => ?_, h.pairwise⟩
        refine hnot _ ((h.grants r hr).bit_of_byte hx') ?_
        unfold Grant.Has at *
        dsimp only at *
        unfold pgSize at *
        omega

section

variable (h : Owned k stack s T M)

include h

theorem others_erase (hr : r ∈ s.others) :
    (∀ r' ∈ s.others.erase r, ∀ a, r.Has a → ¬ r'.Has a) ∧
      (s.others.erase r).Pairwise fun r r' => ∀ a, r.Has a → ¬ r'.Has a :=
  List.pairwise_cons.mp ((List.perm_cons_erase hr).pairwise h.pairwise
    fun hd i hi hi' => hd i hi' hi)

theorem split {cnt : ℕ} (hr : r ∈ s.others) (hpos : 0 < cnt) (hlt : cnt < r.cnt) :
    ∃ s', sbrkStep k s (.split r cnt) = some s' ∧ Owned k stack s' T M ∧ s'.proc = s.proc := by
  obtain ⟨idx, hpages, -, hin, hused⟩ := h.grants r hr
  have herase := h.others_erase hr
  have hlow : ∀ a, Grant.Has { r with cnt } a → r.Has a := by
    unfold Grant.Has pgSize
    dsimp only
    omega
  have hhigh : ∀ a, Grant.Has { r with pages := r.pages + pgSize * cnt, cnt := r.cnt - cnt } a →
      r.Has a := by
    unfold Grant.Has pgSize
    dsimp only
    omega
  refine ⟨_, rfl, { h with grants := ?_, apart := fun n f hn => ?_, pairwise := ?_ }, rfl⟩
  · refine List.forall_mem_cons.mpr ⟨⟨idx, hpages, hpos.ne', by dsimp only; omega, fun j hj =>
      hused j (hj.trans hlt)⟩, List.forall_mem_cons.mpr ⟨⟨idx + cnt, ?_, by dsimp only; omega,
        by dsimp only; omega, fun j hj => ?_⟩, fun r' hr' => ?_⟩⟩
    · dsimp only
      rw [hpages, Nat.mul_add, Nat.add_assoc]
    · dsimp only at hj
      rw [Nat.add_assoc]
      exact hused _ (by omega)
    · exact h.grants r' (List.mem_of_mem_erase hr')
  · have hapart := h.apart n f hn
    exact List.forall_mem_cons.mpr ⟨hapart r hr ∘ hlow f, List.forall_mem_cons.mpr
      ⟨hapart r hr ∘ hhigh f, fun r' hr' => hapart r' (List.mem_of_mem_erase hr')⟩⟩
  · refine .cons (List.forall_mem_cons.mpr ⟨fun a ha ha' => ?_, fun r' hr' a ha =>
      herase.1 r' hr' a (hlow a ha)⟩) (.cons (fun r' hr' a ha =>
        herase.1 r' hr' a (hhigh a ha)) herase.2)
    unfold Grant.Has at ha ha'
    dsimp only at ha ha'
    omega

theorem free (hr : r ∈ s.others) :
    ∃ s', sbrkStep k s (.free r) = some s' ∧ Owned k stack s' T M ∧ s'.proc = s.proc := by
  obtain ⟨idx, hpages, hcnt, hin, hused⟩ := h.grants r hr
  obtain ⟨a, b, hfree, ha, hpool, hbcnt, hbit⟩ := h.space.freeUser hcnt hin hused
  rw [← hpages] at hfree
  -- the bits of all other pages stay
  have hbit' : ∀ i, ¬ r.Has (s.alloc.userPool.base + pgSize * i) →
      s.alloc.userPool.usedMap.bit i = true → b.bit i = true := by
    intro i hnot hi
    rw [hbit, bitmapSetMultiple, if_neg fun hlt => hnot ((RunOf.has_iff hpages).mpr hlt)]
    exact hi
  have hsplit := h.others_erase hr
  refine ⟨{ s with alloc := a, others := s.others.erase r }, ?_, ?_, rfl⟩
  · rw [sbrkStep, hfree]
    rfl
  · refine { h with space := ha, marked := ?_, grants := ?_, apart := ?_, pairwise := hsplit.2 }
    · intro n i hn
      rw [hpool] at hn ⊢
      exact hbit' i (h.apart n _ hn r hr) (h.marked n i hn)
    · intro r' hr'
      rw [hpool]
      exact (h.grants r' (List.mem_of_mem_erase hr')).set hbcnt fun i hi =>
        hbit' i fun hri => hsplit.1 r' hr' _ hri hi
    · intro n f hn r' hr'
      exact h.apart n f hn r' (List.mem_of_mem_erase hr')

theorem trgBrk_range (hl : SbrkCall.Legal stack s (.sbrk increment)) :
    s.proc.heapStart ≤ s.proc.trgBrk increment ∧ s.proc.trgBrk increment ≤ stack := by
  obtain ⟨hl, hl'⟩ := hl
  have hbase := h.stack_le
  rw [BitVec.toInt_eq_toNat_cond] at hl hl'
  unfold Process.trgBrk
  unfold loaderPhysBase at hbase
  split_ifs at hl hl' with hpos <;> omega

theorem vacant (hm : MappedTo stack s.proc M) (hle : pgRoundUp s.proc.brk ≤ pgSize * n)
    (hlt : pgSize * n < stack) : Vacant M n := by
  refine ⟨hlt.trans_le h.stack_le, ?_⟩
  have hin : InHeap stack s.proc n := ⟨(h.le_brk.trans (le_pgRoundUp h.brk_le_base)).trans hle, hlt⟩
  have hnone := (not_congr (hm n hin)).mpr (not_lt.mpr hle)
  rwa [Bool.not_eq_true, isSome_eq_false_iff, isNone_iff_eq_none] at hnone

theorem sbrkStep_eq (increment : BitVec 32) :
    sbrkStep k s (.sbrk increment) =
      (if pgRoundUp s.proc.brk / pgSize = pgRoundUp (s.proc.trgBrk increment) / pgSize then
        some (true, s.alloc)
      else if pgRoundUp s.proc.brk / pgSize < pgRoundUp (s.proc.trgBrk increment) / pgSize then
        growBrk k s.proc.pagedir (pgSize * (pgRoundUp s.proc.brk / pgSize))
          (pgSize * (pgRoundUp (s.proc.trgBrk increment) / pgSize)) s.alloc
      else shrinkBrk s.proc.pagedir (pgSize * (pgRoundUp s.proc.brk / pgSize))
          (pgSize * (pgRoundUp (s.proc.trgBrk increment) / pgSize)) s.alloc).map fun r =>
        { s with
          proc := if r.1 then { s.proc with brk := s.proc.trgBrk increment } else s.proc
          alloc := r.2 } := by
  rw [sbrkStep, syscallSbrk_eq h.brk_le_base, map_map]
  refine congrArg (fun f => Option.map f _) (funext fun r => ?_)
  obtain ⟨ok, a⟩ := r
  cases ok with
  | false => rfl
  | true => rfl

theorem kept_of_eq (hm : MappedTo stack s.proc M) (hl : SbrkCall.Legal stack s (.sbrk increment))
    (heq : pgRoundUp s.proc.brk / pgSize = pgRoundUp (s.proc.trgBrk increment) / pgSize) :
    Kept k stack s (.sbrk increment) := by
  obtain ⟨hle, hle'⟩ := h.trgBrk_range hl
  have hround : pgRoundUp (s.proc.trgBrk increment) = pgRoundUp s.proc.brk := by
    rw [← pgSize_mul_div (pgRoundUp_mod s.proc.brk), heq, pgSize_mul_div (pgRoundUp_mod _)]
  have h' : Owned k stack { s with proc := { s.proc with brk := s.proc.trgBrk increment } } T M :=
    { h with le_brk := hle, brk_le := hle' }
  refine ⟨_, T, M, ?_, h', fun n hn => ?_, h.newZero_of_same h', fun hlt => ?_⟩
  · rw [h.sbrkStep_eq, if_pos heq]
    rfl
  · exact (hm n hn).trans (by rw [hround])
  · exact absurd (hlt : pgRoundUp (s.proc.trgBrk increment) < _) (by rw [hround]; exact lt_irrefl _)

end

theorem withRun_eq_some {pg base : ℕ} (h : withRun M pg (base + pgSize * idx) cnt n = some f) :
    (pg ≤ n ∧ n < pg + cnt) ∧ f = base + pgSize * (idx + (n - pg)) ∨
      ¬ (pg ≤ n ∧ n < pg + cnt) ∧ M n = some f := by
  unfold withRun at h
  split_ifs at h with hn
  · refine .inl ⟨hn, ?_⟩
    rw [← some.inj h, Nat.mul_add, Nat.add_assoc]
  · exact .inr ⟨hn, h⟩

theorem addRun {pg brk : ℕ} (h : Owned k stack s T M)
    (hscan : bitmapScan s.alloc.userPool.usedMap.bit s.alloc.userPool.usedMap.bitCnt cnt = some idx)
    (ha : Space k a s.proc.pagedir T' (withRun M pg (s.alloc.userPool.base + pgSize * idx) cnt))
    (hpool : a.userPool = { s.alloc.userPool with usedMap := b })
    (hbcnt : b.bitCnt = s.alloc.userPool.usedMap.bitCnt)
    (hbit : b.bit = bitmapSetMultiple s.alloc.userPool.usedMap.bit idx cnt true)
    (hle : s.proc.heapStart ≤ brk) (hle' : brk ≤ stack) :
    Owned k stack { s with proc := { s.proc with brk }, alloc := a } T'
      (withRun M pg (s.alloc.userPool.base + pgSize * idx) cnt) := by
  obtain ⟨hin, hclear⟩ := bitmapScan_some hscan
  -- a page that is in use is not one of the new ones
  have hnew : ∀ j < cnt, s.alloc.userPool.usedMap.bit (idx + j) ≠ true := by
    intro j hj hset
    rw [hclear _ (Nat.le_add_right _ _) (by omega)] at hset
    cases hset
  have hold : ∀ {n j}, j < cnt → M n ≠ some (s.alloc.userPool.base + pgSize * (idx + j)) :=
    fun hj hn => hnew _ hj (h.marked _ _ hn)
  have hbit' : ∀ i, s.alloc.userPool.usedMap.bit i = true → b.bit i = true := by
    intro i hi
    rw [hbit, bitmapSetMultiple]
    split_ifs
    · rfl
    · exact hi
  refine { h with
    space := ha, le_brk := hle, brk_le := hle', inj := ?_, marked := ?_, grants := ?_,
    apart := ?_ }
  · intro n n' f hn hn'
    rcases withRun_eq_some hn with ⟨hr, rfl⟩ | ⟨-, hM⟩ <;>
      rcases withRun_eq_some hn' with ⟨hr', hf⟩ | ⟨-, hM'⟩
    · unfold pgSize at hf
      omega
    · exact absurd hM' (hold (by omega))
    · exact absurd (hf ▸ hM) (hold (by omega))
    · exact h.inj n n' f hM hM'
  · intro n i hn
    rw [hpool] at hn ⊢
    rcases withRun_eq_some hn with ⟨hr, hf⟩ | ⟨-, hM⟩
    · rw [hbit]
      refine if_pos ?_
      unfold pgSize at hf
      dsimp only at hf
      omega
    · exact hbit' i (h.marked n i hM)
  · intro r hr
    rw [hpool]
    exact (h.grants r hr).set hbcnt fun i _ hi => hbit' i hi
  · intro n f hn r hr hhas
    rcases withRun_eq_some hn with ⟨hr', rfl⟩ | ⟨-, hM⟩
    · exact hnew _ (by omega) ((h.grants r hr).bit_of_has hhas)
    · exact h.apart n f hM r hr hhas

theorem kept_of_lt (h : Owned k stack s T M) (hm : MappedTo stack s.proc M)
    (hl : SbrkCall.Legal stack s (.sbrk increment))
    (hlt : pgRoundUp s.proc.brk / pgSize < pgRoundUp (s.proc.trgBrk increment) / pgSize) :
    Kept k stack s (.sbrk increment) := by
  obtain ⟨hle, hle'⟩ := h.trgBrk_range hl
  have hstep := h.sbrkStep_eq increment
  rw [if_neg hlt.ne, if_pos hlt] at hstep
  have hsrc := pgSize_mul_div (pgRoundUp_mod s.proc.brk)
  have htrg := pgSize_mul_div (pgRoundUp_mod (s.proc.trgBrk increment))
  have hstack : pgRoundUp (s.proc.trgBrk increment) ≤ stack :=
    pgRoundUp_le_of_mod hle' h.stack_mod h.stack_le
  have hbound := pgRoundUp_lt (s.proc.trgBrk increment)
  generalize pgRoundUp s.proc.brk / pgSize = src at *
  obtain ⟨cnt, hcnt⟩ := Nat.exists_eq_add_of_le hlt.le
  rw [hcnt] at hstep htrg hlt
  have hvacant : ∀ j < cnt, Vacant M (src + j) := fun j hj =>
    h.vacant hm (by rw [← hsrc]; unfold pgSize; omega)
      (lt_of_lt_of_le (by rw [← htrg]; unfold pgSize; omega) hstack)
  have hcnt' : cnt ≠ 0 := by omega
  have hend : pgSize * (src + cnt) < 2 ^ 32 := by
    rw [htrg]
    unfold pgSize at hbound
    omega
  rcases h.space.growBrk_vacant hcnt' hend hvacant with
    ⟨a, T', hgrow, ha, hpool⟩ | ⟨a, hgrow, T', idx, b, ha, hscan, hpool, hbcnt, hbit, hzero⟩
  · rw [hgrow] at hstep
    have h' : Owned k stack { s with alloc := a } T' M := by
      refine { h with space := ha, marked := ?_, grants := ?_ }
      · rw [hpool]
        exact h.marked
      · rw [hpool]
        exact h.grants
    exact ⟨_, T', M, hstep, h', hm, h.newZero_of_same h', fun hlt => absurd hlt (lt_irrefl _)⟩
  · rw [hgrow] at hstep
    have h' := h.addRun hscan ha hpool hbcnt hbit hle hle'
    refine ⟨_, T', _, hstep, h', fun n hn => ?_, fun n f hn hn' x hx => ?_, fun hless => ?_⟩
    · have hmn := hm n hn
      change _ ↔ pgSize * n < pgRoundUp (s.proc.trgBrk increment)
      rw [← hsrc] at hmn
      rw [← htrg]
      unfold withRun
      split_ifs with hr
      · exact iff_of_true rfl (by unfold pgSize; omega)
      · refine hmn.trans ?_
        unfold pgSize
        omega
    · rw [h.frame_eq] at hn
      rcases withRun_eq_some ((h'.frame_eq n).symm.trans hn') with ⟨hr, rfl⟩ | ⟨-, hM⟩
      · refine hzero x ?_
        unfold InPage at hx
        unfold Pool.InRun
        unfold pgSize at *
        omega
      · rw [hn] at hM
        cases hM
    · change pgRoundUp (s.proc.trgBrk increment) < pgRoundUp s.proc.brk at hless
      rw [← hsrc, ← htrg] at hless
      unfold pgSize at hless
      omega

/-- The frames of the pages from `trg` on are those from `idx` on in the pool. -/
def RunFrom (p : Threads.Pool) (M : ℕ → Option ℕ) (trg cnt idx : ℕ) : Prop :=
  ∀ a, (∃ n, trg ≤ n ∧ n < trg + cnt ∧ M n = some a) ↔ ∃ j < cnt, a = p.base + pgSize * (idx + j)

theorem runFrom_index {base i : ℕ} :
    (∃ j < cnt, base + pgSize * i = base + pgSize * (idx + j)) ↔ idx ≤ i ∧ i < idx + cnt := by
  constructor
  · rintro ⟨j, hj, heq⟩
    unfold pgSize at heq
    omega
  · rintro ⟨hle, hlt⟩
    exact ⟨i - idx, by omega, by rw [Nat.add_sub_cancel' hle]⟩

theorem removed_iff {a : ℕ} :
    (∃ n, M n = some a ∧ (if trg ≤ n ∧ n < trg + cnt then none else M n) = none) ↔
      ∃ n, trg ≤ n ∧ n < trg + cnt ∧ M n = some a := by
  refine exists_congr fun n => ⟨fun ⟨hM, hn⟩ => ?_, fun ⟨hn, hn', hM⟩ => ⟨hM, if_pos ⟨hn, hn'⟩⟩⟩
  split_ifs at hn with hr
  · exact ⟨hr.1, hr.2, hM⟩
  · rw [hM] at hn
    cases hn

theorem bit_of_runFrom {j : ℕ} (h : Owned k stack s T M)
    (hrun : RunFrom s.alloc.userPool M trg cnt idx) (hj : j < cnt) :
    idx + j < s.alloc.userPool.usedMap.bitCnt ∧ s.alloc.userPool.usedMap.bit (idx + j) = true := by
  obtain ⟨n, -, -, hn⟩ := (hrun _).mpr ⟨j, hj, rfl⟩
  obtain ⟨i, hi, heq, hbit⟩ := h.used hn
  obtain rfl : idx + j = i := by
    unfold pgSize at heq
    omega
  exact ⟨hi, hbit⟩

theorem removeRun {brk : ℕ} (h : Owned k stack s T M)
    (hrun : RunFrom s.alloc.userPool M trg cnt idx)
    (ha : Space k a s.proc.pagedir T fun n => if trg ≤ n ∧ n < trg + cnt then none else M n)
    (hpool : a.userPool = { s.alloc.userPool with usedMap := b })
    (hbcnt : b.bitCnt = s.alloc.userPool.usedMap.bitCnt)
    (hbit : b.bit = bitmapSetMultiple s.alloc.userPool.usedMap.bit idx cnt false)
    (hle : s.proc.heapStart ≤ brk) (hle' : brk ≤ stack) :
    Owned k stack { s with proc := { s.proc with brk }, alloc := a } T
      fun n => if trg ≤ n ∧ n < trg + cnt then none else M n := by
  -- the bits of frames of other pages stay
  have hbit' : ∀ i, (∀ n, trg ≤ n → n < trg + cnt →
      M n ≠ some (s.alloc.userPool.base + pgSize * i)) →
      s.alloc.userPool.usedMap.bit i = true → b.bit i = true := by
    intro i hnot hi
    rw [hbit, bitmapSetMultiple, if_neg ?_]
    · exact hi
    · rintro ⟨hle, hlt⟩
      obtain ⟨n, hn, hn', hM⟩ := (hrun (s.alloc.userPool.base + pgSize * i)).mpr
        ⟨i - idx, by omega, by rw [Nat.add_sub_cancel' hle]⟩
      exact hnot n hn hn' hM
  have hkeep : ∀ {n f}, (if trg ≤ n ∧ n < trg + cnt then none else M n) = some f →
      ¬ (trg ≤ n ∧ n < trg + cnt) ∧ M n = some f := fun hn => ite_none_left_eq_some.mp hn
  refine { h with
    space := ha, le_brk := hle, brk_le := hle', inj := ?_, marked := ?_, grants := ?_,
    apart := ?_ }
  · intro n n' f hn hn'
    exact h.inj n n' f (hkeep hn).2 (hkeep hn').2
  · intro n i hn
    rw [hpool] at hn ⊢
    obtain ⟨hout, hM⟩ := hkeep hn
    refine hbit' i (fun n' hn' hlt hM' => hout ?_) (h.marked n i hM)
    rw [h.inj n n' _ hM hM']
    exact ⟨hn', hlt⟩
  · intro r hr
    rw [hpool]
    exact (h.grants r hr).set hbcnt fun i hi => hbit' i fun n _ _ hM => h.apart n _ hM r hr hi
  · intro n f hn
    exact h.apart n f (hkeep hn).2

theorem shrink_step (h : Owned k stack s T M)
    (htrg : pgRoundUp (s.proc.trgBrk increment) / pgSize = trg)
    (hsrc : pgRoundUp s.proc.brk / pgSize = trg + cnt) (hcnt : cnt ≠ 0)
    (hf : M trg = some (s.alloc.userPool.base + pgSize * idx))
    (hin : idx + cnt ≤ s.alloc.userPool.usedMap.bitCnt)
    (hmarked : ∀ j < cnt, s.alloc.userPool.usedMap.bit (idx + j) = true) :
    ∃ a b, sbrkStep k s (.sbrk increment) = some { s with
        proc := { s.proc with brk := s.proc.trgBrk increment }, alloc := a } ∧
      Space k a s.proc.pagedir T (fun n => if trg ≤ n ∧ n < trg + cnt then none else M n) ∧
      a.userPool = { s.alloc.userPool with usedMap := b } ∧
      b.bitCnt = s.alloc.userPool.usedMap.bitCnt ∧
      b.bit = bitmapSetMultiple s.alloc.userPool.usedMap.bit idx cnt false := by
  have hbase := pgRoundUp_le h.brk_le_base
  have hbound := bitCnt_le h.space.layout
  rw [← pgSize_mul_div (pgRoundUp_mod s.proc.brk), hsrc] at hbase
  obtain ⟨a1, ha1, hkeep, hshrink⟩ := h.space.shrinkBrk_eq hbase hcnt (by omega)
  rw [← hkeep.userPool] at hin hmarked hf ⊢
  obtain ⟨a2, b, hfree, ha2, hpool⟩ := ha1.freeUser hcnt hin hmarked
  refine ⟨a2, b, ?_, ha2, hpool⟩
  rw [h.sbrkStep_eq, htrg, hsrc, if_neg (by omega), if_neg (by omega), hshrink, hf,
    elim_some, hfree]
  rfl

theorem shrink_bit {i : ℕ} (hpool : a.userPool = { s.alloc.userPool with usedMap := b })
    (hbit : b.bit = bitmapSetMultiple s.alloc.userPool.usedMap.bit idx cnt false) :
    a.userPool.usedMap.bit i = true ↔
      s.alloc.userPool.usedMap.bit i = true ∧ ¬ (idx ≤ i ∧ i < idx + cnt) := by
  rw [hpool]
  rw [hbit, bitmapSetMultiple]
  split_ifs with hi
  · simp [hi]
  · simp [hi]

variable (h : Owned k stack s T M)

include h

theorem kept_of_gt (hm : MappedTo stack s.proc M) (hl : SbrkCall.Legal stack s (.sbrk increment))
    (htrg : pgRoundUp (s.proc.trgBrk increment) / pgSize = trg)
    (hsrc : pgRoundUp s.proc.brk / pgSize = trg + cnt) (hcnt : cnt ≠ 0) (hf : M trg = some f)
    (htogether : ∀ a, (∃ n, trg ≤ n ∧ n < trg + cnt ∧ M n = some a) ↔
      ∃ j < cnt, a = f + pgSize * j) : Kept k stack s (.sbrk increment) := by
  obtain ⟨hle, hle'⟩ := h.trgBrk_range hl
  have hsrc' := pgSize_mul_div (pgRoundUp_mod s.proc.brk)
  have htrg' := pgSize_mul_div (pgRoundUp_mod (s.proc.trgBrk increment))
  rw [hsrc] at hsrc'
  rw [htrg] at htrg'
  obtain ⟨idx, hidx, rfl, -⟩ := h.used hf
  have hrun : RunFrom s.alloc.userPool M trg cnt idx := fun a => by
    rw [htogether a]
    simp only [Nat.mul_add, Nat.add_assoc]
  have hin : idx + cnt ≤ s.alloc.userPool.usedMap.bitCnt := by
    have := (h.bit_of_runFrom hrun (j := cnt - 1) (by omega)).1
    omega
  obtain ⟨a, b, hstep, ha, hpool, hbcnt, hbit⟩ := h.shrink_step htrg hsrc hcnt hf hin
    fun j hj => (h.bit_of_runFrom hrun hj).2
  have h' := h.removeRun hrun ha hpool hbcnt hbit hle hle'
  refine ⟨_, T, _, hstep, h', fun n hn => ?_, fun n f hn hn' => ?_, fun _ i hi => ?_⟩
  · have hmn := hm n hn
    change (if trg ≤ n ∧ n < trg + cnt then none else M n).isSome ↔
      pgSize * n < pgRoundUp (s.proc.trgBrk increment)
    rw [← hsrc'] at hmn
    rw [← htrg']
    split_ifs with hr
    · exact iff_of_false nofun (by unfold pgSize; omega)
    · refine hmn.trans ?_
      unfold pgSize
      omega
  · rw [h.frame_eq] at hn
    have hM := (ite_none_left_eq_some.mp ((h'.frame_eq n).symm.trans hn')).2
    rw [hn] at hM
    cases hM
  · refine (shrink_bit hpool hbit).trans (and_congr_right fun _ => not_congr ?_)
    simp only [h'.frame_eq, h.frame_eq]
    rw [removed_iff, hrun]
    exact runFrom_index.symm

theorem exists_frame (hm : MappedTo stack s.proc M) (hl : SbrkCall.Legal stack s (.sbrk increment))
    (htrg : pgRoundUp (s.proc.trgBrk increment) / pgSize = trg)
    (hsrc : pgRoundUp s.proc.brk / pgSize = trg + cnt) (hcnt : cnt ≠ 0) : ∃ f, M trg = some f := by
  obtain ⟨hle, hle'⟩ := h.trgBrk_range hl
  have hsrc' := pgSize_mul_div (pgRoundUp_mod s.proc.brk)
  have htrg' := pgSize_mul_div (pgRoundUp_mod (s.proc.trgBrk increment))
  rw [hsrc] at hsrc'
  rw [htrg] at htrg'
  have hlt : pgSize * trg < pgRoundUp s.proc.brk := by
    rw [← hsrc']
    unfold pgSize
    omega
  have hin : InHeap stack s.proc trg := by
    refine ⟨?_, hlt.trans_le (pgRoundUp_le_of_mod h.brk_le h.stack_mod h.stack_le)⟩
    rw [htrg']
    exact hle.trans (le_pgRoundUp (hle'.trans h.stack_le))
  exact isSome_iff_exists.mp ((hm trg hin).mpr hlt)

theorem together_of_exact (htrg : pgRoundUp (s.proc.trgBrk increment) / pgSize = trg)
    (hsrc : pgRoundUp s.proc.brk / pgSize = trg + cnt) (hcnt : cnt ≠ 0) (hf : M trg = some f)
    (he : Exact k stack s (.sbrk increment)) (a : ℕ) :
    (∃ n, trg ≤ n ∧ n < trg + cnt ∧ M n = some a) ↔ ∃ j < cnt, a = f + pgSize * j := by
  obtain ⟨s', hstep, -, -, hret⟩ := he
  have hsrc' := pgSize_mul_div (pgRoundUp_mod s.proc.brk)
  have htrg' := pgSize_mul_div (pgRoundUp_mod (s.proc.trgBrk increment))
  have hbase := pgRoundUp_le h.brk_le_base
  rw [hsrc] at hsrc'
  rw [htrg] at htrg'
  rw [← hsrc'] at hbase
  obtain ⟨idx, hidx, rfl, -⟩ := h.used hf
  -- the call has a result, so the frames are in use
  have hmarked : idx + cnt ≤ s.alloc.userPool.usedMap.bitCnt ∧
      ∀ j < cnt, s.alloc.userPool.usedMap.bit (idx + j) = true := by
    by_contra hnot
    rw [h.sbrkStep_eq, htrg, hsrc, if_neg (by omega), if_neg (by omega)] at hstep
    by_cases hlt : cnt < 2 ^ 19
    · obtain ⟨a1, ha1, hkeep, hshrink⟩ := h.space.shrinkBrk_eq hbase hcnt hlt
      rw [← hkeep.userPool] at hnot hidx hf
      rw [hshrink, hf, elim_some, ha1.freeUser_none hcnt (by omega) hidx hnot] at hstep
      cases hstep
    · rw [h.space.shrinkBrk_huge hbase (not_lt.mp hlt)] at hstep
      cases hstep
  obtain ⟨a', b, hstep', ha', hpool, hbcnt, hbit⟩ :=
    h.shrink_step htrg hsrc hcnt hf hmarked.1 hmarked.2
  rw [hstep'] at hstep
  cases hstep
  have hframe : ∀ n, Machine.frame { s with
      proc := { s.proc with brk := s.proc.trgBrk increment }, alloc := a' } n =
        if trg ≤ n ∧ n < trg + cnt then none else M n := fun n => ha'.frameOf_eq n
  have hgone : ∀ i < s.alloc.userPool.usedMap.bitCnt, s.alloc.userPool.usedMap.bit i = true →
      (idx ≤ i ∧ i < idx + cnt ↔
        ∃ n, trg ≤ n ∧ n < trg + cnt ∧ M n = some (s.alloc.userPool.base + pgSize * i)) := by
    intro i hi hset
    have hless : pgRoundUp (s.proc.trgBrk increment) < pgRoundUp s.proc.brk := by
      rw [← hsrc', ← htrg']
      unfold pgSize
      omega
    have hiff := (shrink_bit hpool hbit).symm.trans (hret hless i hi)
    simp only [hframe, h.frame_eq, hset, true_and] at hiff
    rw [not_iff_not, removed_iff] at hiff
    exact hiff
  simp only [Nat.add_assoc, ← Nat.mul_add]
  constructor
  · rintro ⟨n, hn, hn', hM⟩
    obtain ⟨i, hi, rfl, hset⟩ := h.used hM
    exact runFrom_index.mpr ((hgone i hi hset).mpr ⟨n, hn, hn', hM⟩)
  · rintro ⟨j, hj, rfl⟩
    exact (hgone (idx + j) (by omega) (hmarked.2 j hj)).mp ⟨Nat.le_add_right _ _, by omega⟩

theorem exact_iff_together {c : SbrkCall} (hm : MappedTo stack s.proc M) (hl : c.Legal stack s) :
    (Exact k stack s c ↔ Together s c) ∧ (Together s c → Kept k stack s c) := by
  suffices hkept : (Exact k stack s c → Together s c) ∧ (Together s c → Kept k stack s c) by
    refine ⟨⟨hkept.1, fun ht => ?_⟩, hkept.2⟩
    obtain ⟨s', T', M', hstep, h', hm', hzero, hret⟩ := hkept.2 ht
    exact ⟨s', hstep, h'.heapExact hm', hzero, hret⟩
  cases c with
  | get zero cnt =>
    refine ⟨fun _ => trivial, fun _ => ?_⟩
    obtain ⟨s', hstep, h', hproc⟩ := h.get zero cnt
    exact h.kept_of_others hm hstep h' hproc
  | free r =>
    refine ⟨fun _ => trivial, fun _ => ?_⟩
    obtain ⟨s', hstep, h', hproc⟩ := h.free hl
    exact h.kept_of_others hm hstep h' hproc
  | split r cnt =>
    refine ⟨fun _ => trivial, fun _ => ?_⟩
    obtain ⟨s', hstep, h', hproc⟩ := h.split hl.1 hl.2.1 hl.2.2
    exact h.kept_of_others hm hstep h' hproc
  | sbrk increment =>
    unfold Together
    simp only [h.frame_eq]
    rcases Nat.lt_trichotomy (pgRoundUp s.proc.brk / pgSize)
      (pgRoundUp (s.proc.trgBrk increment) / pgSize) with hlt | heq | hlt
    · exact ⟨fun _ hless => absurd hlt hless.not_gt, fun _ => h.kept_of_lt hm hl hlt⟩
    · exact ⟨fun _ hless => absurd heq hless.ne', fun _ => h.kept_of_eq hm hl heq⟩
    · obtain ⟨cnt, hsrc⟩ := Nat.exists_eq_add_of_le hlt.le
      have hcnt : cnt ≠ 0 := by omega
      obtain ⟨f, hf⟩ := h.exists_frame hm hl rfl hsrc hcnt
      rw [hsrc, Nat.add_sub_cancel_left]
      refine ⟨fun he _ => ⟨f, hf, h.together_of_exact rfl hsrc hcnt hf he⟩, fun ht => ?_⟩
      obtain ⟨f', hf', htogether⟩ := ht (by omega)
      exact h.kept_of_gt hm hl rfl hsrc hcnt hf' htogether

end Owned

/-- A process is started: the break is at the start of the heap and nothing is mapped between
it and the stack. -/
structure Started (k : Globals) (stack : ℕ) (s : Machine) (T M : ℕ → Option ℕ) : Prop where
  owned : Owned k stack s T M
  brk : s.proc.brk = s.proc.heapStart
  unmapped : ∀ n, InHeap stack s.proc n → M n = none

theorem Started.mappedTo (h : Started k stack s T M) : MappedTo stack s.proc M := by
  intro n hn
  rw [h.unmapped n hn, h.brk]
  refine iff_of_false nofun ?_
  rw [not_lt]
  refine (pgRoundUp_le_of_mod le_rfl h.owned.start_mod ?_).trans hn.1
  exact h.owned.le_brk.trans h.owned.brk_le_base

/-- Every run of a process and others keeps the heap exact, if and only if the pages that each
call removes have frames that follow each other. -/
theorem run_exact_iff {calls : List SbrkCall} (h : Started k stack s T M)
    (hl : Run.Meets (sbrkStep k) (fun s c => c.Legal stack s) s calls) :
    Run.Meets (sbrkStep k) (Exact k stack) s calls ↔
      Run.Meets (sbrkStep k) Together s calls := by
  refine Run.meets_iff (I := fun s => ∃ T M, Owned k stack s T M ∧ MappedTo stack s.proc M)
    (fun s c ⟨T, M, ho, hm⟩ hl => (ho.exact_iff_together hm hl).1)
    (fun s c s' ⟨T, M, ho, hm⟩ hl he hs' => ?_) ⟨T, M, h.owned, h.mappedTo⟩ hl
  have hiff := ho.exact_iff_together hm hl
  obtain ⟨s'', T', M', hstep, h', hm', -⟩ := hiff.2 (hiff.1.mp he)
  rw [hstep] at hs'
  cases hs'
  exact ⟨T', M', h', hm'⟩

def sampleMachine : Machine :=
  ⟨sampleProcess, sampleAlloc, []⟩

def sampleStack : ℕ :=
  0xbffff000

theorem sampleMachine_started :
    Started sampleGlobals sampleStack sampleMachine (fun _ => none) (fun _ => none) where
  owned :=
    { space := sampleAlloc_space
      start_mod := by decide
      stack_mod := by decide
      stack_le := by decide
      le_brk := le_rfl
      brk_le := by decide
      inj := nofun
      marked := nofun
      grants := nofun
      apart := nofun
      pairwise := List.Pairwise.nil }
  brk := rfl
  unmapped _ _ := rfl

/-- The heap grows by a page, a page is taken by others, and the heap shrinks again. -/
theorem run_exact_iff_sample :
    Run.Meets (sbrkStep sampleGlobals) (Exact sampleGlobals sampleStack) sampleMachine
      [.sbrk 0x1000#32, .get false 1, .sbrk (-0x1000#32)] := by
  refine (run_exact_iff sampleMachine_started (by decide +kernel)).mpr ?_
  refine ⟨fun hlt => absurd hlt (by decide), fun s1 h1 => ⟨trivial, fun s2 h2 => ⟨?_, ?_⟩⟩⟩
  · have hrun : (Run.run (sbrkStep sampleGlobals) sampleMachine
        [.sbrk 0x1000#32, .get false 1]).map (fun s => (s.proc.brk, s.frame 0x8050)) =
        some (0x8051000, some 0xc0104000) := by decide +kernel
    rw [Run.run_cons, h1, bind_some, Run.run_cons, h2, bind_some, Run.run_nil,
      map_some, some.injEq, Prod.mk.injEq] at hrun
    obtain ⟨hbrk, hframe⟩ := hrun
    have htrg : pgRoundUp (s2.proc.trgBrk (-0x1000#32)) / pgSize = 0x8050 := by
      rw [Process.trgBrk, hbrk]
      decide
    have hsrc : pgRoundUp s2.proc.brk / pgSize = 0x8051 := by
      rw [hbrk]
      decide
    unfold Together
    dsimp only
    rw [htrg, hsrc]
    refine fun _ => ⟨_, hframe, fun a => ⟨?_, ?_⟩⟩
    · rintro ⟨n, hn, hn', ha⟩
      obtain rfl : n = 0x8050 := by omega
      rw [hframe] at ha
      cases ha
      exact ⟨0, by decide, rfl⟩
    · rintro ⟨j, hj, rfl⟩
      obtain rfl : j = 0 := by omega
      exact ⟨0x8050, le_rfl, by decide, hframe⟩
  · exact fun _ _ => trivial

/-- The heap grows by a page, a page is taken by others, the heap grows by another page and
shrinks by two: the page of the others is given back, and the frame of the second page is
not. -/
theorem not_exact_of_apart :
    let calls : List SbrkCall :=
      [.sbrk 0x1000#32, .get false 1, .sbrk 0x1000#32, .sbrk (-0x2000#32)]
    Started sampleGlobals sampleStack sampleMachine (fun _ => none) (fun _ => none) ∧
    Run.Meets (sbrkStep sampleGlobals) (fun s c => c.Legal sampleStack s) sampleMachine calls ∧
    ¬ Run.Meets (sbrkStep sampleGlobals) (Exact sampleGlobals sampleStack) sampleMachine calls := by
  refine ⟨sampleMachine_started, by decide +kernel, fun hmeets => ?_⟩
  have hrun : (Run.run (sbrkStep sampleGlobals) sampleMachine
      [.sbrk 0x1000#32, .get false 1, .sbrk 0x1000#32]).bind (fun s =>
        (sbrkStep sampleGlobals s (.sbrk (-0x2000#32))).map fun s' =>
          ([s.proc.brk, s'.proc.brk, s.alloc.userPool.base, s.alloc.userPool.usedMap.bitCnt],
            [s.frame 0x8051, s'.frame 0x8051], s'.alloc.userPool.usedMap.bit 2)) =
      some ([0x8052000, 0x8050000, 0xc0104000, 4], [some 0xc0106000, none], true) := by
    decide +kernel
  obtain ⟨s, hs, hrun⟩ := bind_eq_some_iff.mp hrun
  obtain ⟨s', hs', heq⟩ := map_eq_some_iff.mp hrun
  simp only [Prod.mk.injEq, List.cons.injEq, and_true] at heq
  obtain ⟨⟨hbrk, hbrk', hbase, hcnt⟩, ⟨hframe, hframe'⟩, hbit⟩ := heq
  have hlast : Run.Meets (sbrkStep sampleGlobals) (Exact sampleGlobals sampleStack) s
    [.sbrk (-0x2000#32)] := Run.Meets.after hmeets hs
  obtain ⟨⟨s'', hs'', -, -, hret⟩, -⟩ := hlast
  rw [hs'] at hs''
  cases hs''
  have hiff := hret (by rw [hbrk, hbrk']; decide) 2 (by rw [hcnt]; decide)
  refine (hiff.mp hbit).2 ⟨0x8051, ?_, hframe'⟩
  rw [hframe, hbase]
  rfl

end Steps

end CS162.Memory
