import CS162.Userprog.Pagedir

/-!
# Address spaces

The page directory of a process on the real page allocator: `Space k s pd T M` says that the
directory and its page tables `T` are pages of the kernel pool that are in use, and the frames
that are mapped, `M`, pages of the user pool.
-/

namespace CS162.Memory


open Threads Userprog Filesys Finset Palloc Function Pool Maps Mem Option

instance : PageAlloc Palloc where
  mem := mem
  setMem s m := { s with mem := m }
  getPage := getPage
  freePage := freePage
  mem_setMem _ _ := rfl
  setMem_mem _ := rfl
  setMem_setMem _ _ _ := rfl

/-- The frame of the page with the number `n`, as `pagedir_get_page` finds it. -/
def frameOf (s : Palloc) (pd n : ℕ) : Option ℕ :=
  (pagedirGetPage pd (pgSize * n) s).filter (· ≠ 0)

/-- The pools and the page directory of a process as the kernel keeps them. -/
structure Space (k : Globals) (s : Palloc) (pd : ℕ) (T M : ℕ → Option ℕ) : Prop where
  layout : s.Layout
  ram : s.userPool.limit ≤ loaderPhysBase + pgSize * k.initRamPages
  dir : pd ≠ k.initPageDir
  maps : Maps s.mem pd T M
  held : ∀ a, (a = pd ∨ ∃ i, T i = some a) → ∃ idx < s.kernelPool.usedMap.bitCnt,
    a = s.kernelPool.base + pgSize * idx ∧ s.kernelPool.usedMap.bit idx = true
  frames : ∀ n frame, M n = some frame → ∃ idx < s.userPool.usedMap.bitCnt,
    frame = s.userPool.base + pgSize * idx

/-- The calls that map and unmap pages leave the user pool and the bytes of its pages alone. -/
structure Keeps (s s' : Palloc) : Prop where
  userPool : s'.userPool = s.userPool
  mem : ∀ x, s.userPool.Has x → s'.mem x = s.mem x

/-- The number of pages of the kernel pool that are free. -/
def freePages (s : Palloc) : ℕ :=
  ((range s.kernelPool.usedMap.bitCnt).filter
    fun i => s.kernelPool.usedMap.bit i = false).card

section Space

variable {k : Globals} {s s' s'' : Palloc} {pd q n idx cnt x : ℕ} {T M M' : ℕ → Option ℕ}
  {b : Bitmap} {m : Mem}

theorem Keeps.refl (s : Palloc) : Keeps s s :=
  ⟨rfl, fun _ _ => rfl⟩

theorem Keeps.trans (h : Keeps s s') (h' : Keeps s' s'') : Keeps s s'' where
  userPool := h'.userPool.trans h.userPool
  mem x hx := (h'.mem x (h.userPool ▸ hx)).trans (h.mem x hx)

theorem isPage_of_lt (user : Bool) (h : s.Layout) (hidx : idx < (s.pool user).usedMap.bitCnt) :
    IsPage ((s.pool user).base + pgSize * idx) := by
  obtain ⟨haligned, hkernel, hmap, hlimit⟩ := h.ok user
  unfold limit at hlimit
  refine ⟨?_, ?_, ?_⟩
  · unfold pgSize at *
    omega
  · omega
  · unfold pgSize at *
    omega

theorem not_has_of_has (h : s.Layout) (hx : s.kernelPool.Has x) : ¬ s.userPool.Has x := by
  intro hx'
  cases @Palloc.Layout.apart s false true x h hx.1 hx.2 hx'.1 hx'.2

namespace Space

variable (h : Space k s pd T M)

include h

theorem has_of_tabular (hx : Tabular pd T x) : s.kernelPool.Has x := by
  obtain ⟨a, ha, hle, hlt⟩ : ∃ a, (a = pd ∨ ∃ i, T i = some a) ∧ a ≤ x ∧ x < a + pgSize := by
    rcases hx with ⟨hle, hlt⟩ | ⟨i, t, ht, hle, hlt⟩
    · exact ⟨pd, .inl rfl, hle, by unfold userTables at hlt; unfold pgSize; omega⟩
    · exact ⟨t, .inr ⟨i, ht⟩, hle, hlt⟩
  obtain ⟨idx, hidx, rfl, -⟩ := h.held a ha
  unfold Pool.Has limit pgSize at *
  omega

theorem not_tabular (hx : s.userPool.Has x) : ¬ Tabular pd T x :=
  fun htab => not_has_of_has h.layout (h.has_of_tabular htab) hx

theorem setUser (hcnt : b.bitCnt = s.userPool.usedMap.bitCnt)
    (hmem : ∀ x, s.kernelPool.Has x → m x = s.mem x) :
    Space k { s.setMap true b with mem := m } pd T M where
  layout := by
    have hlayout : (s.setMap true b).Layout := h.layout.setMap hcnt
    exact ⟨hlayout.ok, hlayout.order⟩
  ram := by
    have := h.ram
    change s.userPool.base + pgSize * b.bitCnt ≤ _
    rwa [hcnt]
  dir := h.dir
  maps := h.maps.congr fun x hx => hmem x (h.has_of_tabular hx)
  held := h.held
  frames n frame hn := by
    obtain ⟨idx, hidx, hframe⟩ := h.frames n frame hn
    exact ⟨idx, hidx.trans_eq hcnt.symm, hframe⟩

theorem setMem (hmaps : Maps m pd T M')
    (hframes : ∀ n frame, M' n = some frame → ∃ idx < s.userPool.usedMap.bitCnt,
      frame = s.userPool.base + pgSize * idx) : Space k { s with mem := m } pd T M' :=
  ⟨⟨h.layout.ok, h.layout.order⟩, h.ram, h.dir, hmaps, h.held, hframes⟩

theorem frames_update {o : Option ℕ}
    (ho : ∀ frame, o = some frame → ∃ idx < s.userPool.usedMap.bitCnt,
      frame = s.userPool.base + pgSize * idx) :
    ∀ n frame, update M q o n = some frame → ∃ idx < s.userPool.usedMap.bitCnt,
      frame = s.userPool.base + pgSize * idx := by
  intro n frame hn
  by_cases hq : n = q
  · rw [hq, update_self] at hn
    exact ho frame hn
  · rw [update_of_ne hq] at hn
    exact h.frames n frame hn

theorem frameOf_eq (n : ℕ) : frameOf s pd n = M n := by
  by_cases huser : isUserVaddr (pgSize * n)
  · rw [frameOf, getPage_mul h.maps huser]
    cases hM : M n with
    | none => rfl
    | some frame =>
      have hne : frame ≠ 0 := fun hzero =>
        absurd (hzero ▸ (h.maps.isPage hM).kernel) (by decide)
      rw [getD_some, filter_some, if_pos (decide_eq_true hne)]
  · rw [frameOf, pagedirGetPage, if_neg huser]
    cases hM : M n with
    | none => rfl
    | some frame =>
      obtain ⟨t, ht⟩ := h.maps.mapped n frame hM
      have hlt := (h.maps.table _ t ht).1
      exfalso
      apply huser
      unfold userTables at hlt
      unfold isUserVaddr loaderPhysBase pgSize
      omega

theorem clearPage (huser : isUserVaddr (pgSize * q)) :
    ∃ s', pagedirClearPage pd (pgSize * q) s = some s' ∧ Space k s' pd T (update M q none) ∧
      Keeps s s' ∧ s'.kernelPool = s.kernelPool := by
  obtain ⟨m, hclear, hmaps, hrest⟩ := clearPage_eq (s := s) h.maps (Nat.mul_mod_right _ _) huser
  rw [pgNo, Nat.mul_div_cancel_left _ (by decide)] at hmaps
  exact ⟨_, hclear, h.setMem hmaps (h.frames_update (by simp)),
    ⟨rfl, fun x hx => hrest x (h.not_tabular hx)⟩, rfl⟩

theorem canSet (huser : isUserVaddr (pgSize * q)) (hidx : idx < s.userPool.usedMap.bitCnt) :
    CanSet k pd (pgSize * q) (s.userPool.base + pgSize * idx) where
  aligned := Nat.mul_mod_right _ _
  user := huser
  page := isPage_of_lt true h.layout hidx
  ram := by
    have hpage : loaderPhysBase ≤ s.userPool.base + pgSize * idx :=
      (isPage_of_lt true h.layout hidx).kernel
    have := h.ram
    unfold limit at this
    unfold pgSize at *
    omega
  dir := h.dir

theorem ne_of_free (hbit : s.kernelPool.usedMap.bit idx = false) {a : ℕ}
    (ha : a = pd ∨ ∃ i, T i = some a) : s.kernelPool.base + pgSize * idx ≠ a := by
  rintro rfl
  obtain ⟨idx', -, heq, hbit'⟩ := h.held _ ha
  obtain rfl : idx = idx' := by
    unfold pgSize at heq
    omega
  rw [hbit] at hbit'
  cases hbit'

end Space

theorem freePages_setMap (hidx : idx < s.kernelPool.usedMap.bitCnt)
    (hclear : s.kernelPool.usedMap.bit idx = false)
    (hcnt : b.bitCnt = s.kernelPool.usedMap.bitCnt)
    (hbit : b.bit = bitmapSetMultiple s.kernelPool.usedMap.bit idx 1 true) :
    freePages s = freePages { s.setMap false b with mem := m } + 1 := by
  have hset : ((range b.bitCnt).filter fun i => b.bit i = false) =
      ((range s.kernelPool.usedMap.bitCnt).filter
        fun i => s.kernelPool.usedMap.bit i = false).erase idx := by
    ext i
    simp only [mem_filter, mem_erase, mem_range, hcnt, hbit, bitmapSetMultiple]
    by_cases hi : i = idx
    · simp [hi]
    · rw [if_neg (by omega)]
      tauto
  have hmem : idx ∈ (range s.kernelPool.usedMap.bitCnt).filter
    fun i => s.kernelPool.usedMap.bit i = false := mem_filter.mpr ⟨mem_range.mpr hidx, hclear⟩
  change freePages s = ((range b.bitCnt).filter fun i => b.bit i = false).card + 1
  rw [hset, card_erase_add_one hmem]
  rfl

theorem freePages_eq_zero
    (h : bitmapScan s.kernelPool.usedMap.bit s.kernelPool.usedMap.bitCnt 1 = none) :
    freePages s = 0 := by
  refine card_eq_zero.mpr (filter_eq_empty_iff.mpr fun i hi hbit => ?_)
  obtain ⟨j, hj, hj', hset⟩ := bitmapScan_none h (mem_range.mp hi)
  obtain rfl : j = i := by omega
  rw [hbit] at hset
  cases hset

namespace Space

theorem setKernel {i : ℕ} (h : Space k s pd T M) (hidx : idx < s.kernelPool.usedMap.bitCnt)
    (hcnt : b.bitCnt = s.kernelPool.usedMap.bitCnt)
    (hbit : b.bit = bitmapSetMultiple s.kernelPool.usedMap.bit idx 1 true)
    (hmaps : Maps m pd (update T i (some (s.kernelPool.base + pgSize * idx))) M')
    (hframes : ∀ n frame, M' n = some frame → ∃ idx < s.userPool.usedMap.bitCnt,
      frame = s.userPool.base + pgSize * idx) :
    Space k { s.setMap false b with mem := m } pd
      (update T i (some (s.kernelPool.base + pgSize * idx))) M' where
  layout := by
    have hlayout : (s.setMap false b).Layout := h.layout.setMap hcnt
    exact ⟨hlayout.ok, hlayout.order⟩
  ram := h.ram
  dir := h.dir
  maps := hmaps
  held a ha := by
    change ∃ j < b.bitCnt, a = s.kernelPool.base + pgSize * j ∧ b.bit j = true
    rw [hcnt, hbit]
    by_cases hnew : a = s.kernelPool.base + pgSize * idx
    · exact ⟨idx, hidx, hnew, if_pos ⟨le_rfl, Nat.lt_succ_self idx⟩⟩
    · have hold : a = pd ∨ ∃ i, T i = some a := ha.imp_right fun ⟨j, hj⟩ => by
        rcases Slots.of_update_some hj with ⟨-, heq⟩ | ⟨-, hj⟩
        · exact absurd heq.symm hnew
        · exact ⟨j, hj⟩
      obtain ⟨j, hj, heq, hset⟩ := h.held a hold
      refine ⟨j, hj, heq, ?_⟩
      rw [bitmapSetMultiple, if_neg ?_, hset]
      rintro ⟨hle, hlt⟩
      obtain rfl : j = idx := by omega
      exact hnew heq
  frames := hframes

theorem setPage (h : Space k s pd T M) (huser : isUserVaddr (pgSize * q)) (hM : M q = none)
    (hidx : idx < s.userPool.usedMap.bitCnt) :
    T (q / 1024) = none ∧ freePages s = 0 ∧
      pagedirSetPage k pd (pgSize * q) (s.userPool.base + pgSize * idx) true s =
        some (false, s) ∨
    ∃ s' T', pagedirSetPage k pd (pgSize * q) (s.userPool.base + pgSize * idx) true s =
        some (true, s') ∧
      Space k s' pd T' (update M q (some (s.userPool.base + pgSize * idx))) ∧
      Keeps s s' ∧ (∀ i, T' i = none ↔ T i = none ∧ i ≠ q / 1024) ∧
      (freePages s = freePages s' + if T (q / 1024) = none then 1 else 0) ∧
      ∀ x, ¬ Tabular pd T' x → s'.mem x = s.mem x := by
  have hcan := h.canSet huser hidx
  have hno : pgNo (pgSize * q) = q := Nat.mul_div_cancel_left _ (by decide)
  have hpd : pdNo (pgSize * q) = q / 1024 := (pdNo_eq _).trans (congrArg (· / 1024) hno)
  have hframes := h.frames_update (q := q)
    fun frame hframe =>
      ⟨idx, hidx, (some.inj hframe).symm⟩
  cases ht : T (q / 1024) with
  | some t =>
    obtain ⟨m, hset, hmaps, hrest⟩ := setPage_present (s := s) h.maps hcan
      (hpd ▸ ht) (hno.symm ▸ hM) true
    rw [hno] at hmaps
    refine .inr ⟨_, T, hset, h.setMem hmaps hframes,
      ⟨rfl, fun x hx => hrest x (h.not_tabular hx)⟩, fun i => ?_, rfl, hrest⟩
    refine ⟨fun hi => ⟨hi, fun heq => ?_⟩, fun hi => hi.1⟩
    rw [heq, ht] at hi
    cases hi
  | none =>
    cases hscan : bitmapScan s.kernelPool.usedMap.bit s.kernelPool.usedMap.bitCnt 1 with
    | none =>
      have hget : PageAlloc.getPage { zero := true } s = some (none, s) :=
        @getMultiple_none s { zero := true } 1 h.layout one_ne_zero hscan
      exact .inl ⟨rfl, freePages_eq_zero hscan, setPage_fail h.maps hcan (hpd ▸ ht) hget true⟩
    | some j =>
      obtain ⟨hj, hclear⟩ := bitmapScan_some hscan
      replace hclear := hclear j le_rfl (Nat.lt_succ_self j)
      obtain ⟨b, hcnt, hbit, hget⟩ :=
        @getMultiple_some s { zero := true } 1 j h.layout one_ne_zero hscan
      generalize hs1 : ({ s.setMap false b with
        mem := s.mem.memset (s.kernelPool.base + pgSize * j) 0 (pgSize * 1) } : Palloc) = s1
      have hget1 : PageAlloc.getPage { zero := true } s =
          some (some (s.kernelPool.base + pgSize * j), s1) := hs1 ▸ hget
      have hmem : s1.mem = s.mem.memset (s.kernelPool.base + pgSize * j) 0 (pgSize * 1) := hs1 ▸ rfl
      obtain ⟨m, hset, hmaps, hrest⟩ := setPage_create h.maps hcan (hpd ▸ ht)
        hget1 (isPage_of_lt false h.layout hj) (h.ne_of_free hclear (.inl rfl))
        (fun i hi => h.ne_of_free hclear (.inr ⟨i, hi⟩) rfl)
        (fun x hx => (congrFun hmem x).trans (memset_of_mem hx))
        (fun x hx => (congrFun hmem x).trans (memset_of_apart (by
          unfold InPage at hx
          omega))) true
      rw [hno, hpd] at hmaps
      rw [hpd] at hrest
      subst hs1
      have hspace := h.setKernel hj hcnt hbit hmaps hframes
      refine .inr ⟨_, _, hset, hspace, ⟨rfl, fun x hx => hrest x (hspace.not_tabular hx)⟩,
        fun i => ?_, freePages_setMap hj hclear hcnt hbit, hrest⟩
      by_cases hi : i = q / 1024
      · rw [hi, update_self]
        simp
      · rw [update_of_ne hi]
        simp [hi]

theorem apart_of_has (h : Space k s pd T M) (hin : idx + cnt ≤ s.userPool.usedMap.bitCnt)
    (hx : s.kernelPool.Has x) : x < s.userPool.base + pgSize * idx ∨
      s.userPool.base + pgSize * idx + pgSize * cnt ≤ x := by
  by_contra hrun
  refine not_has_of_has h.layout hx ?_
  unfold Pool.Has limit pgSize at *
  omega

theorem getUser (h : Space k s pd T M) (hcnt : cnt ≠ 0) (zero : Bool)
    (hscan : bitmapScan s.userPool.usedMap.bit s.userPool.usedMap.bitCnt cnt = some idx) :
    ∃ s' b, s.getMultiple { user := true, zero } cnt =
        some (some (s.userPool.base + pgSize * idx), s') ∧
      Space k s' pd T M ∧ s'.userPool = { s.userPool with usedMap := b } ∧
      s'.kernelPool = s.kernelPool ∧ b.bitCnt = s.userPool.usedMap.bitCnt ∧
      b.bit = bitmapSetMultiple s.userPool.usedMap.bit idx cnt true ∧
      (zero = true → ∀ x, s.userPool.InRun idx cnt x → s'.mem x = 0) ∧
      ∀ x, s.kernelPool.Has x → s'.mem x = s.mem x := by
  obtain ⟨b, hbcnt, hbit, hget⟩ :=
    @getMultiple_some s { user := true, zero } cnt idx h.layout hcnt hscan
  have hmem : ∀ x, s.kernelPool.Has x → (if zero = true then s.mem.memset
      (s.userPool.base + pgSize * idx) 0 (pgSize * cnt) else s.mem) x = s.mem x := fun x hx => by
    split_ifs
    · exact memset_of_apart (h.apart_of_has (bitmapScan_some hscan).1 hx)
    · rfl
  refine ⟨_, b, hget, h.setUser hbcnt hmem, rfl, rfl, hbcnt, hbit, ?_, hmem⟩
  · rintro rfl x hx
    exact memset_of_mem hx

theorem freeUser (h : Space k s pd T M) (hcnt : cnt ≠ 0)
    (hin : idx + cnt ≤ s.userPool.usedMap.bitCnt)
    (hmarked : ∀ i < cnt, s.userPool.usedMap.bit (idx + i) = true) :
    ∃ s' b, s.freeMultiple (s.userPool.base + pgSize * idx) cnt = some s' ∧
      Space k s' pd T M ∧ s'.userPool = { s.userPool with usedMap := b } ∧
      b.bitCnt = s.userPool.usedMap.bitCnt ∧
      b.bit = bitmapSetMultiple s.userPool.usedMap.bit idx cnt false := by
  obtain ⟨b, hbcnt, hbit, hfree⟩ := @freeMultiple_some s cnt idx true h.layout hcnt hin hmarked
  exact ⟨_, b, hfree, h.setUser hbcnt fun x hx => memset_of_apart (h.apart_of_has hin hx),
    rfl, hbcnt, hbit⟩

theorem freeUser_none (h : Space k s pd T M) (hcnt : cnt ≠ 0) (hlt : cnt < 2 ^ 31)
    (hidx : idx < s.userPool.usedMap.bitCnt) (hnot : ¬ (idx + cnt ≤ s.userPool.usedMap.bitCnt ∧
    ∀ i < cnt, s.userPool.usedMap.bit (idx + i) = true)) :
    s.freeMultiple (s.userPool.base + pgSize * idx) cnt = none := by
  by_cases hin : idx + cnt ≤ s.userPool.usedMap.bitCnt
  · have heq := @freeMultiple_eq s cnt idx true h.layout hcnt hin
    refine heq.trans (if_neg fun hall => hnot ⟨hin, fun i hi => ?_⟩)
    exact List.all_eq_true.mp hall i (List.mem_range.mpr hi)
  · exact @freeMultiple_outside s cnt idx true h.layout hidx hlt (not_le.mp hin)

end Space

end Space

end CS162.Memory
