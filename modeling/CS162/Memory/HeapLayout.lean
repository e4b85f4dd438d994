import CS162.Lib.Tiling
import CS162.Memory.Heap

/-!
# The blocks of the heap

The heap as a list of blocks that lie end to end from `start_heap` to the break.  `Layout` says that
memory has the headers of these blocks, and that a `next` link is null or leads to the block right
above.  A `prev` link may be out of date: `insert_block` does not set it in the next block.
-/

namespace CS162.UserHeap

open Threads Mem List

/-- A block with room for `cap` bytes, in use with the size that was asked for, or free. -/
structure Tile where
  addr : ℕ
  cap : ℕ
  used : Option ℕ
  deriving DecidableEq, Repr

def Tile.fin (t : Tile) : ℕ :=
  t.addr + 16 + t.cap

/-- A header at `a`: the size is at most `cap`, and `next` leads nowhere or right above. -/
structure Header (m : Mem) (brk a cap : ℕ) : Prop where
  size : m.word a ≤ cap
  next : m.word (a + 12) = 0 ∨ m.word (a + 12) = a + 16 + cap ∧ a + 16 + cap < brk

structure TileOk (m : Mem) (brk : ℕ) (t : Tile) : Prop extends Header m brk t.addr t.cap where
  used : ∀ n, t.used = some n → m.word t.addr = n ∧ m.word (t.addr + 4) = 0
  free : t.used = none → m.word (t.addr + 4) = 1

/-- The blocks of the list make up the heap. -/
structure Layout (h : Heap) (T : List Tile) : Prop where
  base : h.baseBlock = h.startHeap
  pos : 0 < h.startHeap
  lt : h.startHeap < h.brk
  limit : h.brk ≤ loaderPhysBase
  tiles : Tiles Tile.addr Tile.fin h.startHeap h.brk T
  ok : ∀ t ∈ T, TileOk h.mem h.brk t

section Headers

variable {m m' : Mem} {brk brk' a cap : ℕ} {t : Tile}

theorem Header.of_same (h : Header m brk a cap)
    (hsame : Mem.Same (fun x => a ≤ x ∧ x < a + 16) m m') (hle : brk ≤ brk') :
    Header m' brk' a cap := by
  have hsize : m'.word a = m.word a := hsame.word fun x hx hx' => by omega
  have hnext : m'.word (a + 12) = m.word (a + 12) := hsame.word fun x hx hx' => by omega
  refine ⟨hsize.trans_le h.size, ?_⟩
  rw [hnext]
  exact h.next.imp_right fun h => ⟨h.1, h.2.trans_le hle⟩

theorem TileOk.of_same (h : TileOk m brk t)
    (hsame : Mem.Same (fun x => t.addr ≤ x ∧ x < t.addr + 16) m m') (hle : brk ≤ brk') :
    TileOk m' brk' t := by
  have hsize : m'.word t.addr = m.word t.addr := hsame.word fun x hx hx' => by omega
  have hfree : m'.word (t.addr + 4) = m.word (t.addr + 4) := hsame.word fun x hx hx' => by omega
  refine ⟨h.toHeader.of_same hsame hle, ?_, ?_⟩
  · rw [hsize, hfree]
    exact h.used
  · rw [hfree]
    exact h.free

end Headers

section Stores

variable {m : Mem} {brk a cap n prev : ℕ}

theorem tileOk_used (hsize : m.word a = n) (hn : n ≤ cap) (hfree : m.word (a + 4) = 0)
    (hnext : m.word (a + 12) = 0 ∨ m.word (a + 12) = a + 16 + cap ∧ a + 16 + cap < brk) :
    TileOk m brk ⟨a, cap, some n⟩ := by
  refine ⟨⟨hsize.trans_le hn, hnext⟩, fun k hk => ?_, fun h => by cases h⟩
  cases hk
  exact ⟨hsize, hfree⟩

theorem tileOk_free (h : Header m brk a cap) (hfree : m.word (a + 4) = 1) :
    TileOk m brk ⟨a, cap, none⟩ :=
  ⟨h, fun _ hk => (nomatch hk), fun _ => hfree⟩

theorem zeroBlock_eq (h : m.word a = n) : zeroBlock a m = m.memset (a + 16) 0 n := by
  rw [zeroBlock, h]

theorem useBlock_take (h : Header m brk a cap) (hn : n ≤ m.word a) (hsmall : ¬ 16 ≤ m.word a - n) :
    TileOk (useBlock n a m) brk ⟨a, cap, some n⟩ ∧
      Mem.Same (fun x => x < a ∨ a + 16 + cap ≤ x) m (useBlock n a m) := by
  have hsize := h.size
  have hlt : n < 2 ^ 32 := hn.trans_lt (word_lt m a)
  have hword : ((m.setWord a n).setWord (a + 4) 0).word a = n := by
    rw [word_setWord_of_apart (by omega), word_setWord _ _ hlt]
  have heq : useBlock n a m = ((m.setWord a n).setWord (a + 4) 0).memset (a + 16) 0 n := by
    rw [useBlock, if_neg hsmall, zeroBlock_eq hword]
  rw [heq]
  refine ⟨tileOk_used ?_ (hn.trans hsize) ?_ ?_, fun x hx => ?_⟩
  · rw [word_memset_of_apart (by omega), hword]
  · rw [word_memset_of_apart (by omega), word_setWord _ _ (by norm_num)]
  · rw [word_memset_of_apart (by omega), word_setWord_of_apart (by omega),
      word_setWord_of_apart (by omega)]
    exact h.next
  · rw [memset_of_apart (by omega), setWord_of_apart (by omega), setWord_of_apart (by omega)]

theorem useBlock_split (h : Header m brk a cap) (hsplit : 16 ≤ m.word a - n)
    (hbrk : a + 16 + cap ≤ brk) (hlimit : brk < 2 ^ 32) :
    TileOk (useBlock n a m) brk ⟨a, n, some n⟩ ∧
      TileOk (useBlock n a m) brk ⟨a + 16 + n, cap - n - 16, none⟩ ∧
      (useBlock n a m).word (a + 16 + n) = m.word a - n - 16 ∧
      Mem.Same (fun x => x < a ∨ a + 16 + cap ≤ x) m (useBlock n a m) := by
  have hsize := h.size
  have hlt : n < 2 ^ 32 := by
    omega
  generalize hrest : m.word a - n - 16 = rest
  generalize hadd : a + 16 + n = add
  -- the rest
  have hword1 : ((m.setWord add rest).setWord (add + 4) 1).word add = rest := by
    rw [word_setWord_of_apart (by omega), word_setWord _ _ (by omega)]
  generalize hm1 : ((m.setWord add rest).setWord (add + 4) 1).memset (add + 16) 0 rest = m1
  -- the block in use
  have hword2 : ((m1.setWord a n).setWord (a + 4) 0).word a = n := by
    rw [word_setWord_of_apart (by omega), word_setWord _ _ hlt]
  generalize hm2 : ((m1.setWord a n).setWord (a + 4) 0).memset (a + 16) 0 n = m2
  have hnext : m2.word (a + 12) = m.word (a + 12) := by
    rw [← hm2, ← hm1, word_memset_of_apart (by omega), word_setWord_of_apart (by omega),
      word_setWord_of_apart (by omega), word_memset_of_apart (by omega),
      word_setWord_of_apart (by omega), word_setWord_of_apart (by omega)]
  have heq : useBlock n a m = ((m2.setWord (a + 12) add).setWord (add + 8) a).setWord (add + 12)
      (m.word (a + 12)) := by
    simp only [useBlock, if_pos hsplit, hrest, hadd, zeroBlock_eq hword1, hm1,
      zeroBlock_eq hword2, hm2, insertBlock, hnext]
  rw [heq]
  have hsame : Mem.Same (fun x => x < a ∨ a + 16 + cap ≤ x) m
      (((m2.setWord (a + 12) add).setWord (add + 8) a).setWord (add + 12) (m.word (a + 12))) := by
    intro x hx
    rw [setWord_of_apart (by omega), setWord_of_apart (by omega), setWord_of_apart (by omega),
      ← hm2, memset_of_apart (by omega), setWord_of_apart (by omega), setWord_of_apart (by omega),
      ← hm1, memset_of_apart (by omega), setWord_of_apart (by omega), setWord_of_apart (by omega)]
  -- the link words are apart from the other fields
  have hword : ∀ x, x + 4 ≤ a + 12 ∨ a + 16 ≤ x → x + 4 ≤ add + 8 ∨ add + 16 ≤ x →
      (((m2.setWord (a + 12) add).setWord (add + 8) a).setWord (add + 12)
        (m.word (a + 12))).word x = m2.word x := by
    intro x hx hx'
    rw [word_setWord_of_apart (by omega), word_setWord_of_apart (by omega),
      word_setWord_of_apart (by omega)]
  have hsize1 : m2.word a = n := by
    rw [← hm2, word_memset_of_apart (by omega), hword2]
  have hfree1 : m2.word (a + 4) = 0 := by
    rw [← hm2, word_memset_of_apart (by omega), word_setWord _ _ (by norm_num)]
  have hold : ∀ x, add ≤ x → x + 4 ≤ add + 8 → m2.word x = m1.word x := by
    intro x hx hx'
    rw [← hm2, word_memset_of_apart (by omega), word_setWord_of_apart (by omega),
      word_setWord_of_apart (by omega)]
  have hsize2 : m2.word add = rest := by
    rw [hold add le_rfl (by omega), ← hm1, word_memset_of_apart (by omega), hword1]
  have hfree2 : m2.word (add + 4) = 1 := by
    rw [hold (add + 4) (by omega) le_rfl, ← hm1, word_memset_of_apart (by omega),
      word_setWord _ _ (by norm_num)]
  refine ⟨tileOk_used ?_ le_rfl ?_ (.inr ⟨?_, by omega⟩), tileOk_free ⟨?_, ?_⟩ ?_, ?_, hsame⟩
  · rw [hword a (by omega) (by omega), hsize1]
  · rw [hword (a + 4) (by omega) (by omega), hfree1]
  · rw [word_setWord_of_apart (by omega), word_setWord_of_apart (by omega),
      word_setWord _ _ (by omega), hadd]
  · rw [hword add (by omega) (by omega), hsize2]
    omega
  · rw [word_setWord _ _ (word_lt _ _)]
    rcases h.next with hzero | ⟨hnext, hlt⟩
    · exact .inl hzero
    · exact .inr ⟨by omega, by omega⟩
  · rw [hword (add + 4) (by omega) (by omega), hfree2]
  · rw [hword add (by omega) (by omega), hsize2]

variable (m brk a prev) in
theorem initBlock_ok (hn : n < 2 ^ 32) :
    TileOk (initBlock a n prev m) brk ⟨a, n, some n⟩ ∧
      Mem.Same (fun x => x < a ∨ a + 16 + n ≤ x) m (initBlock a n prev m) := by
  generalize hm1 :
    (((m.setWord a n).setWord (a + 4) 0).setWord (a + 8) prev).setWord (a + 12) 0 = m1
  have hsize : m1.word a = n := by
    rw [← hm1, word_setWord_of_apart (by omega), word_setWord_of_apart (by omega),
      word_setWord_of_apart (by omega), word_setWord _ _ hn]
  have hfree : m1.word (a + 4) = 0 := by
    rw [← hm1, word_setWord_of_apart (by omega), word_setWord_of_apart (by omega),
      word_setWord _ _ (by norm_num)]
  have hnext : m1.word (a + 12) = 0 := by
    rw [← hm1, word_setWord _ _ (by norm_num)]
  have heq : initBlock a n prev m = m1.memset (a + 16) 0 n := by
    rw [initBlock, hm1, zeroBlock_eq hsize]
  rw [heq]
  refine ⟨tileOk_used ?_ le_rfl ?_ (.inl ?_), fun x hx => ?_⟩
  · rw [word_memset_of_apart (by omega), hsize]
  · rw [word_memset_of_apart (by omega), hfree]
  · rw [word_memset_of_apart (by omega), hnext]
  · rw [memset_of_apart (by omega), ← hm1, setWord_of_apart (by omega), setWord_of_apart (by omega),
      setWord_of_apart (by omega), setWord_of_apart (by omega)]

theorem mergeBlock_header {up upCap : ℕ} (hup : Header m brk up upCap)
    (hadj : up = a + 16 + cap) (hlimit : up + 16 + upCap < 2 ^ 32) :
    Header (mergeBlock a up m) brk a (cap + 16 + upCap) ∧
      (mergeBlock a up m).word a = 16 + cap + m.word up ∧
      Mem.Same (fun x => x < a ∨ a + 4 ≤ x ∧ x < a + 12 ∨ a + 16 ≤ x) m (mergeBlock a up m) := by
  have hsize := hup.size
  have hmod : (2 ^ 32 + up - a + m.word up) % 2 ^ 32 = 16 + cap + m.word up := by omega
  have heq : mergeBlock a up m =
      (m.setWord a (16 + cap + m.word up)).setWord (a + 12) (m.word (up + 12)) := by
    simp only [mergeBlock, hmod]
    rw [word_setWord_of_apart (by omega)]
  have hword : (mergeBlock a up m).word a = 16 + cap + m.word up := by
    rw [heq, word_setWord_of_apart (by omega), word_setWord _ _ (by omega)]
  refine ⟨⟨?_, ?_⟩, hword, fun x hx => ?_⟩
  · rw [hword]
    omega
  · rw [heq, word_setWord _ _ (word_lt _ _)]
    rcases hup.next with hzero | ⟨hnext, hlt⟩
    · exact .inl hzero
    · exact .inr ⟨by omega, by omega⟩
  · rw [heq, setWord_of_apart (by omega), setWord_of_apart (by omega)]

theorem clearBlock_ok (h : Header m brk a cap) :
    TileOk (clearBlock a m) brk ⟨a, cap, none⟩ ∧ (clearBlock a m).word a = m.word a ∧
      Mem.Same (fun x => x < a ∨ a + 16 + cap ≤ x) m (clearBlock a m) := by
  have hsize := h.size
  have hword : (m.setWord (a + 4) 1).word a = m.word a := word_setWord_of_apart (by omega)
  have heq : clearBlock a m = (m.setWord (a + 4) 1).memset (a + 16) 0 (m.word a) := by
    rw [clearBlock, zeroBlock_eq hword]
  have hword' : (clearBlock a m).word a = m.word a := by
    rw [heq, word_memset_of_apart (by omega), hword]
  refine ⟨tileOk_free ⟨?_, ?_⟩ ?_, hword', fun x hx => ?_⟩
  · rw [hword']
    exact hsize
  · rw [heq, word_memset_of_apart (by omega), word_setWord_of_apart (by omega)]
    exact h.next
  · rw [heq, word_memset_of_apart (by omega), word_setWord _ _ (by norm_num)]
  · rw [heq, memset_of_apart (by omega), setWord_of_apart (by omega)]

end Stores

section Layout

variable {h : Heap} {T A B M : List Tile} {t : Tile} {lo hi n : ℕ} {m' : Mem}

theorem Layout.replace (hl : Layout h T) (hA : Tiles Tile.addr Tile.fin h.startHeap lo A)
    (hB : Tiles Tile.addr Tile.fin hi h.brk B) (hAT : A ⊆ T) (hBT : B ⊆ T)
    (hM : Tiles Tile.addr Tile.fin lo hi M) (hok : ∀ t ∈ M, TileOk m' h.brk t)
    (hsame : Mem.Same (fun x => x < lo ∨ hi ≤ x) h.mem m') :
    Layout { h with mem := m' } (A ++ (M ++ B)) where
  base := hl.base
  pos := hl.pos
  lt := hl.lt
  limit := hl.limit
  tiles := tiles_append.mpr ⟨lo, hA, tiles_append.mpr ⟨hi, hM, hB⟩⟩
  ok t ht := by
    rcases mem_append.mp ht with ht | ht
    · refine (hl.ok t (hAT ht)).of_same (hsame.mono fun x hx => ?_) le_rfl
      have := (hA.mem_le ht).2.2
      unfold Tile.fin at this
      omega
    · rcases mem_append.mp ht with ht | ht
      · exact hok t ht
      · refine (hl.ok t (hBT ht)).of_same (hsame.mono fun x hx => ?_) le_rfl
        have := (hB.mem_le ht).1
        omega

theorem Layout.above (hl : Layout h T) (ht : t ∈ T) (hlt : t.fin < h.brk) :
    ∃ A u B, T = A ++ t :: u :: B ∧ u.addr = t.fin ∧ Tiles Tile.addr Tile.fin h.startHeap t.addr A ∧
      Tiles Tile.addr Tile.fin u.fin h.brk B := by
  obtain ⟨A, B, rfl, hA, hB⟩ := hl.tiles.split ht
  obtain ⟨u, B, rfl, hu, hB⟩ := hB.exists_head hlt
  exact ⟨A, u, B, rfl, hu, hA, hB⟩

theorem Layout.head (hl : Layout h T) : ∃ t ∈ T, t.addr = h.baseBlock := by
  obtain ⟨t, T, rfl, ht, -⟩ := hl.tiles.exists_head hl.lt
  exact ⟨t, mem_cons_self, ht.trans hl.base.symm⟩

theorem Layout.searchLoop_spec (hl : Layout h T) (n fuel : ℕ) (ht : t ∈ T)
    (hfuel : h.brk < t.addr + fuel) :
    (∃ u ∈ T, u.used = none ∧ n ≤ h.mem.word u.addr ∧
      searchLoop h.mem n fuel t.addr = some (.found u.addr)) ∨
    ∃ u ∈ T, searchLoop h.mem n fuel t.addr = some (.last u.addr) := by
  induction fuel generalizing t with
  | zero =>
    have := (hl.tiles.mem_le ht)
    omega
  | succ fuel ih =>
    rw [searchLoop]
    have hok := hl.ok t ht
    split_ifs with hfound hlast
    · refine .inl ⟨t, ht, ?_, hfound.2, rfl⟩
      cases hused : t.used with
      | none => rfl
      | some k =>
        rw [(hok.used k hused).2] at hfound
        cases hfound.1
    · exact .inr ⟨t, ht, rfl⟩
    · obtain ⟨hnext, hlt⟩ := hok.next.resolve_left hlast
      obtain ⟨A, u, B, rfl, hu, -, -⟩ := hl.above ht hlt
      have hmem : u ∈ A ++ t :: u :: B := by simp
      rw [hnext, show t.addr + 16 + t.cap = u.addr from hu.symm]
      refine ih hmem ?_
      rw [hu]
      unfold Tile.fin
      omega

/-- What an allocation of `n` bytes does to the blocks: a free one is taken, a free one is split, or
there is a new one at the break. -/
inductive Alloc (h h' : Heap) (n : ℕ) : List Tile → ℕ → List Tile → Prop
  | take (A B : List Tile) (t : Tile) (hfree : t.used = none) (hbrk : h'.brk = h.brk)
      (hn : n ≤ h.mem.word t.addr) (hsmall : h.mem.word t.addr - n < 16) :
      Alloc h h' n (A ++ t :: B) t.addr (A ++ ([⟨t.addr, t.cap, some n⟩] ++ B))
  | split (A B : List Tile) (t : Tile) (hfree : t.used = none) (hbrk : h'.brk = h.brk)
      (hlarge : 16 ≤ h.mem.word t.addr - n)
      (hrest : h'.mem.word (t.addr + 16 + n) = h.mem.word t.addr - n - 16) :
      Alloc h h' n (A ++ t :: B) t.addr (A ++ ([⟨t.addr, n, some n⟩,
        ⟨t.addr + 16 + n, t.cap - n - 16, none⟩] ++ B))
  | extend (A : List Tile) (hbrk : h'.brk = h.brk + 16 + n) :
      Alloc h h' n A h.brk (A ++ [⟨h.brk, n, some n⟩])

/-- What an allocation at `a` leaves: the other blocks, with the same bytes. -/
structure Allocated (h h' : Heap) (n : ℕ) (T : List Tile) (a : ℕ) (T' : List Tile) : Prop where
  alloc : Alloc h h' n T a T'
  layout : Layout h' T'
  keeps : ∀ t ∈ T, t.addr ≠ a → Mem.Same (fun x => t.addr ≤ x ∧ x < t.fin) h.mem h'.mem

theorem signed_eq {k : ℕ} (hk : k < 2 ^ 31) : signed k = k := by
  unfold signed
  rw [if_pos (by omega)]
  omega

theorem sbrk_cases {k : ℕ} (hk : k < 2 ^ 31) (h : Heap) :
    ∃ answers, sbrk (signed k) h = (noBreak, { h with answers }) ∨
      h.brk + k ≤ loaderPhysBase ∧
        sbrk (signed k) h = (h.brk, { h with brk := h.brk + k, answers }) := by
  rw [signed_eq hk]
  unfold sbrk
  split
  · exact ⟨h.answers, .inl rfl⟩
  · rename_i answer answers _
    refine ⟨answers, ?_⟩
    split_ifs with hok
    · have hbrk : ((h.brk : ℤ) + (k : ℤ)).toNat = h.brk + k := by omega
      rw [hbrk]
      exact .inr ⟨by omega, rfl⟩
    · exact .inl rfl

theorem Layout.same_of_ne (hl : Layout h T) (ht : t ∈ T) {u : Tile} (hu : u ∈ T)
    (hne : u.addr ≠ t.addr) (hsame : Mem.Same (fun x => x < t.addr ∨ t.fin ≤ x) h.mem m') :
    Mem.Same (fun x => u.addr ≤ x ∧ x < u.fin) h.mem m' := by
  refine hsame.mono fun x hx => ?_
  rcases hl.tiles.apart hu ht with heq | hle | hle
  · exact absurd (congrArg Tile.addr heq) hne
  · omega
  · omega

theorem Layout.use (hl : Layout h T) (ht : t ∈ T) (hfree : t.used = none)
    (hn : n ≤ h.mem.word t.addr) :
    ∃ T', Allocated h { h with mem := useBlock n t.addr h.mem } n T t.addr T' := by
  have hok := (hl.ok t ht).toHeader
  have hbrk := (hl.tiles.mem_le ht).2.2
  have hlimit := hl.limit
  have hsize := hok.size
  obtain ⟨A, B, rfl, hA, hB⟩ := hl.tiles.split ht
  have hAT : A ⊆ A ++ t :: B := fun u hu => by simp [hu]
  have hBT : B ⊆ A ++ t :: B := fun u hu => by simp [hu]
  by_cases hsmall : h.mem.word t.addr - n < 16
  · obtain ⟨htile, hsame⟩ := useBlock_take hok hn (by omega)
    refine ⟨_, .take A B t hfree rfl hn hsmall, hl.replace hA hB hAT hBT ⟨rfl, ?_, rfl⟩ ?_ hsame,
      fun u hu hne => hl.same_of_ne ht hu hne hsame⟩
    · exact (hl.tiles.mem_le ht).2.1
    · intro u hu
      rw [mem_singleton.mp hu]
      exact htile
  · rw [not_lt] at hsmall
    have hmax : h.brk < 2 ^ 32 := by
      unfold loaderPhysBase at hlimit
      omega
    obtain ⟨htile, hrest, hword, hsame⟩ := useBlock_split hok hsmall hbrk hmax
    refine ⟨_, .split A B t hfree rfl hsmall hword, hl.replace hA hB hAT hBT ?_ ?_ hsame,
      fun u hu hne => hl.same_of_ne ht hu hne hsame⟩
    · refine ⟨rfl, ?_, rfl, ?_, ?_⟩ <;>
      · dsimp only [Tile.fin, Tiles]
        omega
    · intro u hu
      rcases mem_pair.mp hu with rfl | rfl
      · exact htile
      · exact hrest

theorem Layout.extend (hl : Layout h T) (prev : ℕ) (answers : List Bool) (hn : n < 2 ^ 32)
    (hlimit : h.brk + (16 + n) ≤ loaderPhysBase) :
    Allocated h { h with
      brk := h.brk + (16 + n), answers, mem := initBlock h.brk n prev h.mem } n T h.brk
      (T ++ [⟨h.brk, n, some n⟩]) := by
  obtain ⟨hok, hsame⟩ := initBlock_ok h.mem (h.brk + (16 + n)) h.brk prev hn
  have hkeeps : ∀ t ∈ T, Mem.Same (fun x => t.addr ≤ x ∧ x < t.fin) h.mem
      (initBlock h.brk n prev h.mem) := by
    intro t ht
    have := (hl.tiles.mem_le ht).2.2
    exact hsame.mono fun x hx => by omega
  refine ⟨.extend T (Nat.add_assoc h.brk 16 n).symm, ?_, fun t ht _ => hkeeps t ht⟩
  refine ⟨hl.base, hl.pos, hl.lt.trans_le (Nat.le_add_right _ _), hlimit, ?_, ?_⟩
  · refine tiles_append.mpr ⟨h.brk, hl.tiles, rfl, ?_, ?_⟩
    · dsimp only [Tile.fin]
      omega
    · exact Nat.add_assoc h.brk 16 n
  · intro t ht
    rcases mem_append.mp ht with ht | ht
    · refine (hl.ok t ht).of_same ((hkeeps t ht).mono fun x hx => ?_) (Nat.le_add_right _ _)
      unfold Tile.fin
      omega
    · rw [mem_singleton.mp ht]
      exact hok

theorem Layout.mmMalloc_spec (hl : Layout h T) (hpos : n ≠ 0) (hn : 16 + n < 2 ^ 31) :
    (∃ answers, mmMalloc n h = some (0, { h with answers })) ∨
      ∃ a h' T', mmMalloc n h = some (a + 16, h') ∧ h'.startHeap = h.startHeap ∧
        Allocated h h' n T a T' := by
  have hbase : h.baseBlock ≠ 0 := by
    have := hl.pos
    have := hl.base
    omega
  have hlimit := hl.limit
  unfold loaderPhysBase at hlimit
  obtain ⟨t, ht, haddr⟩ := hl.head
  unfold mmMalloc
  rw [if_neg hpos, if_neg hbase]
  have hsearch := hl.searchLoop_spec n (2 ^ 32) ht (by omega)
  rw [haddr] at hsearch
  rcases hsearch with ⟨u, hu, hfree, hle, hsearch⟩ | ⟨u, hu, hsearch⟩
  · obtain ⟨T', hT'⟩ := hl.use hu hfree hle
    rw [hsearch]
    exact .inr ⟨u.addr, _, T', rfl, rfl, hT'⟩
  · rw [hsearch]
    obtain ⟨answers, hbrk | ⟨hle, hbrk⟩⟩ := sbrk_cases hn h
    · rw [Option.map_some, hbrk]
      exact .inl ⟨answers, by simp⟩
    · have hne : h.brk ≠ noBreak := by
        unfold noBreak
        omega
      rw [Option.map_some, hbrk]
      refine .inr ⟨h.brk, _, _, ?_, ?_, hl.extend u.addr answers (by omega) hle⟩
      · simp [hne]
      · rfl

theorem mmMalloc_first {rest : List Bool} (hpos : n ≠ 0) (hn : 16 + n < 2 ^ 31)
    (hbase : h.baseBlock = 0) (hbrk : 0 < h.brk) (hanswers : h.answers = true :: true :: rest)
    (hlimit : h.brk + 16 + n ≤ loaderPhysBase) :
    ∃ h', mmMalloc n h = some (h.brk + 16, h') ∧ Layout h' [⟨h.brk, n, some n⟩] := by
  obtain ⟨hok, -⟩ := initBlock_ok h.mem (h.brk + (16 + n)) h.brk 0 (n := n) (by omega)
  have hmax : loaderPhysBase < 2 ^ 32 - 16 := by norm_num [loaderPhysBase]
  have hfirst : sbrk 0 h = (h.brk, { h with answers := true :: rest }) := by
    unfold sbrk
    rw [hanswers]
    dsimp only
    rw [if_pos ⟨rfl, by omega, by omega⟩, Int.add_zero, Int.toNat_natCast]
  have hsecond : sbrk (signed (16 + n)) { h with answers := true :: rest } =
      (h.brk, { h with brk := h.brk + (16 + n), answers := rest }) := by
    rw [signed_eq hn]
    unfold sbrk
    dsimp only
    have hsum : ((h.brk : ℤ) + ((16 + n : ℕ) : ℤ)).toNat = h.brk + (16 + n) := by omega
    rw [if_pos ⟨rfl, by omega, by omega⟩, hsum]
  unfold mmMalloc
  rw [if_neg hpos, if_pos hbase, hfirst]
  dsimp only
  rw [hsecond, Nat.mod_eq_of_lt (by omega)]
  refine ⟨_, rfl, rfl, hbrk, ?_, ?_, ⟨rfl, ?_, ?_⟩, ?_⟩
  · dsimp only
    omega
  · dsimp only
    omega
  · dsimp only [Tile.fin]
    omega
  · exact Nat.add_assoc h.brk 16 n
  · intro t ht
    rw [mem_singleton.mp ht]
    exact hok

/-- The `prev` link of the block is null, leads to a block in use, or to the block right below. -/
def PrevOk (T : List Tile) (m : Mem) (c : Tile) : Prop :=
  m.word (c.addr + 8) = 0 ∨
    ∃ t ∈ T, t.addr = m.word (c.addr + 8) ∧ (t.used ≠ none ∨ t.fin = c.addr)

/-- `mm_free` merges the block with the one its `prev` link leads to. -/
def MergesDown (m : Mem) (c : Tile) : Prop :=
  m.word (c.addr + 8) ≠ 0 ∧ m.word (m.word (c.addr + 8) + 4) = 1

/-- `mm_free` merges the block with the one its `next` link leads to. -/
def MergesUp (m : Mem) (c : Tile) : Prop :=
  m.word (c.addr + 12) ≠ 0 ∧ m.word (m.word (c.addr + 12) + 4) = 1

variable {c : Tile}

theorem Layout.below (hl : Layout h (A ++ c :: B))
    (hA : Tiles Tile.addr Tile.fin h.startHeap c.addr A)
    (hprev : PrevOk (A ++ c :: B) h.mem c) (hdown : MergesDown h.mem c) :
    ∃ A' d, A = A' ++ [d] ∧ Tiles Tile.addr Tile.fin h.startHeap d.addr A' ∧ d.used = none ∧
      d.addr = h.mem.word (c.addr + 8) ∧ d.fin = c.addr := by
  obtain ⟨t, ht, haddr, hused⟩ := hprev.resolve_left hdown.1
  have hnone : t.used = none := by
    cases hu : t.used with
    | none => rfl
    | some k =>
      have hfree := ((hl.ok t ht).used k hu).2
      rw [haddr, hdown.2] at hfree
      cases hfree
  have hfin := hused.resolve_left (not_not_intro hnone)
  have hlt := (hl.tiles.mem_le ht)
  obtain ⟨A', d, rfl, hA', hd⟩ := hA.exists_last (by omega)
  have hdt : t = d := by
    have hdlt := (hl.tiles.mem_le (t := d) (by simp)).2.1
    rcases hl.tiles.apart ht (u := d) (by simp) with heq | hle | hle
    · exact heq
    · omega
    · omega
  subst hdt
  exact ⟨A', t, rfl, hA', hnone, haddr, hfin⟩

theorem Layout.next_eq (hl : Layout h (A ++ c :: B))
    (hB : Tiles Tile.addr Tile.fin c.fin h.brk B) (hnext : h.mem.word (c.addr + 12) ≠ 0) :
    ∃ u B', B = u :: B' ∧ u.addr = c.fin ∧ h.mem.word (c.addr + 12) = u.addr ∧
      Tiles Tile.addr Tile.fin u.fin h.brk B' := by
  obtain ⟨hword, hlt⟩ := (hl.ok c (by simp)).next.resolve_left hnext
  obtain ⟨u, B', rfl, hu, hB'⟩ := hB.exists_head hlt
  exact ⟨u, B', rfl, hu, hword.trans hu.symm, hB'⟩

/-- The blocks `mm_free` makes one block of: the freed one, with the one below and the one above
when they are merged. -/
structure Merged (m : Mem) (c : Tile) (lo hi : List Tile) : Prop where
  down : lo = [] ∧ ¬ MergesDown m c ∨
    ∃ d, lo = [d] ∧ d.used = none ∧ d.fin = c.addr ∧ MergesDown m c
  up : hi = [] ∧ ¬ MergesUp m c ∨ ∃ u, hi = [u] ∧ u.used = none ∧ u.addr = c.fin ∧ MergesUp m c

theorem Layout.merge_down (hl : Layout h (A ++ c :: B))
    (hA : Tiles Tile.addr Tile.fin h.startHeap c.addr A) (hprev : PrevOk (A ++ c :: B) h.mem c) :
    ∃ A' lo a cap m1, A = A' ++ lo ∧ Tiles Tile.addr Tile.fin h.startHeap a A' ∧
      Tiles Tile.addr Tile.fin a c.addr lo ∧ (lo = [] ∧ ¬ MergesDown h.mem c ∨
      ∃ d, lo = [d] ∧ d.used = none ∧ d.fin = c.addr ∧ MergesDown h.mem c) ∧
      (if h.mem.word (c.addr + 8) ≠ 0 ∧ h.mem.word (h.mem.word (c.addr + 8) + 4) = 1 then
      (h.mem.word (c.addr + 8), mergeBlock (h.mem.word (c.addr + 8)) c.addr h.mem)
      else (c.addr, h.mem)) = (a, m1) ∧ a + 16 + cap = c.fin ∧ Header m1 h.brk a cap ∧
      a + 16 + m1.word a = c.addr + 16 + h.mem.word c.addr ∧
      Mem.Same (fun x => x < a ∨ a + 16 ≤ x) h.mem m1 := by
  have hc := hl.ok c (by simp)
  have hlimit := hl.limit
  have hfin := (hl.tiles.mem_le (t := c) (by simp)).2.2
  by_cases hdown : MergesDown h.mem c
  · obtain ⟨A', d, rfl, hA', hnone, haddr, hd⟩ := hl.below hA hprev hdown
    have hbound : c.addr + 16 + c.cap < 2 ^ 32 := by
      unfold Tile.fin at hfin
      unfold loaderPhysBase at hlimit
      omega
    obtain ⟨hheader, hword, hsame⟩ := mergeBlock_header hc.toHeader
      (show c.addr = d.addr + 16 + d.cap from hd.symm) hbound
    refine ⟨A', [d], d.addr, d.cap + 16 + c.cap, _, rfl, hA', ⟨rfl, ?_, hd⟩,
      .inr ⟨d, rfl, hnone, hd, hdown⟩, by rw [haddr]; exact if_pos hdown, ?_, hheader, ?_,
      hsame.mono fun x hx => by omega⟩
    · unfold Tile.fin
      omega
    · unfold Tile.fin at hd ⊢
      omega
    · unfold Tile.fin at hd
      omega
  · exact ⟨A, [], c.addr, c.cap, h.mem, (append_nil A).symm, hA, rfl, .inl ⟨rfl, hdown⟩,
      if_neg hdown, rfl, hc.toHeader, rfl, Mem.Same.refl _ _⟩

theorem Layout.merge_up {a cap : ℕ} {m1 : Mem} (hl : Layout h (A ++ c :: B))
    (hB : Tiles Tile.addr Tile.fin c.fin h.brk B) (hcap : a + 16 + cap = c.fin)
    (hheader : Header m1 h.brk a cap) (hword : a + 16 + m1.word a = c.addr + 16 + h.mem.word c.addr)
    (hsame : Mem.Same (fun x => x < a ∨ a + 16 ≤ x) h.mem m1) :
    ∃ hi B' b m2, B = hi ++ B' ∧ Tiles Tile.addr Tile.fin c.fin b hi ∧
      Tiles Tile.addr Tile.fin b h.brk B' ∧ (hi = [] ∧ ¬ MergesUp h.mem c ∨
      ∃ u, hi = [u] ∧ u.used = none ∧ u.addr = c.fin ∧ MergesUp h.mem c) ∧
      (if h.mem.word (c.addr + 12) ≠ 0 ∧ m1.word (h.mem.word (c.addr + 12) + 4) = 1 then
      mergeBlock a (h.mem.word (c.addr + 12)) m1 else m1) = m2 ∧ a + 16 ≤ b ∧
      Header m2 h.brk a (b - (a + 16)) ∧ (∀ t, (c :: hi).getLast? = some t →
      a + 16 + m2.word a = t.addr + 16 + h.mem.word t.addr) ∧
      Mem.Same (fun x => x < a ∨ a + 16 ≤ x) h.mem m2 := by
  have hlimit := hl.limit
  -- the `free` field above is not touched by the first half
  have hiff : h.mem.word (c.addr + 12) ≠ 0 ∧ m1.word (h.mem.word (c.addr + 12) + 4) = 1 ↔
      MergesUp h.mem c := by
    refine and_congr_right fun hne => ?_
    obtain ⟨u, B', rfl, hu, hword, -⟩ := hl.next_eq hB hne
    rw [hword, hsame.word fun x hx hx' => by omega]
  by_cases hup : MergesUp h.mem c
  · obtain ⟨u, B', rfl, hu, hnext, hB'⟩ := hl.next_eq hB hup.1
    have huok := hl.ok u (by simp)
    have hubrk := (hl.tiles.mem_le (t := u) (by simp)).2.2
    have hnone : u.used = none := by
      cases hused : u.used with
      | none => rfl
      | some k =>
        have hzero := (huok.used k hused).2
        rw [← hnext, hup.2] at hzero
        cases hzero
    have hu1 : Header m1 h.brk u.addr u.cap :=
      huok.toHeader.of_same (hsame.mono fun x hx => by omega) le_rfl
    have hbound : u.addr + 16 + u.cap < 2 ^ 32 := by
      unfold Tile.fin at hubrk
      unfold loaderPhysBase at hlimit
      omega
    obtain ⟨hheader2, hword2, hsame2⟩ := mergeBlock_header hu1 (hu.trans hcap.symm) hbound
    have hsize : m1.word u.addr = h.mem.word u.addr := hsame.word fun x hx hx' => by omega
    have hb : u.fin = u.addr + 16 + u.cap := rfl
    refine ⟨[u], B', u.fin, _, rfl, ⟨hu, by omega, rfl⟩, hB', .inr ⟨u, rfl, hnone, hu, hup⟩, rfl,
      by omega, ?_, fun t ht => ?_, ?_⟩
    · rw [if_pos (hiff.mpr hup), hnext]
      have hcap2 : u.fin - (a + 16) = cap + 16 + u.cap := by omega
      rw [hcap2]
      exact hheader2
    · obtain rfl : u = t := by simpa using ht
      rw [if_pos (hiff.mpr hup), hnext, hword2, hsize]
      omega
    · rw [if_pos (hiff.mpr hup), hnext]
      exact hsame.trans (hsame2.mono fun x hx => by omega)
  · refine ⟨[], B, c.fin, m1, rfl, rfl, hB, .inl ⟨rfl, hup⟩, if_neg (hiff.not.mpr hup),
      by omega, ?_, fun t ht => ?_, hsame⟩
    · have hcap2 : c.fin - (a + 16) = cap := by omega
      rw [hcap2]
      exact hheader
    · cases ht
      exact hword

/-- What `mm_free` leaves: the blocks from `a` to `b` have become one free block. -/
structure FreedAt (h : Heap) (m' : Mem) (c : Tile) (A lo hi B : List Tile) (a b : ℕ) : Prop
    extends Merged h.mem c lo hi where
  below : Tiles Tile.addr Tile.fin h.startHeap a A
  merged : Tiles Tile.addr Tile.fin a b (lo ++ c :: hi)
  above : Tiles Tile.addr Tile.fin b h.brk B
  room : a + 16 ≤ b
  layout : Layout { h with mem := m' } (A ++ ([⟨a, b - (a + 16), none⟩] ++ B))
  size : ∀ t, (c :: hi).getLast? = some t →
    a + 16 + m'.word a = t.addr + 16 + h.mem.word t.addr
  same : Mem.Same (fun x => x < a ∨ b ≤ x) h.mem m'

theorem Layout.mmFree_spec (hl : Layout h T) (hc : c ∈ T) (hprev : PrevOk T h.mem c) :
    ∃ A lo hi B a b, T = A ++ (lo ++ c :: hi ++ B) ∧
      FreedAt h (mmFree (c.addr + 16) h.mem) c A lo hi B a b := by
  obtain ⟨A0, B0, rfl, hA0, hB0⟩ := hl.tiles.split hc
  obtain ⟨A, lo, a, cap, m1, rfl, hA, hlo, hdown, hm1, hcap, hheader1, hword1, hsame1⟩ :=
    hl.merge_down hA0 hprev
  obtain ⟨hi, B, b, m2, rfl, hhi, hB, hup, hm2, hle, hheader2, hword2, hsame2⟩ :=
    hl.merge_up hB0 hcap hheader1 hword1 hsame1
  obtain ⟨hok, hword3, hsame3⟩ := clearBlock_ok hheader2
  have heq : mmFree (c.addr + 16) h.mem = clearBlock a m2 := by
    rw [mmFree, if_neg (by omega), Nat.add_sub_cancel]
    dsimp only
    rw [hm1, ← hm2]
  rw [heq]
  have hend : a + 16 + (b - (a + 16)) = b := by omega
  have hsame : Mem.Same (fun x => x < a ∨ b ≤ x) h.mem (clearBlock a m2) :=
    (hsame2.mono fun x hx => by omega).trans (hsame3.mono fun x hx => by omega)
  refine ⟨A, lo, hi, B, a, b, by simp, ⟨hdown, hup⟩, hA, ?_, hB, hle, ?_, fun t ht => ?_, hsame⟩
  · exact tiles_append.mpr ⟨c.addr, hlo, rfl, by unfold Tile.fin; omega, hhi⟩
  · refine hl.replace hA hB (fun t ht => by simp [ht]) (fun t ht => by simp [ht])
      ⟨rfl, ?_, ?_⟩ ?_ hsame
    · unfold Tile.fin
      omega
    · exact hend
    · intro t ht
      rw [mem_singleton.mp ht]
      exact hok
  · rw [hword3]
    exact hword2 t ht

end Layout

end CS162.UserHeap
