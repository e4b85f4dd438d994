import CS162.Memory.HeapSafe

/-!
# When the user heap is whole again

After all blocks are freed the heap is one free block, when `free` has merged each block with its
free neighbours.  It does so when the links lead to them: `prev` is set when a block is made, and
`next` only when a block is split, so that a block made at the break is not seen from below.
-/

namespace CS162.UserHeap

open Option List Function Tile

open Threads

/-- No two free blocks are neighbours. -/
def Compact (T : List Tile) : Prop :=
  ∀ t ∈ T, ∀ u ∈ T, t.used = none → u.used = none → t.fin ≠ u.addr

/-- The size of the block at the end of the heap goes up to the break. -/
def Flush (h : Heap) (T : List Tile) : Prop :=
  ∀ t ∈ T, t.fin = h.brk → h.mem.word t.addr = t.cap

section Allocate

variable {h h' : Heap} {T T' : List Tile} {n a : ℕ}

theorem Allocated.compact (ha : Allocated h h' n T a T') (hl : Layout h T) (hc : Compact T) :
    Compact T' := by
  intro x hx y hy hxf hyf heq
  cases ha.alloc with
  | take A B t =>
    have hmem : ∀ z, z.used = none → z ∈ A ++ ([⟨t.addr, t.cap, some n⟩] ++ B) →
        z ∈ A ++ t :: B := by
      intro z hz hmem
      simp only [mem_append, mem_singleton] at hmem
      rcases hmem with hmem | rfl | hmem
      · simp [hmem]
      · cases hz
      · simp [hmem]
    exact hc x (hmem x hxf hx) y (hmem y hyf hy) hxf hyf heq
  | split A B t hfree hbrk hlarge =>
    generalize hr : (⟨t.addr + 16 + n, t.cap - n - 16, none⟩ : Tile) = r at hx hy
    have ht : t ∈ A ++ t :: B := by simp
    have hsize := (hl.ok t ht).size
    have hfin : t.fin = t.addr + 16 + t.cap := rfl
    have hraddr : r.addr = t.addr + 16 + n := by rw [← hr]
    have hrfin : r.fin = t.fin := by
      rw [← hr]
      dsimp only [fin]
      omega
    have hmem : ∀ z, z.used = none → z ∈ A ++ ([⟨t.addr, n, some n⟩, r] ++ B) →
        z = r ∨ z ∈ A ++ t :: B := by
      intro z hz hmem
      simp only [mem_append, mem_cons, not_mem_nil, or_false] at hmem
      rcases hmem with hmem | (rfl | rfl) | hmem
      · simp [hmem]
      · cases hz
      · exact .inl rfl
      · simp [hmem]
    -- the rest has the upper neighbour of the block that is split
    rcases hmem x hxf hx with hxr | hxT
    · rw [hxr, hrfin] at heq
      rcases hmem y hyf hy with hyr | hyT
      · rw [hyr] at heq
        omega
      · exact hc t ht y hyT hfree hyf heq
    · rcases hmem y hyf hy with hyr | hyT
      · rw [hyr] at heq
        have hlt := (hl.tiles.mem_le hxT).2.1
        rcases hl.tiles.apart hxT ht with hxt | hle | hle
        · rw [hxt] at heq
          omega
        · omega
        · omega
      · exact hc x hxT y hyT hxf hyf heq
  | extend =>
    have hmem : ∀ z, z.used = none → z ∈ T ++ [⟨h.brk, n, some n⟩] → z ∈ T := by
      intro z hz hmem
      rcases mem_append.mp hmem with hmem | hmem
      · exact hmem
      · rw [mem_singleton.mp hmem] at hz
        cases hz
    exact hc x (hmem x hxf hx) y (hmem y hyf hy) hxf hyf heq

/-- The last block is not free with a size that `n` bytes almost fill. -/
def NoGap (h : Heap) (T : List Tile) (n : ℕ) : Prop :=
  ∀ t ∈ T, t.fin = h.brk → t.used = none → h.mem.word t.addr ≤ n ∨ n + 16 ≤ h.mem.word t.addr

theorem Allocated.flush (ha : Allocated h h' n T a T') (hl : Layout h T) (hf : Flush h T)
    (hgap : NoGap h T n) : Flush h' T' := by
  intro x hx hend
  -- blocks that were there
  have hold : x ∈ T → x.addr ≠ a → h'.brk = h.brk → h'.mem.word x.addr = x.cap := by
    intro hx hne hbrk
    rw [(ha.keeps x hx hne).word fun y hy hy' => ⟨hy, by unfold fin; omega⟩]
    exact hf x hx (hend.trans hbrk)
  -- blocks in use
  have hused : x.used = some n → h'.mem.word x.addr = n := fun h => ((ha.layout.ok x hx).used n h).1
  cases ha.alloc with
  | take A B t hfree hbrk hn hsmall =>
    have ht : t ∈ A ++ t :: B := by simp
    rcases eq_or_ne x.addr t.addr with haddr | hne
    · have hnew := ha.layout.tiles.eq_of_lo_eq hx (u := ⟨t.addr, t.cap, some n⟩) (by simp) haddr
      rw [hnew] at hend
      have hlast : t.fin = h.brk := hend.trans hbrk
      have := hf t ht hlast
      have := hgap t ht hlast hfree
      rw [hused (by rw [hnew]), hnew]
      dsimp only
      omega
    · refine hold ?_ hne hbrk
      simp only [mem_append, mem_singleton] at hx
      rcases hx with hx | rfl | hx
      · simp [hx]
      · exact absurd rfl hne
      · simp [hx]
  | split A B t hfree hbrk hlarge hrest =>
    have ht : t ∈ A ++ t :: B := by simp
    have hsize := (hl.ok t ht).size
    rcases eq_or_ne x.addr t.addr with haddr | hne
    · have hnew := ha.layout.tiles.eq_of_lo_eq hx (u := ⟨t.addr, n, some n⟩) (by simp) haddr
      rw [hused (by rw [hnew]), hnew]
    · simp only [mem_append, mem_cons, not_mem_nil, or_false] at hx
      rcases hx with hx | (rfl | rfl) | hx
      · exact hold (by simp [hx]) hne hbrk
      · exact absurd rfl hne
      · have hlast : t.fin = h.brk := by
          rw [← hbrk, ← hend]
          dsimp only [fin]
          omega
        have := hf t ht hlast
        rw [hrest, this]
      · exact hold (by simp [hx]) hne hbrk
  | extend A hbrk =>
    have hnew : x = ⟨h.brk, n, some n⟩ := by
      rcases mem_append.mp hx with hx | hx
      · have := (hl.tiles.mem_le hx).2.2
        omega
      · exact mem_singleton.mp hx
    rw [hused (by rw [hnew]), hnew]

end Allocate

section Free

variable {h : Heap} {m' : Mem} {c : Tile} {T A lo hi B : List Tile} {a b : ℕ}

/-- The links of a block lead to its free neighbours. -/
structure Joined (m : Mem) (T : List Tile) (c : Tile) : Prop where
  prev : ∀ d ∈ T, d.fin = c.addr → d.used = none → m.word (c.addr + 8) = d.addr
  next : ∀ u ∈ T, u.addr = c.fin → u.used = none → m.word (c.addr + 12) = u.addr

theorem Layout.free_word (hl : Layout h T) {d : Tile} (hd : d ∈ T) (hfree : d.used = none)
    {w : ℕ} (hw : w = d.addr) : w ≠ 0 ∧ h.mem.word (w + 4) = 1 := by
  have := (hl.tiles.mem_le hd).1
  have := hl.pos
  exact ⟨by omega, hw ▸ (hl.ok d hd).free hfree⟩

theorem FreedAt.upper (hf : FreedAt h m' c A lo hi B a b) : Tiles addr fin c.fin b hi := by
  obtain ⟨e, -, -, -, hhi⟩ := tiles_append.mp hf.merged
  exact hhi

theorem FreedAt.compact (hf : FreedAt h m' c A lo hi B a b)
    (hl : Layout h (A ++ (lo ++ c :: hi ++ B))) (hc : Compact (A ++ (lo ++ c :: hi ++ B)))
    (hjoined : Joined h.mem (A ++ (lo ++ c :: hi ++ B)) c) :
    Compact (A ++ ([⟨a, b - (a + 16), none⟩] ++ B)) := by
  have hroom := hf.room
  have hmerged := hf.merged
  -- the block below the merged ones is not free
  have hbelow : ∀ x ∈ A ++ (lo ++ c :: hi ++ B), x.used = none → x.fin ≠ a := by
    intro x hx hxf heq
    rcases hf.down with ⟨rfl, hno⟩ | ⟨d, rfl, hd, -⟩
    · have hca : c.addr = a := hmerged.1
      exact hno (hl.free_word hx hxf (hjoined.prev x hx (heq.trans hca.symm) hxf))
    · have hda : d.addr = a := hmerged.1
      exact hc x hx d (by simp) hxf hd (heq.trans hda.symm)
  -- and neither is the one above
  have habove : ∀ y ∈ A ++ (lo ++ c :: hi ++ B), y.used = none → b ≠ y.addr := by
    intro y hy hyf heq
    have hhi := hf.upper
    rcases hf.up with ⟨rfl, hno⟩ | ⟨u, rfl, hu, -⟩
    · have hcb : c.fin = b := hhi
      exact hno (hl.free_word hy hyf (hjoined.next y hy (heq.symm.trans hcb.symm) hyf))
    · have hub : u.fin = b := hhi.2.2
      exact hc u (by simp) y hy hu hyf (hub.trans heq)
  have hmem : ∀ z ∈ A ++ ([⟨a, b - (a + 16), none⟩] ++ B),
      z = ⟨a, b - (a + 16), none⟩ ∨ z ∈ A ++ (lo ++ c :: hi ++ B) := by
    intro z hz
    simp only [mem_append, mem_singleton] at hz ⊢
    tauto
  have hfin : fin ⟨a, b - (a + 16), none⟩ = b := by
    dsimp only [fin]
    omega
  intro x hx y hy hxf hyf heq
  rcases hmem x hx with hxr | hxT
  · rw [hxr, hfin] at heq
    rcases hmem y hy with hyr | hyT
    · rw [hyr] at heq
      dsimp only at heq
      omega
    · exact habove y hyT hyf heq
  · rcases hmem y hy with hyr | hyT
    · rw [hyr] at heq
      exact hbelow x hxT hxf heq
    · exact hc x hxT y hyT hxf hyf heq

theorem FreedAt.flush (hf : FreedAt h m' c A lo hi B a b)
    (hflush : Flush h (A ++ (lo ++ c :: hi ++ B))) :
    Flush { h with mem := m' } (A ++ ([⟨a, b - (a + 16), none⟩] ++ B)) := by
  have hroom := hf.room
  have hle := hf.above.le
  intro x hx hend
  dsimp only at hend ⊢
  simp only [mem_append, mem_singleton] at hx
  rcases hx with hx | rfl | hx
  · have := (hf.below.mem_le hx).2.2
    omega
  · -- the last one of the merged blocks was at the end
    have hb : b = h.brk := by
      dsimp only [fin] at hend
      omega
    obtain ⟨t, ht, hlast⟩ : ∃ t, (c :: hi).getLast? = some t ∧ t.fin = b := by
      have hhi := hf.upper
      rcases hf.up with ⟨rfl, -⟩ | ⟨u, rfl, -⟩
      · exact ⟨c, rfl, hhi⟩
      · exact ⟨u, rfl, hhi.2.2⟩
    have hmem : t ∈ A ++ (lo ++ c :: hi ++ B) := by
      have := mem_of_getLast? ht
      simp only [mem_append]
      tauto
    have hword := hf.size t ht
    rw [hflush t hmem (hlast.trans hb)] at hword
    unfold fin at hlast
    dsimp only
    omega
  · have := (hf.above.mem_le hx).1
    rw [hf.same.word fun y hy hy' => by omega]
    exact hflush x (by simp [hx]) hend

end Free

/-- The condition, for programs that call `malloc` and `free`: that of harmless calls, a block at
the end of the heap is not taken with a gap behind it, and a block that is freed is linked to its
free neighbours. -/
def Tidy (s : State) : Call → Prop
  | .malloc size => Fits s.heap size ∧ ∀ T, Blocks s T → NoGap s.heap T size
  | .free ptr => GoodPrev s ptr ∧
      ∀ T, Blocks s T → ∀ c ∈ T, c.addr + 16 = ptr → Joined s.heap.mem T c
  | .write _ _ _ => True
  | .calloc _ _ | .realloc _ _ => False

/-- The heap is a single free block, and serves any request that it has room for. -/
structure Whole (h : Heap) : Prop where
  base : h.baseBlock = h.startHeap
  free : h.mem.word (h.baseBlock + 4) = 1
  next : h.mem.word (h.baseBlock + 12) = 0
  size : h.startHeap + 16 + h.mem.word h.baseBlock = h.brk
  malloc : ∀ n, 0 < n → n ≤ h.brk - h.startHeap - 16 →
    ∃ h', mmMalloc n h = some (h.startHeap + 16, h') ∧ h'.brk = h.brk ∧ h'.answers = h.answers

/-- What is known before each call: there is no heap, or its free blocks are merged. -/
def Trim (s : State) : Prop :=
  (s.heap.baseBlock = 0 ∧ (∀ p, s.live p = none) ∧ 0 < s.heap.brk) ∨
    ∃ T, Blocks s T ∧ Compact T ∧ Flush s.heap T

section Runs

variable {s s' : State} {T : List Tile} {n p k : ℕ}

theorem step_malloc {ptr : ℕ} {h' : Heap} (hmalloc : mmMalloc n s.heap = some (ptr, h')) :
    step s (.malloc n) = some ⟨h', record ptr n s.live⟩ := by
  have hlegal : Legal s (.malloc n) := trivial
  rw [step, if_pos hlegal, exec, hmalloc]
  rfl

theorem step_free (hlegal : p = 0 ∨ (s.live p).isSome) :
    step s (.free p) = some ⟨{ s.heap with mem := mmFree p s.heap.mem },
      update s.live p none⟩ := by
  have hlegal : Legal s (.free p) := hlegal
  rw [step, if_pos hlegal]
  rfl

theorem Trim.malloc (ht : Trim s) (hfits : Fits s.heap n)
    (hgap : ∀ T, Blocks s T → NoGap s.heap T n) (hstep : step s (.malloc n) = some s') :
    Trim s' := by
  rcases eq_or_ne n 0 with rfl | hpos
  · cases (step_malloc (if_pos rfl)).symm.trans hstep
    exact ht
  rcases ht with ⟨hbase, hlive, hbrk⟩ | ⟨T, hb, hcompact, hflush⟩
  · obtain ⟨h', hmalloc, hb⟩ := hfits.first hpos hbase hlive hbrk
    cases (step_malloc hmalloc).symm.trans hstep
    rw [record, if_neg (by omega)]
    refine .inr ⟨_, hb, fun t ht _ _ hfree => ?_, fun t ht _ => ?_⟩
    · rw [mem_singleton.mp ht] at hfree
      cases hfree
    · rw [mem_singleton.mp ht]
      exact ((hb.layout.ok _ (by simp)).used n rfl).1
  · rcases hb.malloc hpos hfits.1 with ⟨answers, hnull⟩ | ⟨a, h', T', hmalloc, ha, hb', -, -⟩
    · cases (step_malloc hnull).symm.trans hstep
      exact .inr ⟨T, hb.answers answers, hcompact, hflush⟩
    · cases (step_malloc hmalloc).symm.trans hstep
      rw [record, if_neg (by omega)]
      exact .inr ⟨T', hb', ha.compact hb.layout hcompact, ha.flush hb.layout hflush (hgap T hb)⟩

theorem Trim.free (ht : Trim s) (hprev : GoodPrev s p)
    (hjoined : ∀ T, Blocks s T → ∀ c ∈ T, c.addr + 16 = p → Joined s.heap.mem T c)
    (hstep : step s (.free p) = some s') : Trim s' := by
  unfold step at hstep
  split_ifs at hstep with hlegal
  cases hstep
  have hlegal : p = 0 ∨ (s.live p).isSome := hlegal
  rcases eq_or_ne p 0 with rfl | hne
  · have hzero : s.live 0 = none := by
      rcases ht with ⟨-, hlive, -⟩ | ⟨T, hb, -⟩
      · exact hlive 0
      · exact hb.live_zero
    rw [update_eq_self_iff.mpr hzero.symm, mmFree, if_pos rfl]
    exact ht
  obtain ⟨k, hk⟩ := isSome_iff_exists.mp (hlegal.resolve_left hne)
  rcases ht with ⟨-, hlive, -⟩ | ⟨T, hb, hcompact, hflush⟩
  · rw [hlive] at hk
    cases hk
  · obtain ⟨c, hc, rfl, -⟩ := hb.tile hk
    have hjoin := hjoined T hb c hc rfl
    obtain ⟨A, lo, hi, B, a, b, rfl, hf⟩ := hb.layout.mmFree_spec hc (hprev T hb c hc rfl)
    exact .inr ⟨_, (hb.of_freed hf.freed).1, hf.compact hb.layout hcompact hjoin, hf.flush hflush⟩

theorem Trim.write {i : ℕ} {value : UInt8} (ht : Trim s)
    (hstep : step s (.write p i value) = some s') : Trim s' := by
  unfold step at hstep
  split_ifs at hstep with hlegal
  cases hstep
  obtain ⟨n, hn, hi⟩ := hlegal
  rcases ht with ⟨-, hlive, -⟩ | ⟨T, hb, hcompact, hflush⟩
  · rw [hlive] at hn
    cases hn
  have hsame : Mem.Same (fun x => x < p ∨ p + n ≤ x) s.heap.mem (update s.heap.mem (p + i) value) :=
    fun x hx => update_of_ne (by omega) _ _
  refine .inr ⟨T, hb.of_same hn hsame, hcompact, fun t ht hend => ?_⟩
  rw [← hflush t ht hend]
  exact (hb.header_same hn hsame ht).word fun x hx hx' => by omega

theorem Trim.step {c : Call} (ht : Trim s) (htidy : Tidy s c) (hstep : step s c = some s') :
    Trim s' := by
  cases c with
  | malloc size => exact ht.malloc htidy.1 htidy.2 hstep
  | free ptr => exact ht.free htidy.1 htidy.2 hstep
  | write ptr i value => exact ht.write hstep
  | calloc nmemb size => exact htidy.elim
  | realloc ptr size => exact htidy.elim

theorem Blocks.whole (hb : Blocks s T) (hcompact : Compact T) (hflush : Flush s.heap T)
    (hfreed : ∀ p, s.live p = none) : Whole s.heap := by
  have hfree : ∀ t ∈ T, t.used = none := by
    intro t ht
    cases hused : t.used with
    | none => rfl
    | some n =>
      have := (hb.live _ n).mpr ⟨t, ht, rfl, hused⟩
      rw [hfreed] at this
      cases this
  obtain ⟨t, ht, haddr⟩ := hb.layout.head
  have hend : t.fin = s.heap.brk := by
    by_contra hne
    have hle := (hb.layout.tiles.mem_le ht).2.2
    obtain ⟨A, u, B, rfl, hu, -⟩ := hb.layout.above ht (by omega)
    exact hcompact t ht u (by simp) (hfree t ht) (hfree u (by simp)) hu.symm
  have hok := hb.layout.ok t ht
  have hbase := hb.layout.base
  have hpos := hb.layout.pos
  have hsize := hflush t ht hend
  have hfin : t.fin = t.addr + 16 + t.cap := rfl
  have hone := hok.free (hfree t ht)
  rw [haddr] at hsize hone
  refine ⟨hbase, hone, ?_, by omega, fun n hn hle => ?_⟩
  · rcases hok.next with hnext | ⟨-, hlt⟩
    · rw [← haddr, hnext]
    · omega
  · have hsearch : searchLoop s.heap.mem n (2 ^ 32) s.heap.baseBlock =
        some (.found s.heap.baseBlock) := by
      rw [show 2 ^ 32 = 2 ^ 32 - 1 + 1 from rfl, searchLoop, if_pos ⟨hone, by omega⟩]
    refine ⟨{ s.heap with mem := useBlock n s.heap.baseBlock s.heap.mem }, ?_, rfl, rfl⟩
    rw [mmMalloc, if_neg (by omega), if_neg (by omega), hsearch, map_some]
    dsimp only
    rw [hbase]

/-- After a run whose calls meet the condition, and with every block freed, the heap is one free
block. -/
theorem whole_of_freed {mem : Mem} {brk : ℕ} {answers : List Bool} {calls : List Call}
    (hbrk : 0 < brk) (htidy : Run.Meets step Tidy (init mem brk answers) calls)
    (hrun : Run.run step (init mem brk answers) calls = some s) (hfreed : ∀ p, s.live p = none)
    (hheap : s.heap.baseBlock ≠ 0) : Whole s.heap := by
  have hinit : Trim (init mem brk answers) := .inl ⟨rfl, fun _ => rfl, hbrk⟩
  have htrim : Trim s := Run.run_invariant (fun s c s' hs hc => hs.step hc) hinit htidy hrun
  rcases htrim with ⟨hbase, -⟩ | ⟨T, hb, hcompact, hflush⟩
  · exact absurd hbase hheap
  · exact hb.whole hcompact hflush hfreed

theorem Blocks.noGap (hb : Blocks s T) (hp : s.live p = some k) (hend : p + k = s.heap.brk) :
    NoGap s.heap T n := by
  intro t ht hfin hfree
  obtain ⟨a, ha, hptr, hused, -, hle, -⟩ := hb.tile hp
  have hlt := (hb.layout.tiles.mem_le ht).2.1
  rcases hb.layout.tiles.apart ht ha with rfl | hle' | hle'
  · rw [hused] at hfree
    cases hfree
  · omega
  · omega

theorem Blocks.joined_first {c : Tile} (hb : Blocks s T) (hc : c ∈ T)
    (hfirst : c.addr = s.heap.startHeap) (hp : s.live (c.addr + 16) = some n)
    (hq : s.live (c.addr + 16 + n + 16) = some k) : Joined s.heap.mem T c := by
  obtain ⟨a, ha, hptr, -, -, hle, -⟩ := hb.tile hp
  obtain rfl := hb.layout.tiles.eq_of_lo_eq ha hc (by omega)
  obtain ⟨b, hbT, hqtr, hused, -⟩ := hb.tile hq
  refine ⟨fun d hd hfin _ => ?_, fun u hu haddr hfree => ?_⟩
  · have := hb.layout.tiles.mem_le hd
    omega
  · have hub : u = b := by
      rcases hb.layout.tiles.apart hc hbT with rfl | hle' | hle'
      · omega
      · exact hb.layout.tiles.eq_of_lo_eq hu hbT (by omega)
      · have := hb.layout.tiles.mem_le hbT
        omega
    rw [hub, hused] at hfree
    cases hfree

theorem Blocks.second {c : Tile} (hb : Blocks s T) (hc : c ∈ T)
    (hsize : s.heap.startHeap + 16 + s.heap.mem.word s.heap.startHeap = c.addr)
    (hprev : s.heap.mem.word (c.addr + 8) = s.heap.startHeap) (hp : s.live (c.addr + 16) = some k)
    (hend : c.addr + 16 + k = s.heap.brk) : PrevOk T s.heap.mem c ∧ Joined s.heap.mem T c := by
  obtain ⟨a, ha, hptr, -, -, hle, -⟩ := hb.tile hp
  obtain rfl := hb.layout.tiles.eq_of_lo_eq ha hc (by omega)
  obtain ⟨t, ht, haddr⟩ := hb.layout.head
  rw [hb.layout.base] at haddr
  have hcap := (hb.layout.ok t ht).size
  rw [haddr] at hcap
  have hfin : t.fin = t.addr + 16 + t.cap := rfl
  have htop : t.fin = a.addr := by
    rcases hb.layout.tiles.apart ht ha with rfl | hle' | hle'
    · omega
    · omega
    · omega
  refine ⟨.inr ⟨t, ht, haddr.trans hprev.symm, .inr htop⟩, fun d hd hdfin _ => ?_,
    fun u hu huaddr _ => ?_⟩
  · rw [hprev, ← haddr]
    have hlt := (hb.layout.tiles.mem_le hd).2.1
    rcases hb.layout.tiles.apart ht hd with rfl | hle' | hle'
    · rfl
    · omega
    · omega
  · have := hb.layout.tiles.mem_le hu
    omega

theorem record_freed (p : ℕ) : update (update
    (record 100 4 (record 80 4 fun _ => none)) 80 none) 100 none p = none := by
  rcases eq_or_ne p 100 with rfl | hne
  · exact update_self _ _ _
  rw [update_of_ne hne]
  rcases eq_or_ne p 80 with rfl | hne'
  · exact update_self _ _ _
  rw [update_of_ne hne']
  simp [record, hne, hne']

theorem whole_of_freed_ascending :
    ∃ s, Run.run step (init (fun _ => 0) 64 [true, true, true])
      [.malloc 4, .malloc 4, .free 80, .free 100] = some s ∧ Whole s.heap := by
  have hview : ((mmMalloc 4 (start (fun _ => 0) 64 [true, true, true])).bind fun x =>
      (mmMalloc 4 x.2).map fun y => [x.1, x.2.baseBlock, x.2.brk, y.1, y.2.baseBlock, y.2.startHeap,
        y.2.brk, y.2.mem.word 72, (mmFree 80 y.2.mem).word 64, (mmFree 80 y.2.mem).word 92]) =
      some [80, 64, 84, 100, 64, 64, 104, 0, 4, 64] := by decide +kernel
  obtain ⟨⟨ptr1, h1⟩, hmalloc1, hview⟩ := bind_eq_some_iff.mp hview
  obtain ⟨⟨ptr2, h2⟩, hmalloc2, hview⟩ := map_eq_some_iff.mp hview
  simp only [List.cons.injEq] at hview
  obtain ⟨rfl, hbase1, hbrk1, rfl, hbase2, hstart2, hbrk2, hprev2, hsize3, hprev3, -⟩ := hview
  -- the states of the run
  obtain ⟨live, hlive⟩ : ∃ live, live = record 100 4 (record 80 4 fun _ => none) := ⟨_, rfl⟩
  have hstep1 : step (init (fun _ => 0) 64 [true, true, true]) (.malloc 4) =
      some ⟨h1, record 80 4 fun _ => none⟩ := step_malloc hmalloc1
  have hstep2 : step ⟨h1, record 80 4 fun _ => none⟩ (.malloc 4) = some ⟨h2, live⟩ :=
    hlive ▸ step_malloc hmalloc2
  have hstep3 : step ⟨h2, live⟩ (.free 80) = some ⟨{ h2 with mem := mmFree 80 h2.mem },
      update live 80 none⟩ := step_free (.inr (by rw [hlive]; rfl))
  have hstep4 := step_free
    (s := ⟨{ h2 with mem := mmFree 80 h2.mem }, update live 80 none⟩) (p := 100)
    (.inr (by rw [hlive]; rfl))
  have hrun : Run.run step (init (fun _ => 0) 64 [true, true, true])
      [.malloc 4, .malloc 4, .free 80, .free 100] =
        step ⟨{ h2 with mem := mmFree 80 h2.mem }, update live 80 none⟩ (.free 100) := by
    rw [Run.run_cons, hstep1, bind_some, Run.run_cons, hstep2, bind_some,
      Run.run_cons, hstep3, bind_some, Run.run_cons, hstep4]
    rfl
  have hrun := hrun.trans hstep4
  have htidy : Run.Meets step Tidy (init (fun _ => 0) 64 [true, true, true])
      [.malloc 4, .malloc 4, .free 80, .free 100] := by
    refine ⟨⟨⟨by decide, fun _ => ⟨rfl, by decide⟩⟩, fun T hb => absurd hb.layout.pos (by decide)⟩,
      fun s1 hs1 => ?_⟩
    cases hstep1.symm.trans hs1
    refine ⟨⟨⟨by decide, fun h => absurd (hbase1.symm.trans h) (by decide)⟩,
      fun T hb => hb.noGap (p := 80) rfl hbrk1.symm⟩, fun s2 hs2 => ?_⟩
    cases hstep2.symm.trans hs2
    refine ⟨⟨fun T hb c hc hptr => .inl ?_, fun T hb c hc hptr => ?_⟩, fun s3 hs3 => ?_⟩
    · rw [show c.addr + 8 = 72 by omega, hprev2]
    · have haddr : c.addr = 64 := by omega
      exact hb.joined_first hc (haddr.trans hstart2.symm)
        (by rw [haddr, hlive]; rfl) (by rw [haddr, hlive]; rfl)
    cases hstep3.symm.trans hs3
    have hsecond : ∀ T,
        Blocks ⟨{ h2 with mem := mmFree 80 h2.mem }, update live 80 none⟩ T →
        ∀ c ∈ T, c.addr + 16 = 100 →
          PrevOk T (mmFree 80 h2.mem) c ∧ Joined (mmFree 80 h2.mem) T c := by
      intro T hb c hc hptr
      have haddr : c.addr = 84 := by omega
      have hsize : h2.startHeap + 16 + (mmFree 80 h2.mem).word h2.startHeap = c.addr := by
        rw [hstart2, hsize3, haddr]
      have hprev : (mmFree 80 h2.mem).word (c.addr + 8) = h2.startHeap := by
        rw [haddr, hprev3, hstart2]
      have hsecond := hb.second hc hsize hprev (by rw [haddr, hlive]; rfl)
        (by rw [haddr]; exact hbrk2.symm)
      exact hsecond
    exact ⟨⟨fun T hb c hc hptr => (hsecond T hb c hc hptr).1,
      fun T hb c hc hptr => (hsecond T hb c hc hptr).2⟩, fun _ _ => trivial⟩
  refine ⟨_, hrun, whole_of_freed (by decide) htidy hrun (fun p => ?_) ?_⟩
  · rw [hlive]
    exact record_freed p
  · rw [hbase2]
    decide

/-- Two blocks are freed, the upper one first: it is not merged with the lower one, and a request
of twenty bytes moves the break. -/
theorem not_whole_descending :
    ∃ s, Run.run step (init (fun _ => 0) 64 [true, true, true, true])
      [.malloc 4, .malloc 4, .free 100, .free 80] = some s ∧ (∀ p, s.live p = none) ∧
        s.heap.brk = 104 ∧ s.heap.startHeap = 64 ∧ s.heap.mem.word s.heap.baseBlock = 4 ∧
        (∃ h', mmMalloc 20 s.heap = some (120, h') ∧ h'.brk = 140) ∧ ¬ Whole s.heap := by
  have hview : ((mmMalloc 4 (start (fun _ => 0) 64 [true, true, true, true])).bind fun x =>
      (mmMalloc 4 x.2).bind fun y =>
        (mmMalloc 20 { y.2 with mem := mmFree 80 (mmFree 100 y.2.mem) }).map fun z =>
          [x.1, y.1, y.2.brk, y.2.startHeap, (mmFree 80 (mmFree 100 y.2.mem)).word y.2.baseBlock,
            z.1, z.2.brk]) = some [80, 100, 104, 64, 4, 120, 140] := by decide +kernel
  obtain ⟨⟨ptr1, h1⟩, hmalloc1, hview⟩ := bind_eq_some_iff.mp hview
  obtain ⟨⟨ptr2, h2⟩, hmalloc2, hview⟩ := bind_eq_some_iff.mp hview
  obtain ⟨⟨ptr3, h3⟩, hmalloc3, hview⟩ := map_eq_some_iff.mp hview
  simp only [List.cons.injEq] at hview
  obtain ⟨rfl, rfl, hbrk, hstart, hsize, rfl, hbrk3, -⟩ := hview
  obtain ⟨live, hlive⟩ : ∃ live, live = record 100 4 (record 80 4 fun _ => none) := ⟨_, rfl⟩
  have hstep1 : step (init (fun _ => 0) 64 [true, true, true, true]) (.malloc 4) =
      some ⟨h1, record 80 4 fun _ => none⟩ := step_malloc hmalloc1
  have hstep2 : step ⟨h1, record 80 4 fun _ => none⟩ (.malloc 4) = some ⟨h2, live⟩ :=
    hlive ▸ step_malloc hmalloc2
  have hstep3 : step ⟨h2, live⟩ (.free 100) = some ⟨{ h2 with mem := mmFree 100 h2.mem },
      update live 100 none⟩ := step_free (.inr (by rw [hlive]; rfl))
  have hstep4 : step ⟨{ h2 with mem := mmFree 100 h2.mem }, update live 100 none⟩
      (.free 80) = some ⟨{ h2 with mem := mmFree 80 (mmFree 100 h2.mem) },
        update (update live 100 none) 80 none⟩ :=
    step_free (.inr (by rw [hlive]; rfl))
  refine ⟨⟨{ h2 with mem := mmFree 80 (mmFree 100 h2.mem) },
    update (update live 100 none) 80 none⟩, ?_, fun p => ?_, hbrk, hstart, hsize,
    ⟨h3, hmalloc3, hbrk3⟩, fun hwhole => ?_⟩
  · rw [Run.run_cons, hstep1, bind_some, Run.run_cons, hstep2, bind_some,
      Run.run_cons, hstep3, bind_some, Run.run_cons, hstep4]
    rfl
  · rw [update_comm (by decide), hlive]
    exact record_freed p
  · have := hwhole.size
    dsimp only at this
    omega

end Runs

end CS162.UserHeap
