import CS162.Lib.Run
import CS162.Memory.HeapLayout

/-!
# Blocks of the user heap do not interfere

A program calls `malloc`, `calloc`, `realloc` and `free`, and writes to its blocks.  A call
does no harm when the sizes do not overflow, the first calls of `sbrk` succeed, the `prev` link
of a block that is freed does not lead to a free block other than the one right below, and
`realloc` does not copy bytes from behind the pages of the heap.
-/

namespace CS162.UserHeap

open List Function Option

open Threads

section Copy

variable {m : Mem} {dst src n k x : ℕ}

theorem copyBytes_of_apart (hx : x < dst ∨ dst + n ≤ x) : copyBytes dst src n m x = m x := by
  induction n generalizing dst src m with
  | zero => rfl
  | succ n ih =>
    rw [copyBytes, ih (by omega), update_of_ne (by omega)]

theorem copyBytes_get (hk : k ≤ n) (hover : dst ≤ src ∨ src + k ≤ dst) {i : ℕ} (hi : i < k) :
    copyBytes dst src n m (dst + i) = m (src + i) := by
  induction n generalizing dst src m k i with
  | zero => omega
  | succ n ih =>
    rw [copyBytes]
    cases i with
    | zero => rw [copyBytes_of_apart (by omega), Nat.add_zero, update_self, Nat.add_zero]
    | succ i =>
      have h : copyBytes (dst + 1) (src + 1) n (update m dst (m src)) (dst + 1 + i) =
        update m dst (m src) (src + 1 + i) := ih (k := k - 1) (by omega) (by omega) (by omega)
      rw [update_of_ne (by omega)] at h
      rw [show dst + (i + 1) = dst + 1 + i by omega, h, show src + (i + 1) = src + 1 + i by omega]

end Copy

section Used

variable {h h' : Heap} {T T' : List Tile} {t c : Tile} {n a k : ℕ}

section

variable (ha : Allocated h h' n T a T')

include ha

theorem Allocated.mem_of_used (ht : t ∈ T) (hused : t.used = some k) : t ∈ T' := by
  cases ha.alloc with
  | take A B u hfree =>
    have hne : t ≠ u := fun heq => by simp [← heq, hused] at hfree
    simp only [mem_append, mem_cons, hne, false_or] at ht ⊢
    tauto
  | split A B u hfree =>
    have hne : t ≠ u := fun heq => by simp [← heq, hused] at hfree
    simp only [mem_append, mem_cons, hne, false_or] at ht ⊢
    tauto
  | extend => exact mem_append_left _ ht

theorem Allocated.mem_new : ∃ t ∈ T', t.addr = a ∧ t.used = some n := by
  cases ha.alloc with
  | take A B u => exact ⟨⟨u.addr, u.cap, some n⟩, by simp, rfl, rfl⟩
  | split A B u => exact ⟨⟨u.addr, n, some n⟩, by simp, rfl, rfl⟩
  | extend => exact ⟨⟨h.brk, n, some n⟩, by simp, rfl, rfl⟩

theorem Allocated.origin (ht : t ∈ T') (hused : t.used = some k) : t ∈ T ∨ t.addr = a := by
  cases ha.alloc with
  | take A B u =>
    simp only [mem_append, mem_cons, not_mem_nil, or_false] at ht ⊢
    rcases ht with ht | rfl | ht
    · exact .inl (.inl ht)
    · exact .inr rfl
    · exact .inl (.inr (.inr ht))
  | split A B u =>
    simp only [mem_append, mem_cons, not_mem_nil, or_false] at ht ⊢
    rcases ht with ht | (rfl | rfl) | ht
    · exact .inl (.inl ht)
    · exact .inr rfl
    · cases hused
    · exact .inl (.inr (.inr ht))
  | extend =>
    rcases mem_append.mp ht with ht | ht
    · exact .inl ht
    · exact .inr (congrArg Tile.addr (mem_singleton.mp ht))

theorem Allocated.fresh (hl : Layout h T) (ht : t ∈ T) (hused : t.used = some k) : t.addr ≠ a := by
  have hnone : ∀ u ∈ T, u.used = none → t.addr ≠ u.addr := by
    intro u hu hfree heq
    rw [hl.tiles.eq_of_lo_eq ht hu heq, hfree] at hused
    cases hused
  cases ha.alloc with
  | take A B u hfree => exact hnone u (by simp) hfree
  | split A B u hfree => exact hnone u (by simp) hfree
  | extend =>
    have := hl.tiles.mem_le ht
    omega

theorem Allocated.mem_or_used (ht : t ∈ T) :
    t ∈ T' ∨ ∃ u ∈ T', u.addr = t.addr ∧ u.used ≠ none := by
  cases ha.alloc with
  | take A B u =>
    rcases eq_or_ne t u with rfl | hne
    · exact .inr ⟨⟨t.addr, t.cap, some n⟩, by simp, rfl, by simp⟩
    · left
      simp only [mem_append, mem_cons, hne, false_or] at ht ⊢
      tauto
  | split A B u =>
    rcases eq_or_ne t u with rfl | hne
    · exact .inr ⟨⟨t.addr, n, some n⟩, by simp, rfl, by simp⟩
    · left
      simp only [mem_append, mem_cons, hne, false_or] at ht ⊢
      tauto
  | extend => exact .inl (mem_append_left _ ht)

theorem Allocated.prevOk (hc : c ∈ T) (hne : c.addr ≠ a) (hprev : PrevOk T h.mem c) :
    PrevOk T' h'.mem c := by
  have hword : h'.mem.word (c.addr + 8) = h.mem.word (c.addr + 8) :=
    (ha.keeps c hc hne).word fun x hx hx' => by
      unfold Tile.fin
      omega
  unfold PrevOk
  rw [hword]
  refine hprev.imp_right ?_
  rintro ⟨t, ht, haddr, hgood⟩
  rcases ha.mem_or_used ht with ht | ⟨u, hu, hut, hused⟩
  · exact ⟨t, ht, haddr, hgood⟩
  · exact ⟨u, hu, hut.trans haddr, .inl hused⟩

end

/-- What `mm_free` of a block leaves: the other blocks in use, with the same bytes. -/
structure Freed (h : Heap) (m' : Mem) (T : List Tile) (c : Tile) (T' : List Tile) : Prop where
  layout : Layout { h with mem := m' } T'
  keeps : ∀ t ∈ T, t.used ≠ none → t ≠ c →
    t ∈ T' ∧ Mem.Same (fun x => t.addr ≤ x ∧ x < t.fin) h.mem m'
  origin : ∀ t ∈ T', t.used ≠ none → t ∈ T ∧ t.addr ≠ c.addr

theorem FreedAt.freed {m' : Mem} {A lo hi B : List Tile} {b : ℕ}
    (hf : FreedAt h m' c A lo hi B a b) :
    Freed h m' (A ++ (lo ++ c :: hi ++ B)) c (A ++ ([⟨a, b - (a + 16), none⟩] ++ B)) := by
  have hA := hf.below
  have hB := hf.above
  have hcM := hf.merged.mem_le (t := c) (by simp)
  refine ⟨hf.layout, fun t ht hused hne => ?_, fun t ht hused => ?_⟩
  · have hlo : t ∉ lo := by
      intro hmem
      rcases hf.down with ⟨rfl, -⟩ | ⟨d, rfl, hd, -⟩
      · cases hmem
      · exact hused (mem_singleton.mp hmem ▸ hd)
    have hhi : t ∉ hi := by
      intro hmem
      rcases hf.up with ⟨rfl, -⟩ | ⟨u, rfl, hu, -⟩
      · cases hmem
      · exact hused (mem_singleton.mp hmem ▸ hu)
    have hAB : t ∈ A ∨ t ∈ B := by
      simp only [mem_append, mem_cons] at ht
      tauto
    refine ⟨by simp only [mem_append]; tauto, hf.same.mono fun x hx => ?_⟩
    rcases hAB with hmem | hmem
    · have := hA.mem_le hmem
      omega
    · have := hB.mem_le hmem
      omega
  · have hAB : t ∈ A ∨ t ∈ B := by
      simp only [mem_append, mem_singleton] at ht
      rcases ht with ht | rfl | ht
      · exact .inl ht
      · exact absurd rfl hused
      · exact .inr ht
    refine ⟨by simp only [mem_append]; tauto, ?_⟩
    rcases hAB with hmem | hmem
    · have := hA.mem_le hmem
      omega
    · have := hB.mem_le hmem
      omega

end Used

/-- The heap of a program, and the sizes of its live blocks. -/
structure State where
  heap : Heap
  live : ℕ → Option ℕ

/-- What a program does: the calls, and a byte written to a live block. -/
inductive Call where
  | malloc (size : ℕ)
  | calloc (nmemb size : ℕ)
  | realloc (ptr size : ℕ)
  | free (ptr : ℕ)
  | write (ptr i : ℕ) (value : UInt8)

def record (ptr size : ℕ) (live : ℕ → Option ℕ) : ℕ → Option ℕ :=
  if ptr = 0 then live else update live ptr (some size)

def exec (s : State) : Call → Option (ℕ × State)
  | .malloc size =>
    (mmMalloc size s.heap).map fun (ptr, heap) => (ptr, ⟨heap, record ptr size s.live⟩)
  | .calloc nmemb size =>
    (calloc nmemb size s.heap).map fun (ptr, heap) =>
      (ptr, ⟨heap, record ptr (nmemb * size) s.live⟩)
  | .realloc ptr size =>
    (mmRealloc ptr size s.heap).map fun (newPtr, heap) =>
      -- a call that fails does not free the block
      (newPtr, ⟨heap, if newPtr = 0 ∧ size ≠ 0 then s.live
        else record newPtr size (update s.live ptr none)⟩)
  | .free ptr =>
    some (0, ⟨{ s.heap with mem := mmFree ptr s.heap.mem }, update s.live ptr none⟩)
  | .write ptr i value =>
    some (0, ⟨{ s.heap with mem := update s.heap.mem (ptr + i) value }, s.live⟩)

/-- Only live blocks are freed, reallocated and written to. -/
def Legal (s : State) : Call → Prop
  | .malloc _ | .calloc _ _ => True
  | .realloc ptr _ | .free ptr => ptr = 0 ∨ (s.live ptr).isSome
  | .write ptr i _ => ∃ n ∈ s.live ptr, i < n

instance (s : State) : DecidablePred (Legal s)
  | .malloc _ | .calloc _ _ => .isTrue trivial
  | .realloc ptr _ | .free ptr => inferInstanceAs (Decidable (ptr = 0 ∨ (s.live ptr).isSome))
  | .write ptr i _ => inferInstanceAs (Decidable (∃ n ∈ s.live ptr, i < n))

def step (s : State) (c : Call) : Option State :=
  if Legal s c then (exec s c).map Prod.snd else none

def init (mem : Mem) (brk : ℕ) (answers : List Bool) : State :=
  ⟨start mem brk answers, fun _ => none⟩

/-- The blocks of the heap, those in use being the live ones. -/
structure Blocks (s : State) (T : List Tile) : Prop where
  layout : Layout s.heap T
  live : ∀ p n, s.live p = some n ↔ ∃ t ∈ T, t.addr + 16 = p ∧ t.used = some n

section Blocks

variable {s : State} {T : List Tile} {p n : ℕ} {m' : Mem}

theorem Blocks.tile (hb : Blocks s T) (hp : s.live p = some n) :
    ∃ t ∈ T, t.addr + 16 = p ∧ t.used = some n ∧ s.heap.startHeap ≤ t.addr ∧
      p + n ≤ t.fin ∧ t.fin ≤ s.heap.brk := by
  obtain ⟨t, ht, hptr, hused⟩ := (hb.live p n).mp hp
  have hok := hb.layout.ok t ht
  have hsize := hok.size
  rw [(hok.used n hused).1] at hsize
  have hmem := hb.layout.tiles.mem_le ht
  have hfin : t.fin = t.addr + 16 + t.cap := rfl
  exact ⟨t, ht, hptr, hused, hmem.1, by omega, hmem.2.2⟩

theorem Blocks.live_zero (hb : Blocks s T) : s.live 0 = none := by
  cases hp : s.live 0 with
  | none => rfl
  | some n =>
    obtain ⟨t, -, hptr, -⟩ := hb.tile hp
    omega

theorem Blocks.header_same (hb : Blocks s T) (hp : s.live p = some n)
    (hsame : Mem.Same (fun x => x < p ∨ p + n ≤ x) s.heap.mem m') {u : Tile} (hu : u ∈ T) :
    Mem.Same (fun x => u.addr ≤ x ∧ x < u.addr + 16) s.heap.mem m' := by
  obtain ⟨t, ht, hptr, -, -, hfin, -⟩ := hb.tile hp
  refine hsame.mono fun x hx => ?_
  have hfin' : u.fin = u.addr + 16 + u.cap := rfl
  rcases hb.layout.tiles.apart ht hu with rfl | hle | hle
  · omega
  · omega
  · omega

theorem Blocks.of_same (hb : Blocks s T) (hp : s.live p = some n)
    (hsame : Mem.Same (fun x => x < p ∨ p + n ≤ x) s.heap.mem m') :
    Blocks { s with heap := { s.heap with mem := m' } } T :=
  ⟨⟨hb.layout.base, hb.layout.pos, hb.layout.lt, hb.layout.limit, hb.layout.tiles,
    fun u hu => (hb.layout.ok u hu).of_same (hb.header_same hp hsame hu) le_rfl⟩, hb.live⟩

/-- The contents of live blocks other than `given` are the same, and they are live. -/
def Keeps (s s' : State) (given : ℕ) : Prop :=
  ∀ q k, s.live q = some k → q ≠ given →
    s'.live q = some k ∧ ∀ i < k, s'.heap.mem (q + i) = s.heap.mem (q + i)

theorem Blocks.malloc (hb : Blocks s T) (hpos : n ≠ 0) (hn : 16 + n < 2 ^ 31) :
    (∃ answers, mmMalloc n s.heap = some (0, { s.heap with answers })) ∨
      ∃ a h' T', mmMalloc n s.heap = some (a + 16, h') ∧ Allocated s.heap h' n T a T' ∧
        Blocks ⟨h', update s.live (a + 16) (some n)⟩ T' ∧ s.live (a + 16) = none ∧
        Keeps s ⟨h', update s.live (a + 16) (some n)⟩ 0 := by
  rcases hb.layout.mmMalloc_spec hpos hn with hnull | ⟨a, h', T', hmalloc, -, ha⟩
  · exact .inl hnull
  have hfresh : s.live (a + 16) = none := by
    cases hp : s.live (a + 16) with
    | none => rfl
    | some k =>
      obtain ⟨t, ht, hptr, hused, -⟩ := hb.tile hp
      exact absurd (by omega) (ha.fresh hb.layout ht hused)
  refine .inr ⟨a, h', T', hmalloc, ha, ⟨ha.layout, fun p k => ?_⟩, hfresh, fun q k hq _ => ?_⟩
  · obtain ⟨u, hu, haddr, hnew⟩ := ha.mem_new
    dsimp only
    rcases eq_or_ne p (a + 16) with rfl | hne
    · rw [update_self]
      constructor
      · rintro ⟨⟩
        exact ⟨u, hu, by omega, hnew⟩
      · rintro ⟨t, ht, hptr, hused⟩
        rw [ha.layout.tiles.eq_of_lo_eq hu ht (by omega)] at hnew
        exact hnew.symm.trans hused
    · rw [update_of_ne hne, hb.live]
      constructor
      · rintro ⟨t, ht, hptr, hused⟩
        exact ⟨t, ha.mem_of_used ht hused, hptr, hused⟩
      · rintro ⟨t, ht, hptr, hused⟩
        exact ⟨t, (ha.origin ht hused).resolve_right (by omega), hptr, hused⟩
  · have hne : q ≠ a + 16 := by
      rintro rfl
      rw [hfresh] at hq
      cases hq
    obtain ⟨t, ht, hptr, hused, -, hfin, -⟩ := hb.tile hq
    refine ⟨(update_of_ne hne _ _).trans hq, fun i hi => ?_⟩
    exact ha.keeps t ht (ha.fresh hb.layout ht hused) _ (by omega)

theorem Blocks.of_freed {T' : List Tile} {c : Tile} (hb : Blocks s T)
    (hf : Freed s.heap m' T c T') :
    Blocks ⟨{ s.heap with mem := m' }, update s.live (c.addr + 16) none⟩ T' ∧
      Keeps s ⟨{ s.heap with mem := m' }, update s.live (c.addr + 16) none⟩
        (c.addr + 16) := by
  refine ⟨⟨hf.layout, fun p k => ?_⟩, fun q k hq hne => ?_⟩
  · dsimp only
    rcases eq_or_ne p (c.addr + 16) with rfl | hne
    · rw [update_self]
      refine ⟨fun h => (nomatch h), ?_⟩
      rintro ⟨t, ht, hptr, hused⟩
      exact absurd (by omega) (hf.origin t ht (by simp [hused])).2
    · rw [update_of_ne hne, hb.live]
      constructor
      · rintro ⟨t, ht, hptr, hused⟩
        have htc : t ≠ c := fun heq => hne (heq ▸ hptr.symm)
        exact ⟨t, (hf.keeps t ht (by simp [hused]) htc).1, hptr, hused⟩
      · rintro ⟨t, ht, hptr, hused⟩
        exact ⟨t, (hf.origin t ht (by simp [hused])).1, hptr, hused⟩
  · obtain ⟨t, ht, hptr, hused, -, hfin, -⟩ := hb.tile hq
    have htc : t ≠ c := fun heq => hne (heq ▸ hptr.symm)
    refine ⟨(update_of_ne hne _ _).trans hq, fun i hi => ?_⟩
    exact (hf.keeps t ht (by simp [hused]) htc).2 _ (by omega)

theorem Blocks.free (hb : Blocks s T) {c : Tile} (hc : c ∈ T) (hprev : PrevOk T s.heap.mem c) :
    ∃ T', Blocks ⟨{ s.heap with mem := mmFree (c.addr + 16) s.heap.mem },
        update s.live (c.addr + 16) none⟩ T' ∧
      Keeps s ⟨{ s.heap with mem := mmFree (c.addr + 16) s.heap.mem },
        update s.live (c.addr + 16) none⟩ (c.addr + 16) := by
  obtain ⟨A, lo, hi, B, a, b, rfl, hf⟩ := hb.layout.mmFree_spec hc hprev
  exact ⟨_, hb.of_freed hf.freed⟩

end Blocks

/-- The address of a header: that of a live block, or one the links from `base_block` lead to. -/
inductive IsHeader (s : State) : ℕ → Prop
  | live {a n : ℕ} (h : s.live (a + 16) = some n) : IsHeader s a
  | base (h : s.heap.baseBlock ≠ 0) : IsHeader s s.heap.baseBlock
  | next {a : ℕ} (ha : IsHeader s a) (h : s.heap.mem.word (a + 12) ≠ 0) :
      IsHeader s (s.heap.mem.word (a + 12))

/-- The live blocks are in the heap, and apart from each other and from all headers. -/
structure Separate (s : State) (T : List Tile) : Prop where
  blocks : Blocks s T
  header : ∀ a, IsHeader s a → ∃ t ∈ T, t.addr = a
  inside : ∀ p n, s.live p = some n → s.heap.startHeap + 16 ≤ p ∧ p + n ≤ s.heap.brk
  apart : ∀ p n q k, s.live p = some n → s.live q = some k → p ≠ q → p + n ≤ q ∨ q + k ≤ p
  headers : ∀ p n, s.live p = some n → ∀ t ∈ T, p + n ≤ t.addr ∨ t.addr + 16 ≤ p

/-- There is no heap before the first call of `malloc`. -/
def Apart (s : State) : Prop :=
  (s.heap.baseBlock = 0 ∧ ∀ p, s.live p = none) ∨ ∃ T, Separate s T

def Call.request : Call → Option ℕ
  | .malloc size => some size
  | .calloc nmemb size => some (nmemb * size)
  | .realloc _ size => some size
  | .free _ | .write _ _ _ => none

def Call.given : Call → ℕ
  | .malloc _ | .calloc _ _ => 0
  | .realloc ptr _ | .free ptr | .write ptr _ _ => ptr

/-- A call that returns `ptr` gives the program what it asks for and does not interfere with other
blocks. -/
structure Harmless (s : State) (c : Call) (ptr : ℕ) (s' : State) : Prop where
  result : ∀ n, c.request = some n → ptr ≠ 0 → s.live ptr = none ∧ s'.live ptr = some n ∧
    s'.heap.startHeap + 16 ≤ ptr ∧ ptr + n ≤ s'.heap.brk
  apart : Apart s'
  keeps : Keeps s s' c.given
  copies : ∀ p n k, c = .realloc p n → s.live p = some k → ptr ≠ 0 →
    ∀ i < min k n, s'.heap.mem (ptr + i) = s.heap.mem (p + i)

/-- A size is not too large, and the first call of `malloc` gets its block. -/
def Fits (h : Heap) (n : ℕ) : Prop :=
  16 + n < 2 ^ 31 ∧
    (h.baseBlock = 0 → h.answers.take 2 = [true, true] ∧ h.brk + 16 + n ≤ loaderPhysBase)

/-- The `prev` link of a block does not lead to a free block other than the one right below. -/
def GoodPrev (s : State) (ptr : ℕ) : Prop :=
  ∀ T, Blocks s T → ∀ c ∈ T, c.addr + 16 = ptr → PrevOk T s.heap.mem c

/-- As many bytes as are asked for can be read from the old block on: the pages of the heap have
them, or no free block is large enough and the heap grows by as many. -/
def Readable (h : Heap) (ptr size : ℕ) : Prop :=
  ptr + size ≤ pgRoundUp h.brk ∨
    ∀ block, searchLoop h.mem size (2 ^ 32) h.baseBlock ≠ some (.found block)

/-- The condition under which a call is harmless. -/
def Fair (s : State) : Call → Prop
  | .malloc size => Fits s.heap size
  | .calloc nmemb size => Fits s.heap (nmemb * size)
  | .realloc ptr size =>
    Fits s.heap size ∧ GoodPrev s ptr ∧ (ptr = 0 ∨ Readable s.heap ptr size)
  | .free ptr => GoodPrev s ptr
  | .write _ _ _ => True

section Calls

variable {s : State} {T : List Tile} {p n : ℕ} {c : Call}

theorem Blocks.separate (hb : Blocks s T) : Separate s T where
  blocks := hb
  header a ha := by
    induction ha with
    | live h =>
      obtain ⟨t, ht, hptr, -⟩ := (hb.live _ _).mp h
      exact ⟨t, ht, by omega⟩
    | base => exact hb.layout.head
    | next ha hne ih =>
      obtain ⟨t, ht, rfl⟩ := ih
      obtain ⟨hnext, hlt⟩ := (hb.layout.ok t ht).next.resolve_left hne
      obtain ⟨A, u, B, rfl, hu, -⟩ := hb.layout.above ht hlt
      exact ⟨u, by simp, hu.trans hnext.symm⟩
  inside p n hp := by
    obtain ⟨t, -, hptr, -, hlo, hfin, hbrk⟩ := hb.tile hp
    omega
  apart p n q k hp hq hne := by
    obtain ⟨t, ht, hptr, -, -, hfin, -⟩ := hb.tile hp
    obtain ⟨u, hu, hqtr, -, -, hfin', -⟩ := hb.tile hq
    rcases hb.layout.tiles.apart ht hu with rfl | hle | hle
    · omega
    · omega
    · omega
  headers p n hp u hu := by
    obtain ⟨t, ht, hptr, -, -, hfin, -⟩ := hb.tile hp
    have hcap : u.fin = u.addr + 16 + u.cap := rfl
    rcases hb.layout.tiles.apart ht hu with rfl | hle | hle
    · omega
    · omega
    · omega

/-- What is known before each call: there is no heap, or there are its blocks. -/
def Inv (s : State) : Prop :=
  (s.heap.baseBlock = 0 ∧ (∀ p, s.live p = none) ∧ 0 < s.heap.brk) ∨ ∃ T, Blocks s T

theorem Inv.apart (h : Inv s) : Apart s := by
  rcases h with ⟨hbase, hlive, -⟩ | ⟨T, hb⟩
  · exact .inl ⟨hbase, hlive⟩
  · exact .inr ⟨T, hb.separate⟩

theorem Inv.live_zero (h : Inv s) : s.live 0 = none := by
  rcases h with ⟨-, hlive, -⟩ | ⟨T, hb⟩
  · exact hlive 0
  · exact hb.live_zero

theorem Blocks.answers (hb : Blocks s T) (answers : List Bool) :
    Blocks ⟨{ s.heap with answers }, s.live⟩ T :=
  ⟨⟨hb.layout.base, hb.layout.pos, hb.layout.lt, hb.layout.limit, hb.layout.tiles, hb.layout.ok⟩,
    hb.live⟩

theorem blocks_single {h : Heap} {a : ℕ} (hl : Layout h [⟨a, n, some n⟩])
    (hlive : ∀ p, s.live p = none) :
    Blocks ⟨h, update s.live (a + 16) (some n)⟩ [⟨a, n, some n⟩] := by
  refine ⟨hl, fun p k => ?_⟩
  rcases eq_or_ne p (a + 16) with rfl | hne
  · simp
  · simp [update_of_ne hne, hlive, hne.symm]

theorem Fits.first (hfits : Fits s.heap n) (hpos : n ≠ 0) (hbase : s.heap.baseBlock = 0)
    (hlive : ∀ p, s.live p = none) (hbrk : 0 < s.heap.brk) :
    ∃ h', mmMalloc n s.heap = some (s.heap.brk + 16, h') ∧
      Blocks ⟨h', update s.live (s.heap.brk + 16) (some n)⟩ [⟨s.heap.brk, n, some n⟩] := by
  obtain ⟨hanswers, hlimit⟩ := hfits.2 hbase
  obtain ⟨rest, hrest⟩ : ∃ rest, s.heap.answers = true :: true :: rest :=
    ⟨s.heap.answers.drop 2, by rw [← take_append_drop 2 s.heap.answers, hanswers]; rfl⟩
  obtain ⟨h', hmalloc, hl⟩ := mmMalloc_first hpos hfits.1 hbase hbrk hrest hlimit
  exact ⟨h', hmalloc, blocks_single hl hlive⟩

theorem Inv.malloc (hinv : Inv s) (hfits : Fits s.heap n) :
    ∃ ptr h', mmMalloc n s.heap = some (ptr, h') ∧ Inv ⟨h', record ptr n s.live⟩ ∧
      Keeps s ⟨h', record ptr n s.live⟩ 0 ∧ (ptr ≠ 0 → s.live ptr = none) := by
  rcases eq_or_ne n 0 with rfl | hpos
  · exact ⟨0, s.heap, if_pos rfl, hinv, fun _ _ hq _ => ⟨hq, fun _ _ => rfl⟩, fun h => absurd rfl h⟩
  rcases hinv with ⟨hbase, hlive, hbrk⟩ | ⟨T, hb⟩
  · obtain ⟨h', hmalloc, hb⟩ := hfits.first hpos hbase hlive hbrk
    refine ⟨_, h', hmalloc, ?_, fun q k hq _ => ?_, fun _ => hlive _⟩
    · rw [record, if_neg (by omega)]
      exact .inr ⟨_, hb⟩
    · rw [hlive] at hq
      cases hq
  · rcases hb.malloc hpos hfits.1 with
      ⟨answers, hnull⟩ | ⟨a, h', T', hmalloc, -, hb', hfresh, hkeeps⟩
    · exact ⟨0, _, hnull, .inr ⟨T, hb.answers answers⟩, fun _ _ hq _ => ⟨hq, fun _ _ => rfl⟩,
        fun h => absurd rfl h⟩
    · refine ⟨a + 16, h', hmalloc, ?_, ?_, fun _ => hfresh⟩
      · rw [record, if_neg (by omega)]
        exact .inr ⟨T', hb'⟩
      · rw [record, if_neg (by omega)]
        exact hkeeps

theorem Inv.free (hinv : Inv s) (hlegal : p = 0 ∨ (s.live p).isSome) (hprev : GoodPrev s p) :
    Inv ⟨{ s.heap with mem := mmFree p s.heap.mem }, update s.live p none⟩ ∧
      Keeps s ⟨{ s.heap with mem := mmFree p s.heap.mem }, update s.live p none⟩ p := by
  rcases eq_or_ne p 0 with rfl | hne
  · have hlive : update s.live 0 none = s.live := update_eq_self_iff.mpr hinv.live_zero.symm
    rw [hlive, mmFree, if_pos rfl]
    exact ⟨hinv, fun _ _ hq _ => ⟨hq, fun _ _ => rfl⟩⟩
  · obtain ⟨k, hk⟩ := isSome_iff_exists.mp (hlegal.resolve_left hne)
    rcases hinv with ⟨-, hlive, -⟩ | ⟨T, hb⟩
    · rw [hlive] at hk
      cases hk
    · obtain ⟨c, hc, rfl, -⟩ := hb.tile hk
      obtain ⟨T', hb', hkeeps⟩ := hb.free hc (hprev T hb c hc rfl)
      exact ⟨.inr ⟨T', hb'⟩, hkeeps⟩

theorem mmMalloc_brk {h h' : Heap} {ptr : ℕ} (hpos : n ≠ 0) (hn : 16 + n < 2 ^ 31)
    (hbase : h.baseBlock ≠ 0)
    (hnone : ∀ block, searchLoop h.mem n (2 ^ 32) h.baseBlock ≠ some (.found block))
    (hmalloc : mmMalloc n h = some (ptr, h')) (hptr : ptr ≠ 0) : h'.brk = h.brk + (16 + n) := by
  rw [mmMalloc, if_neg hpos, if_neg hbase] at hmalloc
  obtain ⟨found | last, hsearch, hmalloc⟩ := map_eq_some_iff.mp hmalloc
  · exact absurd hsearch (hnone found)
  obtain ⟨answers, hbrk | ⟨-, hbrk⟩⟩ := sbrk_cases hn h
  · simp only [hbrk, if_true, Prod.mk.injEq] at hmalloc
    exact absurd hmalloc.1.symm hptr
  · simp only [hbrk] at hmalloc
    split_ifs at hmalloc
    · exact absurd (congrArg Prod.fst hmalloc).symm hptr
    · exact (congrArg (fun r => r.2.brk) hmalloc).symm

theorem Readable.malloc {h h' : Heap} {T' : List Tile} {a : ℕ} (hread : Readable h p n)
    (hp : p ≤ h.brk) (hl : Layout h T) (hpos : n ≠ 0) (hn : 16 + n < 2 ^ 31)
    (hmalloc : mmMalloc n h = some (a + 16, h')) (ha : Allocated h h' n T a T') :
    p + n ≤ pgRoundUp h'.brk := by
  have hle := le_pgRoundUp ha.layout.limit
  rcases hread with hread | hnone
  · cases ha.alloc with
    | take _ _ _ _ hbrk => rwa [hbrk]
    | split _ _ _ _ hbrk => rwa [hbrk]
    | extend _ hbrk => omega
  · have hbase : h.baseBlock ≠ 0 := by
      rw [hl.base]
      exact hl.pos.ne'
    have := mmMalloc_brk hpos hn hbase hnone hmalloc (by omega)
    omega

theorem Blocks.realloc (hb : Blocks s T) {k : ℕ} (hp : s.live p = some k) (hpos : n ≠ 0)
    (hn : 16 + n < 2 ^ 31) (hprev : GoodPrev s p) (hread : Readable s.heap p n) :
    (∃ answers, mmRealloc p n s.heap = some (0, { s.heap with answers })) ∨
      ∃ ptr h' T', mmRealloc p n s.heap = some (ptr, h') ∧ ptr ≠ 0 ∧
        Blocks ⟨h', update (update s.live p none) ptr (some n)⟩ T' ∧
        s.live ptr = none ∧
        Keeps s ⟨h', update (update s.live p none) ptr (some n)⟩ p ∧
        ∀ i < min k n, h'.mem (ptr + i) = s.heap.mem (p + i) := by
  obtain ⟨c, hc, rfl, hused, -, hfin, hbrk⟩ := hb.tile hp
  unfold mmRealloc
  rw [if_neg (by omega), if_neg hpos]
  rcases hb.malloc hpos hn with ⟨answers, hnull⟩ | ⟨a, h1, T1, hmalloc, ha, hb1, hfresh, hkeeps1⟩
  · rw [hnull]
    exact .inl ⟨answers, rfl⟩
  right
  have hcopy := hread.malloc (by omega) hb.layout hpos hn hmalloc ha
  rw [hmalloc]
  -- the copy writes to the new block only
  have hnew : (update s.live (a + 16) (some n)) (a + 16) = some n := update_self _ _ _
  generalize hm2 : copyBytes (a + 16) (c.addr + 16) n h1.mem = m2
  have hsame2 : Mem.Same (fun x => x < a + 16 ∨ a + 16 + n ≤ x) h1.mem m2 := fun x hx => by
    rw [← hm2, copyBytes_of_apart hx]
  have hb2 := hb1.of_same hnew hsame2
  have hne : c.addr ≠ a := ha.fresh hb.layout hc hused
  have hc1 := ha.mem_of_used hc hused
  have hprev2 : PrevOk T1 m2 c := by
    have hword : m2.word (c.addr + 8) = h1.mem.word (c.addr + 8) := by
      refine hsame2.word fun x hx hx' => ?_
      obtain ⟨u, hu, hua, -, -, hufin, -⟩ := hb1.tile hnew
      have hcfin : c.fin = c.addr + 16 + c.cap := rfl
      rcases hb1.layout.tiles.apart hc1 hu with rfl | hle | hle
      · omega
      · omega
      · omega
    have := ha.prevOk hc hne (hprev T hb c hc rfl)
    unfold PrevOk at this ⊢
    rwa [hword]
  obtain ⟨T3, hb3, hkeeps3⟩ := hb2.free hc1 hprev2
  have hptr : a + 16 ≠ c.addr + 16 := by omega
  rw [update_comm hptr] at hb3 hkeeps3
  obtain ⟨hp1, hbytes1⟩ := hkeeps1 _ k hp (by omega)
  have hapart := hb1.separate.apart
  refine ⟨a + 16, _, T3, ?_, by omega, hb3, hfresh, fun q j hq hqc => ?_, fun i hi => ?_⟩
  · rw [bind_some]
    dsimp only
    rw [if_neg (by omega), if_pos hcopy, hm2]
  · have hq0 : q ≠ 0 := fun heq => by
      rw [heq, hb.live_zero] at hq
      cases hq
    have hqa : q ≠ a + 16 := fun heq => by
      rw [heq, hfresh] at hq
      cases hq
    obtain ⟨hq1, hsame1⟩ := hkeeps1 q j hq hq0
    obtain ⟨hq3, hsame3⟩ := hkeeps3 q j hq1 hqc
    refine ⟨hq3, fun i hi => (hsame3 i hi).trans ((hsame2 _ ?_).trans (hsame1 i hi))⟩
    have := hapart q j _ n hq1 hnew hqa
    omega
  · have hover := hapart _ k _ n hp1 hnew hptr.symm
    calc mmFree (c.addr + 16) m2 (a + 16 + i) = m2 (a + 16 + i) :=
          (hkeeps3 _ n hnew hptr).2 i (by omega)
      _ = h1.mem (c.addr + 16 + i) := by
          rw [← hm2, copyBytes_get (min_le_right k n) (by omega) hi]
      _ = s.heap.mem (c.addr + 16 + i) := hbytes1 i (by omega)

theorem Inv.harmless {ptr : ℕ} {s' : State} (hinv : Inv s')
    (hresult : ∀ n, c.request = some n → ptr ≠ 0 → s.live ptr = none ∧ s'.live ptr = some n)
    (hkeeps : Keeps s s' c.given)
    (hcopies : ∀ p n k, c = .realloc p n → s.live p = some k → ptr ≠ 0 →
      ∀ i < min k n, s'.heap.mem (ptr + i) = s.heap.mem (p + i)) : Harmless s c ptr s' where
  result n hn hne := by
    obtain ⟨hfresh, hlive⟩ := hresult n hn hne
    rcases hinv.apart with ⟨-, hnone⟩ | ⟨T, hsep⟩
    · rw [hnone] at hlive
      cases hlive
    · exact ⟨hfresh, hlive, hsep.inside ptr n hlive⟩
  apart := hinv.apart
  keeps := hkeeps
  copies := hcopies

theorem record_self {ptr : ℕ} {live : ℕ → Option ℕ} (hne : ptr ≠ 0) :
    record ptr n live ptr = some n := by
  rw [record, if_neg hne, update_self]

theorem Inv.exec_realloc (hinv : Inv s) (hlegal : p = 0 ∨ (s.live p).isSome)
    (hfits : Fits s.heap n) (hprev : GoodPrev s p) (hread : p = 0 ∨ Readable s.heap p n) :
    ∃ ptr s', exec s (.realloc p n) = some (ptr, s') ∧ Inv s' ∧
      Harmless s (.realloc p n) ptr s' := by
  rcases eq_or_ne p 0 with rfl | hne
  · -- as `malloc`
    obtain ⟨ptr, h', hmalloc, hinv', hkeeps, hfresh⟩ := hinv.malloc hfits
    have hlive : (if ptr = 0 ∧ n ≠ 0 then s.live
        else record ptr n (update s.live 0 none)) = record ptr n s.live := by
      rw [update_eq_self_iff.mpr hinv.live_zero.symm]
      split_ifs with hnull
      · rw [record, if_pos hnull.1]
      · rfl
    refine ⟨ptr, ⟨h', record ptr n s.live⟩, ?_, hinv', hinv'.harmless ?_ hkeeps ?_⟩
    · rw [UserHeap.exec, mmRealloc, if_pos rfl, hmalloc, map_some]
      dsimp only
      rw [hlive]
    · rintro k ⟨⟩ hptr
      exact ⟨hfresh hptr, record_self hptr⟩
    · rintro p k j ⟨⟩ hj
      rw [hinv.live_zero] at hj
      cases hj
  rcases eq_or_ne n 0 with rfl | hpos
  · -- as `free`
    obtain ⟨hinv', hkeeps⟩ := hinv.free hlegal hprev
    refine ⟨0, _, ?_, hinv', hinv'.harmless (fun _ _ h => absurd rfl h) hkeeps
      fun _ _ _ _ _ h => absurd rfl h⟩
    rw [UserHeap.exec, mmRealloc, if_neg hne, if_pos rfl]
    rfl
  obtain ⟨k, hk⟩ := isSome_iff_exists.mp (hlegal.resolve_left hne)
  rcases hinv with ⟨-, hlive, -⟩ | ⟨T, hb⟩
  · rw [hlive] at hk
    cases hk
  rcases hb.realloc hk hpos hfits.1 hprev (hread.resolve_left hne) with
    ⟨answers, hnull⟩ | ⟨ptr, h', T', hrealloc, hptr, hb', hfresh, hkeeps, hcopies⟩
  · have hinv' : Inv _ := .inr ⟨T, hb.answers answers⟩
    refine ⟨0, _, ?_, hinv', hinv'.harmless (fun _ _ h => absurd rfl h)
      (fun _ _ hq _ => ⟨hq, fun _ _ => rfl⟩) fun _ _ _ _ _ h => absurd rfl h⟩
    rw [UserHeap.exec, hnull, map_some]
    dsimp only
    rw [if_pos ⟨rfl, hpos⟩]
  · have hinv' : Inv _ := .inr ⟨T', hb'⟩
    refine ⟨ptr, _, ?_, hinv', hinv'.harmless ?_ hkeeps ?_⟩
    · rw [UserHeap.exec, hrealloc, map_some]
      dsimp only
      rw [if_neg fun h => hptr h.1, record, if_neg hptr]
    · rintro j ⟨⟩ -
      exact ⟨hfresh, update_self _ _ _⟩
    · rintro q j k' ⟨⟩ hk' -
      rw [hk] at hk'
      cases hk'
      exact hcopies

theorem Inv.exec (hinv : Inv s) (hlegal : Legal s c) (hfair : Fair s c) :
    ∃ ptr s', exec s c = some (ptr, s') ∧ Inv s' ∧ Harmless s c ptr s' := by
  cases c with
  | malloc size =>
    obtain ⟨ptr, h', hmalloc, hinv', hkeeps, hfresh⟩ := hinv.malloc hfair
    refine ⟨ptr, _, by rw [UserHeap.exec, hmalloc]; rfl, hinv', hinv'.harmless ?_ hkeeps nofun⟩
    rintro n ⟨⟩ hne
    exact ⟨hfresh hne, record_self hne⟩
  | calloc nmemb size =>
    obtain ⟨ptr, h', hmalloc, hinv', hkeeps, hfresh⟩ := hinv.malloc hfair
    have hmod : nmemb * size % 2 ^ 32 = nmemb * size := by
      have := hfair.1
      exact Nat.mod_eq_of_lt (by omega)
    refine ⟨ptr, _, by rw [UserHeap.exec, calloc, hmod, hmalloc]; rfl, hinv',
      hinv'.harmless ?_ hkeeps nofun⟩
    rintro n ⟨⟩ hne
    exact ⟨hfresh hne, record_self hne⟩
  | realloc ptr size => exact hinv.exec_realloc hlegal hfair.1 hfair.2.1 hfair.2.2
  | free ptr =>
    obtain ⟨hinv', hkeeps⟩ := hinv.free hlegal hfair
    exact ⟨0, _, rfl, hinv', hinv'.harmless nofun hkeeps nofun⟩
  | write ptr i value =>
    obtain ⟨n, hn, hi⟩ := hlegal
    rcases hinv with ⟨-, hlive, -⟩ | ⟨T, hb⟩
    · rw [hlive] at hn
      cases hn
    have hsame : Mem.Same (fun x => x < ptr ∨ ptr + n ≤ x) s.heap.mem
      (update s.heap.mem (ptr + i) value) := fun x hx => update_of_ne (by omega) _ _
    have hb' := hb.of_same hn hsame
    have hinv' : Inv _ := .inr ⟨T, hb'⟩
    refine ⟨0, _, rfl, hinv', hinv'.harmless nofun (fun q k hq hne => ⟨hq, fun j hj => ?_⟩) nofun⟩
    have := hb.separate.apart q k ptr n hq hn hne
    exact hsame _ (by omega)

theorem Inv.step {s' : State} (hinv : Inv s) (hfair : Fair s c) (hstep : step s c = some s') :
    Inv s' := by
  unfold UserHeap.step at hstep
  split_ifs at hstep with hlegal
  obtain ⟨ptr, s1, hexec, hinv', -⟩ := hinv.exec hlegal hfair
  rw [hexec] at hstep
  cases hstep
  exact hinv'

/-- After a run whose calls meet the condition, one more such call returns and does no harm. -/
theorem exec_harmless {mem : Mem} {brk : ℕ} {answers : List Bool} {calls : List Call} {c : Call}
    (hbrk : 0 < brk) (hfair : Run.Meets step Fair (init mem brk answers) calls)
    (hrun : Run.run step (init mem brk answers) calls = some s) (hlegal : Legal s c)
    (hc : Fair s c) :
    ∃ ptr s', exec s c = some (ptr, s') ∧ Harmless s c ptr s' := by
  have hinit : Inv (init mem brk answers) := .inl ⟨rfl, fun _ => rfl, hbrk⟩
  have hinv : Inv s := Run.run_invariant (fun s c s' hs hc => hs.step hc) hinit hfair hrun
  obtain ⟨ptr, s', hexec, -, hharmless⟩ := hinv.exec hlegal hc
  exact ⟨ptr, s', hexec, hharmless⟩

/-- A block of four bytes is written to and becomes larger. -/
theorem exec_harmless_realloc :
    ∃ s ptr s', Run.run step (init (fun _ => 0) 64 [true, true, true]) [.malloc 4, .write 80 0 7] =
      some s ∧ exec s (.realloc 80 8) = some (ptr, s') ∧ Harmless s (.realloc 80 8) ptr s' := by
  have hview : ((Run.run step (init (fun _ => 0) 64 [true, true, true])
      [.malloc 4, .write 80 0 7]).map fun s =>
        (decide (Legal s (.realloc 80 8)), s.heap.baseBlock, s.heap.mem.word 72, s.heap.brk)) =
      some (true, 64, 0, 84) := by decide +kernel
  obtain ⟨s, hrun, hs⟩ := map_eq_some_iff.mp hview
  obtain ⟨hlegal, hbase, hprev, hbrk⟩ : decide (Legal s (.realloc 80 8)) = true ∧
      s.heap.baseBlock = 64 ∧ s.heap.mem.word 72 = 0 ∧ s.heap.brk = 84 := by
    simpa only [Prod.mk.injEq] using hs
  have hfits : Fits s.heap 8 := ⟨by decide, fun h => absurd (hbase.symm.trans h) (by decide)⟩
  have hgood : GoodPrev s 80 := fun T _ c _ hc => .inl (by
    rw [show c.addr + 8 = 72 by omega, hprev])
  have hfair : Run.Meets step Fair (init (fun _ => 0) 64 [true, true, true])
      [.malloc 4, .write 80 0 7] :=
    ⟨⟨by decide, fun _ => ⟨rfl, by decide⟩⟩, fun _ _ => ⟨trivial, fun _ _ => trivial⟩⟩
  obtain ⟨ptr, s', hexec, hharmless⟩ := exec_harmless (by decide) hfair hrun
    (of_decide_eq_true hlegal) ⟨hfits, hgood, .inr (.inl (by rw [hbrk]; decide))⟩
  exact ⟨s, ptr, s', hrun, hexec, hharmless⟩

/-- Three blocks are made one after the other, and the last one is linked to the first.  When these
two are freed, the live block between them is cleared. -/
theorem exec_not_harmless :
    ∃ s ptr s', Run.run step (init (fun _ => 0) 64 [true, true, true, true])
        [.malloc 4, .malloc 4, .malloc 4, .write 100 0 7, .free 80] = some s ∧
      Legal s (.free 120) ∧ exec s (.free 120) = some (ptr, s') ∧ s.live 100 = some 4 ∧
      s.heap.mem 100 = 7 ∧ s'.heap.mem 100 = 0 ∧ ¬ Harmless s (.free 120) ptr s' := by
  have hview : ((Run.run step (init (fun _ => 0) 64 [true, true, true, true])
      [.malloc 4, .malloc 4, .malloc 4, .write 100 0 7, .free 80]).map fun s =>
        (decide (Legal s (.free 120)), s.live 100, s.heap.mem 100,
          mmFree 120 s.heap.mem 100)) = some (true, some 4, 7, 0) := by decide +kernel
  obtain ⟨s, hrun, hs⟩ := map_eq_some_iff.mp hview
  obtain ⟨hlegal, hlive, hold, hnew⟩ : decide (Legal s (.free 120)) = true ∧ s.live 100 = some 4 ∧
      s.heap.mem 100 = 7 ∧ mmFree 120 s.heap.mem 100 = 0 := by
    simpa only [Prod.mk.injEq] using hs
  refine ⟨s, 0, _, hrun, of_decide_eq_true hlegal, rfl, hlive, hold, hnew, fun h => ?_⟩
  have hsame := (h.keeps 100 4 hlive (by decide)).2 0 (by decide)
  rw [hold] at hsame
  exact absurd (hnew.symm.trans hsame) (by decide)

end Calls

end CS162.UserHeap
