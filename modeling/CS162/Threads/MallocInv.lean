import CS162.Threads.Malloc

/-!
# Arenas and blocks

`Ghost` says of each page that is held whether it is the arena of a descriptor or a big
block, and which blocks are free.  `Shape` is about these alone: the pages are apart, and
every block is live or free.  `Holds` says that the headers and the lists in memory are those
of the ghost state.
-/

namespace CS162.Threads

open Option Desc
open LibKernel

/-- Where the pages start: static data of the kernel is below. -/
def heapBase : ℕ :=
  loaderPhysBase + 1024 * 1024

/-- The descriptors are apart, below the pages, and their blocks fit an arena. -/
structure DescsOk (ds : List Desc) : Prop where
  apart : ds.Pairwise fun d d' => d.addr + 24 ≤ d'.addr ∨ d'.addr + 24 ≤ d.addr
  pos : ∀ d ∈ ds, 0 < d.addr
  below : ∀ d ∈ ds, d.addr + 24 ≤ heapBase
  size : ∀ d ∈ ds, 16 ≤ d.blockSize
  one : ∀ d ∈ ds, 1 ≤ d.blocksPerArena
  fits : ∀ d ∈ ds, sizeofArena + d.blocksPerArena * d.blockSize ≤ pgSize

/-- What the pages that are held are used for, and what is on the free lists. -/
structure Ghost where
  cls : ℕ → Option Desc
  free : Desc → List ℕ

def Desc.blocks (d : Desc) (a : ℕ) : List ℕ :=
  (List.range d.blocksPerArena).map fun i => a + sizeofArena + i * d.blockSize

def blocksOf : Option Desc → ℕ → List ℕ
  | none, a => [a + sizeofArena]
  | some d, a => d.blocks a

namespace Ghost

def blocks (G : Ghost) (g : Grant) : List ℕ :=
  blocksOf (G.cls g.pages) g.pages

def size (G : Ghost) (g : Grant) : ℕ :=
  match G.cls g.pages with
  | none => pgSize * g.cnt - sizeofArena
  | some d => d.blockSize

theorem blocks_eq {G : Ghost} {g : Grant} {d : Desc} (hcls : G.cls g.pages = some d) :
    G.blocks g = d.blocks g.pages := by
  rw [blocks, hcls, blocksOf]

theorem size_eq {G : Ghost} {g : Grant} {d : Desc} (hcls : G.cls g.pages = some d) :
    G.size g = d.blockSize := by
  rw [size, hcls]

def count (G : Ghost) (d : Desc) (a : ℕ) : ℕ :=
  (G.free d).countP fun b => a ≤ b ∧ b < a + pgSize

end Ghost

/-- Pages as `palloc_get_multiple` returns them. -/
structure Grant.Ok (g : Grant) : Prop where
  kernel : g.user = false
  aligned : g.pages % pgSize = 0
  base : heapBase ≤ g.pages
  bound : g.pages + pgSize * g.cnt ≤ 2 ^ 32
  pos : 1 ≤ g.cnt

/-- The pages are apart, and each block is live or on a free list. -/
structure Shape (ds : List Desc) (held : List Grant) (live : List ℕ) (G : Ghost) : Prop where
  apart : held.Pairwise fun g g' => ∀ x, g.Has x → ¬ g'.Has x
  ok : ∀ g ∈ held, g.Ok
  cls : ∀ g ∈ held, ∀ d, G.cls g.pages = some d → d ∈ ds ∧ g.cnt = 1
  liveNodup : live.Nodup
  freeNodup : ∀ d ∈ ds, (G.free d).Nodup
  liveIn : ∀ b ∈ live, ∃ g ∈ held, b ∈ G.blocks g
  freeIn : ∀ d ∈ ds, ∀ b ∈ G.free d, ∃ g ∈ held, G.cls g.pages = some d ∧ b ∈ G.blocks g
  split : ∀ g ∈ held, ∀ b ∈ G.blocks g, b ∈ live ↔ ∀ d, G.cls g.pages = some d → b ∉ G.free d

structure Header (m : Mem) (G : Ghost) (g : Grant) : Prop where
  magic_eq : magic m g.pages = arenaMagic
  descPtr_eq : descPtr m g.pages = (G.cls g.pages).elim 0 addr
  freeCnt_eq : freeCnt m g.pages = (G.cls g.pages).elim g.cnt fun d => G.count d g.pages

/-- The memory holds the headers and the free lists. -/
structure Holds (ds : List Desc) (m : Mem) (held : List Grant) (G : Ghost) : Prop where
  header : ∀ g ∈ held, Header m G g
  lists : ∀ d ∈ ds, Linked m d.freeList (G.free d)

/-- The nodes are blocks of arenas of the descriptor. -/
def NodesOf (held : List Grant) (G : Ghost) (d : Desc) (nodes : List ℕ) : Prop :=
  ∀ b ∈ nodes, ∃ g ∈ held, G.cls g.pages = some d ∧ b ∈ G.blocks g

variable {ds : List Desc} {held : List Grant} {live : List ℕ} {G : Ghost} {g g' : Grant}
  {d d' : Desc} {b b' x a : ℕ} {m m' : Mem}

theorem Desc.mem_blocks :
    b ∈ d.blocks a ↔ ∃ i < d.blocksPerArena, b = a + sizeofArena + i * d.blockSize := by
  unfold blocks
  rw [List.mem_map]
  simp only [List.mem_range, eq_comm]

theorem Desc.nodup_blocks (hd : 16 ≤ d.blockSize) (a : ℕ) : (d.blocks a).Nodup := by
  refine List.Nodup.map (fun i j hij => ?_) List.nodup_range
  exact Nat.eq_of_mul_eq_mul_right (by omega) (Nat.add_left_cancel hij)

theorem DescsOk.block_le (hds : DescsOk ds) (hd : d ∈ ds) (hb : b ∈ d.blocks a) :
    a + sizeofArena ≤ b ∧ b + d.blockSize ≤ a + pgSize := by
  obtain ⟨i, hi, rfl⟩ := mem_blocks.mp hb
  have hfits := hds.fits d hd
  have hmul : (i + 1) * d.blockSize ≤ d.blocksPerArena * d.blockSize := Nat.mul_le_mul_right _ hi
  rw [Nat.add_mul, Nat.one_mul] at hmul
  omega

theorem DescsOk.eq_of_addr (hds : DescsOk ds) (hd : d ∈ ds) (hd' : d' ∈ ds)
    (hx : d.addr ≤ x ∧ x < d.addr + 24) (hx' : d'.addr ≤ x ∧ x < d'.addr + 24) : d = d' :=
  @eq_of_has _ _ (fun (d : Desc) y => d.addr ≤ y ∧ y < d.addr + 24) _ _ x _
    (hds.apart.imp fun hap y hy hy' => by omega) hd hd' hx hx'

theorem Desc.eq_of_blocks (hb : b ∈ d.blocks a) (hb' : b' ∈ d.blocks a)
    (hx : b ≤ x ∧ x < b + d.blockSize) (hx' : b' ≤ x ∧ x < b' + d.blockSize) : b = b' := by
  obtain ⟨i, -, rfl⟩ := mem_blocks.mp hb
  obtain ⟨j, -, rfl⟩ := mem_blocks.mp hb'
  have hi : (x - (a + sizeofArena)) / d.blockSize = i :=
    Nat.div_eq_of_lt_le (by omega) (by rw [Nat.add_mul, Nat.one_mul]; omega)
  have hj : (x - (a + sizeofArena)) / d.blockSize = j :=
    Nat.div_eq_of_lt_le (by omega) (by rw [Nat.add_mul, Nat.one_mul]; omega)
  rw [← hi, ← hj]

theorem Grant.Ok.pages_pos (h : g.Ok) : 0 < g.pages := by
  have := h.base
  unfold heapBase at this
  omega

theorem Grant.Ok.has_header (h : g.Ok) (hx : g.pages ≤ x ∧ x < g.pages + sizeofArena) :
    g.Has x := by
  have := h.pos
  unfold Grant.Has
  unfold sizeofArena at hx
  unfold pgSize
  omega

theorem Grant.Ok.has_pages (h : g.Ok) : g.Has g.pages :=
  h.has_header ⟨le_rfl, Nat.lt_add_of_pos_right (by decide)⟩

namespace Shape

theorem eq_of_has (h : Shape ds held live G) (hg : g ∈ held) (hg' : g' ∈ held) (hx : g.Has x)
    (hx' : g'.Has x) : g = g' :=
  CS162.eq_of_has h.apart hg hg' hx hx'

section

variable (h : Shape ds held live G) (hds : DescsOk ds) (hg : g ∈ held)

include h hds hg

theorem block_le (hb : b ∈ G.blocks g) :
    g.pages + sizeofArena ≤ b ∧ b + G.size g ≤ g.pages + pgSize * g.cnt := by
  unfold Ghost.blocks at hb
  unfold Ghost.size
  cases hcls : G.cls g.pages with
  | none =>
    rw [hcls] at hb
    obtain rfl := List.mem_singleton.mp hb
    have := (h.ok g hg).pos
    dsimp only
    unfold sizeofArena pgSize
    omega
  | some d =>
    rw [hcls] at hb
    obtain ⟨hd, hcnt⟩ := h.cls g hg d hcls
    rw [hcnt, Nat.mul_one]
    exact hds.block_le hd hb

theorem has_of_block (hb : b ∈ G.blocks g) (hx : b ≤ x ∧ x < b + G.size g) : g.Has x := by
  have := h.block_le hds hg hb
  unfold Grant.Has
  omega

theorem eq_of_blocks (hg' : g' ∈ held) (hb : b ∈ G.blocks g) (hb' : b' ∈ G.blocks g')
    (hx : b ≤ x ∧ x < b + G.size g) (hx' : b' ≤ x ∧ x < b' + G.size g') : g = g' ∧ b = b' := by
  obtain rfl := h.eq_of_has hg hg' (h.has_of_block hds hg hb hx) (h.has_of_block hds hg' hb' hx')
  refine ⟨rfl, ?_⟩
  unfold Ghost.blocks at hb hb'
  unfold Ghost.size at hx hx'
  cases hcls : G.cls g.pages with
  | none =>
    rw [hcls] at hb hb'
    rw [List.mem_singleton.mp hb, List.mem_singleton.mp hb']
  | some d =>
    rw [hcls] at hb hb' hx hx'
    exact eq_of_blocks hb hb' hx hx'

theorem size_pos : 16 ≤ G.size g := by
  unfold Ghost.size
  cases hcls : G.cls g.pages with
  | none =>
    have := (h.ok g hg).pos
    dsimp only
    unfold sizeofArena pgSize
    omega
  | some d => exact hds.size d (h.cls g hg d hcls).1

theorem blocks_apart (hg' : g' ∈ held) (hb : b ∈ G.blocks g) (hb' : b' ∈ G.blocks g')
    (hne : b ≠ b') : b + G.size g ≤ b' ∨ b' + G.size g' ≤ b := by
  have hsize := h.size_pos hds hg
  have hsize' := h.size_pos hds hg'
  by_contra hover
  rcases Nat.le_total b b' with hle | hle
  · exact hne (h.eq_of_blocks hds hg hg' hb hb' (x := b') (by omega) (by omega)).2
  · exact hne (h.eq_of_blocks hds hg hg' hb hb' (x := b) (by omega) (by omega)).2

theorem eq_of_mem (hg' : g' ∈ held) (hb : b ∈ G.blocks g) (hb' : b ∈ G.blocks g') : g = g' := by
  have hs := h.size_pos hds hg
  have hs' := h.size_pos hds hg'
  exact (h.eq_of_blocks hds hg hg' hb hb' (x := b) (by omega) (by omega)).1

theorem pgRoundDown_eq (hb : b ∈ G.blocks g) : pgRoundDown b = g.pages := by
  have haligned := (h.ok g hg).aligned
  have hle := h.block_le hds hg hb
  have hpos := h.size_pos hds hg
  have hlt : b < g.pages + pgSize := by
    unfold Ghost.blocks at hb
    cases hcls : G.cls g.pages with
    | none =>
      rw [hcls] at hb
      obtain rfl := List.mem_singleton.mp hb
      unfold sizeofArena pgSize
      omega
    | some d =>
      rw [(h.cls g hg d hcls).2, Nat.mul_one] at hle
      omega
  unfold pgRoundDown
  unfold pgSize at *
  omega

end

theorem held_nodup (h : Shape ds held live G) : held.Nodup := by
  refine (h.apart.imp_of_mem fun {g g'} hg _ hap heq => ?_)
  have hhas := (h.ok g hg).has_pages
  exact hap g.pages hhas (heq ▸ hhas)

end Shape

theorem inElems_cases {nodes : List ℕ} (hnodes : NodesOf held G d nodes)
    (hx : InElems (elems d.freeList nodes) x) :
    (d.addr + 8 ≤ x ∧ x < d.addr + 24) ∨
      ∃ g ∈ held, G.cls g.pages = some d ∧ ∃ b ∈ nodes, b ∈ G.blocks g ∧ b ≤ x ∧ x < b + 8 := by
  obtain ⟨y, hy, hle, hlt⟩ := hx
  unfold elems tailElem freeList at hy
  rcases List.mem_append.mp hy with hy | hy
  · rcases List.mem_cons.mp hy with rfl | hy
    · exact .inl (by omega)
    · obtain ⟨g, hg, hcls, hb⟩ := hnodes y hy
      exact .inr ⟨g, hg, hcls, y, hy, hb, hle, hlt⟩
  · obtain rfl := List.mem_singleton.mp hy
    exact .inl (by omega)

namespace Shape

variable {nodes nodes' : List ℕ}

section

variable (h : Shape ds held live G) (hds : DescsOk ds)

include h hds

theorem not_header (hd : d ∈ ds) (hnodes : NodesOf held G d nodes)
    (hx : InElems (elems d.freeList nodes) x) (hg : g ∈ held) :
    ¬ (g.pages ≤ x ∧ x < g.pages + sizeofArena) := by
  rintro ⟨hle, hlt⟩
  rcases inElems_cases hnodes hx with hstatic | ⟨g', hg', hcls, b, -, hb, hbx⟩
  · have := hds.below d hd
    have := (h.ok g hg).base
    omega
  · have hblock := h.block_le hds hg' hb
    have hsize := h.size_pos hds hg'
    have hhas := (h.ok g hg).has_header ⟨hle, hlt⟩
    obtain rfl := h.eq_of_has hg hg' hhas (h.has_of_block hds hg' hb (by omega))
    omega

theorem not_inElems (hd : d ∈ ds) (hd' : d' ∈ ds) (hne : d ≠ d')
    (hnodes : NodesOf held G d nodes) (hnodes' : NodesOf held G d' nodes')
    (hx : InElems (elems d.freeList nodes) x) : ¬ InElems (elems d'.freeList nodes') x := by
  intro hx'
  have hbelow := hds.below d hd
  have hbelow' := hds.below d' hd'
  rcases inElems_cases hnodes hx with hstatic | ⟨g, hg, hcls, b, -, hb, hbx⟩ <;>
    rcases inElems_cases hnodes' hx' with hstatic' | ⟨g', hg', hcls', b', -, hb', hbx'⟩
  · exact hne (hds.eq_of_addr hd hd' (x := x) (by omega) (by omega))
  · have hle := h.block_le hds hg' hb'
    have := (h.ok g' hg').base
    omega
  · have hle := h.block_le hds hg hb
    have := (h.ok g hg).base
    omega
  · have hsize := h.size_pos hds hg
    have hsize' := h.size_pos hds hg'
    obtain ⟨rfl, -⟩ := h.eq_of_blocks hds hg hg' hb hb' (x := x) (by omega) (by omega)
    exact hne (some.inj (hcls.symm.trans hcls'))

theorem not_block (hd : d ∈ ds) (hnodes : NodesOf held G d nodes)
    (hx : InElems (elems d.freeList nodes) x) (hg : g ∈ held) (hb : b ∈ G.blocks g)
    (hnot : b ∉ nodes) : ¬ (b ≤ x ∧ x < b + G.size g) := by
  intro hbx
  rcases inElems_cases hnodes hx with hstatic | ⟨g', hg', hcls, b', hmem, hb', hbx'⟩
  · have hle := h.block_le hds hg hb
    have := hds.below d hd
    have := (h.ok g hg).base
    omega
  · have hsize' := h.size_pos hds hg'
    obtain ⟨-, rfl⟩ := h.eq_of_blocks hds hg hg' hb hb' hbx (by omega)
    exact hnot hmem

theorem header_not_block (hg : g ∈ held) (hg' : g' ∈ held) (hb : b ∈ G.blocks g')
    (hx : b ≤ x ∧ x < b + G.size g') : ¬ (g.pages ≤ x ∧ x < g.pages + sizeofArena) := by
  rintro ⟨hle, hlt⟩
  have hhas := (h.ok g hg).has_header ⟨hle, hlt⟩
  obtain rfl := h.eq_of_has hg hg' hhas (h.has_of_block hds hg' hb hx)
  have := h.block_le hds hg hb
  omega

end

theorem header_not_header (h : Shape ds held live G) (hg : g ∈ held) (hg' : g' ∈ held)
    (hne : g ≠ g') (hx : g.pages ≤ x ∧ x < g.pages + sizeofArena) :
    ¬ (g'.pages ≤ x ∧ x < g'.pages + sizeofArena) := fun hx' =>
  hne (h.eq_of_has hg hg' ((h.ok g hg).has_header hx) ((h.ok g' hg').has_header hx'))

end Shape

theorem Header.congr {G' : Ghost} (h : Header m G g)
    (hsame : ∀ x, g.pages ≤ x ∧ x < g.pages + sizeofArena → m' x = m x)
    (hcls : G'.cls g.pages = G.cls g.pages)
    (hcount : ∀ d, G.cls g.pages = some d → G'.count d g.pages = G.count d g.pages) :
    Header m' G' g := by
  have hword : ∀ i, i + 4 ≤ sizeofArena → m'.word (g.pages + i) = m.word (g.pages + i) :=
    fun i hi => Mem.word_congr fun x hx hx' => hsame x (by omega)
  refine ⟨(hword 0 (by decide)).trans h.magic_eq, ?_, ?_⟩
  · rw [hcls]
    exact (hword 4 (by decide)).trans h.descPtr_eq
  · refine (hword 8 (by decide)).trans (h.freeCnt_eq.trans ?_)
    rw [hcls]
    cases hg : G.cls g.pages with
    | none => rfl
    | some d => exact (hcount d hg).symm

theorem Header.descPtr_big (h : Header m G g) (hcls : G.cls g.pages = none) :
    descPtr m g.pages = 0 := by
  rw [h.descPtr_eq, hcls]
  rfl

theorem Header.descPtr_cls (h : Header m G g) (hcls : G.cls g.pages = some d) :
    descPtr m g.pages = d.addr := by
  rw [h.descPtr_eq, hcls]
  rfl

theorem Header.freeCnt_big (h : Header m G g) (hcls : G.cls g.pages = none) :
    freeCnt m g.pages = g.cnt := by
  rw [h.freeCnt_eq, hcls]
  rfl

theorem Header.freeCnt_cls (h : Header m G g) (hcls : G.cls g.pages = some d) :
    freeCnt m g.pages = G.count d g.pages := by
  rw [h.freeCnt_eq, hcls]
  rfl

theorem findDesc_eq (hds : DescsOk ds) (hd : d ∈ ds) : findDesc ds d.addr = some d := by
  obtain ⟨d', hfind⟩ := isSome_iff_exists.mp
    (List.find?_isSome (p := fun d' => decide (d'.addr = d.addr)).mpr ⟨d, hd, decide_eq_true rfl⟩)
  have haddr := List.find?_some hfind
  rw [decide_eq_true_iff] at haddr
  have heq : d' = d :=
    hds.eq_of_addr (List.mem_of_find?_eq_some hfind) hd (x := d.addr) (by omega) (by omega)
  rw [findDesc, hfind, heq]

theorem Header.blockToArena_eq (hm : Header m G g) (h : Shape ds held live G) (hds : DescsOk ds)
    (hg : g ∈ held) (hb : b ∈ G.blocks g) : blockToArena ds b m = some g.pages := by
  have hround := h.pgRoundDown_eq hds hg hb
  have hok := h.ok g hg
  have haligned := hok.aligned
  unfold blockToArena
  rw [hround, if_pos ⟨hok.pages_pos.ne', hm.magic_eq⟩]
  unfold Ghost.blocks at hb
  cases hcls : G.cls g.pages with
  | none =>
    rw [hcls] at hb
    obtain rfl := List.mem_singleton.mp hb
    have hofs : pgOfs (g.pages + sizeofArena) = sizeofArena := by
      unfold pgOfs
      unfold sizeofArena pgSize at *
      omega
    rw [if_pos (hm.descPtr_big hcls), if_pos hofs]
  | some d =>
    rw [hcls] at hb
    have hd := (h.cls g hg d hcls).1
    have hpos := hds.pos d hd
    have hle := hds.block_le hd hb
    obtain ⟨i, hi, rfl⟩ := mem_blocks.mp hb
    have hofs : (pgOfs (g.pages + sizeofArena + i * d.blockSize) + 2 ^ 32 - sizeofArena) %
        2 ^ 32 = i * d.blockSize := by
      have := hds.size d hd
      unfold pgOfs
      unfold sizeofArena pgSize at *
      omega
    rw [hm.descPtr_cls hcls, if_neg hpos.ne', findDesc_eq hds hd, bind_some, hofs,
      if_pos (Nat.mul_mod_left _ _)]

theorem Header.arenaToBlock_eq (hm : Header m G g) (h : Shape ds held live G) (hds : DescsOk ds)
    (hg : g ∈ held) (hcls : G.cls g.pages = some d) {i : ℕ} (hi : i < d.blocksPerArena) :
    arenaToBlock ds g.pages i m = some (g.pages + sizeofArena + i * d.blockSize) := by
  rw [arenaToBlock, if_pos ⟨(h.ok g hg).pages_pos.ne', hm.magic_eq⟩, hm.descPtr_cls hcls,
    findDesc_eq hds (h.cls g hg d hcls).1, bind_some, if_pos hi]

end CS162.Threads
