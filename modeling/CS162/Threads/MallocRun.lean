import CS162.Threads.MallocOps

/-!
# Runs of the kernel heap

`Inv` is the invariant of `malloc`, `realloc` and `free`: a ghost state of the right shape is in
memory, and no pages are held without a live block.
-/

namespace CS162.Threads

open List Option Function Run
open LibKernel Filesys

/-- The memory is in order for the ghost state, and all pages are in use. -/
structure Inv (ds : List Desc) (h : KHeap) (live : List ℕ) (G : Ghost) : Prop where
  shape : Shape ds h.held live G
  holds : Holds ds h.mem h.held G
  used : ∀ g ∈ h.held, ∃ b ∈ live, b ∈ G.blocks g

/-- The pages that were held are still held, for the same purpose. -/
def Extends (held : List Grant) (G : Ghost) (held' : List Grant) (G' : Ghost) : Prop :=
  ∀ g ∈ held, g ∈ held' ∧ G'.cls g.pages = G.cls g.pages

variable {ds : List Desc} {live : List ℕ} {G G' : Ghost} {g : Grant} {d : Desc}
  {a b x size descs : ℕ} {h : KHeap} {pages : Option ℕ} {held held' : List Grant}

/-- The number of pages that `malloc` may ask for. -/
def pagesFor (ds : List Desc) (size : ℕ) : ℕ :=
  match ds.find? fun d => size ≤ d.blockSize with
  | none => KHeap.bigPageCnt size
  | some _ => 1

theorem Extends.blocks_eq (h : Extends held G held' G') (hg : g ∈ held) :
    G'.blocks g = G.blocks g := by
  unfold Ghost.blocks
  rw [(h g hg).2]

theorem Extends.size_eq (h : Extends held G held' G') (hg : g ∈ held) : G'.size g = G.size g := by
  unfold Ghost.size
  rw [(h g hg).2]

theorem Shape.block_ne_zero (h : Shape ds held live G) (hds : DescsOk ds) (hg : g ∈ held)
    (hb : b ∈ G.blocks g) : b ≠ 0 := by
  have hle := h.block_le hds hg hb
  have := (h.ok g hg).pages_pos
  omega

theorem Header.blockSize_eq (hheader : Header h.mem G g) (hs : Shape ds held live G)
    (hds : DescsOk ds) (hg : g ∈ held) (hb : b ∈ G.blocks g) :
    h.blockSize ds b = some (G.size g) := by
  rw [KHeap.blockSize, hheader.blockToArena_eq hs hds hg hb, bind_some]
  cases hcls : G.cls g.pages with
  | none =>
    rw [if_pos (hheader.descPtr_big hcls), hheader.freeCnt_big hcls]
    have hok := hs.ok g hg
    have hbound := hok.bound
    have haligned := hok.aligned
    have hpos := hok.pos
    have hbig : b = g.pages + sizeofArena := by
      rw [Ghost.blocks, hcls] at hb
      exact mem_singleton.mp hb
    congr 1
    rw [Ghost.size, hcls, hbig]
    unfold pgOfs
    unfold sizeofArena pgSize at *
    dsimp only
    omega
  | some d =>
    have hd := (hs.cls g hg d hcls).1
    have hpos := hds.pos d hd
    rw [hheader.descPtr_cls hcls, if_neg hpos.ne', findDesc_eq hds hd, Ghost.size_eq hcls]
    rfl

theorem Inv.blockSize_eq (hi : Inv ds h live G) (hds : DescsOk ds) (hg : g ∈ h.held)
    (hb : b ∈ G.blocks g) : h.blockSize ds b = some (G.size g) :=
  (hi.holds.header g hg).blockSize_eq hi.shape hds hg hb

/-- There is a block for the size, or there are pages for it. -/
def Available (ds : List Desc) (h : KHeap) (pages : Option ℕ) (size : ℕ) : Prop :=
  size ≠ 0 ∧ match ds.find? fun d => size ≤ d.blockSize with
    | none => KHeap.bigPageCnt size ≠ 0 ∧ pages ≠ none
    | some d => ¬ listEmpty d.freeList h.mem ∨ pages ≠ none

/-- What a block that `malloc` returns is. -/
structure Allocated (ds : List Desc) (h : KHeap) (live : List ℕ) (G : Ghost) (size r : ℕ)
    (h' : KHeap) (G' : Ghost) : Prop where
  inv : Inv ds h' (r :: live) G'
  ext : Extends h.held G h'.held G'
  same : Mem.Same (LiveByte h.held live G) h.mem h'.mem
  block : ∃ g ∈ h'.held, r ∈ G'.blocks g ∧
    G'.size g = match ds.find? fun d => size ≤ d.blockSize with
      | none => pgSize * KHeap.bigPageCnt size - sizeofArena
      | some d => d.blockSize

theorem Inv.listEmpty_iff (hi : Inv ds h live G) (hd : d ∈ ds) :
    listEmpty d.freeList h.mem ↔ G.free d = [] :=
  (hi.holds.lists d hd).listEmpty_iff

theorem Inv.takeBlock (hs : Shape ds h.held live G) (hm : Holds ds h.mem h.held G)
    (hused : ∀ g ∈ h.held, (∃ b ∈ live, b ∈ G.blocks g) ∨ ∃ b ∈ (G.free d).head?, b ∈ G.blocks g)
    (hds : DescsOk ds) (hd : d ∈ ds) (hfree : G.free d ≠ []) :
    ∃ r h' G', h.takeBlock ds d = some (r, h') ∧ h'.held = h.held ∧ Inv ds h' (r :: live) G' ∧
      G'.cls = G.cls ∧ Mem.Same (LiveByte h.held live G) h.mem h'.mem ∧
      ∃ g ∈ h'.held, r ∈ G'.blocks g ∧ G'.size g = d.blockSize := by
  obtain ⟨b, nodes, hcons⟩ := exists_cons_of_ne_nil hfree
  obtain ⟨g, hg, hcls, hb⟩ := hs.freeIn d hd b (hcons ▸ mem_cons_self)
  obtain ⟨m', htake, hshape, hholds, hsame⟩ := takeBlock_eq hs hm hds hd hcons
  refine ⟨b, _, _, htake, rfl, ⟨hshape, hholds, fun g' hg' => ?_⟩, rfl, hsame, g, hg, hb,
    Ghost.size_eq hcls⟩
  rcases hused g' hg' with ⟨b', hb', hblock⟩ | ⟨b', hb', hblock⟩
  · exact ⟨b', mem_cons_of_mem b hb', hblock⟩
  · rw [hcons, head?_cons, mem_some_iff] at hb'
    exact ⟨b', hb' ▸ mem_cons_self, hblock⟩

theorem Inv.malloc (hi : Inv ds h live G) (hds : DescsOk ds)
    (hpages : ∀ a, pages = some a → pagesFor ds size ≠ 0 →
      Fresh h.held ⟨false, a, pagesFor ds size⟩) :
    ¬ Available ds h pages size ∧ h.malloc ds pages size = some (0, h) ∨
      Available ds h pages size ∧ ∃ r h' G', r ≠ 0 ∧ h.malloc ds pages size = some (r, h') ∧
        Allocated ds h live G size r h' G' := by
  unfold Available
  by_cases hsize : size = 0
  · exact .inl ⟨fun havail => havail.1 hsize, by rw [KHeap.malloc, if_pos hsize]⟩
  rw [KHeap.malloc, if_neg hsize, and_iff_right hsize]
  have hs := hi.shape
  unfold pagesFor at hpages
  cases hfind : ds.find? fun d => size ≤ d.blockSize with
  | none =>
    rw [hfind] at hpages
    by_cases hcnt : KHeap.bigPageCnt size = 0
    · left
      refine ⟨fun havail => havail.1 hcnt, ?_⟩
      unfold KHeap.mallocBig KHeap.getMultiple
      rw [if_pos hcnt]
    · cases hp : pages with
      | none =>
        left
        refine ⟨fun havail => havail.2 rfl, ?_⟩
        unfold KHeap.mallocBig KHeap.getMultiple
        rw [if_neg hcnt]
      | some a =>
        have hfresh := hpages a hp hcnt
        obtain ⟨m', hmalloc, hshape, hholds, hsame⟩ := mallocBig_eq hs hi.holds hds hfresh
        have hblock : a + sizeofArena ∈
            (G.add a none).blocks ⟨false, a, KHeap.bigPageCnt size⟩ := by
          rw [Ghost.blocks, Ghost.cls_add_self]
          exact mem_singleton_self _
        refine .inr ⟨⟨hcnt, some_ne_none a⟩, _, _, _, hshape.block_ne_zero hds mem_cons_self hblock,
          by rw [hmalloc], ⟨hshape, hholds, fun g' hg' => ?_⟩, fun g' hg' => ?_, hsame, _,
          mem_cons_self, hblock, ?_⟩
        · rcases mem_cons.mp hg' with rfl | hg'
          · exact ⟨_, mem_cons_self, hblock⟩
          · obtain ⟨b', hb', hmem⟩ := hi.used g' hg'
            exact ⟨b', mem_cons_of_mem _ hb', (hfresh.blocks_add hs hg').symm ▸ hmem⟩
        · exact ⟨mem_cons_of_mem _ hg', hfresh.cls_add hs hg'⟩
        · rw [hfind, Ghost.size, Ghost.cls_add_self]
  | some d =>
    rw [hfind] at hpages
    dsimp only at hpages ⊢
    have hd := mem_of_find?_eq_some hfind
    by_cases hempty : G.free d = []
    · have hlist := (hi.listEmpty_iff hd).mpr hempty
      cases hp : pages with
      | none =>
        left
        refine ⟨fun havail => havail.elim (fun hl => hl hlist) fun hp => hp rfl, ?_⟩
        rw [KHeap.refill, if_pos hlist]
        rfl
      | some a =>
        have hfresh := hpages a hp one_ne_zero
        obtain ⟨m', hrefill, hshape, hholds, hsame⟩ := refill_eq hs hi.holds hds hd hempty hfresh
        have hfree : (G.add a (some d)).free d = d.blocks a := by
          change (if some d = some d then _ else _ : List ℕ) = _
          rw [if_pos rfl, hempty, nil_append]
        -- the first block of the new arena is the one that will be taken
        have hfirst : d.blocks a ≠ [] := by
          have := hds.one d hd
          rw [Desc.blocks, ne_eq, map_eq_nil_iff, range_eq_nil]
          omega
        obtain ⟨r, h', G', htake, hheld, hinv, hcls, hsame', g, hg, hr, hrsize⟩ :=
          Inv.takeBlock (h := ⟨m', ⟨false, a, 1⟩ :: h.held⟩) hshape hholds
            (fun g' hg' => by
              rcases mem_cons.mp hg' with rfl | hg'
              · right
                refine ⟨(d.blocks a).head hfirst, ?_, ?_⟩
                · rw [hfree]
                  exact head?_eq_some_head hfirst
                · rw [Ghost.blocks, Ghost.cls_add_self, blocksOf]
                  exact head_mem hfirst
              · left
                obtain ⟨b', hb', hmem⟩ := hi.used g' hg'
                exact ⟨b', hb', (hfresh.blocks_add hs hg').symm ▸ hmem⟩)
            hds hd (by rwa [hfree])
        refine .inr ⟨.inr (some_ne_none a), r, h', G',
          hinv.shape.block_ne_zero hds hg hr, by rw [hrefill]; exact htake, hinv,
          fun g' hg' => ⟨hheld ▸ mem_cons_of_mem _ hg', ?_⟩, ?_, g, hg, hr, ?_⟩
        · rw [hcls, hfresh.cls_add hs hg']
        · refine hsame.trans (hsame'.mono ?_)
          rintro x ⟨g', hg', b', hb', hmem, hx⟩
          refine ⟨g', mem_cons_of_mem _ hg', b', hb', ?_, ?_⟩
          · rwa [hfresh.blocks_add hs hg']
          · rwa [hfresh.size_add hs hg']
        · rw [hfind, hrsize]
    · have hlist : ¬ listEmpty d.freeList h.mem := fun hl => hempty ((hi.listEmpty_iff hd).mp hl)
      obtain ⟨r, h', G', htake, hheld, hinv, hcls, hsame, g, hg, hr, hrsize⟩ :=
        Inv.takeBlock hs hi.holds (fun g' hg' => .inl (hi.used g' hg')) hds hd hempty
      refine .inr ⟨.inl hlist, r, h', G', hinv.shape.block_ne_zero hds hg hr, ?_, hinv,
        fun g' hg' => ⟨hheld ▸ hg', by rw [hcls]⟩, hsame, g, hg, hr, ?_⟩
      · rw [KHeap.refill, if_neg hlist]
        exact htake
      · rw [hfind, hrsize]

theorem Inv.free (hi : Inv ds h live G) (hds : DescsOk ds) (hb : b ∈ live) (hg : g ∈ h.held)
    (hblock : b ∈ G.blocks g) :
    ∃ h' G', h.free ds b = some h' ∧ Inv ds h' (live.erase b) G' ∧ G'.cls = G.cls ∧
      h'.held = (if ∃ b' ∈ live, b' ≠ b ∧ b' ∈ G.blocks g then h.held else h.held.erase g) ∧
      Mem.Same (LiveByte h'.held (live.erase b) G) h.mem h'.mem := by
  have hs := hi.shape
  have hheader := hi.holds.header g hg
  have hb0 := hs.block_ne_zero hds hg hblock
  have hkeep : ∀ g' ∈ h.held, g' ≠ g → ∃ b' ∈ live.erase b, b' ∈ G.blocks g' := by
    intro g' hg' hne
    obtain ⟨b', hb', hmem⟩ := hi.used g' hg'
    refine ⟨b', hs.liveNodup.mem_erase_iff.mpr ⟨fun heq => hne ?_, hb'⟩, hmem⟩
    exact hs.eq_of_mem hds hg' hg hmem (heq ▸ hblock)
  cases hcls : G.cls g.pages with
  | none =>
    obtain ⟨m', hfree, hshape, hholds, hsame⟩ := freeBig_eq hs hi.holds hds hg hcls hblock hb0
    have hone : G.blocks g = [b] := by
      rw [Ghost.blocks, hcls] at hblock ⊢
      rw [mem_singleton.mp hblock]
      rfl
    have hlive : live.filter (· ∉ G.blocks g) = live.erase b := by
      rw [hs.liveNodup.erase_eq_filter, hone]
      refine filter_congr fun y _ => ?_
      rw [Bool.eq_iff_iff, decide_eq_true_iff, mem_singleton, bne_iff_ne]
    rw [hlive] at hshape hsame
    refine ⟨_, _, hfree, ⟨hshape, hholds, fun g' hg' => ?_⟩, rfl, ?_, hsame⟩
    · obtain ⟨hne, hg'⟩ := hs.held_nodup.mem_erase_iff.mp hg'
      exact hkeep g' hg' hne
    · rw [if_neg]
      rintro ⟨b', -, hne, hmem⟩
      rw [hone, mem_singleton] at hmem
      exact hne hmem
  | some d =>
    have hd := (hs.cls g hg d hcls).1
    obtain ⟨m1, hput, hshape1, hholds1, hsame1⟩ := putBlock_eq hs hi.holds hds hg hcls hblock hb
    have hcall : h.free ds b = KHeap.dropArena ds d g.pages { h with mem := m1 } := by
      have hpos := hds.pos d hd
      rw [KHeap.free, if_neg hb0, hheader.blockToArena_eq hs hds hg hblock, bind_some,
        hheader.descPtr_cls hcls, if_neg hpos.ne', findDesc_eq hds hd, bind_some, hput, bind_some]
    by_cases hlast : ∃ b' ∈ live, b' ≠ b ∧ b' ∈ G.blocks g
    · obtain ⟨b', hb', hne, hmem⟩ := hlast
      have hlive' : b' ∈ live.erase b := hs.liveNodup.mem_erase_iff.mpr ⟨hne, hb'⟩
      have hcount : freeCnt m1 g.pages < d.blocksPerArena := by
        rw [(hholds1.header g hg).freeCnt_cls hcls, hshape1.count_eq hds hg hcls]
        have hlen : (d.blocks g.pages).length = d.blocksPerArena := by
          rw [Desc.blocks, length_map, length_range]
        rw [← hlen]
        refine lt_of_le_of_ne countP_le_length fun heq => ?_
        have hall := countP_eq_length.mp heq b' (Ghost.blocks_eq hcls ▸ hmem)
        exact (hshape1.split g hg b' hmem).mp hlive' d hcls (of_decide_eq_true hall)
      refine ⟨{ h with mem := m1 }, _, ?_, ⟨hshape1, hholds1, fun g' hg' => ?_⟩, rfl, ?_, hsame1⟩
      · rw [hcall, KHeap.dropArena, if_neg (by dsimp only; omega)]
      · by_cases hgg : g' = g
        · subst hgg
          exact ⟨b', hlive', hmem⟩
        · exact hkeep g' hg' hgg
      · rw [if_pos ⟨b', hb', hne, hmem⟩]
    · have hall : ∀ b' ∈ G.blocks g, b' ∉ live.erase b := fun b' hmem hlive' => by
        obtain ⟨hne, hlive'⟩ := hs.liveNodup.mem_erase_iff.mp hlive'
        exact hlast ⟨b', hlive', hne, hmem⟩
      obtain ⟨m', hdrop, hshape, hholds, hsame⟩ := dropArena_eq (h := { h with mem := m1 })
        hshape1 hholds1 hds hg hcls hall
      refine ⟨_, _, hcall.trans hdrop, ⟨hshape, hholds, fun g' hg' => ?_⟩, rfl, ?_, ?_⟩
      · obtain ⟨hne, hg'⟩ := hs.held_nodup.mem_erase_iff.mp hg'
        exact hkeep g' hg' hne
      · rw [if_neg hlast]
      · refine (hsame1.mono ?_).trans hsame
        rintro x ⟨g', hg', hrest⟩
        exact ⟨g', mem_of_mem_erase hg', hrest⟩

theorem le_bigPageCnt (hsize : size < 2 ^ 32 - 2 * pgSize) :
    size ≤ pgSize * KHeap.bigPageCnt size - sizeofArena := by
  unfold KHeap.bigPageCnt sizeofArena
  unfold pgSize at *
  have hmod : (size + 12) % 2 ^ 32 = size + 12 := Nat.mod_eq_of_lt (by omega)
  have hmod' : (size + 12 + 4096 - 1) % 2 ^ 32 = size + 12 + 4096 - 1 := Nat.mod_eq_of_lt (by omega)
  rw [hmod, hmod']
  omega

theorem le_of_size (hsize : size < 2 ^ 32 - 2 * pgSize) :
    size ≤ match ds.find? fun d => size ≤ d.blockSize with
      | none => pgSize * KHeap.bigPageCnt size - sizeofArena
      | some d => d.blockSize := by
  cases hfind : ds.find? fun d => size ≤ d.blockSize with
  | none => exact le_bigPageCnt hsize
  | some d =>
    have hle := find?_some hfind
    rwa [decide_eq_true_iff] at hle

theorem Inv.realloc (hi : Inv ds h live G) (hds : DescsOk ds)
    (hpages : ∀ a, pages = some a → pagesFor ds size ≠ 0 →
    Fresh h.held ⟨false, a, pagesFor ds size⟩) (hb : b ∈ live) (hg : g ∈ h.held)
    (hblock : b ∈ G.blocks g) (hpos : size ≠ 0) (hsize : size < 2 ^ 32 - 2 * pgSize) :
    h.realloc ds pages b size = some (0, h) ∨ ∃ r h' G', r ≠ 0 ∧
      h.realloc ds pages b size = some (r, h') ∧ Inv ds h' (r :: live.erase b) G' ∧ ∀ i,
      i < min size (G.size g) → h'.mem (r + i) = h.mem (b + i) := by
  have hs := hi.shape
  have hb0 := hs.block_ne_zero hds hg hblock
  rcases hi.malloc hds hpages with ⟨-, hnull⟩ | ⟨-, r, h1, G1, hr0, hmalloc, halloc⟩
  · left
    rw [KHeap.realloc, if_neg hpos, hnull, bind_some]
    dsimp only
    rw [if_neg fun hne => hne.2 rfl]
  right
  obtain ⟨hi1, hext, hsame1, g1, hg1, hr, hrsize⟩ := halloc
  have hs1 := hi1.shape
  have hrne : r ≠ b := fun heq => (nodup_cons.mp hs1.liveNodup).1 (heq ▸ hb)
  have hg' := (hext g hg).1
  have hblock' : b ∈ G1.blocks g := (hext.blocks_eq hg).symm ▸ hblock
  have hle : size ≤ G1.size g1 := by
    rw [hrsize]
    exact le_of_size hsize
  have hmin : (if size < G.size g then size else G.size g) = min size (G.size g) := by
    rw [Nat.min_def]
    split_ifs <;> omega
  -- the copy stays inside the new block
  have hcopy : ∀ x, ¬ (r ≤ x ∧ x < r + G1.size g1) →
      h1.mem.memcpy r b (min size (G.size g)) x = h1.mem x := fun x hx =>
    Mem.memcpy_of_apart (by omega)
  have hi2 : Inv ds { h1 with mem := h1.mem.memcpy r b (min size (G.size g)) } (r :: live) G1 :=
    ⟨hs1, hi1.holds.write hs1 hds hg1 hr mem_cons_self hcopy, hi1.used⟩
  obtain ⟨h3, G3, hfree, hi3, hcls3, hheld3, hsame3⟩ :=
    hi2.free hds (mem_cons_of_mem r hb) hg' hblock'
  have herase : (r :: live).erase b = r :: live.erase b := erase_cons_tail (by simpa using hrne)
  rw [herase] at hi3 hsame3
  refine ⟨r, h3, G3, hr0, ?_, hi3, fun i hi' => ?_⟩
  · rw [KHeap.realloc, if_neg hpos, hmalloc, bind_some]
    dsimp only
    rw [if_pos ⟨hb0, hr0⟩, hi1.blockSize_eq hds hg' hblock', bind_some, hext.size_eq hg,
      hmin, hfree]
    rfl
  · -- the new block is still there after the old one has been freed
    obtain ⟨g3, hg3, hr3⟩ := hi3.shape.liveIn r mem_cons_self
    have hg3' : g3 ∈ h1.held := by
      rw [hheld3] at hg3
      split_ifs at hg3
      · exact hg3
      · exact mem_of_mem_erase hg3
    have hr3' : r ∈ G1.blocks g3 := by
      unfold Ghost.blocks at hr3 ⊢
      rwa [hcls3] at hr3
    obtain rfl := hs1.eq_of_mem hds hg1 hg3' hr hr3'
    rw [hsame3 (r + i) ⟨g1, hg3, r, mem_cons_self, hr, by omega⟩]
    dsimp only
    rw [Mem.memcpy_of_mem (by omega), Nat.add_sub_cancel_left]
    exact hsame1 (b + i) ⟨g, hg, b, hb, hblock, by omega⟩

/-- What the users of the heap do; `pages` is what `palloc_get_multiple` returns. -/
inductive HeapCall where
  | malloc (pages : Option ℕ) (size : ℕ)
  | realloc (pages : Option ℕ) (old newSize : ℕ)
  | free (p : ℕ)
  | write (a : ℕ) (v : UInt8)

abbrev HeapState : Type :=
  KHeap × List ℕ

/-- Pages that `palloc_get_multiple` can return while others are held. -/
def CanGrant (held : List Grant) (a cnt : ℕ) : Prop :=
  a % pgSize = 0 ∧ heapBase ≤ a ∧ a + pgSize * cnt ≤ 2 ^ 32 ∧
    ∀ g ∈ held, a + pgSize * cnt ≤ g.pages ∨ g.pages + pgSize * g.cnt ≤ a

instance (held : List Grant) (a cnt : ℕ) : Decidable (CanGrant held a cnt) :=
  inferInstanceAs (Decidable (_ ∧ _ ∧ _ ∧ _))

/-- The page allocator hands out pages that nobody holds. -/
def PagesOk (held : List Grant) (cnt : ℕ) : Option ℕ → Prop
  | none => True
  | some a => CanGrant held a cnt

instance (held : List Grant) (cnt : ℕ) : ∀ pages, Decidable (PagesOk held cnt pages)
  | none => inferInstanceAs (Decidable True)
  | some a => inferInstanceAs (Decidable (CanGrant held a cnt))

/-- The byte is in a live block, or none of the heap's. -/
def Writable (ds : List Desc) (s : HeapState) (a : ℕ) : Prop :=
  (∃ b ∈ s.2, b ≤ a ∧ a < b + (s.1.blockSize ds b).getD 0) ∨
    (∀ g ∈ s.1.held, a < g.pages ∨ g.pages + pgSize * g.cnt ≤ a) ∧
      ∀ d ∈ ds, a < d.addr ∨ d.addr + sizeofDesc ≤ a

instance (ds : List Desc) (s : HeapState) (a : ℕ) : Decidable (Writable ds s a) :=
  inferInstanceAs (Decidable (_ ∨ _))

/-- Only live blocks are freed or reallocated, to sizes below the bound, and users write to
their blocks only. -/
def HeapCall.Legal (ds : List Desc) (s : HeapState) : HeapCall → Prop
  | .malloc pages size => size < 2 ^ 32 ∧ PagesOk s.1.held (pagesFor ds size) pages
  | .realloc pages old newSize => newSize < 2 ^ 32 - 2 * pgSize ∧ (old = 0 ∨ old ∈ s.2) ∧
      PagesOk s.1.held (pagesFor ds newSize) pages
  | .free p => p = 0 ∨ p ∈ s.2
  | .write a _ => Writable ds s a

instance (ds : List Desc) (s : HeapState) : ∀ c : HeapCall, Decidable (c.Legal ds s)
  | .malloc _ _ => inferInstanceAs (Decidable (_ ∧ _))
  | .realloc _ _ _ => inferInstanceAs (Decidable (_ ∧ _ ∧ _))
  | .free _ => inferInstanceAs (Decidable (_ ∨ _))
  | .write _ _ => inferInstanceAs (Decidable (Writable ds s _))

def HeapCall.exec (ds : List Desc) (s : HeapState) : HeapCall → Option HeapState
  | .malloc pages size => (s.1.malloc ds pages size).map fun (r, h) =>
    (h, if r = 0 then s.2 else r :: s.2)
  | .realloc pages old newSize => (s.1.realloc ds pages old newSize).map fun (r, h) =>
    (h, if newSize = 0 then s.2.erase old else if r = 0 then s.2 else r :: s.2.erase old)
  | .free p => (s.1.free ds p).map fun h => (h, s.2.erase p)
  | .write a v => some ({ s.1 with mem := update s.1.mem a v }, s.2)

def heapStep (ds : List Desc) (s : HeapState) (c : HeapCall) : Option HeapState :=
  if c.Legal ds s then c.exec ds s else none

theorem PagesOk.fresh {cnt : ℕ} (hp : PagesOk held cnt pages) :
    ∀ a, pages = some a → cnt ≠ 0 → Fresh held ⟨false, a, cnt⟩ := by
  rintro a rfl hcnt
  obtain ⟨haligned, hbase, hbound, hapart⟩ := hp
  refine ⟨⟨rfl, haligned, hbase, hbound, Nat.one_le_iff_ne_zero.mpr hcnt⟩, fun g hg x hx hx' => ?_⟩
  unfold Grant.Has at hx hx'
  have := hapart g hg
  dsimp only at hx
  omega

section

variable (hi : Inv ds h live G) (hds : DescsOk ds)

include hi hds

theorem Inv.zero_not_live : 0 ∉ live := fun hmem => by
  obtain ⟨g, hg, hb⟩ := hi.shape.liveIn 0 hmem
  exact hi.shape.block_ne_zero hds hg hb rfl

theorem Inv.write {v : UInt8} (hw : Writable ds (h, live) a) :
    Inv ds { h with mem := update h.mem a v } live G := by
  have hs := hi.shape
  refine ⟨hs, ?_, hi.used⟩
  rcases hw with ⟨b, hb, hle, hlt⟩ | ⟨hheld, hdescs⟩
  · obtain ⟨g, hg, hblock⟩ := hs.liveIn b hb
    rw [hi.blockSize_eq hds hg hblock, getD_some] at hlt
    refine hi.holds.write hs hds hg hblock hb fun x hx => update_of_ne ?_ _ _
    rintro rfl
    exact hx ⟨hle, hlt⟩
  · have hnot : ∀ g ∈ h.held, ¬ g.Has a := fun g hg hhas => by
      have := hheld g hg
      unfold Grant.Has at hhas
      omega
    constructor
    · intro g hg
      refine (hi.holds.header g hg).congr (fun x hx => update_of_ne ?_ _ _) rfl fun _ _ => rfl
      rintro rfl
      exact hnot g hg ((hs.ok g hg).has_header hx)
    · intro d hd
      refine (hi.holds.lists d hd).congr fun x hx => update_of_ne ?_ _ _
      rintro rfl
      rcases inElems_cases (hs.nodesOf hd) hx with hstatic | ⟨g, hg, -, b, -, hb, hbx⟩
      · have := hdescs d hd
        unfold sizeofDesc at this
        omega
      · have := hs.size_pos hds hg
        exact hnot g hg (hs.has_of_block hds hg hb (by omega))

theorem Inv.execMalloc (hpages : PagesOk h.held (pagesFor ds size) pages) :
    ∃ s' G', (HeapCall.malloc pages size).exec ds (h, live) = some s' ∧ Inv ds s'.1 s'.2 G' := by
  simp only [HeapCall.exec]
  rcases hi.malloc hds hpages.fresh with ⟨-, hnull⟩ | ⟨-, r, h', G', hr, hmalloc, halloc⟩
  · rw [hnull]
    exact ⟨_, G, rfl, hi⟩
  · rw [hmalloc, map_some]
    rw [if_neg hr]
    exact ⟨_, G', rfl, halloc.inv⟩

theorem Inv.execFree {p : ℕ} (hp : p = 0 ∨ p ∈ live) :
    ∃ h' G', h.free ds p = some h' ∧ Inv ds h' (live.erase p) G' := by
  rcases hp with rfl | hp
  · rw [erase_of_not_mem (hi.zero_not_live hds)]
    exact ⟨h, G, if_pos rfl, hi⟩
  · obtain ⟨g, hg, hb⟩ := hi.shape.liveIn p hp
    obtain ⟨h', G', hfree, hi', -⟩ := hi.free hds hp hg hb
    exact ⟨h', G', hfree, hi'⟩

theorem Inv.execRealloc {old newSize : ℕ}
    (hc : (HeapCall.realloc pages old newSize).Legal ds (h, live)) :
    ∃ s' G', (HeapCall.realloc pages old newSize).exec ds (h, live) = some s' ∧
      Inv ds s'.1 s'.2 G' := by
  obtain ⟨hsize, hold, hpages⟩ := hc
  simp only [HeapCall.exec]
  by_cases hzero : newSize = 0
  · obtain ⟨h', G', hfree, hi'⟩ := hi.execFree hds hold
    refine ⟨(h', live.erase old), G', ?_, hi'⟩
    rw [KHeap.realloc, if_pos hzero, hfree, map_some, map_some]
    rw [if_pos hzero]
  rcases hold with rfl | hp
  · -- `realloc` of the null pointer is `malloc`
    have hcall : h.realloc ds pages 0 newSize = h.malloc ds pages newSize := by
      rw [KHeap.realloc, if_neg hzero]
      cases h.malloc ds pages newSize <;> rfl
    obtain ⟨s', G', hmalloc, hi'⟩ := hi.execMalloc hds hpages
    refine ⟨s', G', ?_, hi'⟩
    rw [hcall, ← hmalloc, HeapCall.exec]
    simp only [if_neg hzero, erase_of_not_mem (hi.zero_not_live hds)]
  · obtain ⟨g, hg, hb⟩ := hi.shape.liveIn old hp
    rcases hi.realloc hds hpages.fresh hp hg hb hzero hsize with
      hnull | ⟨r, h', G', hr, hcall, hi', -⟩
    · refine ⟨(h, live), G, ?_, hi⟩
      rw [hnull, map_some]
      rw [if_neg hzero, if_pos rfl]
    · refine ⟨(h', r :: live.erase old), G', ?_, hi'⟩
      rw [hcall, map_some]
      rw [if_neg hzero, if_neg hr]

theorem Inv.exec (c : HeapCall) (hc : c.Legal ds (h, live)) :
    ∃ s' G', c.exec ds (h, live) = some s' ∧ Inv ds s'.1 s'.2 G' := by
  cases c with
  | malloc pages size => exact hi.execMalloc hds hc.2
  | realloc pages old newSize => exact hi.execRealloc hds hc
  | free p =>
    obtain ⟨h', G', hfree, hi'⟩ := hi.execFree hds hc
    exact ⟨(h', live.erase p), G', by rw [HeapCall.exec, hfree]; rfl, hi'⟩
  | write a v => exact ⟨_, G, rfl, hi.write hds hc⟩

end

theorem descTable_eq (descs : ℕ) :
    descTable descs = [⟨descs, 16, 255⟩, ⟨descs + 60, 32, 127⟩, ⟨descs + 120, 64, 63⟩,
      ⟨descs + 180, 128, 31⟩, ⟨descs + 240, 256, 15⟩, ⟨descs + 300, 512, 7⟩,
      ⟨descs + 360, 1024, 3⟩] := by
  simp [descTable, descLoop, pgSize, sizeofArena, sizeofDesc]

/-- The array of descriptors is in the static data of the kernel. -/
def StaticArray (descs : ℕ) : Prop :=
  loaderPhysBase ≤ descs ∧ descs + 10 * sizeofDesc ≤ heapBase

theorem descTable_ok (h : StaticArray descs) : DescsOk (descTable descs) := by
  obtain ⟨hle, hlt⟩ := h
  unfold loaderPhysBase at hle
  unfold sizeofDesc at hlt
  rw [descTable_eq]
  constructor <;> simp [sizeofArena, pgSize] <;> omega

theorem linked_mallocInit (hds : DescsOk ds) (m : Mem) :
    ∀ d ∈ ds, Linked (mallocInit ds m) d.freeList [] := by
  have hbase : heapBase ≤ 2 ^ 32 := by decide
  -- each list stays empty while the lists behind it are initialized
  suffices hloop : ∀ (l : List Desc) (m : Mem), l ⊆ ds → l.Pairwise (fun d d' =>
      d.addr + 24 ≤ d'.addr ∨ d'.addr + 24 ≤ d.addr) →
      (∀ d ∈ l, Linked (mallocInit l m) d.freeList []) ∧
        Mem.Same (fun x => ∀ d ∈ l, ¬ InElems (elems d.freeList []) x) m (mallocInit l m) by
    exact (hloop ds m (List.Subset.refl ds) hds.apart).1
  intro l
  induction l with
  | nil => exact fun m _ _ => ⟨fun d hd => absurd hd not_mem_nil, Mem.Same.refl _ _⟩
  | cons d l ih =>
    intro m hsub hpair
    obtain ⟨hfirst, hpair⟩ := pairwise_cons.mp hpair
    have hd := hsub mem_cons_self
    have hbelow := hds.below d hd
    obtain ⟨hlinked, hsame⟩ := linked_listInit (l := d.freeList) m
      (by have := hds.pos d hd; unfold Desc.freeList; omega) (by unfold Desc.freeList; omega)
    obtain ⟨hlists, hsame'⟩ := ih (listInit d.freeList m)
      (fun x hx => hsub (mem_cons_of_mem d hx)) hpair
    refine ⟨fun d' hd' => ?_, ?_⟩
    · rcases mem_cons.mp hd' with rfl | hd'
      · refine hlinked.congr fun x hx => hsame' x fun d'' hd'' hx' => ?_
        have hap := hfirst d'' hd''
        have hnil : ∀ d : Desc, NodesOf [] ⟨fun _ => none, fun _ => []⟩ d [] :=
          fun _ _ hb => absurd hb not_mem_nil
        rcases inElems_cases (hnil d') hx with hs | ⟨_, hg, _⟩
        · rcases inElems_cases (hnil d'') hx' with hs' | ⟨_, hg, _⟩
          · omega
          · exact absurd hg not_mem_nil
        · exact absurd hg not_mem_nil
      · exact hlists d' hd'
    · refine (hsame.mono fun x hx => hx d mem_cons_self).trans ?_
      exact hsame'.mono fun x hx d' hd' => hx d' (mem_cons_of_mem d hd')

theorem inv_mallocInit (hds : DescsOk ds) (m : Mem) :
    Inv ds ⟨mallocInit ds m, []⟩ [] ⟨fun _ => none, fun _ => []⟩ := by
  refine ⟨⟨List.Pairwise.nil, nofun, nofun, nodup_nil, fun _ _ => nodup_nil, nofun,
    nofun, nofun⟩, ⟨nofun, linked_mallocInit hds m⟩, nofun⟩

/-- The heap after `malloc_init` on the memory `m`. -/
def heapInit (descs : ℕ) (m : Mem) : HeapState :=
  (⟨mallocInit (descTable descs) m, []⟩, [])

theorem heapStep_inv (hds : DescsOk ds) {s s' : HeapState} {c : HeapCall}
    (hi : ∃ G, Inv ds s.1 s.2 G) (hs : heapStep ds s c = some s') : ∃ G, Inv ds s'.1 s'.2 G := by
  obtain ⟨G, hi⟩ := hi
  obtain ⟨hc, hexec⟩ := ite_none_right_eq_some.mp hs
  obtain ⟨t, G', ht, hi'⟩ := hi.exec hds c hc
  rw [hexec] at ht
  cases ht
  exact ⟨G', hi'⟩

theorem run_inv (hdescs : StaticArray descs) {m : Mem} {calls : List HeapCall}
    (hr : run (heapStep (descTable descs)) (heapInit descs m) calls = some (h, live)) :
    ∃ G, Inv (descTable descs) h live G :=
  have hds := descTable_ok hdescs
  run_invariant' (I := fun s : HeapState => ∃ G, Inv (descTable descs) s.1 s.2 G)
    (fun _ _ _ => heapStep_inv hds) ⟨_, inv_mallocInit hds m⟩ hr

theorem Inv.has_iff (hi : Inv ds h live G) (hds : DescsOk ds) (hg : g ∈ h.held) (hb : b ∈ live) :
    g.Has b ↔ b ∈ G.blocks g := by
  have hs := hi.shape
  constructor
  · intro hhas
    obtain ⟨g', hg', hb'⟩ := hs.liveIn b hb
    have hsize := hs.size_pos hds hg'
    rwa [hs.eq_of_has hg hg' hhas (hs.has_of_block hds hg' hb' (by omega))]
  · intro hb'
    have hsize := hs.size_pos hds hg
    exact hs.has_of_block hds hg hb' (by omega)

/-- After every sequence of legal calls the live blocks are apart and inside their arenas;
each arena of a descriptor counts its free blocks, and each block is live or once on the free
list; pages go back exactly with the last live block in them; `realloc` keeps the first
bytes, or the whole heap when it returns the null pointer; and no assertion fails. -/
theorem run_heap {descs : ℕ} (hdescs : StaticArray descs) {m : Mem} {calls : List HeapCall}
    (hr : run (heapStep (descTable descs)) (heapInit descs m) calls = some (h, live)) :
    let ds := descTable descs
    live.Pairwise (fun b b' => ∀ n n', h.blockSize ds b = some n → h.blockSize ds b' = some n' →
      b + n ≤ b' ∨ b' + n' ≤ b) ∧
    (∀ b ∈ live, ∃ n, h.blockSize ds b = some n ∧
      ∃ g ∈ h.held, g.pages + sizeofArena ≤ b ∧ b + n ≤ g.pages + pgSize * g.cnt) ∧
    (∃ free : Desc → List ℕ, (∀ d ∈ ds, Linked h.mem d.freeList (free d)) ∧
      ∀ g ∈ h.held, ∀ d ∈ ds, descPtr h.mem g.pages = d.addr →
        freeCnt h.mem g.pages = (d.blocks g.pages).countP (· ∈ free d) ∧
        ∀ b ∈ d.blocks g.pages, b ∈ live ∧ b ∉ free d ∨ b ∉ live ∧ (free d).count b = 1) ∧
    (∀ g ∈ h.held, ∃ b ∈ live, g.Has b) ∧
    (∀ b ∈ live, ∀ g ∈ h.held, g.Has b → ∃ h', h.free ds b = some h' ∧
      h'.held = if ∃ b' ∈ live, b' ≠ b ∧ g.Has b' then h.held else h.held.erase g) ∧
    (∀ pages size r h', PagesOk h.held (pagesFor ds size) pages →
      h.malloc ds pages size = some (r, h') → ∀ g ∈ h.held, g ∈ h'.held) ∧
    (∀ b ∈ live, ∀ n, h.blockSize ds b = some n → ∀ pages size, 0 < size →
      size < 2 ^ 32 - 2 * pgSize → PagesOk h.held (pagesFor ds size) pages →
      h.realloc ds pages b size = some (0, h) ∨ ∃ r h', r ≠ 0 ∧
        h.realloc ds pages b size = some (r, h') ∧
        ∀ i, i < min size n → h'.mem (r + i) = h.mem (b + i)) ∧
    ∀ c : HeapCall, c.Legal ds (h, live) → (heapStep ds (h, live) c).isSome := by
  intro ds
  have hds : DescsOk ds := descTable_ok hdescs
  obtain ⟨G, hi⟩ := run_inv hdescs hr
  have hs := hi.shape
  have hsize : ∀ b ∈ live, ∃ g ∈ h.held, b ∈ G.blocks g ∧ h.blockSize ds b = some (G.size g) :=
    fun b hb => by
      obtain ⟨g, hg, hblock⟩ := hs.liveIn b hb
      exact ⟨g, hg, hblock, hi.blockSize_eq hds hg hblock⟩
  refine ⟨?_, ?_, ⟨G.free, hi.holds.lists, ?_⟩, ?_, ?_, ?_, ?_, ?_⟩
  · refine hs.liveNodup.imp_of_mem fun {b b'} hb hb' hne n n' hn hn' => ?_
    obtain ⟨g, hg, hblock, heq⟩ := hsize b hb
    obtain ⟨g', hg', hblock', heq'⟩ := hsize b' hb'
    obtain rfl : G.size g = n := some.inj (heq.symm.trans hn)
    obtain rfl : G.size g' = n' := some.inj (heq'.symm.trans hn')
    exact hs.blocks_apart hds hg hg' hblock hblock' hne
  · intro b hb
    obtain ⟨g, hg, hblock, heq⟩ := hsize b hb
    exact ⟨_, heq, g, hg, hs.block_le hds hg hblock⟩
  · intro g hg d hd hptr
    have hheader := hi.holds.header g hg
    have hcls : G.cls g.pages = some d := by
      cases hcls : G.cls g.pages with
      | none =>
        have := hds.pos d hd
        rw [hheader.descPtr_big hcls] at hptr
        omega
      | some d' =>
        have hd' := (hs.cls g hg d' hcls).1
        rw [hheader.descPtr_cls hcls] at hptr
        have hfind := findDesc_eq hds hd
        rw [← hptr, findDesc_eq hds hd'] at hfind
        exact hfind
    refine ⟨(hheader.freeCnt_cls hcls).trans (hs.count_eq hds hg hcls), fun b hb => ?_⟩
    have hsplit := hs.split g hg b (Ghost.blocks_eq hcls ▸ hb)
    by_cases hfree : b ∈ G.free d
    · exact .inr ⟨hs.not_live hd hfree, count_eq_one_of_mem (hs.freeNodup d hd) hfree⟩
    · refine .inl ⟨hsplit.mpr fun d' hcls' => ?_, hfree⟩
      rwa [some.inj (hcls'.symm.trans hcls)]
  · intro g hg
    obtain ⟨b, hb, hblock⟩ := hi.used g hg
    exact ⟨b, hb, (hi.has_iff hds hg hb).mpr hblock⟩
  · intro b hb g hg hhas
    obtain ⟨h', G', hfree, -, -, hheld, -⟩ := hi.free hds hb hg ((hi.has_iff hds hg hb).mp hhas)
    refine ⟨h', hfree, hheld.trans (if_congr ?_ rfl rfl)⟩
    refine exists_congr fun b' => and_congr_right fun hb' => and_congr_right fun _ => ?_
    exact (hi.has_iff hds hg hb').symm
  · intro pages size r h' hpages hmalloc g hg
    rcases hi.malloc hds hpages.fresh with ⟨-, hnull⟩ | ⟨-, r', h'', G', -, hmalloc', halloc⟩
    · rw [hnull] at hmalloc
      cases hmalloc
      exact hg
    · rw [hmalloc'] at hmalloc
      cases hmalloc
      exact (halloc.ext g hg).1
  · intro b hb n hn pages size hpos hlt hpages
    obtain ⟨g, hg, hblock, heq⟩ := hsize b hb
    obtain rfl : G.size g = n := some.inj (heq.symm.trans hn)
    rcases hi.realloc hds hpages.fresh hb hg hblock hpos.ne' hlt with
      hnull | ⟨r, h', G', hr, hcall, -, hsame⟩
    · exact .inl hnull
    · exact .inr ⟨r, h', hr, hcall, hsame⟩
  · intro c hc
    obtain ⟨s', G', hexec, -⟩ := hi.exec hds c hc
    rw [heapStep, if_pos hc, hexec]
    rfl

/-- Two blocks of an arena, the first of which moves to pages of its own. -/
def sampleHeapCalls : List HeapCall :=
  [.malloc (some 0xc0200000) 1000, .malloc none 600, .write 0xc020000d 7,
    .realloc (some 0xc0300000) 0xc020000c 2000]

theorem run_heap_sample :
    ∃ h, run (heapStep (descTable 0xc0050000)) (heapInit 0xc0050000 fun _ => 0)
        sampleHeapCalls = some (h, [0xc030000c, 0xc020040c]) ∧
      h.mem 0xc030000d = 7 ∧
      ∀ b ∈ [0xc030000c, 0xc020040c], ∃ n, h.blockSize (descTable 0xc0050000) b = some n ∧
        ∃ g ∈ h.held, g.pages + sizeofArena ≤ b ∧ b + n ≤ g.pages + pgSize * g.cnt := by
  have hrun : (run (heapStep (descTable 0xc0050000)) (heapInit 0xc0050000 fun _ => 0)
      sampleHeapCalls).map (fun s => (s.1.mem 0xc030000d, s.2)) =
      some (7, [0xc030000c, 0xc020040c]) := by decide +kernel
  obtain ⟨⟨h, live⟩, hr, heq⟩ := map_eq_some_iff.mp hrun
  obtain ⟨hbyte, rfl⟩ := Prod.mk.inj heq
  exact ⟨h, hr, hbyte, (run_heap (by unfold StaticArray; decide) hr).2.1⟩

/-- A result that is not null has at least `size` bytes. -/
def BigEnough (ds : List Desc) (size : ℕ) (result : Option (ℕ × KHeap)) : Prop :=
  ∀ r h, result = some (r, h) → r ≠ 0 → ∃ n, h.blockSize ds r = some n ∧ size ≤ n

theorem bigEnough_null : BigEnough ds size (some (0, h)) := by
  rintro r h' hcall hr0
  cases hcall
  exact absurd rfl hr0

theorem bigEnough_block {r n : ℕ} (hr0 : r ≠ 0) (hn : h.blockSize ds r = some n) :
    BigEnough ds size (some (r, h)) ↔ size ≤ n := by
  constructor
  · intro hbig
    obtain ⟨n', hn', hle⟩ := hbig r h rfl hr0
    rw [hn] at hn'
    cases hn'
    exact hle
  · rintro hle r' h' heq -
    cases heq
    exact ⟨n, hn, hle⟩

theorem bigPageCnt_wrap {descs : ℕ} (hsize : 2 ^ 32 - 11 ≤ size) (hlt : size < 2 ^ 32) :
    (descTable descs).find? (fun d => size ≤ d.blockSize) = none ∧ KHeap.bigPageCnt size = 1 := by
  constructor
  · rw [find?_eq_none, descTable_eq]
    intro d hd
    rw [decide_eq_true_iff, not_le]
    simp only [mem_cons, not_mem_nil, or_false] at hd
    rcases hd with rfl | rfl | rfl | rfl | rfl | rfl | rfl <;> (dsimp only; omega)
  · unfold KHeap.bigPageCnt sizeofArena pgSize
    have hmod : (size + 12) % 2 ^ 32 = size + 12 - 2 ^ 32 := by omega
    rw [hmod]
    omega

theorem le_bigPageCnt_of_ne_zero (hsize : size < 2 ^ 32 - 11) (hcnt : KHeap.bigPageCnt size ≠ 0) :
    size ≤ pgSize * KHeap.bigPageCnt size - sizeofArena := by
  by_cases hle : size < 2 ^ 32 - 2 * pgSize
  · exact le_bigPageCnt hle
  · unfold KHeap.bigPageCnt sizeofArena at *
    unfold pgSize at *
    by_cases hwrap : size + 12 + 4096 - 1 < 2 ^ 32
    · have hmod : (size + 12) % 2 ^ 32 = size + 12 := Nat.mod_eq_of_lt (by omega)
      rw [hmod, Nat.mod_eq_of_lt hwrap]
      omega
    · exfalso
      apply hcnt
      by_cases hzero : size + 12 = 2 ^ 32
      · rw [hzero]
        decide
      · have hmod : (size + 12) % 2 ^ 32 = size + 12 := Nat.mod_eq_of_lt (by omega)
        rw [hmod]
        omega

theorem Allocated.size_le_iff {r : ℕ} {h' : KHeap}
    (halloc : Allocated (descTable descs) h live G size r h' G')
    (havail : Available (descTable descs) h pages size) (hlt : size < 2 ^ 32) :
    ∃ g ∈ h'.held, r ∈ G'.blocks g ∧ (size ≤ G'.size g ↔ size < 2 ^ 32 - 11) := by
  obtain ⟨g, hg, hr, hsize⟩ := halloc.block
  refine ⟨g, hg, hr, ?_⟩
  rw [hsize]
  by_cases hle : size < 2 ^ 32 - 11
  · refine iff_of_true ?_ hle
    obtain ⟨-, havail⟩ := havail
    cases hfind : (descTable descs).find? fun d => size ≤ d.blockSize with
    | none =>
      rw [hfind] at havail
      exact le_bigPageCnt_of_ne_zero hle havail.1
    | some d =>
      have := find?_some hfind
      rwa [decide_eq_true_iff] at this
  · obtain ⟨hfind, hcnt⟩ := @bigPageCnt_wrap size descs (not_lt.mp hle) hlt
    rw [hfind]
    dsimp only
    rw [hcnt]
    have hpage : pgSize * 1 - sizeofArena = 4084 := rfl
    rw [hpage]
    exact iff_of_false (by omega) hle

/-- A result of `malloc` is big enough unless the size is within 11 bytes of the end of the
address space and there is a page; a result of `calloc` unless the product reaches that size,
its remainder is not below a factor, and there is memory for the remainder. -/
theorem bigEnough_iff {descs : ℕ} (hdescs : StaticArray descs) {m : Mem} {calls : List HeapCall}
    (hr : run (heapStep (descTable descs)) (heapInit descs m) calls = some (h, live)) :
    let ds := descTable descs
    (∀ pages size, size < 2 ^ 32 → PagesOk h.held (pagesFor ds size) pages →
      (BigEnough ds size (h.malloc ds pages size) ↔ size < 2 ^ 32 - 11 ∨ pages = none)) ∧
    ∀ pages a b, a < 2 ^ 32 → b < 2 ^ 32 →
      PagesOk h.held (pagesFor ds (a * b % 2 ^ 32)) pages →
      (BigEnough ds (a * b) (h.calloc ds pages a b) ↔
        a * b < 2 ^ 32 - 11 ∨ a * b % 2 ^ 32 < a ∨ a * b % 2 ^ 32 < b ∨
          ¬ Available ds h pages (a * b % 2 ^ 32)) := by
  intro ds
  have hds : DescsOk ds := descTable_ok hdescs
  obtain ⟨G, hi⟩ := run_inv hdescs hr
  constructor
  · intro pages size hlt hpages
    rcases hi.malloc hds hpages.fresh with ⟨hnot, hnull⟩ | ⟨havail, r, h', G', hr0, hcall, halloc⟩
    · -- with a page, a size near the end of the address space is available
      refine iff_of_true (hnull ▸ bigEnough_null) ?_
      · by_contra hno
        rw [not_or, not_lt] at hno
        obtain ⟨hfind, hcnt⟩ := @bigPageCnt_wrap size descs hno.1 hlt
        refine hnot ⟨by omega, ?_⟩
        rw [hfind]
        exact ⟨by rw [hcnt]; exact one_ne_zero, hno.2⟩
    · obtain ⟨g, hg, hr, hiff⟩ := halloc.size_le_iff havail hlt
      rw [hcall, bigEnough_block hr0 (halloc.inv.blockSize_eq hds hg hr), hiff, iff_self_or]
      rintro rfl
      by_contra hno
      obtain ⟨hfind, -⟩ := @bigPageCnt_wrap size descs (not_lt.mp hno) hlt
      have hpages' := havail.2
      rw [hfind] at hpages'
      exact hpages'.2 rfl
  · intro pages a b ha hb hpages
    generalize hprod : a * b % 2 ^ 32 = size at hpages ⊢
    have hlt : size < 2 ^ 32 := hprod ▸ Nat.mod_lt _ (by decide)
    by_cases hguard : size < a ∨ size < b
    · refine iff_of_true ?_ (by tauto)
      rw [KHeap.calloc, hprod, if_pos hguard]
      exact bigEnough_null
    rcases hi.malloc hds hpages.fresh with ⟨hnot, hnull⟩ | ⟨havail, r, h', G', hr0, hcall, halloc⟩
    · refine iff_of_true ?_ (by tauto)
      rw [KHeap.calloc, hprod, if_neg hguard, hnull]
      exact bigEnough_null
    · obtain ⟨g, hg, hr, hiff⟩ := halloc.size_le_iff havail hlt
      have hs' := halloc.inv.shape
      have hle := hs'.block_le hds hg hr
      -- the memory behind the block is filled, its header is in front of it
      have hsize : KHeap.blockSize ds r { h' with mem := h'.mem.memset r 0 size } =
          some (G'.size g) := by
        have hheader : Header (h'.mem.memset r 0 size) G' g := (halloc.inv.holds.header g hg).congr
          (fun x hx => Mem.memset_of_apart (by omega)) rfl fun _ _ => rfl
        exact hheader.blockSize_eq (h := { h' with mem := h'.mem.memset r 0 size }) hs' hds hg hr
      have hresult : h.calloc ds pages a b =
          some (r, { h' with mem := h'.mem.memset r 0 size }) := by
        rw [KHeap.calloc, hprod, if_neg hguard, hcall, map_some]
        dsimp only
        rw [if_pos hr0]
      rw [hresult, bigEnough_block hr0 hsize]
      have hrest : ¬ (size < a ∨ size < b ∨ ¬ Available ds h pages size) := by tauto
      rw [or_iff_left hrest]
      by_cases hsmall : a * b < 2 ^ 32
      · rw [Nat.mod_eq_of_lt hsmall] at hprod
        rw [hprod]
        exact hiff
      · refine iff_of_false ?_ (by omega)
        have := (hs'.ok g hg).bound
        have := (hs'.ok g hg).pages_pos
        omega

/-- A page is enough for `malloc` to return 4084 bytes for `2 ^ 32 - 1`, and 33 pages for
`calloc` to return 135156 bytes for 65537 times 65537. -/
theorem not_bigEnough :
    (∃ r h, (heapInit 0xc0050000 fun _ => 0).1.malloc (descTable 0xc0050000) (some 0xc0200000)
        (2 ^ 32 - 1) = some (r, h) ∧ r ≠ 0 ∧
        h.blockSize (descTable 0xc0050000) r = some 4084) ∧
      ∃ r h, (heapInit 0xc0050000 fun _ => 0).1.calloc (descTable 0xc0050000) (some 0xc0200000)
        65537 65537 = some (r, h) ∧ r ≠ 0 ∧
        h.blockSize (descTable 0xc0050000) r = some 135156 := by
  have hmalloc : ((heapInit 0xc0050000 fun _ => 0).1.malloc (descTable 0xc0050000)
      (some 0xc0200000) (2 ^ 32 - 1)).map
        (fun p => (decide (p.1 ≠ 0), p.2.blockSize (descTable 0xc0050000) p.1)) =
      some (true, some 4084) := by decide +kernel
  have hcalloc : ((heapInit 0xc0050000 fun _ => 0).1.calloc (descTable 0xc0050000)
      (some 0xc0200000) 65537 65537).map
        (fun p => (decide (p.1 ≠ 0), p.2.blockSize (descTable 0xc0050000) p.1)) =
      some (true, some 135156) := by decide +kernel
  obtain ⟨⟨r, h⟩, hcall, heq⟩ := map_eq_some_iff.mp hmalloc
  obtain ⟨⟨r', h'⟩, hcall', heq'⟩ := map_eq_some_iff.mp hcalloc
  obtain ⟨hr, hsize⟩ := Prod.mk.inj heq
  obtain ⟨hr', hsize'⟩ := Prod.mk.inj heq'
  exact ⟨⟨r, h, hcall, of_decide_eq_true hr, hsize⟩, r', h', hcall', of_decide_eq_true hr', hsize'⟩

/-- The condition is met by small sizes, as on the heap of the sample. -/
theorem bigEnough_iff_sample :
    ∃ h, run (heapStep (descTable 0xc0050000)) (heapInit 0xc0050000 fun _ => 0)
        sampleHeapCalls = some (h, [0xc030000c, 0xc020040c]) ∧
      BigEnough (descTable 0xc0050000) 5000
        (h.malloc (descTable 0xc0050000) (some 0xc0400000) 5000) ∧
      ¬ BigEnough (descTable 0xc0050000) (2 ^ 32 - 1)
        (h.malloc (descTable 0xc0050000) (some 0xc0400000) (2 ^ 32 - 1)) := by
  have hrun : (run (heapStep (descTable 0xc0050000)) (heapInit 0xc0050000 fun _ => 0)
      sampleHeapCalls).map (fun s => (s.1.held, s.2)) =
      some ([⟨false, 0xc0300000, 1⟩, ⟨false, 0xc0200000, 1⟩], [0xc030000c, 0xc020040c]) := by
    decide +kernel
  obtain ⟨⟨h, live⟩, hr, heq⟩ := map_eq_some_iff.mp hrun
  obtain ⟨hheld, rfl⟩ := Prod.mk.inj heq
  dsimp only at hheld
  have hiff := (bigEnough_iff (by unfold StaticArray; decide) hr).1
  refine ⟨h, hr, (hiff (some 0xc0400000) 5000 (by decide) ?_).mpr (.inl (by decide)),
    fun hbig => ?_⟩
  · rw [hheld]
    decide +kernel
  · refine absurd ((hiff (some 0xc0400000) (2 ^ 32 - 1) (by decide) ?_).mp hbig) ?_
    · rw [hheld]
      decide +kernel
    · rintro (hlt | hnone)
      · omega
      · cases hnone

end CS162.Threads
