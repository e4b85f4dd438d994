import CS162.Threads.MallocInv

/-!
# The parts of malloc and free

Each part of `malloc` and `free` from a memory that holds a ghost state: it has a result,
the memory after it holds the next ghost state, and no byte of another live block has
changed.
-/

namespace CS162.Threads

open List Option KHeap Desc Mem Function Nat
open LibKernel

variable {ds : List Desc} {held : List Grant} {live : List ℕ} {G : Ghost} {g g' : Grant}
  {d d' : Desc} {a b v x : ℕ} {m m' : Mem} {nodes nodes' : List ℕ}

/-- Another list of free blocks of a descriptor. -/
def Ghost.setFree (G : Ghost) (d : Desc) (nodes : List ℕ) : Ghost :=
  { G with free := update G.free d nodes }

@[simp] theorem Ghost.setFree_self : (G.setFree d nodes).free d = nodes :=
  update_self _ _ _

theorem Ghost.setFree_of_ne (hne : d' ≠ d) : (G.setFree d nodes).free d' = G.free d' :=
  update_of_ne hne _ _

def LiveByte (held : List Grant) (live : List ℕ) (G : Ghost) (x : ℕ) : Prop :=
  ∃ g ∈ held, ∃ b ∈ live, b ∈ G.blocks g ∧ b ≤ x ∧ x < b + G.size g

theorem Shape.nodesOf (h : Shape ds held live G) (hd : d ∈ ds) : NodesOf held G d (G.free d) :=
  h.freeIn d hd

theorem Shape.not_live (h : Shape ds held live G) (hd : d ∈ ds) (hb : b ∈ G.free d) : b ∉ live := by
  obtain ⟨g, hg, hcls, hblock⟩ := h.freeIn d hd b hb
  exact fun hlive => (h.split g hg b hblock).mp hlive d hcls hb

theorem Holds.edit (hm : Holds ds m held G) (h : Shape ds held live G) (hds : DescsOk ds)
    (hd : d ∈ ds) (hnodes : NodesOf held G d nodes)
    (hsame : Mem.Same (fun x => ¬ InElems (elems d.freeList nodes) x) m m') :
    (∀ g ∈ held, ∀ x, g.pages ≤ x ∧ x < g.pages + sizeofArena → m' x = m x) ∧
      (∀ d' ∈ ds, d' ≠ d → Linked m' d'.freeList (G.free d')) ∧
      ∀ g ∈ held, ∀ b ∈ G.blocks g, b ∉ nodes → ∀ x, b ≤ x ∧ x < b + G.size g → m' x = m x := by
  refine ⟨fun g hg x hx => hsame x fun hin => ?_, fun d' hd' hne => ?_, fun g hg b hb hnot x hx =>
    hsame x fun hin => ?_⟩
  · exact h.not_header hds hd hnodes hin hg hx
  · refine (hm.lists d' hd').congr fun x hx => hsame x fun hin => ?_
    exact h.not_inElems hds hd hd' hne.symm hnodes (h.nodesOf hd') hin hx
  · exact h.not_block hds hd hnodes hin hg hb hnot hx

/-- The free list of a descriptor and the count of one of its arenas change together. -/
theorem Holds.update (hm : Holds ds m held G) (h : Shape ds held live G) (hds : DescsOk ds)
    (hg : g ∈ held) (hcls : G.cls g.pages = some d) (hnodes : NodesOf held G d nodes)
    (hsame : Mem.Same (fun x => ¬ InElems (elems d.freeList nodes) x) m m')
    (hlinked : Linked m' d.freeList nodes) (hv : v = (G.setFree d nodes).count d g.pages)
    (hlt : v < 2 ^ 32) (hcount : ∀ g' ∈ held, g' ≠ g → G.cls g'.pages = some d →
    (G.setFree d nodes).count d g'.pages = G.count d g'.pages) :
    Holds ds (setFreeCnt m' g.pages v) held (G.setFree d nodes) ∧ ∀ g' ∈ held, ∀ b ∈ G.blocks g',
      b ∉ nodes → ∀ x, b ≤ x ∧ x < b + G.size g' → setFreeCnt m' g.pages v x = m x := by
  have hd := (h.cls g hg d hcls).1
  obtain ⟨hheader, hlists, hblocks⟩ := hm.edit h hds hd hnodes hsame
  have hword : ∀ x, ¬ (g.pages ≤ x ∧ x < g.pages + sizeofArena) →
      setFreeCnt m' g.pages v x = m' x := fun x hx =>
    setWord_of_apart (by unfold sizeofArena at hx; omega)
  refine ⟨⟨fun g' hg' => ?_, fun d' hd' => ?_⟩, fun g' hg' b hb hnot x hx => ?_⟩
  · by_cases hne : g' = g
    · subst hne
      have hold := hm.header g' hg'
      have hwords : ∀ i, i + 4 ≤ 8 →
          (setFreeCnt m' g'.pages v).word (g'.pages + i) = m.word (g'.pages + i) := fun i hi => by
        unfold setFreeCnt
        rw [word_setWord_of_apart (by omega)]
        exact word_congr fun x hx hx' => hheader g' hg' x (by unfold sizeofArena; omega)
      refine ⟨(hwords 0 (by decide)).trans hold.magic_eq,
        (hwords 4 (by decide)).trans hold.descPtr_eq, ?_⟩
      change freeCnt _ _ = (G.cls g'.pages).elim _ _
      rw [hcls, elim_some, ← hv]
      exact word_setWord m' _ hlt
    · refine (hm.header g' hg').congr (fun x hx => ?_) rfl fun d' hcls' => ?_
      · rw [hword x (h.header_not_header hg' hg hne hx), hheader g' hg' x hx]
      · by_cases hdd : d' = d
        · subst hdd
          exact hcount g' hg' hne hcls'
        · unfold Ghost.count
          rw [Ghost.setFree_of_ne hdd]
  · by_cases hdd : d' = d
    · subst hdd
      rw [Ghost.setFree_self]
      exact hlinked.congr fun x hx => hword x (h.not_header hds hd' hnodes hx hg)
    · rw [Ghost.setFree_of_ne hdd]
      refine (hlists d' hd' hdd).congr fun x hx => hword x ?_
      exact h.not_header hds hd' (h.nodesOf hd') hx hg
  · rw [hword x (h.header_not_block hds hg hg' hb hx)]
    exact hblocks g' hg' b hb hnot x hx

theorem Holds.header_edit (hm : Holds ds m held G) (h : Shape ds held live G) (hds : DescsOk ds)
    (hg : g ∈ held) (hd : d ∈ ds) (hnodes : NodesOf held G d nodes)
    (hsame : Mem.Same (fun x => ¬ InElems (elems d.freeList nodes) x) m m') : Header m' G g :=
  (hm.header g hg).congr ((hm.edit h hds hd hnodes hsame).1 g hg) rfl fun _ _ => rfl

theorem Shape.inPage_iff (h : Shape ds held live G) (hds : DescsOk ds) (hg : g ∈ held)
    (hg' : g' ∈ held) (hcls : G.cls g.pages = some d) (hb : b ∈ G.blocks g')
    : (g.pages ≤ b ∧ b < g.pages + pgSize) ↔ g' = g := by
  have hcnt := (h.cls g hg d hcls).2
  have hsize := h.size_pos hds hg'
  have hhas' := h.has_of_block hds hg' hb (x := b) (by omega)
  constructor
  · intro hin
    refine (h.eq_of_has hg hg' ?_ hhas').symm
    unfold Grant.Has
    rw [hcnt]
    omega
  · rintro rfl
    unfold Grant.Has at hhas'
    rwa [hcnt, mul_one] at hhas'

theorem Shape.count_setFree_cons (h : Shape ds held live G) (hds : DescsOk ds) (hg : g ∈ held)
    (hg' : g' ∈ held) (hcls : G.cls g'.pages = some d) (hb : b ∈ G.blocks g) (nodes : List ℕ) :
    (G.setFree d (b :: nodes)).count d g'.pages =
      (G.setFree d nodes).count d g'.pages + if g = g' then 1 else 0 := by
  unfold Ghost.count
  rw [Ghost.setFree_self, Ghost.setFree_self, countP_cons]
  simp only [decide_eq_true_eq, h.inPage_iff hds hg' hg hcls hb]

theorem Ghost.setFree_free (G : Ghost) (d : Desc) : G.setFree d (G.free d) = G := by
  unfold Ghost.setFree
  rw [update_eq_self]

theorem Shape.count_eq (h : Shape ds held live G) (hds : DescsOk ds) (hg : g ∈ held)
    (hcls : G.cls g.pages = some d) :
    G.count d g.pages = (d.blocks g.pages).countP fun b => b ∈ G.free d := by
  have hd := (h.cls g hg d hcls).1
  unfold Ghost.count
  rw [countP_eq_length_filter, countP_eq_length_filter]
  refine List.Perm.length_eq ?_
  rw [perm_ext_iff_of_nodup ((h.freeNodup d hd).filter _)
    ((nodup_blocks (hds.size d hd) _).filter _)]
  intro b
  rw [mem_filter, mem_filter, decide_eq_true_eq, decide_eq_true_eq]
  have hblocks := Ghost.blocks_eq hcls
  constructor
  · rintro ⟨hfree, hpage⟩
    obtain ⟨g', hg', -, hb⟩ := h.freeIn d hd b hfree
    rw [(h.inPage_iff hds hg hg' hcls hb).mp hpage, hblocks] at hb
    exact ⟨hb, hfree⟩
  · rintro ⟨hb, hfree⟩
    exact ⟨hfree, (h.inPage_iff hds hg hg hcls (hblocks ▸ hb)).mpr rfl⟩

theorem Shape.count_le (h : Shape ds held live G) (hds : DescsOk ds) (hg : g ∈ held)
    (hcls : G.cls g.pages = some d) : G.count d g.pages ≤ d.blocksPerArena := by
  rw [h.count_eq hds hg hcls]
  refine countP_le_length.trans ?_
  unfold blocks
  rw [length_map, length_range]

theorem DescsOk.blocksPerArena_lt (hds : DescsOk ds) (hd : d ∈ ds) : d.blocksPerArena < 4096 := by
  have hsize := hds.size d hd
  have hfits := hds.fits d hd
  have hmul : d.blocksPerArena * 16 ≤ d.blocksPerArena * d.blockSize := mul_le_mul_left _ hsize
  unfold sizeofArena pgSize at hfits
  omega

/-- A block moves from the live ones to the free list of its descriptor, or back. -/
theorem Shape.move {live' : List ℕ} (h : Shape ds held live G) (hds : DescsOk ds) (hg : g ∈ held)
    (hcls : G.cls g.pages = some d) (hb : b ∈ G.blocks g) (hlive : live'.Nodup)
    (hnodup : nodes.Nodup)
    (hother : ∀ b', b' ≠ b → (b' ∈ live' ↔ b' ∈ live) ∧ (b' ∈ nodes ↔ b' ∈ G.free d))
    (hself : b ∈ live' ↔ b ∉ nodes) : Shape ds held live' (G.setFree d nodes) := by
  refine ⟨h.apart, h.ok, h.cls, hlive, fun d' hd' => ?_, fun b' hb' => ?_,
    fun d' hd' b' hb' => ?_, fun g' hg' b' hb' => ?_⟩
  · by_cases hdd : d' = d
    · subst hdd
      rw [Ghost.setFree_self]
      exact hnodup
    · rw [Ghost.setFree_of_ne hdd]
      exact h.freeNodup d' hd'
  · by_cases hbb : b' = b
    · exact ⟨g, hg, hbb ▸ hb⟩
    · exact h.liveIn b' ((hother b' hbb).1.mp hb')
  · by_cases hdd : d' = d
    · subst hdd
      rw [Ghost.setFree_self] at hb'
      by_cases hbb : b' = b
      · exact ⟨g, hg, hcls, hbb ▸ hb⟩
      · exact h.freeIn d' hd' b' ((hother b' hbb).2.mp hb')
    · rw [Ghost.setFree_of_ne hdd] at hb'
      exact h.freeIn d' hd' b' hb'
  · change b' ∈ G.blocks g' at hb'
    change _ ↔ ∀ d', G.cls g'.pages = some d' → _
    by_cases hbb : b' = b
    · subst hbb
      obtain rfl := h.eq_of_mem hds hg hg' hb hb'
      rw [hself, hcls]
      simp only [some.injEq, forall_eq', Ghost.setFree_self]
    · rw [(hother b' hbb).1, h.split g' hg' b' hb']
      refine forall₂_congr fun d' hcls' => not_congr ?_
      by_cases hdd : d' = d
      · subst hdd
        rw [Ghost.setFree_self, (hother b' hbb).2]
      · rw [Ghost.setFree_of_ne hdd]

theorem Shape.take (h : Shape ds held live G) (hds : DescsOk ds) (hd : d ∈ ds)
    (hfree : G.free d = b :: nodes) : Shape ds held (b :: live) (G.setFree d nodes) := by
  obtain ⟨g, hg, hcls, hb⟩ := h.freeIn d hd b (hfree ▸ mem_cons_self)
  have hnodup := h.freeNodup d hd
  rw [hfree, nodup_cons] at hnodup
  have hlive : b ∉ live := h.not_live hd (hfree ▸ mem_cons_self)
  refine h.move hds hg hcls hb (nodup_cons.mpr ⟨hlive, h.liveNodup⟩) hnodup.2
    (fun b' hbb => ⟨mem_cons.trans (or_iff_right hbb), ?_⟩) (iff_of_true mem_cons_self hnodup.1)
  rw [hfree, mem_cons, or_iff_right hbb]

theorem takeBlock_eq {h : KHeap} (hs : Shape ds h.held live G) (hm : Holds ds h.mem h.held G)
    (hds : DescsOk ds) (hd : d ∈ ds) (hfree : G.free d = b :: nodes) :
    ∃ m', h.takeBlock ds d = some (b, { h with mem := m' }) ∧
      Shape ds h.held (b :: live) (G.setFree d nodes) ∧
      Holds ds m' h.held (G.setFree d nodes) ∧ Mem.Same (LiveByte h.held live G) h.mem m' := by
  obtain ⟨g, hg, hcls, hb⟩ := hs.freeIn d hd b (hfree ▸ mem_cons_self)
  obtain ⟨m1, hpop, hlinked, hsame⟩ := (hfree ▸ hm.lists d hd : Linked _ _ (b :: nodes)).popFront
  have hnodes : NodesOf h.held G d nodes := fun b' hb' =>
    hs.freeIn d hd b' (hfree ▸ mem_cons_of_mem b hb')
  have hheader := hm.header_edit hs hds hg hd hnodes hsame
  have hcount : ∀ g' ∈ h.held, G.cls g'.pages = some d →
      G.count d g'.pages = (G.setFree d nodes).count d g'.pages + if g = g' then 1 else 0 := by
    intro g' hg' hcls'
    rw [← hs.count_setFree_cons hds hg hg' hcls' hb, ← hfree, Ghost.setFree_free]
  have hcountg := hcount g hg hcls
  rw [if_pos rfl] at hcountg
  have hle := hs.count_le hds hg hcls
  have hbpa := hds.blocksPerArena_lt hd
  have hv : (freeCnt m1 g.pages + 2 ^ 32 - 1) % 2 ^ 32 = (G.setFree d nodes).count d g.pages := by
    rw [hheader.freeCnt_cls hcls]
    omega
  obtain ⟨hupdate, hblocks⟩ := hm.update hs hds hg hcls hnodes hsame hlinked hv
    (mod_lt _ (by decide)) fun g' hg' hne hcls' => by
      rw [hcount g' hg' hcls', if_neg hne.symm, add_zero]
  refine ⟨_, ?_, hs.take hds hd hfree, hupdate, ?_⟩
  · unfold takeBlock
    rw [hpop, bind_some]
    dsimp only
    rw [hheader.blockToArena_eq hs hds hg hb]
    rfl
  · rintro x ⟨g', hg', b', hlive, hb', hx⟩
    exact hblocks g' hg' b' hb' (fun hmem =>
      hs.not_live hd (hfree ▸ mem_cons_of_mem b hmem) hlive) x hx

theorem Shape.put (h : Shape ds held live G) (hds : DescsOk ds) (hg : g ∈ held)
    (hcls : G.cls g.pages = some d) (hb : b ∈ G.blocks g) (hlive : b ∈ live) :
    Shape ds held (live.erase b) (G.setFree d (b :: G.free d)) := by
  have hnot : b ∉ G.free d := (h.split g hg b hb).mp hlive d hcls
  have hnodup := nodup_cons.mpr ⟨hnot, h.freeNodup d (h.cls g hg d hcls).1⟩
  refine h.move hds hg hcls hb (h.liveNodup.erase b) hnodup (fun b' hbb => ⟨?_, ?_⟩)
    (iff_of_false h.liveNodup.not_mem_erase fun hmem => hmem mem_cons_self)
  · rw [h.liveNodup.mem_erase_iff, and_iff_right hbb]
  · exact mem_cons.trans (or_iff_right hbb)

theorem Holds.write (hm : Holds ds m held G) (h : Shape ds held live G) (hds : DescsOk ds)
    (hg : g ∈ held) (hb : b ∈ G.blocks g) (hlive : b ∈ live)
    (hsame : ∀ x, ¬ (b ≤ x ∧ x < b + G.size g) → m' x = m x) : Holds ds m' held G := by
  constructor
  · intro g' hg'
    refine (hm.header g' hg').congr (fun x hx => hsame x fun hbx => ?_) rfl fun _ _ => rfl
    exact h.header_not_block hds hg' hg hb hbx hx
  · intro d hd
    refine (hm.lists d hd).congr fun x hx => hsame x ?_
    exact h.not_block hds hd (h.nodesOf hd) hx hg hb fun hfree => h.not_live hd hfree hlive

theorem Shape.apart_elems (h : Shape ds held live G) (hds : DescsOk ds) (hg : g ∈ held)
    (hcls : G.cls g.pages = some d) (hb : b ∈ G.blocks g) (hlive : b ∈ live) :
    ∀ y ∈ elems d.freeList (G.free d), Apart b y := by
  have hd := (h.cls g hg d hcls).1
  have hbelow := hds.below d hd
  have hbase := (h.ok g hg).base
  have hle := h.block_le hds hg hb
  intro y hy
  unfold elems tailElem freeList at hy
  rcases mem_append.mp hy with hy | hy
  · rcases mem_cons.mp hy with rfl | hy
    · exact .inr (by omega)
    · obtain ⟨g', hg', -, hy'⟩ := h.freeIn d hd y hy
      have hne : b ≠ y := fun heq => (h.split g hg b hb).mp hlive d hcls (heq ▸ hy)
      have hsize := h.size_pos hds hg
      have hsize' := h.size_pos hds hg'
      have := h.blocks_apart hds hg hg' hb hy' hne
      unfold Apart
      omega
  · obtain rfl := mem_singleton.mp hy
    exact .inr (by omega)

theorem putBlock_eq {h : KHeap} (hs : Shape ds h.held live G) (hm : Holds ds h.mem h.held G)
    (hds : DescsOk ds) (hg : g ∈ h.held) (hcls : G.cls g.pages = some d) (hb : b ∈ G.blocks g)
    (hlive : b ∈ live) :
    ∃ m', h.putBlock d b g.pages = some { h with mem := m' } ∧
      Shape ds h.held (live.erase b) (G.setFree d (b :: G.free d)) ∧
      Holds ds m' h.held (G.setFree d (b :: G.free d)) ∧
      Mem.Same (LiveByte h.held (live.erase b) G) h.mem m' := by
  have hd := (hs.cls g hg d hcls).1
  have hsize := Ghost.size_eq hcls
  have hle := hs.block_le hds hg hb
  have hbound := (hs.ok g hg).bound
  have hpos := hs.size_pos hds hg
  have hpages := (hs.ok g hg).pages_pos
  -- first the block is filled
  have hfill : ∀ x, ¬ (b ≤ x ∧ x < b + G.size g) → h.mem.memset b 0xcc d.blockSize x = h.mem x :=
    fun x hx => memset_of_apart (by rw [hsize] at hx; omega)
  have hm0 := hm.write hs hds hg hb hlive hfill
  -- then it is put on the list
  obtain ⟨m1, hpush, hlinked, hsame⟩ := (hm0.lists d hd).pushFront
    (hs.apart_elems hds hg hcls hb hlive) (by omega) (by omega)
  have hnodes : NodesOf h.held G d (b :: G.free d) := fun b' hb' => by
    rcases mem_cons.mp hb' with rfl | hb'
    · exact ⟨g, hg, hcls, hb⟩
    · exact hs.freeIn d hd b' hb'
  have hheader := hm0.header_edit hs hds hg hd hnodes hsame
  have hcount : ∀ g' ∈ h.held, G.cls g'.pages = some d →
      (G.setFree d (b :: G.free d)).count d g'.pages =
        G.count d g'.pages + if g = g' then 1 else 0 := by
    intro g' hg' hcls'
    rw [hs.count_setFree_cons hds hg hg' hcls' hb, Ghost.setFree_free]
  have hcountg := hcount g hg hcls
  rw [if_pos rfl] at hcountg
  have hcle := hs.count_le hds hg hcls
  have hbpa := hds.blocksPerArena_lt hd
  have hv : (freeCnt m1 g.pages + 1) % 2 ^ 32 =
      (G.setFree d (b :: G.free d)).count d g.pages := by
    rw [hheader.freeCnt_cls hcls]
    omega
  obtain ⟨hupdate, hblocks⟩ := hm0.update hs hds hg hcls hnodes hsame hlinked hv
    (mod_lt _ (by decide)) fun g' hg' hne hcls' => by
      rw [hcount g' hg' hcls', if_neg hne.symm, add_zero]
  refine ⟨_, ?_, hs.put hds hg hcls hb hlive, hupdate, ?_⟩
  · unfold putBlock
    rw [hpush]
    rfl
  · rintro x ⟨g', hg', b', hlive', hb', hx⟩
    obtain ⟨hne, hlive'⟩ := hs.liveNodup.mem_erase_iff.mp hlive'
    have hnot : b' ∉ b :: G.free d := fun hmem => by
      rcases mem_cons.mp hmem with rfl | hmem
      · exact hne rfl
      · exact hs.not_live hd hmem hlive'
    rw [hblocks g' hg' b' hb' hnot x hx]
    exact hfill x fun hbx => hne (hs.eq_of_blocks hds hg' hg hb' hb hx hbx).2

/-- Without the blocks in the pages. -/
def Ghost.drop (G : Ghost) (g : Grant) : Ghost :=
  { G with free := fun d => (G.free d).filter (· ∉ G.blocks g) }

theorem Shape.drop (h : Shape ds held live G) (hds : DescsOk ds) (hg : g ∈ held) :
    Shape ds (held.erase g) (live.filter (· ∉ G.blocks g)) (G.drop g) := by
  have hmem : ∀ {g'}, g' ∈ held.erase g → g' ∈ held := fun hg' => mem_of_mem_erase hg'
  -- a block elsewhere is in pages that stay
  have hstay : ∀ {g' b'}, g' ∈ held → b' ∈ G.blocks g' → b' ∉ G.blocks g → g' ∈ held.erase g :=
    fun hg' hb' hnot => h.held_nodup.mem_erase_iff.mpr ⟨fun heq => hnot (heq ▸ hb'), hg'⟩
  have helse : ∀ {g' b'}, g' ∈ held.erase g → b' ∈ G.blocks g' → b' ∉ G.blocks g :=
    fun hg' hb' hb => (h.held_nodup.mem_erase_iff.mp hg').1 (h.eq_of_mem hds (hmem hg') hg hb' hb)
  refine ⟨h.apart.sublist erase_sublist, fun g' hg' => h.ok g' (hmem hg'),
    fun g' hg' => h.cls g' (hmem hg'), h.liveNodup.filter _,
    fun d hd => (h.freeNodup d hd).filter _, fun b hb => ?_, fun d hd b hb => ?_,
    fun g' hg' b hb => ?_⟩
  · obtain ⟨hlive, hnot⟩ := mem_filter.mp hb
    obtain ⟨g', hg', hb'⟩ := h.liveIn b hlive
    exact ⟨g', hstay hg' hb' (of_decide_eq_true hnot), hb'⟩
  · obtain ⟨hfree, hnot⟩ := mem_filter.mp hb
    obtain ⟨g', hg', hcls, hb'⟩ := h.freeIn d hd b hfree
    exact ⟨g', hstay hg' hb' (of_decide_eq_true hnot), hcls, hb'⟩
  · change _ ↔ ∀ d', G.cls g'.pages = some d' → b ∉ (G.free d').filter _
    have hnot := helse hg' hb
    simp only [mem_filter, decide_eq_true hnot, and_true]
    exact h.split g' (hmem hg') b hb

theorem Holds.drop (hm : Holds ds m held G) (h : Shape ds held live G) (hds : DescsOk ds)
    (hg : g ∈ held) (hlists : ∀ d ∈ ds, Linked m' d.freeList ((G.drop g).free d))
    (hheader : ∀ g' ∈ held, ∀ x, g'.pages ≤ x ∧ x < g'.pages + sizeofArena → m' x = m x) :
    Holds ds (m'.memset g.pages 0xcc (pgSize * g.cnt)) (held.erase g) (G.drop g) := by
  have hout : ∀ x, ¬ g.Has x → m'.memset g.pages 0xcc (pgSize * g.cnt) x = m' x := fun x hx =>
    memset_of_apart (by unfold Grant.Has at hx; omega)
  have hshape := h.drop hds hg
  constructor
  · intro g' hg'
    obtain ⟨hne, hg'⟩ := h.held_nodup.mem_erase_iff.mp hg'
    refine (hm.header g' hg').congr (fun x hx => ?_) rfl fun d hcls => ?_
    · have hhas' := (h.ok g' hg').has_header hx
      rw [hout x fun hhas => hne (h.eq_of_has hg' hg hhas' hhas), hheader g' hg' x hx]
    · have hd := (h.cls g' hg' d hcls).1
      change ((G.free d).filter _).countP _ = (G.free d).countP _
      rw [countP_filter]
      refine countP_congr fun b hb => ?_
      rw [Bool.and_eq_true, and_iff_left_iff_imp, decide_eq_true_iff, decide_eq_true_iff]
      intro hpage hmem
      exact hne ((h.inPage_iff hds hg' hg hcls hmem).mp hpage).symm
  · intro d hd
    refine (hlists d hd).congr fun x hx => hout x fun hhas => ?_
    rcases inElems_cases (hshape.nodesOf hd) hx with hstatic | ⟨g', hg', -, b, -, hb, hbx⟩
    · have := hds.below d hd
      have := (h.ok g hg).base
      unfold Grant.Has at hhas
      omega
    · obtain ⟨hne, hg'⟩ := h.held_nodup.mem_erase_iff.mp hg'
      have := h.size_pos hds hg'
      exact hne (h.eq_of_has hg' hg (h.has_of_block hds hg' hb (by omega)) hhas)

theorem Shape.same_memset (h : Shape ds held live G) (hds : DescsOk ds) (hg : g ∈ held) :
    Mem.Same (LiveByte (held.erase g) (live.filter (· ∉ G.blocks g)) G) m
      (m.memset g.pages 0xcc (pgSize * g.cnt)) := by
  rintro x ⟨g', hg', b, -, hb, hx⟩
  obtain ⟨hne, hg'⟩ := h.held_nodup.mem_erase_iff.mp hg'
  refine memset_of_apart ?_
  have hhas : ¬ g.Has x := fun hhas =>
    hne (h.eq_of_has hg' hg (h.has_of_block hds hg' hb hx) hhas)
  unfold Grant.Has at hhas
  omega

theorem grant_eq (hok : g.Ok) : (⟨false, g.pages, g.cnt⟩ : Grant) = g := by
  rw [← hok.kernel]

theorem freeBig_eq {h : KHeap} (hs : Shape ds h.held live G) (hm : Holds ds h.mem h.held G)
    (hds : DescsOk ds) (hg : g ∈ h.held) (hcls : G.cls g.pages = none) (hb : b ∈ G.blocks g)
    (hb0 : b ≠ 0) :
    ∃ m', h.free ds b = some ⟨m', h.held.erase g⟩ ∧ Shape ds (h.held.erase g)
      (live.filter (· ∉ G.blocks g)) (G.drop g) ∧ Holds ds m' (h.held.erase g) (G.drop g) ∧
      Mem.Same (LiveByte (h.held.erase g) (live.filter (· ∉ G.blocks g)) G) h.mem m' := by
  have hheader := hm.header g hg
  refine ⟨h.mem.memset g.pages 0xcc (pgSize * g.cnt), ?_, hs.drop hds hg, ?_, hs.same_memset hds hg⟩
  · rw [free, if_neg hb0, hheader.blockToArena_eq hs hds hg hb, bind_some,
      if_pos (hheader.descPtr_big hcls), hheader.freeCnt_big hcls, freeMultiple,
      grant_eq (hs.ok g hg), if_pos hg]
  · refine hm.drop hs hds hg (fun d hd => ?_) fun _ _ _ _ => rfl
    have hself : (G.drop g).free d = G.free d := by
      refine filter_eq_self.mpr fun b' hb' => decide_eq_true fun hmem => ?_
      obtain ⟨g', hg', hcls', hblock⟩ := hs.freeIn d hd b' hb'
      rw [hs.eq_of_mem hds hg' hg hblock hmem, hcls] at hcls'
      cases hcls'
    rw [hself]
    exact hm.lists d hd

theorem removeBlocks_eq (hs : Shape ds held live G) (hds : DescsOk ds) (hg : g ∈ held)
    (hcls : G.cls g.pages = some d) (is : List ℕ) (his : ∀ i ∈ is, i < d.blocksPerArena)
    (hnodup : is.Nodup) (hheader : Header m G g) (hlinked : Linked m d.freeList nodes)
    (hnodes : NodesOf held G d nodes)
    (hmem : ∀ i ∈ is, g.pages + sizeofArena + i * d.blockSize ∈ nodes) :
    ∃ m', removeBlocks ds g.pages is m = some m' ∧ Linked m' d.freeList (nodes.filter
      (· ∉ is.map fun i => g.pages + sizeofArena + i * d.blockSize)) ∧
      Mem.Same (fun x => ¬ InElems (elems d.freeList nodes) x) m m' := by
  have hd := (hs.cls g hg d hcls).1
  induction is generalizing m nodes with
  | nil =>
    refine ⟨m, rfl, ?_, Mem.Same.refl _ _⟩
    rw [map_nil]
    rwa [filter_eq_self.mpr fun x _ => decide_eq_true not_mem_nil]
  | cons i is ih =>
    have hi := his i mem_cons_self
    have hb := hmem i mem_cons_self
    obtain ⟨m1, hremove, hlinked1, hsame1⟩ := hlinked.erase hb
    have hheader1 : Header m1 G g := hheader.congr
      (fun x hx => hsame1 x fun hin => hs.not_header hds hd hnodes hin hg hx) rfl fun _ _ => rfl
    have hsub : ∀ y ∈ nodes.erase (g.pages + sizeofArena + i * d.blockSize), y ∈ nodes :=
      fun y hy => mem_of_mem_erase hy
    obtain ⟨hnot, hnodup⟩ := nodup_cons.mp hnodup
    obtain ⟨m', hloop, hlinked', hsame'⟩ := ih (fun j hj => his j (mem_cons_of_mem i hj))
      hnodup hheader1 hlinked1 (fun y hy => hnodes y (hsub y hy)) fun j hj => by
        refine hlinked.nodup.mem_erase_iff.mpr ⟨fun heq => hnot ?_, hmem j (mem_cons_of_mem i hj)⟩
        have hpos := hds.size d hd
        rwa [← eq_of_mul_eq_mul_right (by omega) (add_left_cancel heq)]
    refine ⟨m', ?_, ?_, ?_⟩
    · rw [removeBlocks, hheader.arenaToBlock_eq hs hds hg hcls hi, bind_some, hremove]
      exact hloop
    · rw [hlinked.nodup.erase_eq_filter, List.filter_filter] at hlinked'
      refine (congrArg (Linked m' d.freeList) (filter_congr fun y _ => ?_)).mp hlinked'
      rw [map_cons, Bool.eq_iff_iff]
      simp only [Bool.and_eq_true, decide_eq_true_eq, bne_iff_ne, mem_cons, not_or]
      exact and_comm
    · refine hsame1.trans (hsame'.mono fun x hx hin => hx ?_)
      obtain ⟨y, hy, hyx⟩ := hin
      refine ⟨y, ?_, hyx⟩
      rcases mem_append.mp hy with hy | hy
      · rcases mem_cons.mp hy with rfl | hy
        · exact mem_append_left _ mem_cons_self
        · exact mem_append_left _ (mem_cons_of_mem _ (hsub y hy))
      · exact mem_append_right _ hy

theorem dropArena_eq {h : KHeap} (hs : Shape ds h.held live G) (hm : Holds ds h.mem h.held G)
    (hds : DescsOk ds) (hg : g ∈ h.held) (hcls : G.cls g.pages = some d)
    (hall : ∀ b ∈ G.blocks g, b ∉ live) :
    ∃ m', h.dropArena ds d g.pages = some ⟨m', h.held.erase g⟩ ∧
      Shape ds (h.held.erase g) live (G.drop g) ∧ Holds ds m' (h.held.erase g) (G.drop g) ∧
      Mem.Same (LiveByte (h.held.erase g) live G) h.mem m' := by
  obtain ⟨hd, hcnt⟩ := hs.cls g hg d hcls
  have hheader := hm.header g hg
  have hblocks := Ghost.blocks_eq hcls
  have hfree : ∀ b ∈ d.blocks g.pages, b ∈ G.free d := fun b hb => by
    rw [← hblocks] at hb
    by_contra hnot
    refine hall b hb ((hs.split g hg b hb).mpr fun d' hcls' => ?_)
    rwa [some.inj (hcls'.symm.trans hcls)]
  have hcount : G.count d g.pages = d.blocksPerArena := by
    rw [hs.count_eq hds hg hcls, countP_eq_length.mpr fun b hb => decide_eq_true (hfree b hb)]
    unfold blocks
    rw [length_map, length_range]
  have hcnt' := hheader.freeCnt_cls hcls
  rw [hcount] at hcnt'
  obtain ⟨m1, hloop, hlinked, hsame⟩ := removeBlocks_eq hs hds hg hcls
    (range d.blocksPerArena) (fun i hi => mem_range.mp hi) nodup_range hheader
    (hm.lists d hd) (hs.nodesOf hd) fun i hi =>
      hfree _ (mem_blocks.mpr ⟨i, mem_range.mp hi, rfl⟩)
  obtain ⟨hheaders, hlists, hsameBlocks⟩ := hm.edit hs hds hd (hs.nodesOf hd) hsame
  have hlive : live.filter (· ∉ G.blocks g) = live :=
    filter_eq_self.mpr fun b hb => decide_eq_true fun hmem => hall b hmem hb
  have hshape := hs.drop hds hg
  have hmemset := hs.same_memset hds hg (m := m1)
  rw [hlive] at hshape hmemset
  refine ⟨m1.memset g.pages 0xcc (pgSize * g.cnt), ?_, hshape, ?_, ?_⟩
  · have hgrant : (⟨false, g.pages, 1⟩ : Grant) = g := by
      rw [← hcnt]
      exact grant_eq (hs.ok g hg)
    rw [dropArena, hcnt', if_pos le_rfl, if_pos rfl, hloop, bind_some,
      freeMultiple, hgrant, if_pos hg, hcnt]
  · refine hm.drop hs hds hg (fun d' hd' => ?_) hheaders
    by_cases hdd : d' = d
    · subst hdd
      change Linked m1 _ ((G.free d').filter (· ∉ G.blocks g))
      rw [hblocks]
      exact hlinked
    · have hself : (G.drop g).free d' = G.free d' := by
        refine filter_eq_self.mpr fun b' hb' => decide_eq_true fun hmem => ?_
        obtain ⟨g', hg', hcls', hblock⟩ := hs.freeIn d' hd' b' hb'
        rw [hs.eq_of_mem hds hg' hg hblock hmem, hcls] at hcls'
        exact hdd (some.inj hcls').symm
      rw [hself]
      exact hlists d' hd' hdd
  · refine Mem.Same.trans ?_ hmemset
    rintro x ⟨g', hg', b', hlive', hb', hx⟩
    exact hsameBlocks g' (mem_of_mem_erase hg') b' hb' (fun hmem => hs.not_live hd hmem hlive') x hx

structure Fresh (held : List Grant) (g : Grant) : Prop where
  ok : g.Ok
  apart : ∀ g' ∈ held, ∀ x, g.Has x → ¬ g'.Has x

/-- With new pages: the blocks of an arena are free. -/
def Ghost.add (G : Ghost) (a : ℕ) (c : Option Desc) : Ghost where
  cls := update G.cls a c
  free := fun d => if c = some d then G.free d ++ d.blocks a else G.free d

section Add

variable {c : Option Desc}

section

variable (hfresh : Fresh held g) (h : Shape ds held live G) (hg' : g' ∈ held)

include hfresh h hg'

theorem Fresh.cls_add : (G.add g.pages c).cls g'.pages = G.cls g'.pages := by
  refine update_of_ne (fun heq => ?_) _ _
  exact hfresh.apart g' hg' g.pages hfresh.ok.has_pages (heq ▸ (h.ok g' hg').has_pages)

theorem Fresh.blocks_add : (G.add g.pages c).blocks g' = G.blocks g' := by
  unfold Ghost.blocks
  rw [hfresh.cls_add h hg']

theorem Fresh.size_add : (G.add g.pages c).size g' = G.size g' := by
  unfold Ghost.size
  rw [hfresh.cls_add h hg']

end

@[simp] theorem Ghost.cls_add_self : (G.add a c).cls a = c :=
  update_self _ _ _

theorem Fresh.has_block (hfresh : Fresh held g) (hds : DescsOk ds)
    (hc : ∀ d, c = some d → d ∈ ds ∧ g.cnt = 1) (hb : b ∈ (G.add g.pages c).blocks g) :
    g.Has b ∧ g.pages + sizeofArena ≤ b := by
  have hpos := hfresh.ok.pos
  unfold Ghost.blocks at hb
  rw [Ghost.cls_add_self] at hb
  unfold Grant.Has
  cases c with
  | none =>
    obtain rfl := mem_singleton.mp hb
    unfold sizeofArena pgSize
    omega
  | some d =>
    obtain ⟨hd, hcnt⟩ := hc d rfl
    have hle := hds.block_le hd hb
    have hsize := hds.size d hd
    rw [hcnt]
    omega

def addLive (c : Option Desc) (a : ℕ) (live : List ℕ) : List ℕ :=
  match c with
  | none => (a + sizeofArena) :: live
  | some _ => live

theorem Shape.add (h : Shape ds held live G) (hds : DescsOk ds) (hfresh : Fresh held g)
    (hc : ∀ d, c = some d → d ∈ ds ∧ g.cnt = 1) :
    Shape ds (g :: held) (addLive c g.pages live) (G.add g.pages c) := by
  -- no block in the new pages is a block in the old ones
  have hnew : ∀ b ∈ (G.add g.pages c).blocks g, ∀ g' ∈ held, b ∉ G.blocks g' :=
    fun b hb g' hg' hb' => by
      have hsize := h.size_pos hds hg'
      exact hfresh.apart g' hg' b (hfresh.has_block hds hc hb).1
        (h.has_of_block hds hg' hb' (by omega))
  have hold : ∀ d ∈ ds, ∀ b ∈ G.free d, b ∉ (G.add g.pages c).blocks g := fun d hd b hb hmem => by
    obtain ⟨g', hg', -, hb'⟩ := h.freeIn d hd b hb
    exact hnew b hmem g' hg' hb'
  have hcls : (G.add g.pages c).blocks g = blocksOf c g.pages := by
    unfold Ghost.blocks
    rw [Ghost.cls_add_self]
  refine ⟨?_, ?_, ?_, ?_, ?_, ?_, ?_, ?_⟩
  · exact pairwise_cons.mpr ⟨hfresh.apart, h.apart⟩
  · intro g' hg'
    rcases mem_cons.mp hg' with rfl | hg'
    · exact hfresh.ok
    · exact h.ok g' hg'
  · intro g' hg' d hcls'
    rcases mem_cons.mp hg' with rfl | hg'
    · rw [Ghost.cls_add_self] at hcls'
      exact hc d hcls'
    · rw [hfresh.cls_add h hg'] at hcls'
      exact h.cls g' hg' d hcls'
  · cases c with
    | none =>
      refine nodup_cons.mpr ⟨fun hmem => ?_, h.liveNodup⟩
      obtain ⟨g', hg', hb'⟩ := h.liveIn _ hmem
      exact hnew _ (hcls ▸ mem_singleton_self _) g' hg' hb'
    | some d => exact h.liveNodup
  · intro d hd
    change (if c = some d then _ else _ : List ℕ).Nodup
    split_ifs with hcd
    · subst hcd
      refine nodup_append.mpr ⟨h.freeNodup d hd, nodup_blocks (hds.size d hd) _, ?_⟩
      rintro b hb b' hb' rfl
      exact hold d hd b hb (hcls ▸ hb')
    · exact h.freeNodup d hd
  · intro b hb
    have hcase : b ∈ live ∨ c = none ∧ b = g.pages + sizeofArena := by
      cases c with
      | none => exact (mem_cons.mp hb).symm.imp_right fun heq => ⟨rfl, heq⟩
      | some d => exact .inl hb
    rcases hcase with hb | ⟨rfl, rfl⟩
    · obtain ⟨g', hg', hb'⟩ := h.liveIn b hb
      exact ⟨g', mem_cons_of_mem g hg', (hfresh.blocks_add h hg').symm ▸ hb'⟩
    · exact ⟨g, mem_cons_self, hcls ▸ mem_singleton_self _⟩
  · intro d hd b hb
    have hcase : b ∈ G.free d ∨ c = some d ∧ b ∈ d.blocks g.pages := by
      change b ∈ (if c = some d then _ else _ : List ℕ) at hb
      split_ifs at hb with hcd
      · exact (mem_append.mp hb).imp_right fun hmem => ⟨hcd, hmem⟩
      · exact .inl hb
    rcases hcase with hb | ⟨rfl, hmem⟩
    · obtain ⟨g', hg', hcls', hb'⟩ := h.freeIn d hd b hb
      exact ⟨g', mem_cons_of_mem g hg', (hfresh.cls_add h hg').trans hcls',
        (hfresh.blocks_add h hg').symm ▸ hb'⟩
    · refine ⟨g, mem_cons_self, Ghost.cls_add_self, ?_⟩
      rw [hcls]
      exact hmem
  · intro g' hg' b hb
    rcases mem_cons.mp hg' with rfl | hg'
    · rw [Ghost.cls_add_self]
      cases c with
      | none =>
        rw [hcls] at hb
        exact iff_of_true (mem_singleton.mp hb ▸ mem_cons_self) fun d hd => by cases hd
      | some d =>
        refine iff_of_false (fun hmem => ?_) fun hall => hall d rfl ?_
        · obtain ⟨g'', hg'', hb''⟩ := h.liveIn b hmem
          exact hnew b hb g'' hg'' hb''
        · change b ∈ (if some d = some d then _ else _ : List ℕ)
          rw [if_pos rfl]
          rw [hcls] at hb
          exact mem_append_right _ hb
    · have hb' := hb
      rw [hfresh.blocks_add h hg'] at hb'
      have hlive : b ∈ addLive c g.pages live ↔ b ∈ live := by
        cases c with
        | none =>
          refine mem_cons.trans (or_iff_right fun heq => ?_)
          exact hnew b (hcls ▸ mem_singleton.mpr heq) g' hg' hb'
        | some d => rfl
      rw [hlive, hfresh.cls_add h hg', h.split g' hg' b hb']
      refine forall₂_congr fun d hcls' => not_congr ?_
      change b ∈ G.free d ↔ b ∈ (if c = some d then _ else _ : List ℕ)
      split_ifs with hcd
      · subst hcd
        refine (mem_append.trans (or_iff_left fun hmem => ?_)).symm
        exact hnew b (hcls ▸ hmem) g' hg' hb'
      · rfl

theorem Holds.add (hm : Holds ds m held G) (h : Shape ds held live G) (hds : DescsOk ds)
    (hfresh : Fresh held g) (hc : ∀ d, c = some d → d ∈ ds ∧ g.cnt = 1)
    (hheader : Header m' (G.add g.pages c) g)
    (hheaders : ∀ g' ∈ held, ∀ x, g'.pages ≤ x ∧ x < g'.pages + sizeofArena → m' x = m x)
    (hlists : ∀ d ∈ ds, Linked m' d.freeList ((G.add g.pages c).free d)) :
    Holds ds m' (g :: held) (G.add g.pages c) := by
  refine ⟨fun g' hg' => ?_, hlists⟩
  rcases mem_cons.mp hg' with rfl | hg'
  · exact hheader
  · refine (hm.header g' hg').congr (hheaders g' hg') (hfresh.cls_add h hg') fun d hcls => ?_
    change (if c = some d then _ else _ : List ℕ).countP _ = (G.free d).countP _
    split_ifs with hcd
    · subst hcd
      rw [countP_append, add_eq_left, countP_eq_zero]
      intro b hb
      rw [decide_eq_true_iff]
      intro hpage
      have hblock := hfresh.has_block (G := G) hds hc
        ((Ghost.blocks_eq Ghost.cls_add_self).symm ▸ hb)
      refine hfresh.apart g' hg' b hblock.1 ?_
      have := (h.cls g' hg' d hcls).2
      unfold Grant.Has
      rw [this]
      omega
    · rfl

end Add

theorem initArena_eq (m : Mem) (a desc cnt : ℕ) (hdesc : desc < 2 ^ 32) (hcnt : cnt < 2 ^ 32) :
    magic (initArena m a desc cnt) a = arenaMagic ∧ descPtr (initArena m a desc cnt) a = desc ∧
      freeCnt (initArena m a desc cnt) a = cnt ∧
      ∀ x, ¬ (a ≤ x ∧ x < a + sizeofArena) → initArena m a desc cnt x = m x := by
  unfold magic descPtr freeCnt initArena
  refine ⟨?_, ?_, word_setWord _ _ hcnt, fun x hx => ?_⟩
  · rw [word_setWord_of_apart (by omega), word_setWord_of_apart (by omega),
      word_setWord _ _ (by decide)]
  · rw [word_setWord_of_apart (by omega), word_setWord _ _ hdesc]
  · unfold sizeofArena at hx
    rw [setWord_of_apart (by omega), setWord_of_apart (by omega), setWord_of_apart (by omega)]

theorem mallocBig_eq {h : KHeap} (hs : Shape ds h.held live G) (hm : Holds ds h.mem h.held G)
    (hds : DescsOk ds) {size : ℕ} (hfresh : Fresh h.held ⟨false, a, bigPageCnt size⟩) :
    ∃ m', h.mallocBig (some a) size =
      (a + sizeofArena, ⟨m', ⟨false, a, bigPageCnt size⟩ :: h.held⟩) ∧
      Shape ds (⟨false, a, bigPageCnt size⟩ :: h.held) ((a + sizeofArena) :: live) (G.add a none) ∧
      Holds ds m' (⟨false, a, bigPageCnt size⟩ :: h.held) (G.add a none) ∧
      Mem.Same (LiveByte h.held live G) h.mem m' := by
  have hpos := hfresh.ok.pos
  have hlt : bigPageCnt size < 2 ^ 32 := by
    have := hfresh.ok.bound
    unfold pgSize at this
    dsimp only at this
    omega
  obtain ⟨hmagic, hptr, hcnt, hout⟩ := initArena_eq h.mem a 0 (bigPageCnt size) (by decide) hlt
  have hc : ∀ d, (none : Option Desc) = some d → d ∈ ds ∧ bigPageCnt size = 1 :=
    fun _ hd => by cases hd
  -- the bytes of the new header are in no old page and in no descriptor
  have hnew : ∀ {x}, a ≤ x ∧ x < a + sizeofArena →
      (⟨false, a, bigPageCnt size⟩ : Grant).Has x := fun hx => hfresh.ok.has_header hx
  refine ⟨initArena h.mem a 0 (bigPageCnt size), ?_, hs.add hds hfresh hc, ?_, ?_⟩
  · unfold mallocBig getMultiple
    rw [if_neg (by dsimp only at hpos; omega)]
  · refine hm.add hs hds hfresh hc ⟨hmagic, ?_, ?_⟩ (fun g' hg' x hx => ?_) fun d hd => ?_
    · rw [Ghost.cls_add_self]
      exact hptr
    · rw [Ghost.cls_add_self]
      exact hcnt
    · exact hout x fun hin => hfresh.apart g' hg' x (hnew hin) ((hs.ok g' hg').has_header hx)
    · refine (hm.lists d hd).congr fun x hx => hout x fun hin => ?_
      rcases inElems_cases (hs.nodesOf hd) hx with hstatic | ⟨g', hg', -, b, -, hb, hbx⟩
      · have := hds.below d hd
        have := hfresh.ok.base
        dsimp only at this
        omega
      · have := hs.size_pos hds hg'
        exact hfresh.apart g' hg' x (hnew hin) (hs.has_of_block hds hg' hb (by omega))
  · rintro x ⟨g', hg', b, -, hb, hx⟩
    exact hout x fun hin => hfresh.apart g' hg' x (hnew hin) (hs.has_of_block hds hg' hb hx)

theorem addBlocks_eq (hds : DescsOk ds) (hd : d ∈ ds) (ha : a ≠ 0) (is : List ℕ)
    (his : ∀ i ∈ is, i < d.blocksPerArena) (hmagic : magic m a = arenaMagic)
    (hptr : descPtr m a = d.addr) (hlinked : Linked m d.freeList nodes) (hap : (elems d.freeList
    (nodes ++ is.map fun i => a + sizeofArena + i * d.blockSize)).Pairwise Apart)
    (hbound : ∀ i ∈ is, a + sizeofArena + i * d.blockSize + 8 ≤ 2 ^ 32)
    (hheader : ∀ x, a ≤ x ∧ x < a + sizeofArena → ¬ InElems (elems d.freeList
    (nodes ++ is.map fun i => a + sizeofArena + i * d.blockSize)) x) :
    ∃ m', addBlocks ds d a is m = some m' ∧
      Linked m' d.freeList (nodes ++ is.map fun i => a + sizeofArena + i * d.blockSize) ∧
      Mem.Same (fun x => ¬ InElems (elems d.freeList
      (nodes ++ is.map fun i => a + sizeofArena + i * d.blockSize)) x) m m' := by
  induction is generalizing m nodes with
  | nil =>
    refine ⟨m, rfl, ?_, Mem.Same.refl _ _⟩
    rwa [map_nil, append_nil]
  | cons i is ih =>
    rw [map_cons] at hap hheader ⊢
    generalize hb : a + sizeofArena + i * d.blockSize = b at hap hheader ⊢
    have hi := his i mem_cons_self
    have hbb := hbound i mem_cons_self
    rw [hb] at hbb
    have hassoc : ∀ l : List ℕ, nodes ++ [b] ++ l = nodes ++ b :: l := fun l => by
      rw [append_assoc, singleton_append]
    have hapart : ∀ x ∈ elems d.freeList nodes, Apart b x := by
      rw [elems_eq_append] at hap
      obtain ⟨-, hright, hcross⟩ := pairwise_append.mp hap
      intro x hx
      rcases mem_append.mp hx with hx | hx
      · exact (hcross x hx b mem_cons_self).symm
      · exact (pairwise_cons.mp hright).1 x (mem_append_right _ hx)
    obtain ⟨m1, hpush, hlinked1, hsame1⟩ := hlinked.pushBack hapart hbb (by
      rw [← hb]
      omega)
    -- the elements so far are among those at the end
    have hsub : ∀ x, InElems (elems d.freeList (nodes ++ [b])) x →
        InElems (elems d.freeList
          (nodes ++ b :: is.map fun i => a + sizeofArena + i * d.blockSize)) x := by
      rintro x ⟨y, hy, hyx⟩
      refine ⟨y, ?_, hyx⟩
      simp only [elems, cons_append, mem_cons, mem_append, not_mem_nil, or_false] at hy ⊢
      tauto
    have hword : ∀ k, k + 4 ≤ sizeofArena → m1.word (a + k) = m.word (a + k) := fun k hk =>
      word_congr fun x hx hx' => hsame1 x fun hin => hheader x (by omega) (hsub x hin)
    obtain ⟨m', hloop, hlinked', hsame'⟩ := ih (fun j hj => his j (mem_cons_of_mem i hj))
      ((hword 0 (by decide)).trans hmagic) ((hword 4 (by decide)).trans hptr) hlinked1
      (by rwa [hassoc]) (fun j hj => hbound j (mem_cons_of_mem i hj)) (by rwa [hassoc])
    rw [hassoc] at hlinked' hsame'
    refine ⟨m', ?_, hlinked', ?_⟩
    · rw [addBlocks, arenaToBlock, if_pos ⟨ha, hmagic⟩, hptr, findDesc_eq hds hd,
        bind_some, if_pos hi, hb, bind_some, hpush]
      exact hloop
    · exact (hsame1.mono fun x hx hin => hx (hsub x hin)).trans hsame'

theorem DescsOk.apart_blocks (hds : DescsOk ds) (hd : d ∈ ds) (ha : heapBase ≤ a) :
    (elems d.freeList (d.blocks a)).Pairwise Apart := by
  have hbelow := hds.below d hd
  have hblock : ∀ b ∈ d.blocks a, a + sizeofArena ≤ b := fun b hb => (hds.block_le hd hb).1
  unfold elems
  rw [cons_append, pairwise_cons, pairwise_append]
  refine ⟨fun b hb => ?_, ?_, pairwise_singleton _ _, fun b hb b' hb' => ?_⟩
  · rcases mem_append.mp hb with hb | hb
    · have := hblock b hb
      exact .inl (by unfold freeList; omega)
    · obtain rfl := mem_singleton.mp hb
      exact .inl le_rfl
  · have hsize := hds.size d hd
    refine (nodup_blocks hsize a).imp_of_mem fun {b b'} hb hb' hne => ?_
    by_contra hover
    unfold Apart at hover
    rcases le_total b b' with hle | hle
    · exact hne (eq_of_blocks hb hb' (x := b') (by omega) (by omega))
    · exact hne (eq_of_blocks hb hb' (x := b) (by omega) (by omega))
  · obtain rfl := mem_singleton.mp hb'
    have := hblock b hb
    exact .inr (by unfold tailElem freeList; omega)

theorem refill_eq {h : KHeap} (hs : Shape ds h.held live G) (hm : Holds ds h.mem h.held G)
    (hds : DescsOk ds) (hd : d ∈ ds) (hfree : G.free d = []) (hfresh : Fresh h.held ⟨false, a, 1⟩) :
    ∃ m', h.refill ds d (some a) = some (some ⟨m', ⟨false, a, 1⟩ :: h.held⟩) ∧
      Shape ds (⟨false, a, 1⟩ :: h.held) live (G.add a (some d)) ∧
      Holds ds m' (⟨false, a, 1⟩ :: h.held) (G.add a (some d)) ∧
      Mem.Same (LiveByte h.held live G) h.mem m' := by
  have hbase : heapBase ≤ a := hfresh.ok.base
  have hbound : a + pgSize * 1 ≤ 2 ^ 32 := hfresh.ok.bound
  rw [mul_one] at hbound
  have hbelow := hds.below d hd
  have hbpa := hds.blocksPerArena_lt hd
  have hpos : a ≠ 0 := hfresh.ok.pages_pos.ne'
  have hc : ∀ d', some d = some d' → d' ∈ ds ∧ 1 = 1 := fun d' heq =>
    ⟨some.inj heq ▸ hd, rfl⟩
  have hlist := hm.lists d hd
  rw [hfree] at hlist
  obtain ⟨hmagic, hptr, hcnt, hout⟩ := initArena_eq h.mem a d.addr d.blocksPerArena
    (by
      have : heapBase ≤ 2 ^ 32 := by decide
      omega) (by omega)
  have hpage : ∀ {x}, a ≤ x ∧ x < a + pgSize → (⟨false, a, 1⟩ : Grant).Has x := fun hx => by
    unfold Grant.Has
    dsimp only
    omega
  have hheaderPage : ∀ {x}, a ≤ x ∧ x < a + sizeofArena → a ≤ x ∧ x < a + pgSize := fun hx => by
    unfold sizeofArena at hx
    unfold pgSize
    omega
  -- the new list is in the descriptor and behind the header of the new page
  have hwhere : ∀ {x}, InElems (elems d.freeList (d.blocks a)) x →
      (d.addr + 8 ≤ x ∧ x < d.addr + 24) ∨ (a + sizeofArena ≤ x ∧ x < a + pgSize) := by
    intro x hx
    obtain ⟨y, hy, hyx⟩ := hx
    have hsize := hds.size d hd
    unfold elems tailElem freeList at hy
    rcases mem_append.mp hy with hy | hy
    · rcases mem_cons.mp hy with rfl | hy
      · exact .inl (by omega)
      · have := hds.block_le hd hy
        exact .inr (by omega)
    · obtain rfl := mem_singleton.mp hy
      exact .inl (by omega)
  have hlist1 : Linked (initArena h.mem a d.addr d.blocksPerArena) d.freeList [] := by
    refine hlist.congr fun x hx => hout x fun hin => ?_
    have hnone : NodesOf h.held G d [] := fun _ hb => absurd hb not_mem_nil
    rcases inElems_cases hnone hx with hstatic | ⟨g', hg', -, b, hb, -⟩
    · omega
    · exact absurd hb not_mem_nil
  obtain ⟨m', hloop, hlinked, hsame⟩ := addBlocks_eq hds hd hpos (range d.blocksPerArena)
    (fun i hi => mem_range.mp hi) hmagic hptr hlist1 (hds.apart_blocks hd hbase)
    (fun i hi => by
      have := hds.block_le hd (mem_blocks.mpr ⟨i, mem_range.mp hi, rfl⟩ : _ ∈ d.blocks a)
      have := hds.size d hd
      omega)
    (fun x hx hin => by
      rcases hwhere hin with hin | hin <;> omega)
  change Linked m' d.freeList (d.blocks a) at hlinked
  -- bytes outside the page and the descriptor have not changed
  have hkeep : ∀ x, ¬ (a ≤ x ∧ x < a + pgSize) → ¬ (d.addr + 8 ≤ x ∧ x < d.addr + 24) →
      m' x = h.mem x := fun x hpage hdesc => by
    refine (hsame x fun hin => ?_).trans (hout x fun hin => hpage (hheaderPage hin))
    rcases hwhere hin with hin | hin
    · exact hdesc hin
    · exact hpage (by omega)
  have hheader : ∀ k, k + 4 ≤ sizeofArena →
      m'.word (a + k) = (initArena h.mem a d.addr d.blocksPerArena).word (a + k) := fun k hk =>
    word_congr fun x hx hx' => hsame x fun hin => by
      rcases hwhere hin with hin | hin <;> omega
  refine ⟨m', ?_, hs.add hds hfresh hc, ?_, ?_⟩
  · have hempty : listEmpty d.freeList h.mem := hlist.listEmpty_iff.mpr rfl
    rw [refill, if_pos hempty]
    unfold getMultiple
    rw [if_neg one_ne_zero]
    dsimp only
    rw [hloop]
    rfl
  · refine hm.add hs hds hfresh hc ⟨(hheader 0 (by decide)).trans hmagic, ?_, ?_⟩
      (fun g' hg' x hx => ?_) fun d' hd' => ?_
    · rw [Ghost.cls_add_self]
      exact (hheader 4 (by decide)).trans hptr
    · rw [Ghost.cls_add_self]
      refine ((hheader 8 (by decide)).trans hcnt).trans ?_
      change _ = (if some d = some d then _ else _ : List ℕ).countP _
      rw [if_pos rfl, hfree, nil_append, countP_eq_length.mpr, blocks, length_map, length_range]
      intro b hb
      change b ∈ d.blocks a at hb
      have := hds.block_le hd hb
      have := hds.size d hd
      exact decide_eq_true (by dsimp only; omega)
    · have hhas := (hs.ok g' hg').has_header hx
      refine hkeep x (fun hin => hfresh.apart g' hg' x (hpage hin) hhas) fun hin => ?_
      have := (hs.ok g' hg').base
      omega
    · change Linked m' d'.freeList (if some d = some d' then _ else _)
      by_cases hdd : d = d'
      · subst hdd
        rw [if_pos rfl, hfree, nil_append]
        exact hlinked
      · rw [if_neg fun heq => hdd (some.inj heq)]
        refine (hm.lists d' hd').congr fun x hx => ?_
        rcases inElems_cases (hs.nodesOf hd') hx with hstatic | ⟨g', hg', -, b, -, hb, hbx⟩
        · have := hds.below d' hd'
          refine hkeep x (by omega) fun hin => hdd ?_
          exact hds.eq_of_addr hd hd' (x := x) (by omega) (by omega)
        · have hsize := hs.size_pos hds hg'
          have hhas := hs.has_of_block hds hg' hb (x := x) (by omega)
          refine hkeep x (fun hin => hfresh.apart g' hg' x (hpage hin) hhas) fun hin => ?_
          have := (hs.ok g' hg').base
          have := hs.block_le hds hg' hb
          omega
  · rintro x ⟨g', hg', b, -, hb, hx⟩
    have hhas := hs.has_of_block hds hg' hb hx
    refine hkeep x (fun hin => hfresh.apart g' hg' x (hpage hin) hhas) fun hin => ?_
    have := (hs.ok g' hg').base
    have := hs.block_le hds hg' hb
    omega

end CS162.Threads
