import CS162.Userprog.Load

/-!
# Loading any file is safe

Whatever the file holds, however the reads and the allocations fail, `load` returns: no
assertion fails and no size of an accepted segment wraps around.  What is mapped is recorded
with each page mapped once.
-/

namespace CS162.Userprog

open Threads Option List Bool

namespace Loading

variable {k : Globals} {boot : Pages} {pd n upage a length : ℕ} {s s' s'' : Loader}
  {file : List UInt8} {ph : Phdr} {checked : Bool}

theorem add32_eq {b : ℕ} (h : a + b < 2 ^ 32) (checked : Bool) :
    add32 checked a b = some (a + b) := by
  rw [add32, if_neg (by omega), Nat.mod_eq_of_lt h]

theorem sub32_eq {b : ℕ} (h : b ≤ a) (ha : a < 2 ^ 32) (checked : Bool) :
    sub32 checked a b = some (a - b) := by
  rw [sub32, if_neg (by omega)]
  congr 1
  omega

theorem u32_lt (bytes : List UInt8) (off : ℕ) : u32 bytes off < 2 ^ 32 := by
  unfold u32 Block.u32
  have h0 := ((Block.ofList bytes).byte off).toNat_lt
  have h1 := ((Block.ofList bytes).byte (off + 1)).toNat_lt
  have h2 := ((Block.ofList bytes).byte (off + 2)).toNat_lt
  have h3 := ((Block.ofList bytes).byte (off + 3)).toNat_lt
  omega

/-- What `validate_segment` ensures. -/
structure Phdr.Accepted (ph : Phdr) (length : ℕ) : Prop where
  offset : ph.offset % pgSize = ph.vaddr % pgSize
  inside : ph.offset ≤ length
  filesz : ph.filesz ≤ ph.memsz
  memsz : 0 < ph.memsz
  end_lt : ph.vaddr + ph.memsz < loaderPhysBase
  vaddr : pgSize ≤ ph.vaddr

theorem validateSegment.accepted (h : validateSegment ph length) (hvaddr : ph.vaddr < 2 ^ 32)
    (hmemsz : ph.memsz < 2 ^ 32) : ph.Accepted length := by
  obtain ⟨hoffset, hinside, hfilesz, hne, -, hend, hwrap, hpage⟩ := h
  refine ⟨hoffset, hinside, hfilesz, Nat.pos_of_ne_zero hne, ?_, hpage⟩
  unfold isUserVaddr at hend
  omega

def Phdr.total (ph : Phdr) : ℕ :=
  (ph.vaddr % pgSize + ph.memsz + (pgSize - 1)) / pgSize * pgSize

def Phdr.read (ph : Phdr) : ℕ :=
  if 0 < ph.filesz then ph.vaddr % pgSize + ph.filesz else 0

theorem Phdr.Accepted.bounds (h : ph.Accepted length) :
    ph.read ≤ ph.total ∧ ph.total % pgSize = 0 ∧
      ph.vaddr / pgSize * pgSize + ph.total ≤ loaderPhysBase := by
  obtain ⟨-, -, hfilesz, hmemsz, hend, -⟩ := h
  unfold Phdr.read Phdr.total
  unfold loaderPhysBase pgSize at *
  split_ifs <;> omega

theorem Phdr.Accepted.segmentBytes_eq (h : ph.Accepted length) (checked : Bool) :
    segmentBytes checked ph = some (ph.read, ph.total - ph.read) := by
  obtain ⟨hread, -, hend⟩ := h.bounds
  obtain ⟨-, -, hfilesz, hmemsz, hlt, hvaddr⟩ := h
  have htotal : (add32 checked (ph.vaddr % pgSize) ph.memsz).bind (roundUp checked) =
      some ph.total := by
    unfold loaderPhysBase pgSize at *
    rw [add32_eq (by omega), bind_some, roundUp]
    unfold pgSize
    rw [add32_eq (by omega), bind_some, sub32_eq (by omega) (by omega)]
    rfl
  unfold segmentBytes
  rw [htotal]
  unfold Phdr.read at *
  by_cases hpos : 0 < ph.filesz
  · rw [if_pos hpos] at hread ⊢
    unfold loaderPhysBase at *
    rw [if_pos hpos, add32_eq (by omega), bind_some, bind_some, sub32_eq hread (by omega)]
    rfl
  · rw [if_neg hpos, if_neg hpos]
    rfl

theorem inPage_add_pgOfs (a va : ℕ) : InPage a (a + pgOfs va) :=
  ⟨Nat.le_add_right _ _, Nat.add_lt_add_left (Nat.mod_lt _ (by decide)) a⟩

/-- The directory maps what has been installed, user pages other than page 0. -/
structure LoadInv (k : Globals) (boot : Pages) (pd : ℕ) (s : Loader) : Prop where
  dir : ∃ T, DirInv k boot pd ⟨s.pages, s.installed.map Prod.snd, s.installed⟩ T
  supply : s.pages.Supply k
  user : ∀ q ∈ s.installed, 1 ≤ q.1 ∧ q.1 < 1024 * userTables

def UserByte (s : Loader) (va : ℕ) (byte : UInt8) : Prop :=
  ∃ a, mapOf s.installed (pgNo va) = some a ∧ s.pages.mem (a + pgOfs va) = byte

/-- What is mapped stays mapped, with the same contents. -/
def Grows (s s' : Loader) : Prop :=
  ∀ n a, mapOf s.installed n = some a →
    mapOf s'.installed n = some a ∧ ∀ x, InPage a x → s'.pages.mem x = s.pages.mem x

theorem Grows.refl (s : Loader) : Grows s s :=
  fun _ _ h => ⟨h, fun _ _ => rfl⟩

theorem Grows.trans (h : Grows s s') (h' : Grows s' s'') : Grows s s'' := fun n a hn =>
  ⟨(h' n a (h n a hn).1).1, fun x hx =>
    ((h' n a (h n a hn).1).2 x hx).trans ((h n a hn).2 x hx)⟩

theorem UserByte.grows {va : ℕ} {byte : UInt8} (hb : UserByte s va byte) (h : Grows s s') :
    UserByte s' va byte := by
  obtain ⟨a, hmap, hbyte⟩ := hb
  refine ⟨a, (h _ a hmap).1, ?_⟩
  rw [← hbyte]
  exact (h _ a hmap).2 _ (inPage_add_pgOfs a va)

theorem LoadInv.atPos (h : LoadInv k boot pd s) (pos : ℕ) (limits : List (Option ℕ)) :
    LoadInv k boot pd { s with pos, limits } ∧ Grows s { s with pos, limits } :=
  ⟨⟨h.dir, h.supply, h.user⟩, fun _ _ hn => ⟨hn, fun _ _ => rfl⟩⟩

theorem LoadInv.reading (h : LoadInv k boot pd s) (file : List UInt8) (size : ℕ) :
    LoadInv k boot pd (afterRead file size s) ∧ Grows s (afterRead file size s) :=
  h.atPos _ _

/-- A loader that has a page which is not mapped. -/
structure Filling (k : Globals) (boot : Pages) (pd kpage : ℕ) (s : Loader) : Prop where
  dir : ∃ T, DirInv k boot pd ⟨s.pages, kpage :: s.installed.map Prod.snd, s.installed⟩ T
  supply : s.pages.Supply k
  user : ∀ q ∈ s.installed, 1 ≤ q.1 ∧ q.1 < 1024 * userTables

variable {kpage : ℕ}

theorem mem_frames_of_mapOf {maps : List (ℕ × ℕ)} (h : mapOf maps n = some a) :
    a ∈ maps.map Prod.snd := by
  induction maps with
  | nil => cases h
  | cons q maps ih =>
    obtain ⟨n', a'⟩ := q
    rw [mapOf_cons] at h
    rcases Slots.of_update_some h with ⟨-, rfl⟩ | ⟨-, h⟩
    · exact mem_cons_self
    · exact mem_cons_of_mem _ (ih h)

theorem LoadInv.filling {flags : Flags} {p : Pages} (h : LoadInv k boot pd s)
    (hgrant : s.pages.Granted k flags kpage p) :
    Filling k boot pd kpage { s with pages := p } ∧ Grows s { s with pages := p } := by
  obtain ⟨T, hdir⟩ := h.dir
  refine ⟨⟨⟨T, hdir.grant hgrant⟩, hgrant.supply, h.user⟩, fun n a hn => ⟨hn, fun x hx => ?_⟩⟩
  refine hgrant.same x fun hin => ?_
  have hframe := hdir.frame a (mem_frames_of_mapOf hn)
  have := hgrant.fresh.1.apart hframe.2.2.2.2.1 fun heq => hgrant.fresh.2.2 (heq ▸ hframe.1)
  unfold InPage at hx hin
  omega

namespace Filling

theorem apart (h : Filling k boot pd kpage s) {n a x : ℕ} (hn : mapOf s.installed n = some a)
    (hx : InPage a x) : ¬ InPage kpage x := by
  obtain ⟨T, hdir⟩ := h.dir
  have hmem := mem_frames_of_mapOf hn
  have hne : kpage ≠ a := fun heq => (nodup_cons.mp hdir.frames).1 (heq ▸ hmem)
  have hpage := (hdir.frame kpage mem_cons_self).2.2.2.2.1
  have := hpage.apart (hdir.frame a (mem_cons_of_mem _ hmem)).2.2.2.2.1 hne
  intro hin
  unfold InPage at hx hin
  omega

theorem write (h : Filling k boot pd kpage s) {m : Mem}
    (hm : ∀ x, ¬ InPage kpage x → m x = s.pages.mem x) :
    Filling k boot pd kpage { s with pages := { s.pages with mem := m } } ∧
      Grows s { s with pages := { s.pages with mem := m } } := by
  obtain ⟨T, hdir⟩ := h.dir
  exact ⟨⟨⟨T, hdir.write mem_cons_self hm⟩, ⟨h.supply.nodup, h.supply.fresh⟩, h.user⟩,
    fun n a hn => ⟨hn, fun x hx => hm x (h.apart hn hx)⟩⟩

theorem giveUp (h : Filling k boot pd kpage s) :
    ∃ s', giveUp kpage s = some (false, s') ∧ LoadInv k boot pd s' ∧ Grows s s' := by
  obtain ⟨T, hdir⟩ := h.dir
  obtain ⟨hput, hdir'⟩ := hdir.put mem_cons_self (nodup_cons.mp hdir.frames).1
  rw [erase_cons_head] at hdir'
  refine ⟨{ s with pages := Pages.freeAll [kpage] s.pages }, ?_,
    ⟨⟨T, hdir'⟩, h.supply.freePage kpage, h.user⟩, fun n a hn => ⟨hn, fun x hx => ?_⟩⟩
  · rw [Loading.giveUp, hput]
    rfl
  · refine Pages.mem_freeAll fun b hb => ?_
    rw [mem_singleton.mp hb]
    exact h.apart hn hx

theorem installOrFree (h : Filling k boot pd kpage s) (hboot : Booted k boot)
    (haligned : pgOfs upage = 0) (hpos : pgSize ≤ upage) (huser : isUserVaddr upage)
    (writable : Bool) :
    ∃ ok s', installOrFree k pd upage kpage writable s = some (ok, s') ∧ LoadInv k boot pd s' ∧
      Grows s s' ∧ (ok → s'.pos = s.pos ∧ mapOf s.installed (pgNo upage) = none ∧
        s'.installed = (pgNo upage, kpage) :: s.installed ∧
        ∀ x, InPage kpage x → s'.pages.mem x = s.pages.mem x) := by
  obtain ⟨T, hdir⟩ := h.dir
  have hget := Maps.getPage_eq (s := s.pages) hdir.maps huser
  unfold Loading.installOrFree installPage
  rw [hget, bind_some, translate, haligned]
  cases hmap : mapOf s.installed (pgNo upage) with
  | some a =>
    have hpage := (hdir.frame a (mem_cons_of_mem _ (mem_frames_of_mapOf hmap))).2.2.2.2.1
    have hne : a + 0 ≠ 0 := by
      have := hpage.kernel
      unfold loaderPhysBase at this
      omega
    obtain ⟨s', hfree, hs', hgrows⟩ := h.giveUp
    rw [elim_some, if_neg hne, bind_some]
    exact ⟨false, s', hfree, hs', hgrows, fun hok => absurd hok false_ne_true⟩
  | none =>
    rw [elim_none, if_pos rfl]
    obtain ⟨ok, p, T', hset, hsupply, hdir', hsame⟩ := hdir.setPage hboot h.supply haligned huser
      hmap mem_cons_self (nodup_cons.mp hdir.frames).1 writable
    rw [hset, map_some]
    cases ok with
    | false =>
      have hfill : Filling k boot pd kpage { s with pages := p } :=
        ⟨⟨T', hdir'⟩, hsupply, h.user⟩
      obtain ⟨s', hfree, hs', hgrows⟩ := hfill.giveUp
      have hgrows0 : Grows s { s with pages := p } := fun n a hn =>
        ⟨hn, hsame a (mem_cons_of_mem _ (mem_frames_of_mapOf hn))⟩
      exact ⟨false, s', hfree, hs', hgrows0.trans hgrows, fun hok => absurd hok false_ne_true⟩
    | true =>
      refine ⟨true, _, rfl, ⟨⟨T', hdir'⟩, hsupply, forall_mem_cons.mpr ⟨?_, h.user⟩⟩,
        fun n a hn => ⟨?_, fun x hx => ?_⟩, fun _ => ⟨rfl, rfl, rfl, hsame kpage mem_cons_self⟩⟩
      · have := isUserVaddr.pgNo_lt huser
        refine ⟨?_, this⟩
        unfold pgNo
        unfold pgSize at *
        omega
      · rw [mapOf_cons, Function.update_of_ne]
        · exact hn
        · rintro rfl
          rw [hmap] at hn
          cases hn
      · exact hsame a (mem_cons_of_mem _ (mem_frames_of_mapOf hn)) x hx

end Filling

theorem getElem_readBytes {size i : ℕ} (hi : i < (readBytes file size s).length) :
    (readBytes file size s)[i] = file.getD (s.pos + i) 0 ∧ s.pos + i < file.length := by
  have hlt : s.pos + i < file.length := by
    unfold readBytes at hi
    rw [length_take, length_drop] at hi
    omega
  refine ⟨?_, hlt⟩
  simp only [readBytes]
  rw [getElem_take, getElem_drop, getD_eq_getElem?_getD, getElem?_eq_getElem hlt]
  rfl

/-- The bytes of a stretch of user memory: those of the file from `pos` on, then zeros. -/
def Filled (file : List UInt8) (pos upage read total : ℕ) (s : Loader) : Prop :=
  (∀ i < read, pos + i < file.length ∧ UserByte s (upage + i) (file.getD (pos + i) 0)) ∧
    ∀ i, read ≤ i → i < total → UserByte s (upage + i) 0

theorem Filled.grows {pos read total : ℕ} (h : Filled file pos upage read total s)
    (hgrows : Grows s s') : Filled file pos upage read total s' :=
  ⟨fun i hi => ⟨(h.1 i hi).1, (h.1 i hi).2.grows hgrows⟩,
    fun i hi hi' => (h.2 i hi hi').grows hgrows⟩

theorem LoadInv.loadPage (h : LoadInv k boot pd s) (hboot : Booted k boot)
    (haligned : pgOfs upage = 0) (hpos : pgSize ≤ upage) (huser : isUserVaddr upage)
    {read : ℕ} (hread : read ≤ pgSize) (writable : Bool) :
    ∃ ok s', loadPage k file pd upage read (pgSize - read) writable s = some (ok, s') ∧
      LoadInv k boot pd s' ∧ Grows s s' ∧
      (ok → s'.pos = s.pos + read ∧ Filled file s.pos upage read pgSize s' ∧
        ∃ a, s'.installed = (pgNo upage, a) :: s.installed) := by
  unfold Loading.loadPage
  rcases h.supply.getPage { user := true } with
    ⟨kpage, p, hget, hgrant⟩ | ⟨hfalse, -⟩ | ⟨answers, -, hget, hsupply⟩
  · rw [hget, bind_some]
    dsimp only
    obtain ⟨hfill, hgrows⟩ := h.filling hgrant
    -- the page with the bytes that have been read
    have hstore : ∀ x, ¬ InPage kpage x →
        p.mem.store kpage (readBytes file read { s with pages := p }) x = p.mem x := by
      intro x hx
      have hlen : (readBytes file read { s with pages := p }).length ≤ read := by
        unfold readBytes
        rw [length_take]
        omega
      unfold InPage at hx
      exact Mem.store_of_apart (by omega)
    generalize hbytes : readBytes file read { s with pages := p } = bytes at hstore
    have hbytes' : ∀ m, readBytes file read { s with pages := { p with mem := m } } = bytes :=
      fun m => hbytes
    obtain ⟨hfill1, hgrows1⟩ := hfill.write hstore
    have hfill2 : Filling k boot pd kpage
        (afterRead file read { s with pages := { p with mem := p.mem.store kpage bytes } }) :=
      ⟨hfill1.dir, hfill1.supply, hfill1.user⟩
    have hgrows2 : Grows s
        (afterRead file read { s with pages := { p with mem := p.mem.store kpage bytes } }) :=
      hgrows.trans hgrows1
    by_cases hlen : bytes.length = read
    · rw [if_neg (not_not.mpr hlen)]
      obtain ⟨hfill3, hgrows3⟩ := hfill2.write
        (m := (p.mem.store kpage bytes).memset (kpage + read) 0 (pgSize - read)) fun x hx => by
          unfold InPage at hx
          exact Mem.memset_of_apart (by omega)
      obtain ⟨ok, s', hinstall, hs', hgrows', hok⟩ :=
        hfill3.installOrFree hboot haligned hpos huser writable
      refine ⟨ok, s', hinstall, hs', hgrows2.trans (hgrows3.trans hgrows'), fun hokk => ?_⟩
      obtain ⟨hpos', -, hinstalled, hsame⟩ := hok hokk
      have hmap : mapOf s'.installed (pgNo upage) = some kpage := by
        rw [hinstalled, mapOf_cons, Function.update_self]
      have hno : ∀ i < pgSize, pgNo (upage + i) = pgNo upage ∧ pgOfs (upage + i) = i := by
        intro i hi
        unfold pgOfs at haligned
        unfold pgNo pgOfs
        unfold pgSize at *
        omega
      have hbyte : ∀ i < pgSize, UserByte s' (upage + i)
          ((p.mem.store kpage bytes).memset (kpage + read) 0 (pgSize - read) (kpage + i)) := by
        intro i hi
        obtain ⟨hno, hofs⟩ := hno i hi
        refine ⟨kpage, by rw [hno]; exact hmap, ?_⟩
        rw [hofs]
        exact hsame _ ⟨Nat.le_add_right _ _, by omega⟩
      refine ⟨?_, ⟨fun i hi => ?_, fun i hi hi' => ?_⟩, kpage, hinstalled⟩
      · rw [hpos']
        change s.pos + (readBytes file read { s with pages := { p with mem := _ } }).length = _
        rw [hbytes', hlen]
      · have hi' : i < bytes.length := hlen ▸ hi
        have hval := hbyte i (by omega)
        rw [Mem.memset_of_apart (by omega), Mem.store_of_mem hi'] at hval
        subst hbytes
        obtain ⟨hget', hlt⟩ := getElem_readBytes hi'
        rw [hget'] at hval
        exact ⟨hlt, hval⟩
      · have hval := hbyte i hi'
        rwa [Mem.memset_of_mem (by omega)] at hval
    · rw [if_pos hlen]
      obtain ⟨s', hfree, hs', hgrows'⟩ := hfill2.giveUp
      exact ⟨false, s', hfree, hs', hgrows2.trans hgrows', fun hok => absurd hok false_ne_true⟩
  · cases hfalse
  · rw [hget, bind_some]
    obtain ⟨T, hdir⟩ := h.dir
    exact ⟨false, _, rfl, ⟨⟨T, hdir.answers answers⟩, hsupply, h.user⟩,
      fun n a hn => ⟨hn, fun _ _ => rfl⟩, fun hok => absurd hok false_ne_true⟩

theorem LoadInv.loadLoop (file : List UInt8) (hboot : Booted k boot) (writable : Bool)
    {fuel read zeros : ℕ} (hfuel : read + zeros < pgSize * fuel) (h : LoadInv k boot pd s)
    (hmul : (read + zeros) % pgSize = 0) (haligned : pgOfs upage = 0) (hpos : pgSize ≤ upage)
    (hend : upage + (read + zeros) ≤ loaderPhysBase) :
    ∃ ok s', (∀ checked, loadLoop k checked file pd writable fuel upage read zeros s =
        some (ok, s')) ∧ LoadInv k boot pd s' ∧ Grows s s' ∧
      (ok → Filled file s.pos upage read (read + zeros) s' ∧ ∀ q ∈ s'.installed,
        q ∈ s.installed ∨ upage ≤ pgSize * q.1 ∧ pgSize * q.1 < upage + (read + zeros)) := by
  induction fuel generalizing upage read zeros s with
  | zero => omega
  | succ fuel ih =>
    by_cases hmore : 0 < read ∨ 0 < zeros
    · generalize hpr : (if read < pgSize then read else pgSize) = pageRead
      have hle : pageRead ≤ pgSize ∧ pageRead ≤ read ∧ pgSize - pageRead ≤ zeros ∧
          (read - pageRead + (zeros - (pgSize - pageRead))) + pgSize = read + zeros ∧
          (pageRead < read → pageRead = pgSize) := by
        rw [← hpr]
        unfold pgSize at *
        split_ifs <;> omega
      obtain ⟨hle1, hle2, hle3, hsum, hfull⟩ := hle
      have huser : isUserVaddr upage := by
        unfold isUserVaddr
        omega
      obtain ⟨ok, s1, hpage, hs1, hgrows1, hok1⟩ :=
        h.loadPage hboot haligned hpos huser hle1 writable
      cases ok with
      | false =>
        refine ⟨false, s1, fun checked => ?_, hs1, hgrows1, fun hok => absurd hok false_ne_true⟩
        rw [Loading.loadLoop, if_pos hmore]
        dsimp only
        rw [hpr, hpage, bind_some]
      | true =>
        obtain ⟨hpos1, hfilled, a, hinstalled⟩ := hok1 rfl
        have haligned' : pgOfs (upage + pgSize) = 0 := by
          unfold pgOfs at *
          unfold pgSize at *
          omega
        unfold loaderPhysBase at hend
        have hfuel' : read - pageRead + (zeros - (pgSize - pageRead)) < pgSize * fuel := by
          unfold pgSize at *
          omega
        obtain ⟨ok, s', hloop, hs', hgrows', hok'⟩ := ih hfuel' hs1
          (by unfold pgSize at *; omega) haligned' (by omega) (by unfold loaderPhysBase; omega)
        refine ⟨ok, s', fun checked => ?_, hs', hgrows1.trans hgrows', fun hok => ?_⟩
        · rw [Loading.loadLoop, if_pos hmore]
          dsimp only
          rw [hpr, hpage, bind_some]
          dsimp only
          rw [sub32_eq hle2 (by omega), bind_some, sub32_eq hle3 (by omega),
            bind_some, add32_eq (by unfold pgSize at *; omega), bind_some, hloop]
        · obtain ⟨⟨hread', hzero'⟩, hnew⟩ := hok' hok
          have hfirst := hfilled.grows hgrows'
          refine ⟨⟨fun i hi => ?_, fun i hi hi' => ?_⟩, fun q hq => ?_⟩
          · by_cases hlt : i < pageRead
            · exact hfirst.1 i hlt
            · have hbytes := hread' (i - pageRead) (by omega)
              have hpage' := hfull (by omega)
              rw [hpos1, Nat.add_assoc, Nat.add_sub_cancel' (by omega)] at hbytes
              rwa [Nat.add_assoc, ← hpage', Nat.add_sub_cancel' (by omega)] at hbytes
          · by_cases hlt : i < pgSize
            · exact hfirst.2 i (by omega) hlt
            · have hbytes := hzero' (i - pgSize) (by omega) (by omega)
              rwa [Nat.add_assoc, Nat.add_sub_cancel' (by omega)] at hbytes
          · have hno : pgSize * pgNo upage = upage :=
              Nat.mul_div_cancel' (Nat.dvd_of_mod_eq_zero haligned)
            rcases hnew q hq with hq | hq
            · rw [hinstalled] at hq
              rcases mem_cons.mp hq with rfl | hq
              · exact .inr ⟨hno.ge, by unfold pgSize at *; omega⟩
              · exact .inl hq
            · exact .inr ⟨by omega, by omega⟩
    · refine ⟨true, s, fun checked => ?_, h, Grows.refl s, fun _ => ⟨⟨fun i hi => ?_,
        fun i hi hi' => ?_⟩, fun q hq => .inl hq⟩⟩
      · rw [Loading.loadLoop, if_neg hmore]
      · omega
      · omega

theorem toOff_eq (h : a < 2 ^ 31) : toOff a = a :=
  if_pos h

theorem toNat_toOff (h : 0 ≤ toOff a) (ha : a < 2 ^ 32) : (toOff a).toNat = a := by
  unfold toOff at *
  split_ifs at * <;> omega

/-- The segment's addresses have the bytes of the file, and zeros to the end of the last
page. -/
structure SegmentLoaded (file : List UInt8) (ph : Phdr) (s : Loader) : Prop where
  inside : ph.offset + ph.filesz ≤ file.length
  bytes : ∀ i < ph.filesz, UserByte s (ph.vaddr + i) (file.getD (ph.offset + i) 0)
  zeros : ∀ x, ph.vaddr + ph.filesz ≤ x →
    x < (ph.vaddr + ph.memsz + (pgSize - 1)) / pgSize * pgSize → UserByte s x 0

def Phdr.Covers (ph : Phdr) (n : ℕ) : Prop :=
  ph.vaddr / pgSize ≤ n ∧ pgSize * n < ph.vaddr + ph.memsz

theorem SegmentLoaded.covers (h : SegmentLoaded file ph s) (hn : ph.Covers n) :
    mapOf s.installed n ≠ none := by
  obtain ⟨hle, hlt⟩ := hn
  -- an address of the segment in the page
  have hno : pgNo (max ph.vaddr (pgSize * n)) = n := by
    unfold pgNo
    unfold pgSize at *
    omega
  have hbyte : ∃ byte, UserByte s (max ph.vaddr (pgSize * n)) byte := by
    rcases Nat.lt_or_ge (max ph.vaddr (pgSize * n)) (ph.vaddr + ph.filesz) with hread | hzero
    · have := h.bytes (max ph.vaddr (pgSize * n) - ph.vaddr) (by omega)
      rw [Nat.add_sub_cancel' (le_max_left _ _)] at this
      exact ⟨_, this⟩
    · refine ⟨0, h.zeros _ hzero ?_⟩
      unfold pgSize at *
      omega
  obtain ⟨byte, a, hmap, -⟩ := hbyte
  rw [← hno, hmap]
  exact some_ne_none a

theorem SegmentLoaded.grows (h : SegmentLoaded file ph s) (hgrows : Grows s s') :
    SegmentLoaded file ph s' :=
  ⟨h.inside, fun i hi => (h.bytes i hi).grows hgrows,
    fun x hx hx' => (h.zeros x hx hx').grows hgrows⟩

theorem Phdr.Accepted.loaded (h : ph.Accepted file.length)
    (hfilled : Filled file (ph.offset / pgSize * pgSize) (ph.vaddr / pgSize * pgSize) ph.read
      ph.total s) : SegmentLoaded file ph s := by
  obtain ⟨hread, hzero⟩ := hfilled
  obtain ⟨hoffset, hinside, hfilesz, hmemsz, -, -⟩ := h
  unfold Phdr.read at *
  unfold Phdr.total at *
  have hsplit : ∀ i, ph.vaddr / pgSize * pgSize + (ph.vaddr % pgSize + i) = ph.vaddr + i ∧
      ph.offset / pgSize * pgSize + (ph.vaddr % pgSize + i) = ph.offset + i := fun i => by
    unfold pgSize at *
    omega
  have hbytes : ∀ i < ph.filesz, ph.offset + i < file.length ∧
      UserByte s (ph.vaddr + i) (file.getD (ph.offset + i) 0) := fun i hi => by
    have := hread (ph.vaddr % pgSize + i) (by rw [if_pos (by omega)]; omega)
    rwa [(hsplit i).1, (hsplit i).2] at this
  refine ⟨?_, fun i hi => (hbytes i hi).2, fun x hx hx' => ?_⟩
  · by_cases hpos : 0 < ph.filesz
    · have := (hbytes (ph.filesz - 1) (by omega)).1
      omega
    · omega
  · have := hzero (x - ph.vaddr / pgSize * pgSize) (by
      unfold pgSize at *
      split_ifs <;> omega) (by
      unfold pgSize at *
      omega)
    rwa [Nat.add_sub_cancel' (by unfold pgSize at *; omega)] at this

theorem LoadInv.loadValid (h : LoadInv k boot pd s) (hboot : Booted k boot)
    (hlen : file.length < 2 ^ 31) (hvaddr : ph.vaddr < 2 ^ 32) (hmemsz : ph.memsz < 2 ^ 32) :
    ∃ ok s', (∀ checked, loadValid k checked file pd ph s = some (ok, s')) ∧ LoadInv k boot pd s' ∧
      Grows s s' ∧ (ok → validateSegment ph file.length ∧ SegmentLoaded file ph s' ∧
      ∀ q ∈ s'.installed, q ∈ s.installed ∨ ph.Covers q.1) := by
  unfold Loading.loadValid
  by_cases hvalid : validateSegment ph file.length
  · have hacc := hvalid.accepted hvaddr hmemsz
    obtain ⟨hread, hmul, hend⟩ := hacc.bounds
    have hpos := hacc.vaddr
    have hofs : ph.offset / pgSize * pgSize < 2 ^ 31 :=
      (Nat.div_mul_le_self _ _).trans_lt (hacc.inside.trans_lt hlen)
    have hsum : ph.read + (ph.total - ph.read) = ph.total := by omega
    have hmod : toOff (ph.offset / pgSize * pgSize) % pgSize = 0 := by
      rw [toOff_eq hofs, Nat.cast_mul, Int.mul_emod_left]
    have hupage : pgOfs (ph.vaddr / pgSize * pgSize) = 0 := Nat.mul_mod_left _ _
    obtain ⟨hs0, hgrows0⟩ := h.atPos (toOff (ph.offset / pgSize * pgSize)).toNat s.limits
    have hfuel : ph.read + (ph.total - ph.read) < pgSize * 2 ^ 20 := by
      unfold loaderPhysBase pgSize at *
      omega
    have hmul' : (ph.read + (ph.total - ph.read)) % pgSize = 0 :=
      (congrArg (· % pgSize) hsum).trans hmul
    have hend' : ph.vaddr / pgSize * pgSize + (ph.read + (ph.total - ph.read)) ≤
        loaderPhysBase := (Nat.add_le_add_left hsum.le _).trans hend
    have hlt : ph.read + (ph.total - ph.read) < 2 ^ 32 :=
      (Nat.le_add_left _ _).trans_lt (hend'.trans_lt (by decide))
    have hnonneg : 0 ≤ toOff (ph.offset / pgSize * pgSize) :=
      (Int.natCast_nonneg _).trans_eq (toOff_eq hofs).symm
    obtain ⟨ok, s', hloop, hs', hgrows, hok⟩ := hs0.loadLoop file hboot
      (ph.flags &&& pfW ≠ 0) hfuel hmul' hupage (by unfold pgSize at *; omega) hend'
    refine ⟨ok, s', fun checked => ?_, hs', hgrows0.trans hgrows, fun hokk => ⟨hvalid, ?_⟩⟩
    · rw [if_pos hvalid, hacc.segmentBytes_eq, bind_some]
      rw [loadSegment, add32_eq hlt, bind_some, if_pos ⟨hmul', hupage, hmod⟩, fileSeek,
        if_pos hnonneg, bind_some, hloop]
    · obtain ⟨hfilled, hnew⟩ := hok hokk
      rw [hsum] at hfilled hnew
      have hnat : (toOff (ph.offset / pgSize * pgSize)).toNat = ph.offset / pgSize * pgSize := by
        rw [toOff_eq hofs, Int.toNat_natCast]
      rw [hnat] at hfilled
      refine ⟨hacc.loaded hfilled, fun q hq => (hnew q hq).imp_right fun ⟨hle, hlt⟩ => ⟨?_, ?_⟩⟩
      · unfold pgSize at *
        omega
      · unfold Phdr.total at hlt
        unfold pgSize at *
        omega
  · refine ⟨false, s, fun checked => if_neg hvalid, h, Grows.refl s,
      fun hok => absurd hok false_ne_true⟩

theorem LoadInv.loadHeader (h : LoadInv k boot pd s) (hboot : Booted k boot)
    (hlen : file.length < 2 ^ 31) (hvaddr : ph.vaddr < 2 ^ 32) (hmemsz : ph.memsz < 2 ^ 32) :
    ∃ ok s', (∀ checked, loadHeader k checked file pd ph s = some (ok, s')) ∧ LoadInv k boot pd s' ∧
      Grows s s' ∧ (ok → (ph.type = 1 → validateSegment ph file.length ∧ SegmentLoaded file ph s') ∧
      ∀ q ∈ s'.installed, q ∈ s.installed ∨ ph.type = 1 ∧ ph.Covers q.1) := by
  unfold Loading.loadHeader
  by_cases hbad : ph.type = 2 ∨ ph.type = 3 ∨ ph.type = 5
  · exact ⟨false, s, fun _ => if_pos hbad, h, Grows.refl s, fun hok => absurd hok false_ne_true⟩
  · by_cases hload : ph.type = 1
    · obtain ⟨ok, s', hvalid, hs', hgrows, hok⟩ := h.loadValid hboot hlen hvaddr hmemsz
      refine ⟨ok, s', fun checked => ?_, hs', hgrows, fun hokk => ?_⟩
      · rw [if_neg hbad, if_pos hload, hvalid]
      · obtain ⟨hvalid, hloaded, hnew⟩ := hok hokk
        exact ⟨fun _ => ⟨hvalid, hloaded⟩, fun q hq => (hnew q hq).imp_right fun hq => ⟨hload, hq⟩⟩
    · refine ⟨true, s, fun checked => ?_, h, Grows.refl s,
        fun _ => ⟨fun htype => absurd htype hload, fun q hq => .inl hq⟩⟩
      rw [if_neg hbad, if_neg hload]

def ehdrOf (file : List UInt8) : Ehdr :=
  Ehdr.decode (file.take Ehdr.size)

def phdrAt (file : List UInt8) (ofs : ℕ) : Phdr :=
  Phdr.decode ((file.drop ofs).take Phdr.size)

theorem readBytes_eq {size : ℕ} (h : (readBytes file size s).length = size) :
    readBytes file size s = (file.drop s.pos).take size := by
  unfold readBytes at *
  rw [length_take, length_drop] at h
  have hmin : size ≤ min size ((s.limits.headD none).getD size) := by omega
  rw [min_eq_left (hmin.trans (min_le_right _ _))]

theorem LoadInv.loadHeaders (hboot : Booted k boot) (hlen : file.length < 2 ^ 31) (n : ℕ)
    (fileOfs : ℤ) (h : LoadInv k boot pd s) :
    ∃ ok s', (∀ checked, loadHeaders k checked file pd n fileOfs s = some (ok, s')) ∧
      LoadInv k boot pd s' ∧ Grows s s' ∧
      (ok → (∀ i < n, 0 ≤ fileOfs ∧ ((phdrAt file (fileOfs.toNat + Phdr.size * i)).type = 1 →
        validateSegment (phdrAt file (fileOfs.toNat + Phdr.size * i)) file.length ∧
        SegmentLoaded file (phdrAt file (fileOfs.toNat + Phdr.size * i)) s')) ∧
        ∀ q ∈ s'.installed, q ∈ s.installed ∨ ∃ i < n,
          (phdrAt file (fileOfs.toNat + Phdr.size * i)).type = 1 ∧
          (phdrAt file (fileOfs.toNat + Phdr.size * i)).Covers q.1) := by
  induction n generalizing fileOfs s with
  | zero =>
    exact ⟨true, s, fun _ => rfl, h, Grows.refl s,
      fun _ => ⟨fun i hi => absurd hi (Nat.not_lt_zero i), fun q hq => .inl hq⟩⟩
  | succ n ih =>
    by_cases hout : fileOfs < 0 ∨ file.length < fileOfs
    · refine ⟨false, s, fun checked => ?_, h, Grows.refl s, fun hok => absurd hok false_ne_true⟩
      rw [Loading.loadHeaders, if_pos hout]
    · have hnonneg : 0 ≤ fileOfs := by omega
      have hseek : fileSeek fileOfs s = some { s with pos := fileOfs.toNat } := if_pos hnonneg
      obtain ⟨hpos, hgrowsPos⟩ := h.atPos fileOfs.toNat s.limits
      obtain ⟨hs0, hgrowsRead⟩ := hpos.reading file Phdr.size
      have hgrows0 := hgrowsPos.trans hgrowsRead
      by_cases hfull : (readBytes file Phdr.size { s with pos := fileOfs.toNat }).length =
          Phdr.size
      · have hph : Phdr.decode (readBytes file Phdr.size { s with pos := fileOfs.toNat }) =
            phdrAt file fileOfs.toNat := congrArg Phdr.decode (readBytes_eq hfull)
        have hvaddr : (phdrAt file fileOfs.toNat).vaddr < 2 ^ 32 := u32_lt _ _
        obtain ⟨ok, s1, hheader, hs1, hgrows1, hok1⟩ :=
          hs0.loadHeader hboot hlen hvaddr (u32_lt _ _)
        cases ok with
        | false =>
          refine ⟨false, s1, fun checked => ?_, hs1, hgrows0.trans hgrows1,
            fun hok => absurd hok false_ne_true⟩
          rw [Loading.loadHeaders, if_neg hout, hseek, bind_some]
          dsimp only
          rw [if_neg (not_not.mpr hfull), hph, hheader, bind_some]
        | true =>
          obtain ⟨ok, s', hrest, hs', hgrows', hok'⟩ := ih (fileOfs + Phdr.size) hs1
          have hofs : ∀ i, (fileOfs + Phdr.size).toNat + Phdr.size * i =
              fileOfs.toNat + Phdr.size * (i + 1) := fun i => by
            unfold Phdr.size
            omega
          refine ⟨ok, s', fun checked => ?_, hs', hgrows0.trans (hgrows1.trans hgrows'),
            fun hok => ⟨fun i hi => ?_, fun q hq => ?_⟩⟩
          · rw [Loading.loadHeaders, if_neg hout, hseek, bind_some]
            dsimp only
            rw [if_neg (not_not.mpr hfull), hph, hheader, bind_some]
            exact hrest checked
          · cases i with
            | zero =>
              refine ⟨hnonneg, fun htype => ?_⟩
              obtain ⟨hvalid, hloaded⟩ := (hok1 rfl).1 htype
              exact ⟨hvalid, hloaded.grows hgrows'⟩
            | succ i =>
              rw [← hofs]
              exact ⟨hnonneg, ((hok' hok).1 i (by omega)).2⟩
          · rcases (hok' hok).2 q hq with hq | ⟨i, hi, hcover⟩
            · exact ((hok1 rfl).2 q hq).imp_right fun hcover => ⟨0, Nat.succ_pos n, hcover⟩
            · rw [hofs] at hcover
              exact .inr ⟨i + 1, by omega, hcover⟩
      · refine ⟨false, _, fun checked => ?_, hs0, hgrows0, fun hok => absurd hok false_ne_true⟩
        rw [Loading.loadHeaders, if_neg hout, hseek, bind_some]
        rw [if_pos hfull]

def stackPage : ℕ :=
  pgNo (loaderPhysBase - pgSize)

theorem LoadInv.setupStack (h : LoadInv k boot pd s) (hboot : Booted k boot) :
    ∃ ok s', setupStack k pd s = some (ok, s') ∧ LoadInv k boot pd s' ∧ Grows s s' ∧
      (ok → mapOf s.installed stackPage = none ∧
        ∃ a, s'.installed = (stackPage, a) :: s.installed) := by
  unfold Loading.setupStack
  rcases h.supply.getPage { user := true, zero := true } with
    ⟨kpage, p, hget, hgrant⟩ | ⟨hfalse, -⟩ | ⟨answers, -, hget, hsupply⟩
  · obtain ⟨hfill, hgrows⟩ := h.filling hgrant
    have haligned : pgOfs (loaderPhysBase - pgSize) = 0 := by decide
    obtain ⟨ok, s', hinstall, hs', hgrows', hok⟩ :=
      hfill.installOrFree hboot haligned (by decide) (by decide) true
    rw [hget, bind_some]
    refine ⟨ok, s', hinstall, hs', hgrows.trans hgrows', fun hokk => ?_⟩
    obtain ⟨-, hnone, hinstalled, -⟩ := hok hokk
    exact ⟨hnone, kpage, hinstalled⟩
  · cases hfalse
  · obtain ⟨T, hdir⟩ := h.dir
    rw [hget, bind_some]
    exact ⟨false, _, rfl, ⟨⟨T, hdir.answers answers⟩, hsupply, h.user⟩,
      fun n a hn => ⟨hn, fun _ _ => rfl⟩, fun hok => absurd hok false_ne_true⟩

theorem LoadInv.getPage {va : ℕ} {byte : UInt8} (h : LoadInv k boot pd s)
    (hb : UserByte s va byte) :
    ∃ a, pagedirGetPage pd va s.pages = some a ∧ a ≠ 0 ∧ s.pages.mem a = byte := by
  obtain ⟨T, hdir⟩ := h.dir
  obtain ⟨a, hmap, hbyte⟩ := hb
  have hlt := (h.user (pgNo va, a) ((mapOf_eq_some hdir.keys).mp hmap)).2
  have huser : isUserVaddr va := by
    unfold isUserVaddr loaderPhysBase
    unfold pgNo pgSize userTables at hlt
    dsimp only at hlt
    omega
  have hpage := (hdir.frame a (mem_frames_of_mapOf hmap)).2.2.2.2.1
  refine ⟨a + pgOfs va, ?_, ?_, hbyte⟩
  · rw [Maps.getPage_eq (s := s.pages) hdir.maps huser, translate, hmap]
    rfl
  · have := hpage.kernel
    unfold loaderPhysBase at this
    omega

theorem LoadInv.mapped (h : LoadInv k boot pd s) :
    (s.installed.map Prod.fst).Nodup ∧
      (∀ q ∈ s.installed, pgSize ≤ q.1 * pgSize ∧ q.1 * pgSize < loaderPhysBase) ∧ ∀ a,
      isUserVaddr a → pagedirGetPage pd a s.pages = some (translate (mapOf s.installed) a) := by
  obtain ⟨T, hdir⟩ := h.dir
  refine ⟨hdir.keys, fun q hq => ?_, fun a ha => Maps.getPage_eq (s := s.pages) hdir.maps ha⟩
  have := h.user q hq
  unfold userTables at this
  unfold loaderPhysBase pgSize
  omega

theorem LoadInv.segment (h : LoadInv k boot pd s) (hloaded : SegmentLoaded file ph s) :
    (∀ j < ph.filesz, ph.offset + j < file.length ∧
      ∃ a, pagedirGetPage pd (ph.vaddr + j) s.pages = some a ∧ a ≠ 0 ∧
      s.pages.mem a = file.getD (ph.offset + j) 0) ∧ ∀ x, ph.vaddr + ph.filesz ≤ x →
      x < (ph.vaddr + ph.memsz + (pgSize - 1)) / pgSize * pgSize → ∃ a,
      pagedirGetPage pd x s.pages = some a ∧ a ≠ 0 ∧ s.pages.mem a = 0 :=
  ⟨fun j hj => ⟨(Nat.add_lt_add_left hj _).trans_le hloaded.inside, h.getPage (hloaded.bytes j hj)⟩,
    fun x hx hx' => h.getPage (hloaded.zeros x hx hx')⟩

theorem load_eq {p : Pages} (hboot : Booted k p) (hsupply : p.Supply k) (file : Option (List UInt8))
    (hlen : ∀ f ∈ file, f.length < 2 ^ 31) (limits : List (Option ℕ)) :
    ∃ r s, (∀ checked, load k checked file ⟨p, 0, limits, []⟩ = some (r, s)) ∧
      (r = ⟨0, none⟩ ∧ s.installed = [] ∨ LoadInv k p r.pagedir s ∧
      (r.start ≠ none → ∃ f, file = some f ∧ (∀ i < (ehdrOf f).phnum,
      (phdrAt f ((ehdrOf f).phoff + Phdr.size * i)).type = 1 →
      validateSegment (phdrAt f ((ehdrOf f).phoff + Phdr.size * i)) f.length ∧
      SegmentLoaded f (phdrAt f ((ehdrOf f).phoff + Phdr.size * i)) s ∧
      ¬ (phdrAt f ((ehdrOf f).phoff + Phdr.size * i)).Covers stackPage) ∧
      ∀ q ∈ s.installed, q.1 = stackPage ∨ ∃ i < (ehdrOf f).phnum,
      (phdrAt f ((ehdrOf f).phoff + Phdr.size * i)).type = 1 ∧
      (phdrAt f ((ehdrOf f).phoff + Phdr.size * i)).Covers q.1)) := by
  rcases hsupply.getPage {} with ⟨pd, p', hget, hgrant⟩ | ⟨hfalse, -⟩ | ⟨answers, -, hget, -⟩
  · have hcreate : pagedirCreate k p = some (some pd,
        { p' with mem := p'.mem.memcpy pd k.initPageDir pgSize }) := by
      unfold pagedirCreate
      change (p.getPage {}).map _ = _
      rw [hget]
      rfl
    generalize hp : ({ p' with mem := p'.mem.memcpy pd k.initPageDir pgSize } : Pages) = p0
      at hcreate
    have hinv : LoadInv k p pd ⟨p0, 0, limits, []⟩ := by
      subst hp
      exact ⟨⟨_, dirInv_granted hboot hgrant⟩, ⟨hgrant.supply.nodup, hgrant.supply.fresh⟩,
        fun q hq => absurd hq not_mem_nil⟩
    cases file with
    | none =>
      refine ⟨⟨pd, none⟩, _, fun checked => ?_, .inr ⟨hinv, fun hne => absurd rfl hne⟩⟩
      rw [load]
      dsimp only
      rw [hcreate, bind_some]
    | some f =>
      have hlen := hlen f rfl
      obtain ⟨hs1, -⟩ := hinv.reading f Ehdr.size
      by_cases hbad : (readBytes f Ehdr.size ⟨p0, 0, limits, []⟩).length ≠ Ehdr.size ∨
          ¬ (Ehdr.decode (readBytes f Ehdr.size ⟨p0, 0, limits, []⟩)).Ok
      · refine ⟨⟨pd, none⟩, _, fun checked => ?_, .inr ⟨hs1, fun hne => absurd rfl hne⟩⟩
        rw [load]
        dsimp only
        rw [hcreate, bind_some]
        dsimp only
        rw [if_pos hbad]
      · have hfull : (readBytes f Ehdr.size ⟨p0, 0, limits, []⟩).length = Ehdr.size := by
          by_contra hne
          exact hbad (.inl hne)
        have hbytes := readBytes_eq hfull
        rw [drop_zero] at hbytes
        obtain ⟨ok, s2, hheaders, hs2, -, hok2⟩ :=
          hs1.loadHeaders hboot hlen (ehdrOf f).phnum (toOff (ehdrOf f).phoff)
        have hload : ∀ checked, load k checked (some f) ⟨p, 0, limits, []⟩ =
            (loadHeaders k checked f pd (ehdrOf f).phnum (toOff (ehdrOf f).phoff)
              (afterRead f Ehdr.size ⟨p0, 0, limits, []⟩)).bind
              (finishLoad k pd (ehdrOf f).entry) := by
          intro checked
          rw [load]
          dsimp only
          rw [hcreate, bind_some]
          dsimp only
          rw [if_neg hbad, hbytes, ehdrOf]
        cases ok with
        | false =>
          refine ⟨⟨pd, none⟩, s2, fun checked => ?_, .inr ⟨hs2, fun hne => absurd rfl hne⟩⟩
          rw [hload, hheaders, bind_some, finishLoad]
        | true =>
          obtain ⟨ok, s3, hstack, hs3, hgrows3, hok3⟩ := hs2.setupStack hboot
          cases ok with
          | false =>
            refine ⟨⟨pd, none⟩, s3, fun checked => ?_, .inr ⟨hs3, fun hne => absurd rfl hne⟩⟩
            rw [hload, hheaders, bind_some, finishLoad, hstack, map_some]
          | true =>
            refine ⟨⟨pd, some ((ehdrOf f).entry, loaderPhysBase)⟩, s3, fun checked => ?_,
              .inr ⟨hs3, fun _ => ⟨f, rfl, fun i hi htype => ?_, fun q hq => ?_⟩⟩⟩
            · rw [hload, hheaders, bind_some, finishLoad, hstack, map_some]
            · obtain ⟨hnonneg, hph⟩ := (hok2 rfl).1 i hi
              rw [toNat_toOff hnonneg (u32_lt _ _)] at hph
              obtain ⟨hvalid, hloaded⟩ := hph htype
              exact ⟨hvalid, hloaded.grows hgrows3, fun hcover =>
                hloaded.covers hcover (hok3 rfl).1⟩
            · obtain ⟨-, a, hinstalled⟩ := hok3 rfl
              rw [hinstalled] at hq
              rcases mem_cons.mp hq with rfl | hq
              · exact .inl rfl
              · rcases (hok2 rfl).2 q hq with hq | ⟨i, hi, hcover⟩
                · exact absurd hq not_mem_nil
                · rw [toNat_toOff ((hok2 rfl).1 i hi).1 (u32_lt _ _)] at hcover
                  exact .inr ⟨i, hi, hcover⟩
  · cases hfalse
  · have hcreate : pagedirCreate k p = some (none, { p with answers }) := by
      unfold pagedirCreate
      change (p.getPage {}).map _ = _
      rw [hget]
      rfl
    refine ⟨⟨0, none⟩, ⟨{ p with answers }, 0, limits, []⟩, fun checked => ?_, .inl ⟨rfl, rfl⟩⟩
    rw [load]
    dsimp only
    rw [hcreate, bind_some]

/-- Loading any file is safe. -/
theorem load_safe {p : Pages} (hboot : Booted k p) (hsupply : p.Supply k)
    (file : Option (List UInt8)) (hlen : ∀ f ∈ file, f.length < 2 ^ 31)
    (limits : List (Option ℕ)) :
    ∃ r s, (∀ checked, load k checked file ⟨p, 0, limits, []⟩ = some (r, s)) ∧
      (s.installed.map Prod.fst).Nodup ∧
      (∀ q ∈ s.installed, pgSize ≤ q.1 * pgSize ∧ q.1 * pgSize < loaderPhysBase) ∧
      (r.pagedir ≠ 0 → ∀ a, isUserVaddr a →
        pagedirGetPage r.pagedir a s.pages = some (translate (mapOf s.installed) a)) ∧
      (r.start ≠ none → ∃ f, file = some f ∧
        ∀ i < (ehdrOf f).phnum,
          let ph := phdrAt f ((ehdrOf f).phoff + Phdr.size * i)
          ph.type = 1 → validateSegment ph f.length ∧
            (∀ j < ph.filesz, ph.offset + j < f.length ∧
              ∃ a, pagedirGetPage r.pagedir (ph.vaddr + j) s.pages = some a ∧ a ≠ 0 ∧
                s.pages.mem a = f.getD (ph.offset + j) 0) ∧
            ∀ x, ph.vaddr + ph.filesz ≤ x →
              x < (ph.vaddr + ph.memsz + (pgSize - 1)) / pgSize * pgSize →
              ∃ a, pagedirGetPage r.pagedir x s.pages = some a ∧ a ≠ 0 ∧ s.pages.mem a = 0) := by
  obtain ⟨r, s, hload, ⟨rfl, hnil⟩ | ⟨hs, hstart⟩⟩ := load_eq hboot hsupply file hlen limits
  · refine ⟨⟨0, none⟩, s, hload, ?_, ?_, fun hne => absurd rfl hne, fun hne => absurd rfl hne⟩
    · rw [hnil]
      exact nodup_nil
    · rw [hnil]
      exact fun q hq => absurd hq not_mem_nil
  · obtain ⟨hnodup, hrange, hget⟩ := hs.mapped
    refine ⟨r, s, hload, hnodup, hrange, fun _ => hget, fun hne => ?_⟩
    obtain ⟨f, hf, hsegments, -⟩ := hstart hne
    refine ⟨f, hf, fun i hi => ?_⟩
    intro ph htype
    obtain ⟨hvalid, hloaded, -⟩ := hsegments i hi htype
    exact ⟨hvalid, hs.segment hloaded⟩

/-- A file with one segment of three bytes at `0x08048054`, of eight bytes in memory. -/
def sampleFile : List UInt8 :=
  [0x7f, 0x45, 0x4c, 0x46, 1, 1, 1, 0, 0, 0, 0, 0, 0, 0, 0, 0,
    2, 0, 3, 0, 1, 0, 0, 0, 0x54, 0x80, 4, 8, 52, 0, 0, 0, 0, 0, 0, 0, 0, 0, 0, 0,
    52, 0, 32, 0, 1, 0, 0, 0, 0, 0, 0, 0,
    1, 0, 0, 0, 84, 0, 0, 0, 0x54, 0x80, 4, 8, 0, 0, 0, 0, 3, 0, 0, 0, 8, 0, 0, 0,
    5, 0, 0, 0, 0, 0x10, 0, 0,
    0xcd, 0x30, 0xc3]

/-- A kernel with pages for a directory, two frames and two page tables. -/
def samplePages : Pages :=
  { sampleBoot with answers := [some 0xc0103000, some 0xc0200000, some 0xc0104000,
      some 0xc0201000, some 0xc0105000] }

theorem load_safe_sample :
    ∃ r s, load ⟨0xc0101000, 1024⟩ false (some sampleFile) ⟨samplePages, 0, [], []⟩ =
        some (r, s) ∧
      r.start = some (0x08048054, 0xc0000000) ∧
      ∃ a, pagedirGetPage r.pagedir 0x08048056 s.pages = some a ∧ s.pages.mem a = 0xc3 := by
  have hstart : (load ⟨0xc0101000, 1024⟩ false (some sampleFile) ⟨samplePages, 0, [], []⟩).map
      (fun x => x.1.start) = some (some (0x08048054, 0xc0000000)) := by decide +kernel
  have hboot : Booted ⟨0xc0101000, 1024⟩ samplePages := ⟨sampleBoot_booted.page,
    sampleBoot_booted.dir, sampleBoot_booted.user, sampleBoot_booted.tables⟩
  have hsupply : samplePages.Supply ⟨0xc0101000, 1024⟩ := ⟨by decide, by decide⟩
  have hlen : ∀ f ∈ some sampleFile, f.length < 2 ^ 31 := by
    rintro f hf
    cases hf
    decide
  obtain ⟨r, s, hload, -, -, -, hsegments⟩ := load_safe hboot hsupply (some sampleFile) hlen []
  rw [hload false] at hstart
  have hr : r.start = some (0x08048054, 0xc0000000) := some.inj hstart
  obtain ⟨f, hf, hph⟩ := hsegments (by rw [hr]; exact some_ne_none _)
  cases hf
  obtain ⟨-, hbytes, -⟩ := hph 0 (by decide) (by decide)
  obtain ⟨-, a, hget, -, hbyte⟩ := hbytes 2 (by decide)
  exact ⟨r, s, hload false, hr, a, hget, hbyte⟩

end Loading

end CS162.Userprog
