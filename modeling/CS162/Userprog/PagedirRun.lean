import CS162.Userprog.Pagedir

/-!
# Page directories over whole runs

A page allocator whose answers are given in advance keeps the pages it has handed out, and a
log of those it has been given back.  Any calls of `pagedir_set_page` and `pagedir_clear_page`
keep a map from pages to frames, and `pagedir_destroy` gives back its frames, the page tables
and the directory.
-/

namespace CS162.Userprog

open List Option Function Prod Mem Maps

open Threads

/-- A page allocator with the answers it will give. -/
structure Pages where
  mem : Mem
  answers : List (Option ℕ)
  held : List ℕ
  freed : List ℕ

namespace Pages

def getPage (flags : Flags) (s : Pages) : Option (Option ℕ × Pages) :=
  match s.answers with
  | some a :: answers => some (some a, { s with
      mem := if flags.zero then s.mem.memset a 0 pgSize else s.mem, answers, held := a :: s.held })
  | none :: answers => if flags.assert then none else some (none, { s with answers })
  | [] => if flags.assert then none else some (none, s)

def freePage (page : ℕ) (s : Pages) : Option Pages :=
  if page = 0 then some s
  else if page ∈ s.held then some { s with
    mem := s.mem.memset page 0xcc pgSize, held := s.held.erase page, freed := page :: s.freed }
  else none

instance : PageAlloc Pages where
  mem := Pages.mem
  setMem s m := { s with mem := m }
  getPage := getPage
  freePage := freePage
  mem_setMem _ _ := rfl
  setMem_mem _ := rfl
  setMem_setMem _ _ _ := rfl

/-- The pages are given back, the first of the list first. -/
def freeAll : List ℕ → Pages → Pages
  | [], s => s
  | a :: as, s => freeAll as { s with
      mem := s.mem.memset a 0xcc pgSize, held := s.held.erase a, freed := a :: s.freed }

variable {s : Pages} {a : ℕ} {as bs : List ℕ}

theorem freePage_eq (hpage : IsPage a) (ha : a ∈ s.held) : freePage a s = some (freeAll [a] s) := by
  have := hpage.kernel
  unfold loaderPhysBase at this
  rw [freePage, if_neg (by omega), if_pos ha]
  rfl

theorem freeAll_append (as bs : List ℕ) (s : Pages) :
    freeAll (as ++ bs) s = freeAll bs (freeAll as s) := by
  induction as generalizing s with
  | nil => rfl
  | cons a as ih => exact ih _

theorem freed_freeAll (as : List ℕ) (s : Pages) : (freeAll as s).freed = as.reverse ++ s.freed := by
  induction as generalizing s with
  | nil => rfl
  | cons a as ih =>
    rw [freeAll, ih, reverse_cons, append_assoc]
    rfl

theorem mem_held_freeAll (ha : a ∈ s.held) (has : a ∉ as) : a ∈ (freeAll as s).held := by
  induction as generalizing s with
  | nil => exact ha
  | cons b as ih =>
    rw [mem_cons, not_or] at has
    exact ih ((mem_erase_of_ne has.1).mpr ha) has.2

theorem mem_freeAll {x : ℕ} (hx : ∀ a ∈ as, ¬ InPage a x) : (freeAll as s).mem x = s.mem x := by
  induction as generalizing s with
  | nil => rfl
  | cons a as ih =>
    rw [freeAll, ih fun b hb => hx b (mem_cons_of_mem a hb)]
    have := hx a mem_cons_self
    unfold InPage at this
    exact memset_of_apart (by omega)

theorem word_freeAll (ha : IsPage a) (has : ∀ b ∈ as, IsPage b ∧ b ≠ a) {i : ℕ} (hi : i < 1024) :
    (freeAll as s).mem.word (a + 4 * i) = s.mem.word (a + 4 * i) := by
  refine word_congr fun x hx hx' => mem_freeAll fun b hb hin => ?_
  obtain ⟨hpage, hne⟩ := has b hb
  have := hpage.apart ha hne
  unfold InPage at hin
  unfold pgSize at *
  omega

end Pages

section Destroy

open Pages

variable {m : Mem} {s : Pages} {k : Globals} {pd i t : ℕ} {T M : ℕ → Option ℕ} {js is : List ℕ}

def framesAt (M : ℕ → Option ℕ) (i : ℕ) (js : List ℕ) : List ℕ :=
  js.filterMap fun j => M (1024 * i + j)

/-- What is freed for an entry of the directory: the frames, then the page table. -/
def pagesAt (T M : ℕ → Option ℕ) (i : ℕ) : List ℕ :=
  (T i).elim [] fun t => framesAt M i (List.range 1024) ++ [t]

theorem freeFrames_eq
    (hentry : ∀ j ∈ js, j < 1024 ∧ EntryMaps (s.mem.word (t + 4 * j)) (M (1024 * i + j)))
    (ht : IsPage t) (hnodup : (framesAt M i js).Nodup)
    (hheld : ∀ a ∈ framesAt M i js, a ∈ s.held ∧ IsPage a ∧ a ≠ t) :
    js.foldlM (fun s j =>
      let pte := (PageAlloc.mem s).word (t + 4 * j)
      if pte &&& pteP ≠ 0 then (pteGetPage pte).bind fun page => PageAlloc.freePage page s
      else some s) s = some (freeAll (framesAt M i js) s) := by
  induction js generalizing s with
  | nil => rfl
  | cons j js ih =>
    obtain ⟨hj, hj'⟩ := hentry j mem_cons_self
    rw [foldlM_cons]
    dsimp only
    rw [and_pteP]
    change (if s.mem.word (t + 4 * j) % 2 ≠ 0 then
      (pteGetPage (s.mem.word (t + 4 * j))).bind _ else _ : Option Pages).bind _ = _
    cases hM : M (1024 * i + j) with
    | none =>
      have hframes : framesAt M i (j :: js) = framesAt M i js := filterMap_cons_none hM
      rw [hM] at hj'
      change _ % 2 = 0 at hj'
      rw [hframes] at hnodup hheld ⊢
      rw [if_neg (not_not.mpr hj')]
      exact ih (fun j hj => hentry j (mem_cons_of_mem _ hj)) hnodup hheld
    | some a =>
      have hframes : framesAt M i (j :: js) = a :: framesAt M i js := filterMap_cons_some hM
      rw [hM] at hj'
      obtain ⟨hpresent, hpage, hframe⟩ := hj'
      rw [hframes] at hnodup hheld ⊢
      obtain ⟨hnew, hnodup⟩ := nodup_cons.mp hnodup
      obtain ⟨hmem, -, hne⟩ := hheld a mem_cons_self
      have hfree : PageAlloc.freePage a s = some (freeAll [a] s) := freePage_eq hpage hmem
      rw [if_pos (by omega), pteGetPage_eq hpage (word_lt _ _) hframe, bind_some, hfree, bind_some]
      refine ih (fun j' hj' => ?_) hnodup fun b hb => ?_
      · obtain ⟨hlt, hentry'⟩ := hentry j' (mem_cons_of_mem _ hj')
        rw [word_freeAll ht (by simpa using ⟨hpage, hne⟩) hlt]
        exact ⟨hlt, hentry'⟩
      · obtain ⟨hb', hbpage, hbne⟩ := hheld b (mem_cons_of_mem _ hb)
        refine ⟨mem_held_freeAll hb' ?_, hbpage, hbne⟩
        rw [mem_singleton]
        rintro rfl
        exact hnew hb

theorem freeTables_eq (h : Maps m pd T M) (his : ∀ i ∈ is, i < userTables)
    (hpd : ∀ i ∈ is, s.mem.word (pd + 4 * i) = m.word (pd + 4 * i))
    (hpt : ∀ i ∈ is, ∀ t, T i = some t → ∀ j < 1024, s.mem.word (t + 4 * j) = m.word (t + 4 * j))
    (hnodup : (is.flatMap (pagesAt T M)).Nodup)
    (hheld : ∀ a ∈ is.flatMap (pagesAt T M), a ∈ s.held ∧ IsPage a ∧ a ≠ pd) :
    is.foldlM (fun s i =>
      let pde := (PageAlloc.mem s).word (pd + 4 * i)
      if pde &&& pteP ≠ 0 then
        (pdeGetPt pde).bind fun pt => (freeFrames pt s).bind fun s => PageAlloc.freePage pt s
      else some s) s = some (freeAll (is.flatMap (pagesAt T M)) s) := by
  induction is generalizing s with
  | nil => rfl
  | cons i is ih =>
    have hi := his i mem_cons_self
    have hpde := (hpd i mem_cons_self).trans (h.pde i hi)
    rw [foldlM_cons]
    dsimp only
    rw [and_pteP]
    change (if s.mem.word (pd + 4 * i) % 2 ≠ 0 then
      (pdeGetPt (s.mem.word (pd + 4 * i))).bind _ else _ : Option Pages).bind _ = _
    rw [flatMap_cons] at hnodup hheld ⊢
    cases ht : T i with
    | none =>
      have hnil : pagesAt T M i = [] := by
        rw [pagesAt, ht]
        rfl
      rw [ht, elim_none] at hpde
      rw [hnil, nil_append] at hnodup hheld ⊢
      rw [hpde, if_neg (not_not.mpr (Nat.zero_mod 2))]
      exact ih (fun i hi => his i (mem_cons_of_mem _ hi)) (fun i hi => hpd i (mem_cons_of_mem _ hi))
        (fun i hi => hpt i (mem_cons_of_mem _ hi)) hnodup hheld
    | some t =>
      have hpages : pagesAt T M i = framesAt M i (range 1024) ++ [t] := by
        rw [pagesAt, ht]
        rfl
      rw [ht, elim_some] at hpde
      obtain ⟨-, htpage, -⟩ := h.table i t ht
      obtain ⟨hnodup1, hnodup2, hdisj⟩ := nodup_append'.mp hnodup
      have hsub : ∀ a ∈ pagesAt T M i, a ∈ s.held ∧ IsPage a ∧ a ≠ pd :=
        fun a ha => hheld a (mem_append_left _ ha)
      have hnodup1' := hnodup1
      rw [hpages] at hnodup1'
      obtain ⟨hframes, -, htnot⟩ := nodup_append'.mp hnodup1'
      have htnot : t ∉ framesAt M i (range 1024) := fun hin => htnot hin mem_cons_self
      have hfree : freeFrames t s = some (freeAll (framesAt M i (range 1024)) s) := by
        refine freeFrames_eq (fun j hj => ?_) htpage hframes fun a ha => ?_
        · have hj := mem_range.mp hj
          rw [hpt i mem_cons_self t ht j hj]
          exact ⟨hj, h.pte i t ht j hj⟩
        · obtain ⟨hmem, hpage, -⟩ := hsub a (by rw [hpages]; exact mem_append_left _ ha)
          exact ⟨hmem, hpage, fun heq => htnot (heq ▸ ha)⟩
      have htheld : t ∈ (freeAll (framesAt M i (range 1024)) s).held :=
        mem_held_freeAll (hsub t (by rw [hpages]; simp)).1 htnot
      have hfree' : PageAlloc.freePage t (freeAll (framesAt M i (range 1024)) s) =
          some (freeAll (pagesAt T M i) s) := by
        rw [hpages, freeAll_append]
        exact freePage_eq htpage htheld
      have hodd : (t - loaderPhysBase + 7) % 2 ≠ 0 := by
        have := htpage.sub_mod
        unfold pgSize at this
        omega
      rw [hpde, if_pos hodd, pdeGetPt_eq htpage, bind_some, hfree, bind_some,
        hfree', bind_some, freeAll_append]
      refine ih (fun i hi => his i (mem_cons_of_mem _ hi)) (fun i' hi' => ?_)
        (fun i' hi' t' ht' j hj => ?_) hnodup2 fun a ha => ?_
      · rw [word_freeAll h.page (fun b hb => (hsub b hb).2)
          (by have := his i' (mem_cons_of_mem _ hi'); unfold userTables at this; omega)]
        exact hpd i' (mem_cons_of_mem _ hi')
      · -- the tables that are left have not been freed
        have hin : t' ∈ is.flatMap (pagesAt T M) :=
          mem_flatMap.mpr ⟨i', hi', by rw [pagesAt, ht']; simp⟩
        rw [word_freeAll (h.table i' t' ht').2.1
          (fun b hb => ⟨(hsub b hb).2.1, fun heq => hdisj (heq ▸ hb) hin⟩) hj]
        exact hpt i' (mem_cons_of_mem _ hi') t' ht' j hj
      · obtain ⟨hmem, hpage, hne⟩ := hheld a (mem_append_right _ ha)
        exact ⟨mem_held_freeAll hmem fun hb => hdisj hb ha, hpage, hne⟩

/-- What `pagedir_destroy` frees. -/
def dirPages (pd : ℕ) (T M : ℕ → Option ℕ) : List ℕ :=
  (List.range userTables).flatMap (pagesAt T M) ++ [pd]

theorem mem_pagesAt {a : ℕ} :
    a ∈ pagesAt T M i ↔ ∃ t, T i = some t ∧ (a = t ∨ ∃ j < 1024, M (1024 * i + j) = some a) := by
  unfold pagesAt
  cases T i with
  | none => simp
  | some t =>
    simp only [elim_some, mem_append, mem_singleton, framesAt,
      mem_filterMap, mem_range, some.injEq, exists_eq_left']
    exact or_comm

theorem mem_dirPages (h : Maps m pd T M) {a : ℕ} :
    a ∈ dirPages pd T M ↔ a = pd ∨ (∃ i, T i = some a) ∨ ∃ n, M n = some a := by
  simp only [dirPages, mem_append, mem_flatMap, mem_range, mem_singleton, mem_pagesAt]
  constructor
  · rintro (⟨i, -, t, ht, rfl | ⟨j, -, hM⟩⟩ | rfl)
    · exact .inr (.inl ⟨i, ht⟩)
    · exact .inr (.inr ⟨_, hM⟩)
    · exact .inl rfl
  · rintro (rfl | ⟨i, ht⟩ | ⟨n, hM⟩)
    · exact .inr rfl
    · exact .inl ⟨i, (h.table i a ht).1, a, ht, .inl rfl⟩
    · obtain ⟨t, ht⟩ := h.mapped n a hM
      refine .inl ⟨n / 1024, (h.table _ t ht).1, t, ht, .inr ⟨n % 1024, by omega, ?_⟩⟩
      rwa [Nat.div_add_mod]

theorem nodup_dirPages (h : Maps m pd T M) (hinj : ∀ n n' a, M n = some a → M n' = some a → n = n')
    (hframe : ∀ n a, M n = some a → a ≠ pd ∧ ∀ i, T i ≠ some a) : (dirPages pd T M).Nodup := by
  refine nodup_append'.mpr ⟨nodup_flatMap.mpr ⟨fun i _ => ?_, ?_⟩, nodup_singleton pd, ?_⟩
  · unfold pagesAt
    cases ht : T i with
    | none => exact nodup_nil
    | some t =>
      refine nodup_append'.mpr ⟨?_, nodup_singleton t, fun a ha ha' => ?_⟩
      · refine List.Nodup.filterMap (fun j j' a hj hj' => ?_) nodup_range
        have := hinj _ _ a hj hj'
        omega
      · obtain ⟨j, -, hM⟩ := mem_filterMap.mp ha
        rw [mem_singleton] at ha'
        exact (hframe _ a hM).2 i (ha' ▸ ht)
  · refine nodup_range.imp fun {i i'} hne a ha ha' => hne ?_
    obtain ⟨t, ht, hat⟩ := mem_pagesAt.mp ha
    obtain ⟨t', ht', hat'⟩ := mem_pagesAt.mp ha'
    rcases hat with rfl | ⟨j, hj, hM⟩ <;> rcases hat' with rfl | ⟨j', hj', hM'⟩
    · exact h.inj i i' a ht ht'
    · exact absurd ht ((hframe _ a hM').2 i)
    · exact absurd ht' ((hframe _ a hM).2 i')
    · have := hinj _ _ a hM hM'
      omega
  · rintro a ha ha'
    rw [mem_singleton] at ha'
    obtain ⟨i, -, hi⟩ := mem_flatMap.mp ha
    obtain ⟨t, ht, rfl | ⟨j, hj, hM⟩⟩ := mem_pagesAt.mp hi
    · exact (h.table i a ht).2.2 ha'
    · exact (hframe _ a hM).1 ha'

theorem pagedirDestroy_eq (h : Maps s.mem pd T M) (hdir : pd ≠ k.initPageDir)
    (hnodup : (dirPages pd T M).Nodup) (hheld : ∀ a ∈ dirPages pd T M, a ∈ s.held ∧ IsPage a) :
    pagedirDestroy k pd s = some (freeAll (dirPages pd T M) s) := by
  obtain ⟨hnodup', -, hdisj⟩ := nodup_append'.mp hnodup
  have hne : ∀ a ∈ (range userTables).flatMap (pagesAt T M), a ≠ pd :=
    fun a ha heq => hdisj ha (mem_singleton.mpr heq)
  have htables : freeTables pd (pdNo loaderPhysBase) s =
      some (freeAll ((range userTables).flatMap (pagesAt T M)) s) :=
    freeTables_eq h (fun i hi => mem_range.mp hi) (fun _ _ => rfl) (fun _ _ _ _ _ _ => rfl)
      hnodup' fun a ha => ⟨(hheld a (mem_append_left _ ha)).1,
        (hheld a (mem_append_left _ ha)).2, hne a ha⟩
  obtain ⟨hmem, hpage⟩ := hheld pd (mem_append_right _ (mem_singleton_self pd))
  have hzero : pd ≠ 0 := by
    have := hpage.kernel
    unfold loaderPhysBase at this
    omega
  rw [pagedirDestroy, if_neg hzero, if_neg hdir, htables, bind_some, dirPages, freeAll_append]
  exact freePage_eq hpage (mem_held_freeAll hmem fun hin => hne pd hin rfl)

end Destroy

/-- A call with what the page allocator answers if it is asked, or what others do with frames:
get one, free one, write to one. -/
inductive DirCall where
  | get (flags : Flags) (page : ℕ)
  | put (page : ℕ)
  | write (a : ℕ) (byte : UInt8)
  | set (upage kpage : ℕ) (writable : Bool) (answer : Option ℕ)
  | clear (upage : ℕ)
  deriving DecidableEq, Repr

/-- The page allocator, the frames that are out, and the frames by page number: the frame last
set for the page and not cleared since. -/
structure DirState where
  pages : Pages
  frames : List ℕ
  maps : List (ℕ × ℕ)

def mapOf (maps : List (ℕ × ℕ)) (n : ℕ) : Option ℕ :=
  maps.lookup n

/-- The page can be handed out. -/
def Fresh (k : Globals) (held : List ℕ) (a : ℕ) : Prop :=
  IsPage a ∧ (a - loaderPhysBase) / pgSize < k.initRamPages ∧ a ∉ held

instance (k : Globals) (held : List ℕ) (a : ℕ) : Decidable (Fresh k held a) :=
  inferInstanceAs (Decidable (_ ∧ _ ∧ _))

/-- Frames are freed when they are not mapped, unmapped user pages are mapped to distinct
frames. -/
def DirCall.Legal (k : Globals) (s : DirState) : DirCall → Prop
  | .get _ page => Fresh k s.pages.held page
  | .put page => page ∈ s.frames ∧ page ∉ s.maps.map snd
  | .write a _ => ∃ frame ∈ s.frames, frame ≤ a ∧ a < frame + pgSize
  | .set upage kpage _ answer => pgOfs upage = 0 ∧ isUserVaddr upage ∧
      mapOf s.maps (pgNo upage) = none ∧ kpage ∈ s.frames ∧ kpage ∉ s.maps.map snd ∧
      ∀ t ∈ answer, Fresh k s.pages.held t
  | .clear upage => pgOfs upage = 0 ∧ isUserVaddr upage

instance (k : Globals) (s : DirState) : ∀ c : DirCall, Decidable (c.Legal k s)
  | .get _ _ => inferInstanceAs (Decidable (Fresh _ _ _))
  | .put _ => inferInstanceAs (Decidable (_ ∧ _))
  | .write _ _ => inferInstanceAs (Decidable (∃ frame ∈ s.frames, _))
  | .set _ _ _ _ => inferInstanceAs (Decidable (_ ∧ _ ∧ _ ∧ _ ∧ _ ∧ _))
  | .clear _ => inferInstanceAs (Decidable (_ ∧ _))

def DirCall.exec (k : Globals) (pd : ℕ) (s : DirState) : DirCall → Option DirState
  | .get flags page => (Pages.getPage flags { s.pages with answers := [some page] }).map
      fun r => ⟨r.2, page :: s.frames, s.maps⟩
  | .put page => (s.pages.freePage page).map fun p => ⟨p, s.frames.erase page, s.maps⟩
  | .write a byte =>
    some ⟨{ s.pages with mem := update s.pages.mem a byte }, s.frames, s.maps⟩
  | .set upage kpage writable answer =>
    (pagedirSetPage k pd upage kpage writable { s.pages with answers := [answer] }).map
      fun r => ⟨r.2, s.frames, if r.1 then (pgNo upage, kpage) :: s.maps else s.maps⟩
  | .clear upage => (pagedirClearPage pd upage s.pages).map
      fun p => ⟨p, s.frames, s.maps.filter fun q => q.1 ≠ pgNo upage⟩

/-- One legal call; an assertion that fails has no result. -/
def dirStep (k : Globals) (pd : ℕ) (s : DirState) (c : DirCall) : Option DirState :=
  if c.Legal k s then c.exec k pd s else none

/-- After `paging_init` the directory of the kernel has no entries for user pages, and the
kernel has the directory and its page tables. -/
structure Booted (k : Globals) (s : Pages) : Prop where
  page : IsPage k.initPageDir
  dir : k.initPageDir ∈ s.held
  user : ∀ i < userTables, s.mem.word (k.initPageDir + 4 * i) = 0
  tables : ∀ i, userTables ≤ i → i < 1024 → ∀ t,
    pdeGetPt (s.mem.word (k.initPageDir + 4 * i)) = some t → t ∈ s.held

/-- The answers to come are different pages that can be handed out. -/
structure Pages.Supply (k : Globals) (s : Pages) : Prop where
  nodup : s.answers.reduceOption.Nodup
  fresh : ∀ a ∈ s.answers.reduceOption, Fresh k s.held a

variable {k : Globals} {s p : Pages} {pd : ℕ} {text : ℕ × ℕ}

theorem Pages.supply_singleton {answer : Option ℕ} (h : ∀ a ∈ answer, Fresh k s.held a) :
    Supply k { s with answers := [answer] } := by
  cases answer with
  | none => exact ⟨nodup_nil, fun a ha => absurd ha not_mem_nil⟩
  | some b =>
    refine ⟨nodup_singleton b, fun a ha => ?_⟩
    obtain rfl := mem_singleton.mp ha
    exact h a rfl

theorem Pages.Supply.freePage (h : s.Supply k) (a : ℕ) : Supply k (freeAll [a] s) :=
  ⟨h.nodup, fun b hb => ⟨(h.fresh b hb).1, (h.fresh b hb).2.1,
    fun hin => (h.fresh b hb).2.2 (mem_of_mem_erase hin)⟩⟩

/-- What a page is that has been handed out. -/
structure Pages.Granted (k : Globals) (flags : Flags) (s : Pages) (a : ℕ) (s' : Pages) : Prop where
  fresh : Fresh k s.held a
  held : s'.held = a :: s.held
  freed : s'.freed = s.freed
  supply : s'.Supply k
  zero : flags.zero → ∀ x, InPage a x → s'.mem x = 0
  same : ∀ x, ¬ InPage a x → s'.mem x = s.mem x

theorem Pages.Supply.getPage (h : s.Supply k) (flags : Flags) :
    (∃ a s', getPage flags s = some (some a, s') ∧ Granted k flags s a s') ∨
      flags.assert ∧ Pages.getPage flags s = none ∨
      ∃ answers, flags.assert = false ∧ Pages.getPage flags s = some (none, { s with answers }) ∧
        Supply k { s with answers } := by
  obtain ⟨mem, answers, held, freed⟩ := s
  have hnull : ∀ rest : List (Option ℕ), rest.reduceOption = answers.reduceOption →
      Supply k ⟨mem, rest, held, freed⟩ := fun rest hrest =>
    ⟨hrest ▸ h.nodup, fun a ha => h.fresh a (hrest ▸ ha)⟩
  cases answers with
  | nil =>
    cases hassert : flags.assert with
    | true => exact .inr (.inl ⟨rfl, by simp [Pages.getPage, hassert]⟩)
    | false => exact .inr (.inr ⟨[], rfl, by simp [Pages.getPage, hassert], h⟩)
  | cons answer answers =>
    cases answer with
    | none =>
      cases hassert : flags.assert with
      | true => exact .inr (.inl ⟨rfl, by simp [Pages.getPage, hassert]⟩)
      | false =>
        exact .inr (.inr ⟨answers, rfl, by simp [Pages.getPage, hassert], hnull answers rfl⟩)
    | some a =>
      obtain ⟨hnew, hnodup⟩ := nodup_cons.mp h.nodup
      have hfresh : Fresh k held a := h.fresh a mem_cons_self
      refine .inl ⟨a, _, rfl, hfresh, rfl, rfl, ⟨hnodup, fun b hb => ?_⟩, fun hzero x hx => ?_,
        fun x hx => ?_⟩
      · obtain ⟨hpage, hram, hnot⟩ := h.fresh b (mem_cons_of_mem _ hb)
        refine ⟨hpage, hram, fun hin => ?_⟩
        rcases mem_cons.mp hin with rfl | hin
        · exact hnew hb
        · exact hnot hin
      · rw [if_pos hzero]
        exact memset_of_mem hx
      · unfold InPage at hx
        split_ifs
        · exact memset_of_apart (by omega)
        · rfl

/-- What a run keeps: the tables map the pages in `maps`, and the directory, the page tables,
the frames and what the kernel had before are different pages that are all held. -/
structure DirInv (k : Globals) (boot : Pages) (pd : ℕ) (s : DirState) (T : ℕ → Option ℕ) :
    Prop where
  maps : Maps s.pages.mem pd T (mapOf s.maps)
  kernel : ∀ i, userTables ≤ i → i < 1024 →
    s.pages.mem.word (pd + 4 * i) = boot.mem.word (k.initPageDir + 4 * i)
  dir : pd ∈ s.pages.held ∧ pd ∉ boot.held
  table : ∀ i t, T i = some t → t ∈ s.pages.held ∧ t ∉ boot.held
  frame : ∀ a ∈ s.frames, a ∈ s.pages.held ∧ a ∉ boot.held ∧ a ≠ pd ∧ (∀ i, T i ≠ some a) ∧
    IsPage a ∧ (a - loaderPhysBase) / pgSize < k.initRamPages
  boot : ∀ a ∈ boot.held, a ∈ s.pages.held
  frames : s.frames.Nodup
  used : ∀ p ∈ s.maps, p.2 ∈ s.frames
  keys : (s.maps.map fst).Nodup
  values : (s.maps.map snd).Nodup

section Run

variable {k : Globals} {boot p : Pages} {pd a n : ℕ} {s s' : DirState} {T M : ℕ → Option ℕ}
  {m : Mem} {maps : List (ℕ × ℕ)} {calls : List DirCall}

theorem mapOf_cons (n a : ℕ) (maps : List (ℕ × ℕ)) :
    mapOf ((n, a) :: maps) = update (mapOf maps) n (some a) := by
  funext n'
  by_cases hn : n' = n
  · rw [hn, update_self, mapOf, lookup_cons_self]
  · rw [update_of_ne hn, mapOf, lookup_cons, beq_eq_false_iff_ne.mpr hn]
    rfl

theorem mapOf_filter (n : ℕ) (maps : List (ℕ × ℕ)) :
    mapOf (maps.filter fun q => q.1 ≠ n) = update (mapOf maps) n none := by
  induction maps with
  | nil => exact (update_eq_self n _).symm
  | cons q maps ih =>
    obtain ⟨n', a⟩ := q
    rw [mapOf_cons]
    by_cases hn : n' = n
    · rw [filter_cons_of_neg (by simpa using hn), ih, hn, update_idem]
    · rw [filter_cons_of_pos (by simpa using hn), mapOf_cons, ih, update_comm hn]

theorem mapOf_eq_some (hkeys : (maps.map fst).Nodup) : mapOf maps n = some a ↔ (n, a) ∈ maps := by
  induction maps with
  | nil => simp [mapOf]
  | cons q maps ih =>
    obtain ⟨n', a'⟩ := q
    obtain ⟨hnew, hkeys⟩ := nodup_cons.mp hkeys
    rw [mapOf_cons, mem_cons]
    by_cases hn : n = n'
    · subst hn
      rw [update_self, some.injEq]
      constructor
      · rintro rfl
        exact .inl rfl
      · rintro (heq | hmem)
        · exact (mk.inj heq).2.symm
        · exact absurd (mem_map_of_mem hmem) hnew
    · rw [update_of_ne hn, ih hkeys]
      refine (or_iff_right fun heq => hn (mk.inj heq).1).symm

theorem Maps.not_tabular {i x : ℕ} (h : Maps m pd T M) (hi : userTables ≤ i) (hi' : i < 1024)
    (hx : pd + 4 * i ≤ x) (hx' : x < pd + 4 * i + 4) : ¬ Tabular pd T x := by
  rintro (hin | ⟨j, t, ht, hin⟩)
  · omega
  · obtain ⟨-, hpage, hne⟩ := h.table j t ht
    have := hpage.apart h.page hne
    unfold InPage at hin
    unfold pgSize at *
    omega

namespace DirInv

section

variable (h : DirInv k boot pd s T)

include h

theorem touch (ha : IsPage a) (hpd : a ≠ pd) (hT : ∀ i, T i ≠ some a)
    (hm : ∀ x, ¬ InPage a x → m x = s.pages.mem x) :
    Maps m pd T (mapOf s.maps) ∧ ∀ i, userTables ≤ i → i < 1024 →
      m.word (pd + 4 * i) = boot.mem.word (k.initPageDir + 4 * i) := by
  refine ⟨h.maps.congr fun x hx => hm x (h.maps.not_inPage ha hpd hT hx), fun i hi hi' => ?_⟩
  rw [← h.kernel i hi hi']
  refine word_congr fun x hx hx' => hm x fun hin => ?_
  have := ha.apart h.maps.page hpd
  unfold InPage at hin
  unfold pgSize at *
  omega

theorem answers (answers : List (Option ℕ)) :
    DirInv k boot pd ⟨{ s.pages with answers }, s.frames, s.maps⟩ T :=
  ⟨h.maps, h.kernel, h.dir, h.table, h.frame, h.boot, h.frames, h.used, h.keys, h.values⟩

theorem fresh (ha : Fresh k s.pages.held a) :
    IsPage a ∧ a ≠ pd ∧ (∀ i, T i ≠ some a) ∧ a ∉ boot.held ∧ a ∉ s.frames :=
  ⟨ha.1, fun heq => ha.2.2 (heq ▸ h.dir.1), fun i hi => ha.2.2 (h.table i a hi).1,
    fun hmem => ha.2.2 (h.boot a hmem), fun hmem => ha.2.2 (h.frame a hmem).1⟩

theorem grant {flags : Flags} (hgrant : s.pages.Granted k flags a p) :
    DirInv k boot pd ⟨p, a :: s.frames, s.maps⟩ T := by
  obtain ⟨hpage, hpd, hT, hboot, hframes⟩ := h.fresh hgrant.fresh
  obtain ⟨hmaps, hkernel⟩ := h.touch hpage hpd hT hgrant.same
  have hheld : ∀ b ∈ s.pages.held, b ∈ p.held := fun b hb =>
    hgrant.held ▸ mem_cons_of_mem _ hb
  refine ⟨hmaps, hkernel, ⟨hheld _ h.dir.1, h.dir.2⟩,
    fun i t ht => ⟨hheld t (h.table i t ht).1, (h.table i t ht).2⟩, fun b hb => ?_,
    fun b hb => hheld b (h.boot b hb), nodup_cons.mpr ⟨hframes, h.frames⟩,
    fun q hq => mem_cons_of_mem _ (h.used q hq), h.keys, h.values⟩
  rcases mem_cons.mp hb with rfl | hb
  · exact ⟨hgrant.held ▸ mem_cons_self, hboot, hpd, hT, hpage, hgrant.fresh.2.1⟩
  · exact ⟨hheld b (h.frame b hb).1, (h.frame b hb).2⟩

end

theorem get (h : DirInv k boot pd s T) (flags : Flags) (ha : Fresh k s.pages.held a) :
    ∃ p, Pages.getPage flags { s.pages with answers := [some a] } = some (some a, p) ∧
      DirInv k boot pd ⟨p, a :: s.frames, s.maps⟩ T := by
  have hsupply : Pages.Supply k { s.pages with answers := [some a] } :=
    Pages.supply_singleton fun b hb => by cases hb; exact ha
  obtain ⟨p, hget, hgrant⟩ : ∃ p, Pages.getPage flags { s.pages with answers := [some a] } =
      some (some a, p) ∧ Pages.Granted k flags { s.pages with answers := [some a] } a p := by
    rcases hsupply.getPage flags with ⟨b, p, hget, hgrant⟩ | ⟨-, hnone⟩ | ⟨_, -, hnull, -⟩
    · cases hget
      exact ⟨_, rfl, hgrant⟩
    · cases hnone
    · cases hnull
  exact ⟨p, hget, (h.answers [some a]).grant hgrant⟩

theorem put (h : DirInv k boot pd s T) (ha : a ∈ s.frames) (hmap : a ∉ s.maps.map snd) :
    s.pages.freePage a = some (Pages.freeAll [a] s.pages) ∧
      DirInv k boot pd ⟨Pages.freeAll [a] s.pages, s.frames.erase a, s.maps⟩ T := by
  obtain ⟨hheld, hboot, hpd, hT, hpage, -⟩ := h.frame a ha
  obtain ⟨hmaps, hkernel⟩ := h.touch (m := s.pages.mem.memset a 0xcc pgSize) hpage hpd hT
    fun x hx => by
      unfold InPage at hx
      exact memset_of_apart (by omega)
  -- the pages that stay are different from this one
  have hstay : ∀ b ∈ s.pages.held, b ≠ a → b ∈ s.pages.held.erase a :=
    fun b hb hne => (mem_erase_of_ne hne).mpr hb
  refine ⟨Pages.freePage_eq hpage hheld, hmaps, hkernel, ⟨hstay pd h.dir.1 hpd.symm, h.dir.2⟩,
    fun i t ht => ⟨hstay t (h.table i t ht).1 ?_, (h.table i t ht).2⟩, fun b hb => ?_,
    fun b hb => hstay b (h.boot b hb) ?_, h.frames.erase a, fun q hq => ?_, h.keys, h.values⟩
  · rintro rfl
    exact hT i ht
  · obtain ⟨hne, hb⟩ := h.frames.mem_erase_iff.mp hb
    exact ⟨hstay b (h.frame b hb).1 hne, (h.frame b hb).2⟩
  · rintro rfl
    exact hboot hb
  · refine (mem_erase_of_ne ?_).mpr (h.used q hq)
    rintro rfl
    exact hmap (mem_map_of_mem hq)

theorem write (h : DirInv k boot pd s T) (ha : a ∈ s.frames)
    (hm : ∀ x, ¬ InPage a x → m x = s.pages.mem x) :
    DirInv k boot pd ⟨{ s.pages with mem := m }, s.frames, s.maps⟩ T := by
  obtain ⟨-, -, hpd, hT, hpage, -⟩ := h.frame a ha
  obtain ⟨hmaps, hkernel⟩ := h.touch hpage hpd hT hm
  exact ⟨hmaps, hkernel, h.dir, h.table, h.frame, h.boot, h.frames, h.used, h.keys, h.values⟩

theorem kernel_of_tabular (h : DirInv k boot pd s T) {T' M' : ℕ → Option ℕ}
    (hmaps : Maps m pd T' M') (hm : ∀ x, ¬ Tabular pd T' x → m x = s.pages.mem x) (i : ℕ)
    (hi : userTables ≤ i) (hi' : i < 1024) :
    m.word (pd + 4 * i) = boot.mem.word (k.initPageDir + 4 * i) := by
  rw [← h.kernel i hi hi']
  exact word_congr fun x hx hx' => hm x (hmaps.not_tabular hi hi' hx hx')

variable {upage kpage : ℕ}

theorem clear (h : DirInv k boot pd s T) (haligned : pgOfs upage = 0) (huser : isUserVaddr upage) :
    ∃ p, pagedirClearPage pd upage s.pages = some p ∧
      DirInv k boot pd ⟨p, s.frames, s.maps.filter fun q => q.1 ≠ pgNo upage⟩ T := by
  obtain ⟨m, hclear, hmaps, hm⟩ := clearPage_eq (s := s.pages) h.maps haligned huser
  refine ⟨_, hclear, ?_, h.kernel_of_tabular hmaps hm, h.dir, h.table, h.frame, h.boot, h.frames,
    fun q hq => h.used q (mem_filter.mp hq).1, h.keys.sublist (filter_sublist.map _),
    h.values.sublist (filter_sublist.map _)⟩
  rw [mapOf_filter]
  exact hmaps

variable (h : DirInv k boot pd s T) (hboot : Booted k boot)

include h hboot

theorem canSet (haligned : pgOfs upage = 0) (huser : isUserVaddr upage) (hk : kpage ∈ s.frames) :
    CanSet k pd upage kpage := by
  obtain ⟨-, -, -, -, hpage, hram⟩ := h.frame kpage hk
  exact ⟨haligned, huser, hpage, hram, fun heq => h.dir.2 (heq ▸ hboot.dir)⟩

theorem setPage (hsupply : s.pages.Supply k) (haligned : pgOfs upage = 0)
    (huser : isUserVaddr upage) (hnone : mapOf s.maps (pgNo upage) = none)
    (hk : kpage ∈ s.frames) (hmap : kpage ∉ s.maps.map snd) (writable : Bool) :
    ∃ ok p T', pagedirSetPage k pd upage kpage writable s.pages = some (ok, p) ∧ p.Supply k ∧
      DirInv k boot pd ⟨p, s.frames, if ok then (pgNo upage, kpage) :: s.maps else s.maps⟩ T' ∧
      ∀ a ∈ s.frames, ∀ x, InPage a x → p.mem x = s.pages.mem x := by
  have hcan := h.canSet hboot haligned huser hk
  have hused : ∀ q ∈ (pgNo upage, kpage) :: s.maps, q.2 ∈ s.frames :=
    forall_mem_cons.mpr ⟨hk, h.used⟩
  have hkeys : (((pgNo upage, kpage) :: s.maps).map fst).Nodup := by
    refine nodup_cons.mpr ⟨fun hmem => ?_, h.keys⟩
    obtain ⟨⟨n, a⟩, hq, hn⟩ := mem_map.mp hmem
    have := (mapOf_eq_some h.keys).mpr hq
    dsimp only at hn
    rw [hn, hnone] at this
    cases this
  have hvalues : (((pgNo upage, kpage) :: s.maps).map snd).Nodup := nodup_cons.mpr ⟨hmap, h.values⟩
  cases ht : T (pdNo upage) with
  | some t =>
    obtain ⟨m, hset, hmaps, hm⟩ := setPage_present (s := s.pages) h.maps hcan ht hnone writable
    refine ⟨true, _, T, hset, ⟨hsupply.nodup, hsupply.fresh⟩, ⟨?_, h.kernel_of_tabular hmaps hm,
      h.dir, h.table, h.frame, h.boot, h.frames, hused, hkeys, hvalues⟩, fun a ha x hx => ?_⟩
    · change Maps m pd T (mapOf ((pgNo upage, kpage) :: s.maps))
      rw [mapOf_cons]
      exact hmaps
    · obtain ⟨-, -, hapd, haT, hapage, -⟩ := h.frame a ha
      exact hm x fun htab => hmaps.not_inPage hapage hapd haT htab hx
  | none =>
    rcases hsupply.getPage { zero := true } with
      ⟨t, p, hget, hgrant⟩ | ⟨hfalse, -⟩ | ⟨answers, -, hget, hsupply'⟩
    · obtain ⟨htpage, htpd, htT, htboot, htframes⟩ := h.fresh hgrant.fresh
      obtain ⟨m, hset, hmaps, hm⟩ := setPage_create (s := s.pages) h.maps hcan ht hget htpage
        htpd htT (hgrant.zero rfl) hgrant.same writable
      have hheld : ∀ b ∈ s.pages.held, b ∈ p.held := fun b hb =>
        hgrant.held ▸ mem_cons_of_mem _ hb
      have hframe : ∀ a ∈ s.frames, ∀ i, update T (pdNo upage) (some t) i ≠ some a := by
        intro a ha i hi
        rcases Slots.of_update_some hi with ⟨-, rfl⟩ | ⟨-, hi⟩
        · exact htframes ha
        · exact (h.frame a ha).2.2.2.1 i hi
      refine ⟨true, _, update T (pdNo upage) (some t), hset,
        ⟨hgrant.supply.nodup, hgrant.supply.fresh⟩, ⟨?_, h.kernel_of_tabular hmaps hm,
        ⟨hheld _ h.dir.1, h.dir.2⟩, fun i t' ht' => ?_, fun a ha => ?_,
        fun a ha => hheld a (h.boot a ha), h.frames, hused, hkeys, hvalues⟩, fun a ha x hx => ?_⟩
      · change Maps m pd _ (mapOf ((pgNo upage, kpage) :: s.maps))
        rw [mapOf_cons]
        exact hmaps
      · rcases Slots.of_update_some ht' with ⟨-, rfl⟩ | ⟨-, ht'⟩
        · exact ⟨hgrant.held ▸ mem_cons_self, htboot⟩
        · exact ⟨hheld _ (h.table i t' ht').1, (h.table i t' ht').2⟩
      · obtain ⟨hmem, haboot, hapd, -, hrest⟩ := h.frame a ha
        exact ⟨hheld a hmem, haboot, hapd, hframe a ha, hrest⟩
      · obtain ⟨-, -, hapd, -, hapage, -⟩ := h.frame a ha
        exact hm x fun htab => hmaps.not_inPage hapage hapd (hframe a ha) htab hx
    · cases hfalse
    · have hset := setPage_fail (s := s.pages) h.maps hcan ht hget writable
      exact ⟨false, _, T, hset, hsupply', h.answers answers, fun _ _ _ _ => rfl⟩

theorem set {writable : Bool} {answer : Option ℕ}
    (hc : (DirCall.set upage kpage writable answer).Legal k s) :
    ∃ ok p T', pagedirSetPage k pd upage kpage writable { s.pages with answers := [answer] } =
        some (ok, p) ∧
      DirInv k boot pd ⟨p, s.frames, if ok then (pgNo upage, kpage) :: s.maps else s.maps⟩ T' := by
  obtain ⟨haligned, huser, hnone, hk, hmap, hanswer⟩ := hc
  obtain ⟨ok, p, T', hset, -, hp, -⟩ := (h.answers [answer]).setPage hboot
    (Pages.supply_singleton hanswer) haligned huser hnone hk hmap writable
  exact ⟨ok, p, T', hset, hp⟩

end DirInv

theorem dirStep_inv (hboot : Booted k boot) {c : DirCall} (h : ∃ T, DirInv k boot pd s T)
    (hs : dirStep k pd s c = some s') : ∃ T, DirInv k boot pd s' T := by
  obtain ⟨T, h⟩ := h
  obtain ⟨hc, hexec⟩ := ite_none_right_eq_some.mp hs
  cases c with
  | get flags page =>
    obtain ⟨p, hget, hp⟩ := h.get flags hc
    rw [DirCall.exec, hget] at hexec
    cases hexec
    exact ⟨T, hp⟩
  | put page =>
    obtain ⟨hput, hp⟩ := h.put hc.1 hc.2
    rw [DirCall.exec, hput] at hexec
    cases hexec
    exact ⟨T, hp⟩
  | write a byte =>
    obtain ⟨frame, hframe, ha⟩ := hc
    cases hexec
    exact ⟨T, h.write hframe fun x hx =>
      update_of_ne (fun heq => hx (by rw [heq]; exact ha)) ..⟩
  | set upage kpage writable answer =>
    obtain ⟨ok, p, T', hset, hp⟩ := h.set hboot hc
    rw [DirCall.exec, hset] at hexec
    cases hexec
    exact ⟨T', hp⟩
  | clear upage =>
    obtain ⟨p, hclear, hp⟩ := h.clear hc.1 hc.2
    rw [DirCall.exec, hclear] at hexec
    cases hexec
    exact ⟨T, hp⟩

theorem dirInv_granted (hboot : Booted k boot) (hgrant : boot.Granted k {} pd p) :
    DirInv k boot pd ⟨{ p with mem := p.mem.memcpy pd k.initPageDir pgSize }, [], []⟩
      fun _ => none := by
  obtain ⟨hpage, -, hnot⟩ := hgrant.fresh
  have hword : ∀ i < 1024, (p.mem.memcpy pd k.initPageDir pgSize).word (pd + 4 * i) =
      boot.mem.word (k.initPageDir + 4 * i) := fun i hi => by
    rw [word_memcpy (by unfold pgSize; omega), Nat.add_sub_cancel_left]
    refine word_congr fun x hx hx' => hgrant.same x fun hin => ?_
    have := hpage.apart hboot.page fun heq => hnot (heq ▸ hboot.dir)
    unfold InPage at hin
    unfold pgSize at *
    omega
  refine ⟨⟨hpage, fun _ _ h => ?_, fun _ _ _ h => ?_, fun i hi => ?_, fun _ _ h => ?_,
    fun _ _ h => ?_⟩, fun i _ hi => hword i hi, ⟨hgrant.held ▸ mem_cons_self, hnot⟩,
    fun _ _ h => ?_, fun _ h => ?_, fun _ ha => hgrant.held ▸ mem_cons_of_mem _ ha,
    nodup_nil, fun _ h => ?_, nodup_nil, nodup_nil⟩
  · cases h
  · cases h
  · rw [elim_none, ← hboot.user i hi]
    exact hword i (hi.trans (by decide))
  · cases h
  · cases h
  · cases h
  · cases h
  · cases h

theorem dirInv_create (hboot : Booted k boot) (hfresh : Fresh k boot.held pd)
    (hcreate : pagedirCreate k { boot with answers := [some pd] } = some (some pd, p)) :
    DirInv k boot pd ⟨p, [], []⟩ fun _ => none := by
  cases hcreate
  exact dirInv_granted hboot ⟨hfresh, rfl, rfl, ⟨nodup_nil, fun _ h => absurd h
    not_mem_nil⟩, fun h => absurd h Bool.false_ne_true, fun _ _ => rfl⟩

theorem run_dirInv (hboot : Booted k boot) (hfresh : Fresh k boot.held pd)
    (hcreate : pagedirCreate k { boot with answers := [some pd] } = some (some pd, p))
    (hr : Run.run (dirStep k pd) ⟨p, [], []⟩ calls = some s) : ∃ T, DirInv k boot pd s T :=
  Run.run_invariant' (I := fun s => ∃ T, DirInv k boot pd s T)
    (fun _ _ _ h hs => dirStep_inv hboot h hs) ⟨_, dirInv_create hboot hfresh hcreate⟩ hr

theorem Maps.exists_table_iff (h : Maps m pd T M) :
    (∃ i, T i = some a) ↔ ∃ i < userTables, pdeGetPt (m.word (pd + 4 * i)) = some a := by
  constructor
  · rintro ⟨i, hi⟩
    obtain ⟨hlt, hpage, -⟩ := h.table i a hi
    refine ⟨i, hlt, ?_⟩
    rw [h.pde i hlt, hi]
    exact pdeGetPt_eq hpage
  · rintro ⟨i, hlt, hi⟩
    rw [h.pde i hlt] at hi
    cases ht : T i with
    | none =>
      rw [ht] at hi
      cases hi
    | some t =>
      rw [ht, elim_some, pdeGetPt_eq (h.table i t ht).2.1] at hi
      exact ⟨i, ht.trans hi⟩

/-- A page directory is a map from pages to frames, and is torn down exactly. -/
theorem pagedir_refines_map (hboot : Booted k boot) (hfresh : Fresh k boot.held pd)
    (hcreate : pagedirCreate k { boot with answers := [some pd] } = some (some pd, p))
    (hr : Run.run (dirStep k pd) ⟨p, [], []⟩ calls = some s) :
    (∀ a, isUserVaddr a → pagedirGetPage pd a s.pages = some (translate (mapOf s.maps) a)) ∧
    (∀ upage kpage writable answer, (DirCall.set upage kpage writable answer).Legal k s →
      ∃ ok p', pagedirSetPage k pd upage kpage writable { s.pages with answers := [answer] } =
          some (ok, p') ∧
        ∀ a, isUserVaddr a → pagedirGetPage pd a p' =
          if ok ∧ pgNo a = pgNo upage then some (kpage + pgOfs a)
          else pagedirGetPage pd a s.pages) ∧
    (∀ upage, pgOfs upage = 0 → isUserVaddr upage →
      ∃ p', pagedirClearPage pd upage s.pages = some p' ∧
        ∀ a, isUserVaddr a → pagedirGetPage pd a p' =
          if pgNo a = pgNo upage then some 0 else pagedirGetPage pd a s.pages) ∧
    ∃ freed p', pagedirDestroy k pd s.pages = some p' ∧ p'.freed = freed ++ s.pages.freed ∧
      freed.Nodup ∧
      (∀ a, a ∈ freed ↔ a = pd ∨
        (∃ i < userTables, pdeGetPt (s.pages.mem.word (pd + 4 * i)) = some a) ∨
        ∃ n, mapOf s.maps n = some a) ∧
      ∀ i, userTables ≤ i → i < 1024 → ∀ t,
        pdeGetPt (s.pages.mem.word (pd + 4 * i)) = some t → t ∉ freed := by
  obtain ⟨T, h⟩ := run_dirInv hboot hfresh hcreate hr
  have hget : ∀ a, isUserVaddr a →
      pagedirGetPage pd a s.pages = some (translate (mapOf s.maps) a) :=
    fun a ha => getPage_eq (s := s.pages) h.maps ha
  refine ⟨hget, fun upage kpage writable answer hc => ?_, fun upage haligned huser => ?_, ?_⟩
  · obtain ⟨ok, p', T', hset, hp⟩ := h.set hboot hc
    refine ⟨ok, p', hset, fun a ha => ?_⟩
    rw [getPage_eq (s := p') hp.maps ha, hget a ha]
    cases ok with
    | false => rfl
    | true =>
      change some (translate (mapOf ((pgNo upage, kpage) :: s.maps)) a) = _
      rw [mapOf_cons, translate]
      by_cases heq : pgNo a = pgNo upage
      · rw [if_pos ⟨rfl, heq⟩, heq, update_self]
        rfl
      · rw [if_neg fun hand => heq hand.2, update_of_ne heq]
        rfl
  · obtain ⟨p', hclear, hp⟩ := h.clear haligned huser
    refine ⟨p', hclear, fun a ha => ?_⟩
    rw [getPage_eq (s := p') hp.maps ha, hget a ha]
    change some (translate (mapOf (s.maps.filter fun q => q.1 ≠ pgNo upage)) a) = _
    rw [mapOf_filter, translate]
    by_cases heq : pgNo a = pgNo upage
    · rw [if_pos heq, heq, update_self]
      rfl
    · rw [if_neg heq, update_of_ne heq]
      rfl
  · have hframe : ∀ n a, mapOf s.maps n = some a → a ∈ s.frames :=
      fun n a hn => h.used (n, a) ((mapOf_eq_some h.keys).mp hn)
    have hinj : ∀ n n' a, mapOf s.maps n = some a → mapOf s.maps n' = some a → n = n' := by
      intro n n' a hn hn'
      have := inj_on_of_nodup_map h.values ((mapOf_eq_some h.keys).mp hn)
        ((mapOf_eq_some h.keys).mp hn') rfl
      exact (mk.inj this).1
    have hnodup := nodup_dirPages h.maps hinj fun n a hn =>
      ⟨(h.frame a (hframe n a hn)).2.2.1, (h.frame a (hframe n a hn)).2.2.2.1⟩
    -- everything that is freed is held, and not by the kernel
    have hheld : ∀ a ∈ dirPages pd T (mapOf s.maps),
        (a ∈ s.pages.held ∧ IsPage a) ∧ a ∉ boot.held := by
      intro a ha
      rcases (mem_dirPages h.maps).mp ha with rfl | ⟨i, hi⟩ | ⟨n, hn⟩
      · exact ⟨⟨h.dir.1, h.maps.page⟩, h.dir.2⟩
      · exact ⟨⟨(h.table i a hi).1, (h.maps.table i a hi).2.1⟩, (h.table i a hi).2⟩
      · obtain ⟨hmem, hnot, -, -, hpage, -⟩ := h.frame a (hframe n a hn)
        exact ⟨⟨hmem, hpage⟩, hnot⟩
    have hdir : pd ≠ k.initPageDir := fun heq => h.dir.2 (heq ▸ hboot.dir)
    refine ⟨(dirPages pd T (mapOf s.maps)).reverse, _,
      pagedirDestroy_eq h.maps hdir hnodup fun a ha => (hheld a ha).1, Pages.freed_freeAll _ _,
      nodup_reverse.mpr hnodup, fun a => ?_, fun i hi hi' t ht hmem => ?_⟩
    · rw [mem_reverse, mem_dirPages h.maps, h.maps.exists_table_iff]
    · rw [h.kernel i hi hi'] at ht
      exact (hheld t (mem_reverse.mp hmem)).2 (hboot.tables i hi hi' t ht)

/-- A kernel with a directory that has one page table. -/
def sampleBoot : Pages where
  mem := setWord (fun _ => 0) (0xc0101000 + 4 * 768) 0x102007
  answers := [some 0xc0103000]
  held := [0xc0101000, 0xc0102000]
  freed := []

/-- Two pages are mapped, there is no memory for a third, and the first is unmapped. -/
def sampleDirCalls : List DirCall :=
  [.get {} 0xc0200000, .get { zero := true } 0xc0201000, .get {} 0xc0202000,
    .set 0x08048000 0xc0200000 true (some 0xc0104000), .set 0x08049000 0xc0201000 false none,
    .set 0x10000000 0xc0202000 false none, .write 0xc0200123 7, .clear 0x08048000]

theorem sampleBoot_booted : Booted ⟨0xc0101000, 1024⟩ sampleBoot where
  page := by decide
  dir := by decide
  user i hi := by
    unfold userTables at hi
    refine (word_setWord_of_apart ?_).trans rfl
    dsimp only
    omega
  tables i hi hi' t ht := by
    by_cases heq : i = 768
    · subst heq
      have hword : sampleBoot.mem.word (0xc0101000 + 4 * 768) = 0x102007 :=
        word_setWord _ _ (by decide)
      rw [hword] at ht
      cases ht
      decide
    · have hword : sampleBoot.mem.word (0xc0101000 + 4 * i) = 0 :=
        (word_setWord_of_apart (by omega)).trans rfl
      rw [hword] at ht
      cases ht

theorem pagedir_refines_map_sample :
    ∃ p s, pagedirCreate ⟨0xc0101000, 1024⟩ sampleBoot = some (some 0xc0103000, p) ∧
      Run.run (dirStep ⟨0xc0101000, 1024⟩ 0xc0103000) ⟨p, [], []⟩ sampleDirCalls = some s ∧
      pagedirGetPage 0xc0103000 0x08049123 s.pages = some 0xc0201123 ∧
      pagedirGetPage 0xc0103000 0x08048000 s.pages = some 0 ∧
      ∃ freed p', pagedirDestroy ⟨0xc0101000, 1024⟩ 0xc0103000 s.pages = some p' ∧
        p'.freed = freed ++ s.pages.freed ∧ freed.Nodup ∧ 0xc0201000 ∈ freed := by
  have hall : (pagedirCreate ⟨0xc0101000, 1024⟩ sampleBoot).bind (fun r =>
      (Run.run (dirStep ⟨0xc0101000, 1024⟩ 0xc0103000) ⟨r.2, [], []⟩ sampleDirCalls).map
        fun s => (r.1, s.maps)) = some (some 0xc0103000, [(0x8049, 0xc0201000)]) := by
    decide +kernel
  obtain ⟨⟨o, p⟩, hcreate, hrun⟩ := bind_eq_some_iff.mp hall
  obtain ⟨s, hr, heq⟩ := map_eq_some_iff.mp hrun
  obtain ⟨rfl, hmaps⟩ := mk.inj heq
  have hfresh : Fresh ⟨0xc0101000, 1024⟩ sampleBoot.held 0xc0103000 := by decide
  obtain ⟨hget, -, -, freed, p', hdestroy, hfreed, hnodup, hmem, -⟩ :=
    pagedir_refines_map sampleBoot_booted hfresh hcreate hr
  rw [hmaps] at hget hmem
  exact ⟨p, s, hcreate, hr, (hget _ (by decide)).trans (by decide),
    (hget _ (by decide)).trans (by decide), freed, p', hdestroy, hfreed, hnodup,
    (hmem _).mpr (.inr (.inr ⟨0x8049, by decide⟩))⟩

end Run

end CS162.Userprog
