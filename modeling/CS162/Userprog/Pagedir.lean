import CS162.Lib.Slots
import CS162.Threads.Palloc
import CS162.Threads.Pte

/-!
# Page directories

The functions of `userprog/pagedir.c` on the memory of the kernel, written for any state that
has the calls of the page allocator.  `Maps m pd T M` says that the directory at `pd` has the
page tables `T`, and that these map the pages `M`.
-/

namespace CS162.Userprog

open Option Mem Function Slots

open Threads

/-- The memory of the kernel and the calls of the page allocator. -/
class PageAlloc (σ : Type) where
  mem : σ → Mem
  setMem : σ → Mem → σ
  /-- `palloc_get_page`. -/
  getPage : Flags → σ → Option (Option ℕ × σ)
  /-- `palloc_free_page`. -/
  freePage : ℕ → σ → Option σ
  mem_setMem : ∀ s m, mem (setMem s m) = m
  setMem_mem : ∀ s, setMem s (mem s) = s
  setMem_setMem : ∀ s m m', setMem (setMem s m) m' = setMem s m'

structure Globals where
  initPageDir : ℕ
  initRamPages : ℕ

open PageAlloc (mem setMem freePage)

section Functions

variable {σ : Type} [PageAlloc σ]

/-- The entry for `vaddr` in the page table that the entry at `pde` points to. -/
def entryFor (pde vaddr : ℕ) (s : σ) : Option (Option ℕ × σ) :=
  (pdeGetPt ((mem s).word pde)).map fun pt => (some (pt + 4 * ptNo vaddr), s)

def lookupPage (pd vaddr : ℕ) (create : Bool) (s : σ) : Option (Option ℕ × σ) :=
  if pd = 0 ∨ create ∧ ¬ isUserVaddr vaddr then none
  else if (mem s).word (pd + 4 * pdNo vaddr) = 0 then
    if create then
      (PageAlloc.getPage { zero := true } s).bind fun
        | (none, s) => some (none, s)
        | (some pt, s) => (pdeCreate pt).bind fun pde =>
          entryFor (pd + 4 * pdNo vaddr) vaddr
            (setMem s ((mem s).setWord (pd + 4 * pdNo vaddr) pde))
    else some (none, s)
  else entryFor (pd + 4 * pdNo vaddr) vaddr s

def pagedirCreate (k : Globals) (s : σ) : Option (Option ℕ × σ) :=
  (PageAlloc.getPage {} s).map fun
    | (none, s) => (none, s)
    | (some pd, s) => (some pd, setMem s ((mem s).memcpy pd k.initPageDir pgSize))

/-- The loop of `pagedir_destroy` over the entries of a page table. -/
def freeFrames (pt : ℕ) (s : σ) : Option σ :=
  (List.range 1024).foldlM (fun s j =>
    let pte := (mem s).word (pt + 4 * j)
    if pte &&& pteP ≠ 0 then (pteGetPage pte).bind fun page => freePage page s else some s) s

/-- The loop of `pagedir_destroy` over the entries of the page directory. -/
def freeTables (pd cnt : ℕ) (s : σ) : Option σ :=
  (List.range cnt).foldlM (fun s i =>
    let pde := (mem s).word (pd + 4 * i)
    if pde &&& pteP ≠ 0 then
      (pdeGetPt pde).bind fun pt => (freeFrames pt s).bind fun s => freePage pt s
    else some s) s

def pagedirDestroy (k : Globals) (pd : ℕ) (s : σ) : Option σ :=
  if pd = 0 then some s
  else if pd = k.initPageDir then none
  else (freeTables pd (pdNo loaderPhysBase) s).bind fun s => freePage pd s

def pagedirSetPage (k : Globals) (pd upage kpage : ℕ) (writable : Bool) (s : σ) :
    Option (Bool × σ) :=
  if pgOfs upage = 0 ∧ pgOfs kpage = 0 ∧ isUserVaddr upage ∧
      (vtop kpage).any (fun paddr => paddr >>> 12 < k.initRamPages) ∧ pd ≠ k.initPageDir then
    (lookupPage pd upage true s).bind fun
      | (none, s) => some (false, s)
      | (some pte, s) =>
        if (mem s).word pte &&& pteP = 0 then
          (pteCreateUser kpage writable).map fun w =>
            (true, setMem s ((mem s).setWord pte w))
        else none
  else none

def pagedirGetPage (pd uaddr : ℕ) (s : σ) : Option ℕ :=
  if isUserVaddr uaddr then
    (lookupPage pd uaddr false s).bind fun
      | (none, _) => some 0
      | (some pte, s) =>
        if (mem s).word pte &&& pteP ≠ 0 then
          (pteGetPage ((mem s).word pte)).map (· + pgOfs uaddr)
        else some 0
  else none

/-- The loop `while (pagedir_get_page (pd, uaddr)) uaddr += PGSIZE`. -/
def skipMapped (pd : ℕ) (s : σ) : ℕ → ℕ → Option ℕ
  | 0, _ => none
  | fuel + 1, uaddr =>
    (pagedirGetPage pd uaddr s).bind fun kaddr =>
      if kaddr = 0 then some uaddr else skipMapped pd s fuel ((uaddr + pgSize) % 2 ^ 32)

def pagedirClearPage (pd upage : ℕ) (s : σ) : Option σ :=
  if pgOfs upage = 0 ∧ isUserVaddr upage then
    (lookupPage pd upage false s).map fun
      | (none, s) => s
      | (some pte, s) =>
        if (mem s).word pte &&& pteP ≠ 0 then
          setMem s ((mem s).setWord pte ((mem s).word pte &&& (2 ^ 32 - 1 - pteP)))
        else s
  else none

end Functions

def InPage (a x : ℕ) : Prop :=
  a ≤ x ∧ x < a + pgSize

def EntryMaps (w : ℕ) : Option ℕ → Prop
  | none => w % 2 = 0
  | some frame => w % 2 = 1 ∧ IsPage frame ∧ w / pgSize * pgSize = frame - loaderPhysBase

/-- The number of entries of a page directory that are for user pages. -/
def userTables : ℕ :=
  768

/-- The directory at `pd` has the page tables `T`, which map the page with number `n` to the
frame `M n`. -/
structure Maps (m : Mem) (pd : ℕ) (T M : ℕ → Option ℕ) : Prop where
  page : IsPage pd
  table : ∀ i t, T i = some t → i < userTables ∧ IsPage t ∧ t ≠ pd
  inj : ∀ i j t, T i = some t → T j = some t → i = j
  pde : ∀ i < userTables, m.word (pd + 4 * i) = (T i).elim 0 fun t => t - loaderPhysBase + 7
  pte : ∀ i t, T i = some t → ∀ j < 1024, EntryMaps (m.word (t + 4 * j)) (M (1024 * i + j))
  mapped : ∀ n frame, M n = some frame → ∃ t, T (n / 1024) = some t

/-- The byte is in an entry of the directory for user pages, or in a page table. -/
def Tabular (pd : ℕ) (T : ℕ → Option ℕ) (x : ℕ) : Prop :=
  (pd ≤ x ∧ x < pd + 4 * userTables) ∨ ∃ i t, T i = some t ∧ InPage t x

section Memory

variable {m m' : Mem} {pd i n t w va : ℕ} {T M : ℕ → Option ℕ} {o : Option ℕ}

theorem isUserVaddr.pgNo_lt (h : isUserVaddr va) : pgNo va < 1024 * userTables := by
  unfold isUserVaddr loaderPhysBase at h
  unfold pgNo pgSize userTables
  omega

theorem pdNo_lt (h : isUserVaddr va) : pdNo va < userTables := by
  have := isUserVaddr.pgNo_lt h
  rw [pdNo_eq]
  unfold pgNo at this
  omega

theorem ptNo_lt (va : ℕ) : ptNo va < 1024 := by
  rw [ptNo_eq]
  omega

theorem pgNo_eq (va : ℕ) : 1024 * pdNo va + ptNo va = pgNo va := by
  rw [pdNo_eq, ptNo_eq]
  exact Nat.div_add_mod _ _

namespace Maps

variable (h : Maps m pd T M)

include h

theorem congr (hsame : ∀ x, Tabular pd T x → m' x = m x) : Maps m' pd T M := by
  refine ⟨h.page, h.table, h.inj, fun i hi => ?_, fun i t ht j hj => ?_, h.mapped⟩
  · rw [← h.pde i hi]
    exact word_congr fun x hx hx' => hsame x (.inl ⟨by omega, by omega⟩)
  · rw [word_congr fun x hx hx' => hsame x (.inr ⟨i, t, ht, by omega, by unfold pgSize; omega⟩)]
    exact h.pte i t ht j hj

theorem not_inPage {x : ℕ} (ht : IsPage t) (hpd : t ≠ pd) (hfresh : ∀ i, T i ≠ some t)
    (hx : Tabular pd T x) : ¬ InPage t x := by
  intro hin
  unfold InPage at hin
  rcases hx with hx | ⟨i, t', ht', hx⟩
  · have := ht.apart h.page hpd
    unfold userTables at hx
    unfold pgSize at *
    omega
  · have := ht.apart (h.table i t' ht').2.1 fun heq => hfresh i (heq ▸ ht')
    unfold InPage at hx
    omega

theorem setEntry (ht : T (n / 1024) = some t) (hw : w < 2 ^ 32) (hentry : EntryMaps w o) :
    Maps (m.setWord (t + 4 * (n % 1024)) w) pd T (update M n o) := by
  obtain ⟨-, hpage, hne⟩ := h.table _ t ht
  refine ⟨h.page, h.table, h.inj, fun i hi => ?_, fun i t' ht' j hj => ?_, fun n' frame hn' => ?_⟩
  · rw [← h.pde i hi]
    have := hpage.apart h.page hne
    unfold userTables at hi
    unfold pgSize at this
    exact word_setWord_of_apart (by omega)
  · by_cases hn : 1024 * i + j = n
    · obtain ⟨rfl, rfl⟩ : i = n / 1024 ∧ j = n % 1024 := by omega
      rw [ht'] at ht
      cases ht
      rw [hn, update_self, word_setWord _ _ hw]
      exact hentry
    · rw [update_of_ne hn]
      have hapart : t' + 4 * j + 4 ≤ t + 4 * (n % 1024) ∨ t + 4 * (n % 1024) + 4 ≤ t' + 4 * j := by
        by_cases heq : t' = t
        · subst heq
          have := h.inj _ _ _ ht' ht
          omega
        · have := (h.table _ _ ht').2.1.apart hpage heq
          unfold pgSize at this
          omega
      rw [word_setWord_of_apart hapart]
      exact h.pte i t' ht' j hj
  · by_cases hn : n' = n
    · exact ⟨t, hn ▸ ht⟩
    · rw [update_of_ne hn] at hn'
      exact h.mapped n' frame hn'

theorem setEntry' (ht : T (pdNo va) = some t) (hw : w < 2 ^ 32) (hentry : EntryMaps w o) :
    Maps (m.setWord (t + 4 * ptNo va) w) pd T (update M (pgNo va) o) := by
  rw [pdNo_eq] at ht
  rw [ptNo_eq]
  exact h.setEntry ht hw hentry

theorem link (hi : i < userTables) (hnone : T i = none) (ht : IsPage t) (hpd : t ≠ pd)
    (hfresh : ∀ i, T i ≠ some t) (hzero : ∀ x, InPage t x → m' x = 0)
    (hsame : ∀ x, Tabular pd T x → m' x = m x) :
    Maps (m'.setWord (pd + 4 * i) (t - loaderPhysBase + 7)) pd (update T i (some t)) M := by
  have h' := h.congr hsame
  have hlt : t - loaderPhysBase + 7 < 2 ^ 32 := by
    have := ht.bound
    unfold pgSize at this
    omega
  have hpdlt : pd + 4 * i + 4 ≤ pd + pgSize := by
    unfold userTables at hi
    unfold pgSize
    omega
  -- the new word is in the directory
  have hout : ∀ t' j, IsPage t' → t' ≠ pd → j < 1024 →
      (m'.setWord (pd + 4 * i) (t - loaderPhysBase + 7)).word (t' + 4 * j) =
        m'.word (t' + 4 * j) := fun t' j ht' hne hj => by
    have := ht'.apart h.page hne
    unfold pgSize at *
    exact word_setWord_of_apart (by omega)
  refine ⟨h.page, fun j t' hj => ?_, fun j j' t' hj hj' => ?_, fun j hj => ?_,
    fun j t' hj k hk => ?_, fun n frame hn => ?_⟩
  · rcases of_update_some hj with ⟨rfl, rfl⟩ | ⟨-, hj⟩
    · exact ⟨hi, ht, hpd⟩
    · exact h.table j t' hj
  · exact update_inj h.inj hfresh hj hj'
  · by_cases heq : j = i
    · rw [heq, update_self, word_setWord _ _ hlt]
      rfl
    · rw [update_of_ne heq, ← h'.pde j hj]
      exact word_setWord_of_apart (by omega)
  · rcases of_update_some hj with ⟨heq, rfl⟩ | ⟨-, hj⟩
    · have hword : m'.word (t + 4 * k) = 0 := word_eq_zero fun x hx hx' =>
        hzero x ⟨by omega, by unfold pgSize; omega⟩
      have hnomap : M (1024 * j + k) = none := by
        by_contra hsome
        obtain ⟨frame, hframe⟩ := ne_none_iff_exists'.mp hsome
        obtain ⟨t', ht'⟩ := h.mapped _ frame hframe
        have hdiv : (1024 * j + k) / 1024 = i := by omega
        rw [hdiv, hnone] at ht'
        cases ht'
      rw [hout t k ht hpd hk, hword, hnomap]
      exact Nat.zero_mod 2
    · obtain ⟨-, ht', hne⟩ := h.table j t' hj
      rw [hout t' k ht' hne hk]
      exact h'.pte j t' hj k hk
  · obtain ⟨t', ht'⟩ := h.mapped n frame hn
    by_cases heq : n / 1024 = i
    · rw [heq, hnone] at ht'
      cases ht'
    · exact ⟨t', by rw [update_of_ne heq, ht']⟩

end Maps

end Memory

/-- The address of a byte in the frame of its page, or null. -/
def translate (M : ℕ → Option ℕ) (va : ℕ) : ℕ :=
  (M (pgNo va)).elim 0 (· + pgOfs va)

/-- The page `m` is the first user page from `n` on that is not mapped. -/
structure FirstFree (M : ℕ → Option ℕ) (n m : ℕ) : Prop where
  le : n ≤ m
  user : isUserVaddr (pgSize * m)
  free : M m = none
  mapped : ∀ i, n ≤ i → i < m → M i ≠ none

variable {M : ℕ → Option ℕ}

theorem FirstFree.eq_of_free {n m : ℕ} (h : FirstFree M n m) (hn : M n = none) : n = m := by
  by_contra hne
  exact h.mapped n le_rfl (lt_of_le_of_ne h.le hne) hn

theorem FirstFree.unique {n m m' : ℕ} (h : FirstFree M n m) (h' : FirstFree M n m') : m = m' := by
  rcases lt_trichotomy m m' with hlt | heq | hgt
  · exact absurd h.free (h'.mapped m h.le hlt)
  · exact heq
  · exact absurd h'.free (h.mapped m' h'.le hgt)

/-- What `pagedir_set_page` asserts about its arguments. -/
structure CanSet (k : Globals) (pd upage kpage : ℕ) : Prop where
  aligned : pgOfs upage = 0
  user : isUserVaddr upage
  page : IsPage kpage
  ram : (kpage - loaderPhysBase) / pgSize < k.initRamPages
  dir : pd ≠ k.initPageDir

section Operations

variable {σ : Type} [PageAlloc σ] {s s' : σ} {k : Globals} {pd t va upage kpage n : ℕ}
  {T M : ℕ → Option ℕ}

theorem entryFor_eq {pde : ℕ} (ht : IsPage t) (hpde : (mem s).word pde = t - loaderPhysBase + 7) :
    entryFor pde va s = some (some (t + 4 * ptNo va), s) := by
  rw [entryFor, hpde, pdeGetPt_eq ht]
  rfl

theorem CanSet.setPage_eq (hcan : CanSet k pd upage kpage) (writable : Bool) :
    pagedirSetPage k pd upage kpage writable s = (lookupPage pd upage true s).bind fun
      | (none, s) => some (false, s)
      | (some pte, s) =>
        if (mem s).word pte &&& pteP = 0 then
          some (true, setMem s ((mem s).setWord pte
            (kpage - loaderPhysBase + if writable then 7 else 5)))
        else none := by
  have hram : (vtop kpage).any (fun paddr => paddr >>> 12 < k.initRamPages) := by
    rw [hcan.page.vtop_eq, any_some, decide_eq_true_iff, Nat.shiftRight_eq_div_pow]
    exact hcan.ram
  rw [pagedirSetPage, if_pos ⟨hcan.aligned, hcan.page.aligned, hcan.user, hram, hcan.dir⟩,
    pteCreateUser_eq hcan.page]
  rfl

theorem CanSet.entry (hcan : CanSet k pd upage kpage) (writable : Bool) :
    (kpage - loaderPhysBase + if writable then 7 else 5) < 2 ^ 32 ∧
      EntryMaps (kpage - loaderPhysBase + if writable then 7 else 5) (some kpage) := by
  have hmod := hcan.page.sub_mod
  have hbound := hcan.page.bound
  refine ⟨?_, ?_, hcan.page, ?_⟩ <;> unfold pgSize at * <;> unfold loaderPhysBase at * <;>
    split_ifs <;> omega

theorem skipMapped_kernel {fuel : ℕ} (h : ¬ isUserVaddr va) : skipMapped pd s fuel va = none := by
  cases fuel with
  | zero => rfl
  | succ fuel =>
    rw [skipMapped, pagedirGetPage, if_neg h]
    rfl

namespace Maps

section

variable (h : Maps (mem s) pd T M)

include h

theorem pd_ne_zero : pd ≠ 0 := by
  have := h.page.kernel
  unfold loaderPhysBase at this
  omega

theorem lookupPage_some (hva : isUserVaddr va) (ht : T (pdNo va) = some t) (create : Bool) :
    lookupPage pd va create s = some (some (t + 4 * ptNo va), s) := by
  have hpde := h.pde _ (pdNo_lt hva)
  rw [ht] at hpde
  change _ = t - loaderPhysBase + 7 at hpde
  rw [lookupPage, if_neg (by simp [h.pd_ne_zero, hva]), if_neg (by omega),
    entryFor_eq (h.table _ _ ht).2.1 hpde]

theorem lookupPage_none (hva : isUserVaddr va) (ht : T (pdNo va) = none) (create : Bool) :
    lookupPage pd va create s = if create then
      (PageAlloc.getPage { zero := true } s).bind fun
        | (none, s) => some (none, s)
        | (some pt, s) => (pdeCreate pt).bind fun pde =>
          entryFor (pd + 4 * pdNo va) va (setMem s ((mem s).setWord (pd + 4 * pdNo va) pde))
      else some (none, s) := by
  have hpde := h.pde _ (pdNo_lt hva)
  rw [ht, elim_none] at hpde
  rw [lookupPage, if_neg (by simp [h.pd_ne_zero, hva]), if_pos hpde]

theorem lookupPage_create (hva : isUserVaddr va) (ht : T (pdNo va) = none)
    (hget : PageAlloc.getPage { zero := true } s = some (some t, s')) (hpage : IsPage t) :
    lookupPage pd va true s = some (some (t + 4 * ptNo va),
      setMem s' ((mem s').setWord (pd + 4 * pdNo va) (t - loaderPhysBase + 7))) := by
  have hlt : t - loaderPhysBase + 7 < 2 ^ 32 := by
    have := hpage.bound
    unfold pgSize at this
    omega
  rw [h.lookupPage_none hva ht, if_pos rfl, hget, bind_some]
  dsimp only
  rw [pdeCreate_eq hpage, bind_some]
  refine entryFor_eq hpage ?_
  rw [PageAlloc.mem_setMem, word_setWord _ _ hlt]

theorem unmapped (ht : T (pdNo va) = none) : M (pgNo va) = none := by
  by_contra hsome
  obtain ⟨frame, hframe⟩ := ne_none_iff_exists'.mp hsome
  obtain ⟨t, ht'⟩ := h.mapped _ frame hframe
  rw [pgNo, ← pdNo_eq, ht] at ht'
  cases ht'

theorem entry (ht : T (pdNo va) = some t) :
    EntryMaps ((mem s).word (t + 4 * ptNo va)) (M (pgNo va)) := by
  rw [← pgNo_eq]
  exact h.pte _ t ht _ (ptNo_lt va)

theorem getPage_eq (hva : isUserVaddr va) : pagedirGetPage pd va s = some (translate M va) := by
  rw [pagedirGetPage, if_pos hva]
  cases ht : T (pdNo va) with
  | none =>
    rw [h.lookupPage_none hva ht, if_neg Bool.false_ne_true, bind_some]
    rw [translate, h.unmapped ht]
    rfl
  | some t =>
    rw [h.lookupPage_some hva ht, bind_some]
    dsimp only
    have hentry := h.entry ht
    rw [and_pteP]
    cases hM : M (pgNo va) with
    | none =>
      rw [hM] at hentry
      change _ % 2 = 0 at hentry
      rw [if_neg (not_not.mpr hentry), translate, hM]
      rfl
    | some frame =>
      rw [hM] at hentry
      obtain ⟨hpresent, hpage, hframe⟩ := hentry
      rw [if_pos (by omega), pteGetPage_eq hpage (word_lt _ _) hframe, translate, hM]
      rfl

end

theorem isPage {m : Mem} {frame : ℕ} (h : Maps m pd T M) (hn : M n = some frame) :
    IsPage frame := by
  obtain ⟨t, ht⟩ := h.mapped n frame hn
  have hentry := h.pte _ t ht (n % 1024) (Nat.mod_lt _ (by decide))
  rw [Nat.div_add_mod, hn] at hentry
  exact hentry.2.1

theorem getPage_mul (h : Maps (mem s) pd T M) (hn : isUserVaddr (pgSize * n)) :
    pagedirGetPage pd (pgSize * n) s = some ((M n).getD 0) := by
  rw [h.getPage_eq hn, translate, pgNo, Nat.mul_div_cancel_left _ (by decide), pgOfs,
    Nat.mul_mod_right]
  cases M n with
  | none => rfl
  | some frame => rfl

theorem skipMapped_eq (h : Maps (mem s) pd T M) (fuel : ℕ) (hn : n ≤ 1024 * userTables)
    (hfuel : 1024 * userTables < n + fuel) :
    (∃ m, FirstFree M n m ∧ skipMapped pd s fuel (pgSize * n) = some (pgSize * m)) ∨
      (∀ i, n ≤ i → isUserVaddr (pgSize * i) → M i ≠ none) ∧
        skipMapped pd s fuel (pgSize * n) = none := by
  induction fuel generalizing n with
  | zero => omega
  | succ fuel ih =>
    by_cases huser : isUserVaddr (pgSize * n)
    · rw [skipMapped, h.getPage_mul huser, bind_some]
      cases hM : M n with
      | none =>
        exact .inl ⟨n, ⟨le_rfl, huser, hM, fun i hi hi' => by omega⟩, if_pos rfl⟩
      | some frame =>
        have hne : frame ≠ 0 := fun hzero =>
          absurd (hzero ▸ (h.isPage hM).kernel) (by decide)
        have hnext : (pgSize * n + pgSize) % 2 ^ 32 = pgSize * (n + 1) := by
          unfold isUserVaddr loaderPhysBase pgSize at *
          omega
        have hmapped : ∀ i, n ≤ i → (n + 1 ≤ i → M i ≠ none) → M i ≠ none := by
          intro i hi hrest
          rcases Nat.eq_or_lt_of_le hi with rfl | hlt
          · rw [hM]
            exact some_ne_none _
          · exact hrest hlt
        rw [getD_some, if_neg hne, hnext]
        have hn' : n + 1 ≤ 1024 * userTables := by
          unfold isUserVaddr loaderPhysBase pgSize at huser
          unfold userTables
          omega
        rcases ih hn' (by omega) with ⟨m, hm, hskip⟩ | ⟨hall, hskip⟩
        · refine .inl ⟨m, ⟨by have := hm.le; omega, hm.user, hm.free, fun i hi hi' => ?_⟩, hskip⟩
          exact hmapped i hi fun hlt => hm.mapped i hlt hi'
        · exact .inr ⟨fun i hi huser => hmapped i hi fun hlt => hall i hlt huser, hskip⟩
    · refine .inr ⟨fun i hi huser' => absurd ?_ huser, skipMapped_kernel huser⟩
      exact (Nat.mul_le_mul_left _ hi).trans_lt huser'

theorem clearPage_eq (h : Maps (mem s) pd T M) (haligned : pgOfs va = 0) (hva : isUserVaddr va) :
    ∃ m, pagedirClearPage pd va s = some (setMem s m) ∧ Maps m pd T (update M (pgNo va) none) ∧ ∀ x,
      ¬ Tabular pd T x → m x = mem s x := by
  rw [pagedirClearPage, if_pos ⟨haligned, hva⟩]
  -- where nothing is mapped, nothing is written
  have hkeep : M (pgNo va) = none → Maps (mem s) pd T (update M (pgNo va) none) :=
    fun hM => by rwa [← hM, update_eq_self]
  cases ht : T (pdNo va) with
  | none =>
    rw [h.lookupPage_none hva ht, if_neg Bool.false_ne_true, map_some]
    exact ⟨mem s, congrArg some (PageAlloc.setMem_mem s).symm, hkeep (h.unmapped ht),
      fun _ _ => rfl⟩
  | some t =>
    rw [h.lookupPage_some hva ht, map_some]
    dsimp only
    have hentry := h.entry ht
    rw [and_pteP, and_not_pteP (word_lt _ _)]
    by_cases hpresent : (mem s).word (t + 4 * ptNo va) % 2 = 0
    · rw [if_neg (not_not.mpr hpresent)]
      refine ⟨mem s, congrArg some (PageAlloc.setMem_mem s).symm, hkeep ?_, fun _ _ => rfl⟩
      by_contra hsome
      obtain ⟨frame, hframe⟩ := ne_none_iff_exists'.mp hsome
      rw [hframe] at hentry
      exact absurd hentry.1 (by omega)
    · rw [if_pos hpresent]
      have hlt := word_lt (mem s) (t + 4 * ptNo va)
      refine ⟨_, rfl, ?_, fun x hx => ?_⟩
      · exact h.setEntry' ht (by omega) (Nat.mul_mod_left _ _)
      · refine setWord_of_apart ?_
        by_contra hin
        have := ptNo_lt va
        exact hx (.inr ⟨_, t, ht, by omega, by unfold pgSize; omega⟩)

variable (h : Maps (mem s) pd T M) (hcan : CanSet k pd upage kpage)

include h hcan

theorem setPage_mapped {frame : ℕ} (hM : M (pgNo upage) = some frame) (writable : Bool) :
    pagedirSetPage k pd upage kpage writable s = none := by
  obtain ⟨t, ht⟩ := h.mapped _ frame hM
  rw [pgNo, ← pdNo_eq] at ht
  have hentry := h.entry ht
  rw [hM] at hentry
  rw [hcan.setPage_eq, h.lookupPage_some hcan.user ht, bind_some]
  dsimp only
  rw [and_pteP, if_neg (by have := hentry.1; omega)]

theorem setPage_present (ht : T (pdNo upage) = some t) (hM : M (pgNo upage) = none)
    (writable : Bool) :
    ∃ m, pagedirSetPage k pd upage kpage writable s = some (true, setMem s m) ∧
      Maps m pd T (update M (pgNo upage) (some kpage)) ∧ ∀ x, ¬ Tabular pd T x → m x = mem s x := by
  have hentry := h.entry ht
  rw [hM] at hentry
  change _ % 2 = 0 at hentry
  rw [hcan.setPage_eq, h.lookupPage_some hcan.user ht, bind_some]
  dsimp only
  rw [and_pteP, if_pos hentry]
  refine ⟨_, rfl, ?_, fun x hx => ?_⟩
  · obtain ⟨hlt, hnew⟩ := hcan.entry writable
    exact h.setEntry' ht hlt hnew
  · refine setWord_of_apart ?_
    by_contra hin
    have := ptNo_lt upage
    exact hx (.inr ⟨_, t, ht, by omega, by unfold pgSize; omega⟩)

theorem setPage_fail (ht : T (pdNo upage) = none)
    (hget : PageAlloc.getPage { zero := true } s = some (none, s')) (writable : Bool) :
    pagedirSetPage k pd upage kpage writable s = some (false, s') := by
  rw [hcan.setPage_eq, h.lookupPage_none hcan.user ht, if_pos rfl, hget]
  rfl

theorem setPage_create (ht : T (pdNo upage) = none)
    (hget : PageAlloc.getPage { zero := true } s = some (some t, s')) (hpage : IsPage t)
    (hpd : t ≠ pd) (hfresh : ∀ i, T i ≠ some t) (hzero : ∀ x, InPage t x → mem s' x = 0)
    (hsame : ∀ x, ¬ InPage t x → mem s' x = mem s x) (writable : Bool) :
    ∃ m, pagedirSetPage k pd upage kpage writable s = some (true, setMem s' m) ∧
      Maps m pd (update T (pdNo upage) (some t)) (update M (pgNo upage) (some kpage)) ∧ ∀ x,
      ¬ Tabular pd (update T (pdNo upage) (some t)) x → m x = mem s x := by
  have hout : ∀ x, Tabular pd T x → ¬ InPage t x := fun x hx =>
    h.not_inPage hpage hpd hfresh hx
  have hlink := h.link (pdNo_lt hcan.user) ht hpage hpd hfresh hzero fun x hx => hsame x (hout x hx)
  -- with the new table in place the call is as with a table that is there
  generalize hm : (mem s').setWord (pd + 4 * pdNo upage) (t - loaderPhysBase + 7) = m at hlink
  have hmaps : Maps (mem (setMem s' m)) pd (update T (pdNo upage) (some t)) M := by
    rwa [PageAlloc.mem_setMem]
  have ht' : update T (pdNo upage) (some t) (pdNo upage) = some t := update_self ..
  have heq : pagedirSetPage k pd upage kpage writable s =
      pagedirSetPage k pd upage kpage writable (setMem s' m) := by
    rw [hcan.setPage_eq, hcan.setPage_eq, h.lookupPage_create hcan.user ht hget hpage,
      hmaps.lookupPage_some hcan.user ht', hm]
  obtain ⟨m', hset, hmaps', hrest⟩ := hmaps.setPage_present hcan ht' (h.unmapped ht) writable
  refine ⟨m', ?_, hmaps', fun x hx => ?_⟩
  · rw [heq, hset, PageAlloc.setMem_setMem]
  · have hxt : ¬ InPage t x := fun hin => hx (.inr ⟨_, t, ht', hin⟩)
    rw [hrest x hx, PageAlloc.mem_setMem, ← hm, ← hsame x hxt]
    refine setWord_of_apart ?_
    by_contra hin
    have := pdNo_lt hcan.user
    exact hx (.inl ⟨by omega, by omega⟩)

end Maps

end Operations

end CS162.Userprog
