import CS162.Filesys.CacheThreads

/-!
# One copy per sector

The invariant of the interleaved cache: the two indexes agree, and a thread that is dumping
its victim still has the victim in its slot and its new entry in neither index.  An insertion
keeps the indexes together exactly when its sector is not cached.
-/

namespace CS162.Filesys.Pool

open Option Function

open Cache

variable {π π' : Pool} {σ σ' : Cache} {t u p entry : ℕ} {h i : Fin 64} {r : Request}
  {home victim : Option ℕ} {e : CacheSector} {locks : Fin 64 → Option ℕ}

/-- What holds of a thread because of where it is. -/
def PcOk (σ : Cache) (locks : Fin 64 → Option ℕ) (t : ℕ) : Pc → Prop
  | .hit _ p slot => p < σ.brk ∧ ∀ e, σ.heap p = some e → e.clockIdx = slot
  | .dump r clockHand entry victim _ =>
    locks clockHand = some t ∧ σ.cacheSectors clockHand = some victim ∧
      (victim < σ.brk ∧ ∀ e, σ.heap victim = some e → e.sectorIdx ≠ r.sector) ∧
      σ.heap entry = some ⟨r.sector, clockHand, r.dirty⟩ ∧
      ∀ i, σ.cacheSectors i ≠ some entry
  | .idle | .miss _ _ | .fill _ _ _ => True

structure Ok (π : Pool) : Prop where
  indexed : Indexed π.cache
  pcs : ∀ t, PcOk π.cache π.sectorLocks t (π.pc t)

/-- A thread that works on slot `h` leaves the other slots alone and frees only entries
that are in a slot.  No address is given out twice. -/
structure Frame (σ : Cache) (h : Fin 64) (σ' : Cache) : Prop where
  brk : σ.brk ≤ σ'.brk
  kept : ∀ p e, p < σ.brk → σ'.heap p = some e →
    ∃ e₀, σ.heap p = some e₀ ∧ e₀.sectorIdx = e.sectorIdx ∧ e₀.clockIdx = e.clockIdx
  slots : ∀ i, i ≠ h → σ'.cacheSectors i = σ.cacheSectors i
  heap : ∀ p e, σ.heap p = some e → (∀ i, σ.cacheSectors i ≠ some p) →
    σ'.heap p = some e
  slot : ∀ p, σ'.cacheSectors h = some p →
    σ.cacheSectors h = some p ∨ ∀ e, σ.heap p = some e → e.clockIdx = h

theorem Frame.of_eq (hbrk : σ'.brk = σ.brk) (hheap : σ'.heap = σ.heap)
    (hslots : σ'.cacheSectors = σ.cacheSectors) : Frame σ h σ' where
  brk := by rw [hbrk]
  kept p e _ hp := ⟨e, by rwa [hheap] at hp, rfl, rfl⟩
  slots i _ := by rw [hslots]
  heap p e hp _ := by rwa [hheap]
  slot p hp := .inl (by rwa [hslots] at hp)

theorem PcOk.frame {locks' : Fin 64 → Option ℕ} {c : Pc} (hc : PcOk σ locks u c)
    (hf : Frame σ h σ') (hlocks : ∀ i, locks i = some u → locks' i = some u)
    (hh : locks h ≠ some u) : PcOk σ' locks' u c := by
  cases c with
  | idle => trivial
  | miss => trivial
  | fill => trivial
  | hit r p slot =>
    refine ⟨hc.1.trans_le hf.brk, fun e he => ?_⟩
    obtain ⟨e₀, he0, -, heq⟩ := hf.kept p e hc.1 he
    rw [← heq]
    exact hc.2 e₀ he0
  | dump r clockHand entry victim home =>
    obtain ⟨hl, hv, ⟨hlt, hs⟩, he, hn⟩ := hc
    have hne : clockHand ≠ h := by
      rintro rfl
      exact hh hl
    refine ⟨hlocks _ hl, by rw [hf.slots _ hne, hv], ⟨hlt.trans_le hf.brk, fun e hve => ?_⟩,
      hf.heap _ _ he hn, fun i hi => ?_⟩
    · obtain ⟨e₀, he0, heq, -⟩ := hf.kept victim e hlt hve
      rw [← heq]
      exact hs e₀ he0
    by_cases hih : i = h
    · subst hih
      rcases hf.slot entry hi with hold | hnew
      · exact hn i hold
      · exact hne (hnew _ he)
    · rw [hf.slots i hih] at hi
      exact hn i hi

theorem Ok.advance {c : Pc} (hπ : Ok π) (hi : Indexed σ') (hf : Frame π.cache h σ')
    (hlocks : ∀ u, u ≠ t → ∀ i, π.sectorLocks i = some u → locks i = some u)
    (hh : ∀ u, u ≠ t → π.sectorLocks h ≠ some u) (hc : PcOk σ' locks t c) :
    Ok { cache := σ', sectorLocks := locks, pc := update π.pc t c } := by
  refine ⟨hi, fun u => ?_⟩
  dsimp only
  by_cases hu : u = t
  · subst hu
    rw [update_self]
    exact hc
  · rw [update_of_ne hu]
    exact (hπ.pcs u).frame hf (hlocks u hu) (hh u hu)

theorem release_eq {stale : ℕ} (hr : π.release t stale h home = some π') :
    ∃ j, π.sectorLocks j = some t ∧
      π' = { π with
        sectorLocks := update π.sectorLocks j none
        pc := update π.pc t .idle } := by
  unfold release at hr
  rw [bind_eq_bind, bind_eq_some_iff] at hr
  obtain ⟨j, -, hr⟩ := hr
  split_ifs at hr with hj
  exact ⟨j, hj, (some.inj hr).symm⟩

theorem update_none_kept {j : Fin 64} (hj : locks j = some t) (hu : u ≠ t) (i : Fin 64)
    (hi : locks i = some u) : update locks j none i = some u := by
  rw [update_of_ne, hi]
  rintro rfl
  rw [hi] at hj
  exact hu (some.inj hj)

theorem afterInsert_eq {stale : ℕ} (ha : π.afterInsert t stale r h home = some π') :
    ∃ base locks c,
      π' = { cache := { π.cache with bufferBase := base }
             sectorLocks := locks, pc := update π.pc t c } ∧
      (∀ u, u ≠ t → ∀ i, π.sectorLocks i = some u → locks i = some u) ∧
      ∀ σ, PcOk σ locks t c := by
  cases r with
  | read sector size offset =>
    cases ha
    exact ⟨π.cache.bufferBase, π.sectorLocks, _, rfl, fun _ _ _ => id, fun _ => trivial⟩
  | write sector data offset =>
    unfold afterInsert copyIn at ha
    dsimp only at ha
    split_ifs at ha
    · obtain ⟨j, hj, rfl⟩ := release_eq ha
      exact ⟨_, _, .idle, rfl, fun u hu => update_none_kept hj hu, fun _ => trivial⟩
    · cases ha

structure Vacated (σ : Cache) (h : Fin 64) (victim : Option ℕ) (σ' : Cache) : Prop where
  indexed : Indexed σ'
  brk : σ'.brk = σ.brk
  heap : ∀ q, victim ≠ some q → σ'.heap q = σ.heap q
  freed : ∀ q e, σ'.heap q = some e → σ.heap q = some e
  slot : σ'.cacheSectors h = none
  slots : ∀ i, i ≠ h → σ'.cacheSectors i = σ.cacheSectors i
  hash : ∀ s p, σ'.bufferCache s = some p ↔ σ.bufferCache s = some p ∧ victim ≠ some p

/-- The victim of a slot, if it has one, leaves the cache. -/
def dropVictim (σ : Cache) : Option ℕ → Option Cache
  | none => some σ
  | some v => σ.evictDrop v

theorem dropVictim_vacated (hi : Indexed σ) (hv : σ.cacheSectors h = victim) :
    ∃ σ', dropVictim σ victim = some σ' ∧ Vacated σ h victim σ' := by
  cases victim with
  | none =>
    exact ⟨σ, rfl, hi, rfl, fun _ _ => rfl, fun _ _ => id, hv, fun _ _ => rfl, by simp⟩
  | some v =>
    obtain ⟨σ', hσ', hd⟩ := evictDrop_dropped hi hv
    refine ⟨σ', hσ', hd.indexed, hd.brk, fun q hq => hd.heap fun heq => hq (by rw [heq]),
      fun q e hq => ?_, hd.slot, fun i => hd.slots, fun s p => ?_⟩
    · by_cases hqv : q = v
      · rw [hqv, hd.freed] at hq
        cases hq
      · rwa [hd.heap hqv] at hq
    · rw [hd.hash]
      constructor
      · intro hp
        split_ifs at hp with hsv
        exact ⟨hp, fun heq => hsv (by rw [hp, heq])⟩
      · rintro ⟨hp, hne⟩
        rw [if_neg, hp]
        rw [hp]
        exact fun heq => hne heq.symm

theorem install_eq (π : Pool) (t stale : ℕ) (r : Request) (h : Fin 64) (entry : ℕ)
    (victim home : Option ℕ) :
    π.install t stale r h entry victim home =
      (dropVictim π.cache victim).bind fun σ =>
        (σ.bufferCacheInsert entry).bind fun σ' =>
          afterInsert { π with cache := σ' } t stale r h home := by
  cases victim <;> rfl

structure Ready (σ : Cache) (r : Request) (h : Fin 64) (entry : ℕ) (victim : Option ℕ) :
    Prop where
  made : σ.heap entry = some ⟨r.sector, h, r.dirty⟩
  unlinked : ∀ i, σ.cacheSectors i ≠ some entry
  inSlot : σ.cacheSectors h = victim

theorem insert_frame (hi : Indexed σ) (hr : Ready σ r h entry victim)
    (hs : σ.bufferCache r.sector = none) :
    ∃ σ₁ σ2, dropVictim σ victim = some σ₁ ∧ σ₁.bufferCacheInsert entry = some σ2 ∧
      Indexed σ2 ∧ Frame σ h σ2 := by
  obtain ⟨σ₁, hσ1, hv⟩ := dropVictim_vacated hi hr.inSlot
  have hne : victim ≠ some entry := by
    rw [← hr.inSlot]
    exact hr.unlinked h
  have he : σ₁.heap entry = some ⟨r.sector, h, r.dirty⟩ := by
    rw [hv.heap entry hne, hr.made]
  have hs1 : σ₁.bufferCache r.sector = none := by
    by_contra hsome
    obtain ⟨p, hp⟩ := ne_none_iff_exists'.mp hsome
    rw [((hv.hash _ _).mp hp).1] at hs
    cases hs
  obtain ⟨σ2, hσ2, hins⟩ := bufferCacheInsert_inserted hv.indexed he hv.slot hs1
  refine ⟨σ₁, σ2, hσ1, hσ2, hins.indexed, ?_⟩
  constructor
  case brk => rw [hins.brk, hv.brk]
  case kept =>
    intro p e _ hp
    rw [hins.heap] at hp
    exact ⟨e, hv.freed p e hp, rfl, rfl⟩
  case slots =>
    intro i hih
    rw [hins.slots, update_of_ne hih, hv.slots i hih]
  case heap =>
    intro p e hp hn
    rw [hins.heap, hv.heap p (by rw [← hr.inSlot]; exact hn h), hp]
  case slot =>
    intro p hp
    rw [hins.slots, update_self] at hp
    cases hp
    refine .inr fun e he' => ?_
    rw [hr.made] at he'
    cases he'
    rfl

theorem insert_twice (hi : Indexed σ) (hr : Ready σ r h entry victim)
    (hs : σ.bufferCache r.sector = some p)
    (hv : ∀ v e, victim = some v → σ.heap v = some e → e.sectorIdx ≠ r.sector) {σ₁ σ2 : Cache}
    (h1 : dropVictim σ victim = some σ₁) (h2 : σ₁.bufferCacheInsert entry = some σ2) :
    ∃ j, j ≠ h ∧ HeldIn σ2 r.sector h ∧ HeldIn σ2 r.sector j := by
  obtain ⟨σ1', hσ1, hvac⟩ := dropVictim_vacated hi hr.inSlot
  rw [h1] at hσ1
  cases hσ1
  obtain ⟨e, hp, hes, hslot⟩ := hi.hash hs
  have hvp : victim ≠ some p := fun heq => hv p e heq hp hes
  have hve : victim ≠ some entry := by
    rw [← hr.inSlot]
    exact hr.unlinked h
  have hj : e.clockIdx ≠ h := by
    intro heq
    rw [heq, hr.inSlot] at hslot
    exact hvp hslot
  have he : σ₁.heap entry = some ⟨r.sector, h, r.dirty⟩ := by
    rw [hvac.heap entry hve, hr.made]
  unfold bufferCacheInsert at h2
  rw [he, bind_eq_bind, bind_some] at h2
  cases h2
  refine ⟨e.clockIdx, hj, ⟨entry, _, update_self .., he, rfl⟩, p, e, ?_, ?_, hes⟩
  · exact (update_of_ne hj ..).trans ((hvac.slots _ hj).trans hslot)
  · exact (hvac.heap p hvp).trans hp

theorem install_ok {stale : ℕ} (hπ : Ok π) {ρ : Pool} (hpc : ρ.pc = π.pc)
    (hlocks : ∀ u, u ≠ t → ∀ i, π.sectorLocks i = some u → ρ.sectorLocks i = some u)
    (hh : ∀ u, u ≠ t → π.sectorLocks h ≠ some u) (hi : Indexed ρ.cache)
    (hready : Ready ρ.cache r h entry victim) (hs : ρ.cache.bufferCache r.sector = none)
    (hframe : ∀ σ', Frame ρ.cache h σ' → Frame π.cache h σ')
    (hins : ρ.install t stale r h entry victim home = some π') : Ok π' := by
  obtain ⟨σ₁, σ2, hσ1, hσ2, hi2, hf⟩ := insert_frame hi hready hs
  rw [install_eq, hσ1, bind_some, hσ2, bind_some] at hins
  obtain ⟨base, locks, c, rfl, hkept, hc⟩ := afterInsert_eq hins
  rw [hpc]
  exact hπ.advance (hi2.of_eq rfl rfl rfl rfl) (hframe _ { hf with })
    (fun u hu i hl => hkept u hu i (hlocks u hu i hl)) hh (hc _)

theorem Frame.of_malloc (hi : Indexed σ) (hf : Frame (σ.mallocEntry e) h σ') : Frame σ h σ' := by
  have hold : ∀ q e', σ.heap q = some e' → (σ.mallocEntry e).heap q = some e' := by
    intro q e' hq
    rw [← hq]
    exact update_of_ne (hi.lt_brk hq).ne ..
  refine ⟨(Nat.le_succ _).trans hf.brk, fun p e' hp hp' => ?_, hf.slots,
    fun p e' hp hn => hf.heap p e' (hold p e' hp) hn, fun p hp => ?_⟩
  · obtain ⟨e₀, he0, heq⟩ := hf.kept p e' (hp.trans (Nat.lt_succ_self _)) hp'
    refine ⟨e₀, ?_, heq⟩
    rw [← he0]
    exact (update_of_ne hp.ne ..).symm
  · rcases hf.slot p hp with hs | hc
    · exact .inl hs
    · exact .inr fun e' hp' => hc e' (hold p e' hp')

theorem onHit_frame (hi : Indexed σ) (ho : onHit σ r = some σ') (h : Fin 64) :
    Indexed σ' ∧ Frame σ h σ' := by
  cases r with
  | read sector size offset =>
    unfold onHit readFromBuffer at ho
    simp only [bind_eq_bind, map_eq_some_iff, bind_eq_some_iff] at ho
    obtain ⟨_, ⟨p, -, e, -, bytes, -, heq⟩, hfst⟩ := ho
    cases heq
    cases hfst
    exact ⟨hi.of_eq rfl rfl rfl rfl, .of_eq rfl rfl rfl⟩
  | write sector data offset =>
    unfold onHit writeExistBuffer copyIn at ho
    simp only [bind_eq_bind, bind_eq_some_iff] at ho
    obtain ⟨p, hp, e, he, ho⟩ := ho
    split_ifs at ho
    cases ho
    refine ⟨(setDirty_indexed hi he).of_eq rfl rfl rfl rfl, le_rfl, fun q e' _ hq => ?_,
      fun _ _ => rfl, fun q e' hq hn => ?_, fun q hq => .inl hq⟩
    · dsimp only [setRefbit] at hq
      rw [update_apply] at hq
      split_ifs at hq with hqp
      · cases hq
        exact ⟨e, by rw [hqp, he], rfl, rfl⟩
      · exact ⟨e', hq, rfl, rfl⟩
    · dsimp only [setRefbit]
      rw [update_of_ne, hq]
      rintro rfl
      exact hn e.clockIdx (hi.slot_of_hash hp he)

theorem homeSlot_eq {slot : Fin 64} {hand : ℕ}
    (hp : ∀ p ∈ home, ∃ e, π.cache.heap p = some e ∧ e.clockIdx = slot)
    (hs : π.homeSlot hand slot home = some h) : h = slot := by
  cases home with
  | none => exact (some.inj hs).symm
  | some p =>
    obtain ⟨e, he, hslot⟩ := hp p rfl
    rw [homeSlot, he] at hs
    exact (some.inj hs).symm.trans hslot

theorem locked_ok {slot : Fin 64} {hand₀ stale : ℕ} (hπ : Ok π)
    (hp : ∀ p ∈ home, ∃ e, π.cache.heap p = some e ∧ e.clockIdx = slot)
    (hl : π.locked t hand₀ stale r slot home = some π') : Ok π' := by
  unfold locked at hl
  split_ifs at hl with hfree
  have hkept : ∀ u, u ≠ t → ∀ i, π.sectorLocks i = some u →
      update π.sectorLocks slot (some t) i = some u := by
    intro u hu i hi
    rw [update_of_ne, hi]
    rintro rfl
    rw [hfree] at hi
    cases hi
  have hh : ∀ u, u ≠ t → π.sectorLocks slot ≠ some u := by
    intro u _ hu
    rw [hfree] at hu
    cases hu
  dsimp only [bufferCacheFind] at hl
  cases hs : π.cache.bufferCache r.sector with
  | some q =>
    rw [hs] at hl
    simp only [bind_eq_bind, bind_eq_some_iff] at hl
    obtain ⟨σ, hσ, hl⟩ := hl
    obtain ⟨hi, hf⟩ := onHit_frame hπ.indexed hσ slot
    obtain ⟨j, hj, rfl⟩ := release_eq hl
    exact hπ.advance hi hf (fun u hu i hi => update_none_kept hj hu i (hkept u hu i hi)) hh trivial
  | none =>
    rw [hs] at hl
    simp only [bind_eq_bind, bind_eq_some_iff] at hl
    obtain ⟨hand, hhand, hl⟩ := hl
    have hslot : hand = slot := homeSlot_eq hp hhand
    subst hslot
    have hi : Indexed (π.cache.mallocEntry ⟨r.sector, hand, r.dirty⟩) :=
      mallocEntry_indexed hπ.indexed
    have hnew : ∀ i, π.cache.cacheSectors i ≠ some π.cache.brk := by
      intro i hi
      obtain ⟨e, he, -⟩ := hπ.indexed.slot hi
      exact absurd (hπ.indexed.lt_brk he) (Nat.lt_irrefl _)
    have hmade : (π.cache.mallocEntry ⟨r.sector, hand, r.dirty⟩).heap π.cache.brk =
        some ⟨r.sector, hand, r.dirty⟩ := update_self ..
    have hinstall : ∀ victim, π.cache.cacheSectors hand = victim →
        install { π with
          cache := π.cache.mallocEntry ⟨r.sector, hand, r.dirty⟩
          sectorLocks := update π.sectorLocks hand (some t) }
          t stale r hand π.cache.brk victim home = some π' → Ok π' := by
      intro victim hv hins
      exact install_ok hπ
        (ρ := { π with
          cache := π.cache.mallocEntry ⟨r.sector, hand, r.dirty⟩
          sectorLocks := update π.sectorLocks hand (some t) })
        rfl hkept hh hi ⟨hmade, hnew, hv⟩ hs (fun σ' hf => hf.of_malloc hπ.indexed) hins
    unfold startMiss at hl
    cases hv : π.cache.cacheSectors hand with
    | none =>
      rw [hv] at hl
      exact hinstall none hv hl
    | some v =>
      rw [hv] at hl
      simp only [bind_eq_bind, bind_eq_some_iff] at hl
      obtain ⟨e, he, hl⟩ := hl
      split_ifs at hl
      · -- the victim is dirty: the thread goes into the device
        cases hl
        refine hπ.advance hi (Frame.of_malloc hπ.indexed (.of_eq rfl rfl rfl)) hkept hh
          ⟨update_self .., hv, ⟨hi.lt_brk he, fun e' he' heq => ?_⟩, hmade, hnew⟩
        have hhash := hi.hash_eq hv he'
        rw [heq] at hhash
        change π.cache.bufferCache r.sector = some v at hhash
        rw [hs] at hhash
        cases hhash
      · exact hinstall (some v) hv hl

theorem step_ok {a : Act} (hπ : Ok π) (ha : π.StillMissing a) (halive : π.Alive a)
    (hs : π.step a = some π') : Ok π' := by
  cases a with
  | call t r =>
    unfold step at hs
    dsimp only [bufferCacheFind] at hs
    split_ifs at hs
    cases hf : π.cache.bufferCache r.sector with
    | some p =>
      rw [hf] at hs
      simp only [bind_eq_bind, bind_eq_some_iff] at hs
      obtain ⟨e, he, hs⟩ := hs
      cases hs
      refine ⟨hπ.indexed, fun u => ?_⟩
      by_cases hu : u = t
      · subst hu
        dsimp only
        rw [update_self]
        refine ⟨hπ.indexed.lt_brk he, fun e' he' => ?_⟩
        rw [he] at he'
        cases he'
        rfl
      · dsimp only
        rw [update_of_ne hu]
        exact hπ.pcs u
    | none =>
      rw [hf] at hs
      cases hs
      obtain ⟨b, c, hu⟩ := π.cache.updateClockIdx_eq
      rw [hu]
      refine ⟨hπ.indexed.of_eq rfl rfl rfl rfl, fun u => ?_⟩
      by_cases hut : u = t
      · subst hut
        dsimp only
        rw [update_self]
        trivial
      · dsimp only
        rw [update_of_ne hut]
        exact hπ.pcs u
  | resume t hand stale =>
    have hc := hπ.pcs t
    unfold step at hs
    unfold StillMissing at ha
    unfold Alive at halive
    dsimp only at hs ha halive
    cases hpc : π.pc t with
    | idle => rw [hpc] at hs; cases hs
    | hit r p slot =>
      rw [hpc] at hs hc halive
      refine locked_ok hπ (fun q hq => ?_) hs
      obtain ⟨e, he⟩ := isSome_iff_exists.mp (halive q hq)
      cases hq
      exact ⟨e, he, hc.2 e he⟩
    | miss r clockHand =>
      rw [hpc] at hs
      exact locked_ok hπ (fun q hq => by cases hq) hs
    | dump r clockHand entry v home =>
      rw [hpc] at hs hc ha
      simp only [bind_eq_bind, bind_eq_some_iff] at hs
      obtain ⟨σ, hσ, hs⟩ := hs
      obtain ⟨d, rfl⟩ := evictDump_eq hσ
      have hh : ∀ u, u ≠ t → π.sectorLocks clockHand ≠ some u := by
        intro u hu hl
        rw [hc.1] at hl
        exact hu (some.inj hl).symm
      exact install_ok hπ (ρ := { π with cache := { π.cache with disk := d } }) rfl
        (fun _ _ _ => id) hh (hπ.indexed.of_eq rfl rfl rfl rfl)
        ⟨hc.2.2.2.1, hc.2.2.2.2, hc.2.1⟩ ha (fun σ' hf => { hf with }) hs
    | fill r clockHand home =>
      rw [hpc] at hs
      cases r with
      | write => cases hs
      | read sector size offset =>
        simp only [fillFromDisk, bind_eq_bind, bind_eq_some_iff] at hs
        obtain ⟨⟨σ, _⟩, ⟨c, -, bytes, -, heq⟩, hs⟩ := hs
        cases heq
        obtain ⟨j, hj, rfl⟩ := release_eq hs
        refine hπ.advance (h := j) (hπ.indexed.of_eq rfl rfl rfl rfl)
          (.of_eq rfl rfl rfl) (fun u hu => update_none_kept hj hu) ?_ trivial
        intro u hu hl
        rw [hj] at hl
        exact hu (some.inj hl).symm

theorem Ok.oneCopy (hπ : Ok π) : OneCopy π := by
  constructor
  · rintro s i j ⟨p, e, hp, he, rfl⟩ ⟨q, e', hq, he', heq⟩
    have h1 := hπ.indexed.hash_eq hp he
    have h2 := hπ.indexed.hash_eq hq he'
    rw [heq, h1] at h2
    cases h2
    exact hπ.indexed.slot_inj hp hq
  · intro s i
    constructor
    · rintro ⟨p, e, hp, he, rfl⟩
      exact ⟨p, e, hπ.indexed.slot_of_hash hp he, he, hπ.indexed.sector_eq hp he⟩
    · rintro ⟨p, e, hp, he, rfl⟩
      exact ⟨p, e, hπ.indexed.hash_eq hp he, he, hπ.indexed.slot_eq hp he⟩

theorem step_not_oneCopy {a : Act} (hπ : Ok π) (ha : ¬ π.StillMissing a)
    (hs : π.step a = some π') : ¬ OneCopy π' := by
  cases a with
  | call t r => exact absurd trivial ha
  | resume t hand stale =>
    have hc := hπ.pcs t
    unfold step at hs
    unfold StillMissing at ha
    dsimp only at hs ha
    cases hpc : π.pc t with
    | idle => rw [hpc] at ha; exact absurd trivial ha
    | hit r p slot => rw [hpc] at ha; exact absurd trivial ha
    | miss r clockHand => rw [hpc] at ha; exact absurd trivial ha
    | fill r clockHand home => rw [hpc] at ha; exact absurd trivial ha
    | dump r clockHand entry v home =>
      rw [hpc] at hs hc ha
      obtain ⟨p, hp⟩ := ne_none_iff_exists'.mp ha
      simp only [bind_eq_bind, bind_eq_some_iff, install_eq] at hs
      obtain ⟨σ, hσ, σ₁, hσ1, σ2, hσ2, hs⟩ := hs
      obtain ⟨d, rfl⟩ := evictDump_eq hσ
      obtain ⟨j, hj, h1, h2⟩ := insert_twice
        (σ := { π.cache with disk := d }) (hπ.indexed.of_eq rfl rfl rfl rfl)
        ⟨hc.2.2.2.1, hc.2.2.2.2, hc.2.1⟩ hp
        (fun w e hw => by cases hw; exact hc.2.2.1.2 e) hσ1 hσ2
      obtain ⟨base, locks, c, rfl, -⟩ := afterInsert_eq hs
      rintro ⟨hone, -⟩
      exact hj (hone r.sector j clockHand h2 h1)

theorem start_ok (n : ℕ) (disk : ℕ → Sector) (base : Fin 64 → Sector) : Ok (start n disk base) :=
  ⟨init_indexed n disk base, fun _ => trivial⟩

theorem Ok.always_oneCopy {acts : List Act} (hπ : Ok π) (halive : Run.Meets step Alive π acts)
    (hr : Run.run step π acts = some π') :
    Run.Always step OneCopy π acts ↔ Run.Meets step StillMissing π acts := by
  induction acts generalizing π with
  | nil => exact ⟨fun _ => trivial, fun _ => hπ.oneCopy⟩
  | cons a acts ih =>
    obtain ⟨ρ, hρ, hr⟩ := Run.run_cons_eq_some.mp hr
    have hiff : ∀ ha : π.StillMissing a, Run.Always step OneCopy ρ acts ↔
        Run.Meets step StillMissing ρ acts := fun ha =>
      ih (step_ok hπ ha halive.1 hρ) (halive.2 ρ hρ) hr
    constructor
    · rintro ⟨-, hall⟩
      have hρ' := hall ρ hρ
      have ha : π.StillMissing a := by
        by_contra ha
        exact step_not_oneCopy hπ ha hρ hρ'.head
      refine ⟨ha, fun ρ' hρ'' => ?_⟩
      rw [hρ] at hρ''
      cases hρ''
      exact (hiff ha).mp hρ'
    · rintro ⟨ha, hall⟩
      refine ⟨hπ.oneCopy, fun ρ' hρ'' => ?_⟩
      rw [hρ] at hρ''
      cases hρ''
      exact (hiff ha).mpr (hall ρ hρ)

/-- In every run in which no thread goes on with a freed entry, there is one copy of each sector
in all states exactly when every sector is still missing when its victim has been dumped. -/
theorem run_oneCopy (n : ℕ) (disk : ℕ → Sector) (base : Fin 64 → Sector)
    (acts : List Act) (π : Pool) (halive : Run.Meets step Alive (start n disk base) acts)
    (hr : Run.run step (start n disk base) acts = some π) :
    Run.Always step OneCopy (start n disk base) acts ↔
      Run.Meets step StillMissing (start n disk base) acts :=
  (start_ok n disk base).always_oneCopy halive hr

/-- Two threads miss at the same position of the clock hand.  The first fills the slot
with sector 3, and the second has to dump it before it can fill the slot with
sector 5. -/
def sameHand : List Act :=
  [.call 1 (.write 3 [7] 0), .call 2 (.read 5 1 0), .resume 1 0 0, .resume 2 0 0]

/-- The second thread is through, and a third one hits on its sector. -/
def sameHandHit : List Act :=
  sameHand ++ [.resume 2 0 0, .resume 2 0 0, .call 3 (.read 5 1 0), .resume 3 0 0]

theorem run_oneCopy_sameHand :
    (Run.run step (start 8 (fun _ _ => 0) fun _ _ => 0) sameHandHit).isSome ∧
      Run.Always step OneCopy (start 8 (fun _ _ => 0) fun _ _ => 0) sameHandHit := by
  have hsome : (Run.run step (start 8 (fun _ _ => 0) fun _ _ => 0) sameHandHit).isSome := by
    decide +kernel
  obtain ⟨π, hπ⟩ := isSome_iff_exists.mp hsome
  exact ⟨hsome, (run_oneCopy 8 _ _ _ π (by decide +kernel) hπ).mpr (by decide +kernel)⟩

def sectorIn (σ : Cache) (i : Fin 64) : Option ℕ :=
  ((σ.cacheSectors i).bind σ.heap).map CacheSector.sectorIdx

theorem sectorIn_heldIn {s : ℕ} (hs : sectorIn σ i = some s) : HeldIn σ s i := by
  obtain ⟨e, he, rfl⟩ := map_eq_some_iff.mp hs
  obtain ⟨p, hp, he⟩ := bind_eq_some_iff.mp he
  exact ⟨p, e, hp, he, rfl⟩

/-- A third thread reads sector 5 while the second one is dumping its victim: sector 5
ends up in two slots. -/
theorem sameHand_twoCopies :
    ∃ π, Run.run step (start 8 (fun _ _ => 0) fun _ _ => 0)
        (sameHand ++ [.call 3 (.read 5 1 0), .resume 3 0 0, .resume 3 0 0, .resume 2 0 0]) =
          some π ∧
      ¬ OneCopy π := by
  have hobs : (Run.run step (start 8 (fun _ _ => 0) fun _ _ => 0)
      (sameHand ++ [.call 3 (.read 5 1 0), .resume 3 0 0, .resume 3 0 0, .resume 2 0 0])).map
        (fun π => (sectorIn π.cache 0, sectorIn π.cache 1)) = some (some 5, some 5) := by
    decide +kernel
  obtain ⟨π, hπ, ho⟩ := map_eq_some_iff.mp hobs
  obtain ⟨h0, h1⟩ := Prod.mk.inj ho
  refine ⟨π, hπ, fun hone => ?_⟩
  exact absurd (hone.1 5 0 1 (sectorIn_heldIn h0) (sectorIn_heldIn h1)) (by decide)

end CS162.Filesys.Pool
