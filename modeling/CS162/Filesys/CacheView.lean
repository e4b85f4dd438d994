import CS162.Filesys.CacheIndex

/-!
# The cache is transparent

The view of a sector is what the cache holds for it, or what the device holds when it
is not cached.  A read returns the bytes of the view and changes no view, a write
changes no view but that of its own sector, and a flush makes the device equal to the
view.
-/

namespace CS162.Filesys.Cache

open Option Function List

variable {σ σ' : Cache} {s p sector size offset : ℕ} {i slot : Fin 64} {e : CacheSector}
  {data : Block size}

/-- The contents of a sector as the cache presents them. -/
def view (σ : Cache) (s : ℕ) : Sector :=
  match (σ.bufferCacheFind s).bind σ.heap with
  | some e => σ.bufferBase e.clockIdx
  | none => σ.disk s

theorem view_of_cached (hs : σ.bufferCache s = some p) (hp : σ.heap p = some e) :
    σ.view s = σ.bufferBase e.clockIdx := by
  simp only [view, bufferCacheFind, hs, bind_some, hp]

theorem view_of_not_cached (hs : σ.bufferCache s = none) : σ.view s = σ.disk s := by
  simp only [view, bufferCacheFind, hs, bind_none]

theorem view_congr (hhash : σ'.bufferCache s = σ.bufferCache s)
    (hheap : ∀ p, σ.bufferCache s = some p → σ'.heap p = σ.heap p)
    (hbase : ∀ p e, σ.bufferCache s = some p → σ.heap p = some e →
      σ'.bufferBase e.clockIdx = σ.bufferBase e.clockIdx)
    (hdisk : σ'.disk s = σ.disk s) : σ'.view s = σ.view s := by
  unfold view bufferCacheFind
  rw [hhash]
  cases hs : σ.bufferCache s with
  | none => exact hdisk
  | some p =>
    rw [bind_some, bind_some, hheap p hs]
    cases hp : σ.heap p with
    | none => exact hdisk
    | some e => exact hbase p e hs hp

/-- The indexes agree, a clean slot equals its sector of the device, and the cached
sectors are sectors of the device. -/
structure Sound (σ : Cache) : Prop extends Indexed σ where
  clean : ∀ {i p e}, σ.cacheSectors i = some p → σ.heap p = some e → e.dirty = false →
    σ.bufferBase i = σ.disk e.sectorIdx
  inRange : ∀ {s p}, σ.bufferCache s = some p → s < σ.blockSize

theorem init_sound (n : ℕ) (disk : ℕ → Sector) (base : Fin 64 → Sector) :
    Sound (init n disk base) where
  toIndexed := init_indexed n disk base
  clean hp := by cases hp
  inRange hp := by cases hp

theorem Sound.of_eq (h : Sound σ) (hheap : σ'.heap = σ.heap) (hbrk : σ'.brk = σ.brk)
    (hhash : σ'.bufferCache = σ.bufferCache)
    (hslot : σ'.cacheSectors = σ.cacheSectors) (hbase : σ'.bufferBase = σ.bufferBase)
    (hsize : σ'.blockSize = σ.blockSize) (hdisk : σ'.disk = σ.disk) : Sound σ' where
  toIndexed := h.toIndexed.of_eq hheap hbrk hhash hslot
  clean := by
    rw [hheap, hslot, hbase, hdisk]
    exact h.clean
  inRange := by
    rw [hhash, hsize]
    exact h.inRange

theorem updateClockIdx_sound (h : Sound σ) : Sound σ.updateClockIdx := by
  obtain ⟨r, c, hu⟩ := σ.updateClockIdx_eq
  rw [hu]
  exact h.of_eq rfl rfl rfl rfl rfl rfl rfl

theorem updateClockIdx_view (σ : Cache) : σ.updateClockIdx.view = σ.view := by
  obtain ⟨r, c, hu⟩ := σ.updateClockIdx_eq
  rw [hu]
  rfl

theorem evictDump_view (h : Sound σ) (hi : σ.cacheSectors i = some p)
    (hp : σ.heap p = some e) :
    ∃ d, σ.evictDump p = some { σ with disk := d } ∧ d e.sectorIdx = σ.bufferBase i ∧
      ∀ s, s ≠ e.sectorIdx → d s = σ.disk s := by
  have hc : e.clockIdx = i := h.slot_eq hi hp
  unfold evictDump blockWrite
  rw [hp, bind_eq_bind, bind_some, hc]
  by_cases hd : e.dirty = true
  · rw [if_pos hd, if_pos (h.inRange (h.hash_eq hi hp))]
    exact ⟨_, rfl, update_self .., fun s hs => update_of_ne hs ..⟩
  · rw [if_neg hd]
    exact ⟨σ.disk, rfl, (h.clean hi hp (by simpa using hd)).symm, fun s _ => rfl⟩

/-- Evicting a slot leaves it empty and changes no view. -/
structure Evicted (σ : Cache) (i : Fin 64) (σ' : Cache) : Prop where
  sound : Sound σ'
  brk : σ'.brk = σ.brk
  blockSize : σ'.blockSize = σ.blockSize
  slot : σ'.cacheSectors i = none
  heap : ∀ {q}, σ.cacheSectors i ≠ some q → σ'.heap q = σ.heap q
  hash : ∀ {s}, σ.bufferCache s = none → σ'.bufferCache s = none
  view : ∀ s, σ'.view s = σ.view s
  disk : ∀ {s}, σ.bufferCache s = none → σ'.disk s = σ.disk s

theorem bufferCacheEvict_evicted (h : Sound σ) (i : Fin 64) :
    ∃ σ', σ.bufferCacheEvict (σ.cacheSectors i) = some σ' ∧ Evicted σ i σ' := by
  cases hi : σ.cacheSectors i with
  | none => exact ⟨σ, rfl, h, rfl, rfl, hi, fun _ => rfl, id, fun _ => rfl, fun _ => rfl⟩
  | some p =>
    obtain ⟨e, hp, hc, hb⟩ := h.slot hi
    obtain ⟨d, hd, hd1, hd2⟩ := evictDump_view h hi hp
    have h' : Indexed { σ with disk := d } := h.toIndexed.of_eq rfl rfl rfl rfl
    obtain ⟨σ', hσ', hdrop⟩ := evictDrop_dropped h' hi
    refine ⟨σ', by rw [bufferCacheEvict, hd]; exact hσ', ?_⟩
    -- a sector is led to the victim exactly when it is the victim's
    have hvictim : ∀ s, σ.bufferCache s = some p ↔ s = e.sectorIdx := by
      intro s
      constructor
      · intro hs
        exact (h.sector_eq hs hp).symm
      · rintro rfl
        exact hb
    have hdisk : ∀ s, s ≠ e.sectorIdx → σ'.disk s = σ.disk s := by
      intro s hs
      rw [hdrop.disk]
      exact hd2 s hs
    have hhash : ∀ s, s ≠ e.sectorIdx → σ'.bufferCache s = σ.bufferCache s := by
      intro s hs
      rw [hdrop.hash, if_neg fun hq => hs ((hvictim s).mp hq)]
    constructor
    case sound =>
      refine ⟨hdrop.indexed, fun {j q e'} hj hq hdirty => ?_, fun {s q} hq => ?_⟩
      · have hji : j ≠ i := by
          rintro rfl
          rw [hdrop.slot] at hj
          cases hj
        rw [hdrop.slots hji] at hj
        have hqp : q ≠ p := by
          rintro rfl
          exact hji (h.slot_inj hj hi)
        rw [hdrop.heap hqp] at hq
        have hs : e'.sectorIdx ≠ e.sectorIdx := by
          intro heq
          have := h.hash_eq hj hq
          rw [heq, hb] at this
          exact hqp (some.inj this).symm
        rw [hdrop.base hji, hdisk _ hs]
        exact h.clean hj hq hdirty
      · rw [hdrop.blockSize]
        rw [hdrop.hash] at hq
        split_ifs at hq
        exact h.inRange hq
    case brk => exact hdrop.brk
    case blockSize => exact hdrop.blockSize
    case slot => exact hdrop.slot
    case heap =>
      intro q hq
      exact hdrop.heap fun heq => hq (by rw [heq, hi])
    case hash =>
      intro s hs
      rw [hdrop.hash]
      split_ifs
      · rfl
      · exact hs
    case view =>
      intro s
      by_cases hs : s = e.sectorIdx
      · subst hs
        have hnone : σ'.bufferCache e.sectorIdx = none := by
          rw [hdrop.hash, if_pos hb]
        rw [view_of_not_cached hnone, view_of_cached hb hp, hdrop.disk, hc]
        exact hd1
      · refine view_congr (hhash s hs) (fun q hq => ?_) (fun q e' hq he' => ?_) (hdisk s hs)
        · exact hdrop.heap fun heq => hs ((hvictim s).mp (heq ▸ hq))
        · refine hdrop.base fun heq => hs ?_
          have hslot := h.slot_of_hash hq he'
          rw [heq, hi] at hslot
          exact (hvictim s).mp (hslot ▸ hq)
    case disk =>
      intro s hs
      refine hdisk s ?_
      rintro rfl
      rw [hb] at hs
      cases hs

/-- What `read_from_disk` and `write_new_buffer` have done before they touch the
contents of the slot. -/
structure Replaced (σ : Cache) (sector : ℕ) (slot : Fin 64) (dirty : Bool) (σ' : Cache) :
    Prop where
  indexed : Indexed σ'
  blockSize : σ'.blockSize = σ.blockSize
  hash : σ'.bufferCache sector = some σ.brk
  entry : σ'.heap σ.brk = some ⟨sector, slot, dirty⟩
  disk : σ'.disk sector = σ.disk sector
  view : ∀ {s}, s ≠ sector → σ'.view s = σ.view s
  clean : ∀ {i p e}, i ≠ slot → σ'.cacheSectors i = some p → σ'.heap p = some e →
    e.dirty = false → σ'.bufferBase i = σ'.disk e.sectorIdx
  inRange : ∀ {s p}, s ≠ sector → σ'.bufferCache s = some p → s < σ'.blockSize

theorem mallocEntry_sound (h : Sound σ) : Sound (σ.mallocEntry e) := by
  refine ⟨mallocEntry_indexed h.toIndexed, fun {i q e'} hi hq hdirty => ?_, h.inRange⟩
  obtain ⟨e'', he'', -, -⟩ := h.slot hi
  have hne : q ≠ σ.brk := (h.lt_brk he'').ne
  have hq' : σ.heap q = some e' := by
    rw [← hq]
    exact (update_of_ne hne ..).symm
  exact h.clean hi hq' hdirty

theorem mallocEntry_view (h : Sound σ) (s : ℕ) : (σ.mallocEntry e).view s = σ.view s := by
  refine view_congr rfl (fun q hq => ?_) (fun _ _ _ _ => rfl) rfl
  obtain ⟨e', he', -⟩ := h.hash hq
  exact update_of_ne (h.lt_brk he').ne ..

theorem replaceEntry_replaced (h : Sound σ) (hs : σ.bufferCache sector = none)
    (slot : Fin 64) (dirty : Bool) :
    ∃ σ', σ.replaceEntry sector slot dirty = some σ' ∧ Replaced σ sector slot dirty σ' := by
  have h1 : Sound (σ.mallocEntry ⟨sector, slot, dirty⟩) := mallocEntry_sound h
  obtain ⟨σ2, hσ2, he⟩ := bufferCacheEvict_evicted h1 slot
  -- the new structure is in no slot, so the eviction has not freed it
  have hnew : σ2.heap σ.brk = some ⟨sector, slot, dirty⟩ := by
    rw [he.heap]
    · exact update_self ..
    · intro hq
      obtain ⟨e', he', -⟩ := h.slot hq
      exact absurd (h.lt_brk he') (Nat.lt_irrefl _)
  have hnone : σ2.bufferCache sector = none := he.hash hs
  obtain ⟨σ3, hσ3, hi⟩ := bufferCacheInsert_inserted he.sound.toIndexed hnew he.slot hnone
  refine ⟨σ3, by rw [replaceEntry, hσ2]; exact hσ3, ?_⟩
  have hhash : ∀ {s}, s ≠ sector → σ3.bufferCache s = σ2.bufferCache s := by
    intro s hne
    rw [hi.hash, update_of_ne hne]
  constructor
  case indexed => exact hi.indexed
  case blockSize => rw [hi.blockSize, he.blockSize]; rfl
  case hash => rw [hi.hash, update_self]
  case entry => rw [hi.heap, hnew]
  case disk => rw [hi.disk, he.disk hs]; rfl
  case view =>
    intro s hne
    calc σ3.view s = σ2.view s :=
          view_congr (hhash hne) (fun _ _ => by rw [hi.heap]) (fun _ _ _ _ => by rw [hi.base])
            (by rw [hi.disk])
      _ = (σ.mallocEntry ⟨sector, slot, dirty⟩).view s := he.view s
      _ = σ.view s := mallocEntry_view h s
  case clean =>
    intro j q e' hne hj hq hdirty
    rw [hi.slots, update_of_ne hne] at hj
    rw [hi.heap] at hq
    rw [hi.base, hi.disk]
    exact he.sound.clean hj hq hdirty
  case inRange =>
    intro s q hne hq
    rw [hhash hne] at hq
    rw [hi.blockSize]
    exact he.sound.inRange hq

theorem setBase_view (h : Indexed σ) (hs : σ.bufferCache sector = some p)
    (hp : σ.heap p = some e) (c : Sector) :
    view { σ with bufferBase := update σ.bufferBase e.clockIdx c } =
      update σ.view sector c := by
  funext s
  by_cases hne : s = sector
  · subst hne
    have hv := view_of_cached
      (σ := { σ with bufferBase := update σ.bufferBase e.clockIdx c }) hs hp
    rw [update_self, hv]
    exact update_self ..
  · rw [update_of_ne hne]
    refine view_congr rfl (fun _ _ => rfl) (fun q e' hq he' => ?_) rfl
    refine update_of_ne (fun heq => hne ?_) ..
    have h1 := h.slot_of_hash hq he'
    rw [heq, h.slot_of_hash hs hp] at h1
    cases h1
    rw [← h.sector_eq hq hp, h.sector_eq hs hp]

def Cached (σ : Cache) (s : ℕ) : Prop :=
  σ.bufferCache s ≠ none

instance (σ : Cache) (s : ℕ) : Decidable (σ.Cached s) :=
  inferInstanceAs (Decidable (σ.bufferCache s ≠ none))

theorem copyOut_eq (h : offset + size ≤ 512) :
    σ.copyOut slot size offset = some ((σ.bufferBase slot).slice offset size) :=
  if_pos h

theorem copyIn_eq (h : offset + size ≤ 512) :
    σ.copyIn slot data offset = some { σ with
      bufferBase :=
        update σ.bufferBase slot ((σ.bufferBase slot).write offset data) } :=
  if_pos h

structure ReadDone (σ : Cache) (sector : ℕ) (σ' : Cache) : Prop where
  sound : Sound σ'
  blockSize : σ'.blockSize = σ.blockSize
  view : σ'.view = σ.view
  cached : σ'.Cached sector

theorem readFromBuffer_spec (h : Sound σ) (hs : σ.bufferCache sector = some p)
    (hsize : offset + size ≤ 512) :
    ∃ σ', σ.readFromBuffer sector size offset =
      some (σ', (σ.view sector).slice offset size) ∧ ReadDone σ sector σ' := by
  obtain ⟨e, hp, -⟩ := h.hash hs
  refine ⟨σ.setRefbit e.clockIdx, ?_, h.of_eq rfl rfl rfl rfl rfl rfl rfl, rfl, rfl, ?_⟩
  · rw [view_of_cached hs hp]
    simp only [readFromBuffer, bufferCacheFind, hs, bind_eq_bind, bind_some, hp, copyOut_eq hsize]
  · change σ.bufferCache sector ≠ none
    simp [hs]

/-- The slot of a new entry is filled, with what the device holds unless it is dirty. -/
theorem Replaced.fill {slot : Fin 64} {dirty : Bool} {τ : Cache} {c : Sector}
    (hr : Replaced σ sector slot dirty τ) (hlt : sector < σ.blockSize)
    (hc : dirty = false → c = σ.disk sector) :
    let σ' : Cache := { τ with bufferBase := update τ.bufferBase slot c }
    Sound σ' ∧ σ'.view = update σ.view sector c ∧ σ'.Cached sector := by
  refine ⟨⟨hr.indexed.of_eq rfl rfl rfl rfl, fun {i q e} hi hq hclean => ?_,
    fun {s q} hq => ?_⟩, ?_, ?_⟩
  · dsimp only at hi hq ⊢
    by_cases hne : i = slot
    · subst hne
      have hslot := hr.indexed.slot_of_hash hr.hash hr.entry
      rw [hslot] at hi
      cases hi
      rw [hr.entry] at hq
      cases hq
      rw [update_self, hr.disk]
      exact hc hclean
    · rw [update_of_ne hne]
      exact hr.clean hne hi hq hclean
  · dsimp only at hq ⊢
    by_cases hne : s = sector
    · rw [hne, hr.blockSize]
      exact hlt
    · exact hr.inRange hne hq
  · rw [setBase_view hr.indexed hr.hash hr.entry]
    funext s
    by_cases hne : s = sector
    · rw [hne, update_self, update_self]
    · rw [update_of_ne hne, update_of_ne hne, hr.view hne]
  · change τ.bufferCache sector ≠ none
    simp [hr.hash]

theorem readFromDisk_spec (h : Sound σ) (hs : σ.bufferCache sector = none)
    (hlt : sector < σ.blockSize) (hsize : offset + size ≤ 512) (slot : Fin 64) :
    ∃ σ', σ.readFromDisk sector slot size offset =
      some (σ', (σ.view sector).slice offset size) ∧ ReadDone σ sector σ' := by
  obtain ⟨σ₁, hσ1, hr⟩ := replaceEntry_replaced h hs slot false
  have hread : σ₁.blockRead sector = some (σ.disk sector) := by
    rw [blockRead, if_pos (by rwa [hr.blockSize]), hr.disk]
  obtain ⟨hsound, hview, hcached⟩ := hr.fill hlt fun _ => rfl
  refine ⟨_, ?_, hsound, hr.blockSize, ?_, hcached⟩
  · rw [view_of_not_cached hs]
    simp only [readFromDisk, fillFromDisk, hσ1, hread, bind_eq_bind,
      bind_some, copyOut_eq hsize, update_self]
  · rw [hview, ← view_of_not_cached hs, update_eq_self]

theorem bufferCacheRead_spec (h : Sound σ) (hlt : sector < σ.blockSize)
    (hsize : offset + size ≤ 512) :
    ∃ σ', σ.bufferCacheRead sector size offset =
      some (σ', (σ.view sector).slice offset size) ∧ ReadDone σ sector σ' := by
  unfold bufferCacheRead readLocked bufferCacheFind
  cases hs : σ.bufferCache sector with
  | some p =>
    obtain ⟨e, hp, -⟩ := h.hash hs
    simp only [hp, bind_eq_bind, bind_some]
    exact readFromBuffer_spec h hs hsize
  | none =>
    have hn := σ.updateClockIdx_blockSize
    have hs' : σ.updateClockIdx.bufferCache sector = none := by
      rwa [updateClockIdx_bufferCache]
    simp only [hs']
    obtain ⟨σ', hσ', hr⟩ := readFromDisk_spec (updateClockIdx_sound h) hs' (hn ▸ hlt) hsize
      σ.updateClockIdx.clockIdx
    rw [updateClockIdx_view] at hσ'
    exact ⟨σ', hσ', hr.sound, hr.blockSize.trans hn, hr.view.trans σ.updateClockIdx_view, hr.cached⟩

theorem bufferCacheRead_inRange (h : Sound σ) {r : Cache × Block size}
    (hr : σ.bufferCacheRead sector size offset = some r) :
    sector < σ.blockSize ∧ offset + size ≤ 512 := by
  unfold bufferCacheRead readLocked bufferCacheFind at hr
  cases hs : σ.bufferCache sector with
  | some p =>
    simp only [hs, readFromBuffer, copyOut, bufferCacheFind, bind_eq_bind,
      bind_eq_some_iff, ite_none_right_eq_some] at hr
    obtain ⟨_, _, _, _, _, _, _, ⟨hsize, _⟩, _⟩ := hr
    exact ⟨h.inRange hs, hsize⟩
  | none =>
    have hs' : σ.updateClockIdx.bufferCache sector = none := by
      rwa [updateClockIdx_bufferCache]
    obtain ⟨σ₁, hσ1, hrep⟩ := replaceEntry_replaced (updateClockIdx_sound h) hs'
      σ.updateClockIdx.clockIdx false
    have hn := hrep.blockSize.trans σ.updateClockIdx_blockSize
    simp only [hs, hs', readFromDisk, hσ1, fillFromDisk, blockRead, copyOut, bind_eq_bind,
      bind_some, bind_eq_some_iff, ite_none_right_eq_some] at hr
    obtain ⟨_, ⟨hlt, _⟩, _, ⟨hsize, _⟩, _⟩ := hr
    rw [hn] at hlt
    exact ⟨hlt, hsize⟩

/-- What a write does to the cache.  The data is laid over `base`, which is the old
contents when the sector was cached.  A new slot is not filled from the device, and
then `base` is whatever the slot held. -/
structure WriteDone (σ : Cache) (sector : ℕ) {size : ℕ} (data : Block size) (offset : ℕ)
    (base : Sector) (σ' : Cache) : Prop where
  sound : Sound σ'
  blockSize : σ'.blockSize = σ.blockSize
  view : σ'.view = update σ.view sector (base.write offset data)
  cached : σ'.Cached sector
  old : σ.Cached sector → base = σ.view sector

theorem writeExistBuffer_spec (h : Sound σ) (hs : σ.bufferCache sector = some p)
    (hsize : offset + size ≤ 512) :
    ∃ σ' base, σ.writeExistBuffer sector data offset = some σ' ∧
      WriteDone σ sector data offset base σ' := by
  obtain ⟨e, hp, -, hslot⟩ := h.hash hs
  have hdirty := setDirty_indexed h.toIndexed hp
  refine ⟨_, σ.view sector, by
    simp only [writeExistBuffer, bufferCacheFind, hs, bind_eq_bind,
      bind_some, hp, copyIn_eq hsize]; rfl, ?_⟩
  refine ⟨⟨hdirty.of_eq rfl rfl rfl rfl, fun {i q e'} hi hq hclean => ?_, h.inRange⟩, rfl,
    ?_, ?_, fun _ => rfl⟩
  · dsimp only [setRefbit] at hi hq ⊢
    rcases Slots.of_update_some hq with ⟨rfl, rfl⟩ | ⟨hqp, hq⟩
    · cases hclean
    · have hne : i ≠ e.clockIdx := by
        rintro rfl
        rw [hslot] at hi
        exact hqp (some.inj hi).symm
      rw [update_of_ne hne]
      exact h.clean hi hq hclean
  · have hp' : update σ.heap p (some { e with dirty := true }) p =
        some { e with dirty := true } := update_self ..
    have hv := setBase_view hdirty hs hp' ((σ.view sector).write offset data)
    have hv0 : view { σ with
        heap := update σ.heap p (some { e with dirty := true }) } = σ.view := by
      funext s
      unfold view bufferCacheFind
      cases hs' : σ.bufferCache s with
      | none => rfl
      | some q =>
        dsimp only
        rw [bind_some, bind_some, update_apply]
        split_ifs with hqp
        · rw [hqp, hp]
        · rfl
    rw [hv0] at hv
    rw [← hv, view_of_cached hs hp]
    rfl
  · change σ.bufferCache sector ≠ none
    simp [hs]

theorem writeNewBuffer_spec (h : Sound σ) (hs : σ.bufferCache sector = none)
    (hlt : sector < σ.blockSize) (hsize : offset + size ≤ 512) (slot : Fin 64) :
    ∃ σ' base, σ.writeNewBuffer sector data slot offset = some σ' ∧
      WriteDone σ sector data offset base σ' := by
  obtain ⟨σ₁, hσ1, hr⟩ := replaceEntry_replaced h hs slot true
  obtain ⟨hsound, hview, hcached⟩ := hr.fill hlt nofun
  refine ⟨_, σ₁.bufferBase slot, ?_, hsound, hr.blockSize, hview, hcached, fun hc => absurd hs hc⟩
  rw [writeNewBuffer, hσ1, bind_eq_bind, bind_some, copyIn_eq hsize]

theorem bufferCacheWrite_spec (data : Block size) (h : Sound σ) (hlt : sector < σ.blockSize)
    (hsize : offset + size ≤ 512) :
    ∃ σ' base, σ.bufferCacheWrite sector data offset = some σ' ∧
      WriteDone σ sector data offset base σ' := by
  unfold bufferCacheWrite writeLocked bufferCacheFind
  cases hs : σ.bufferCache sector with
  | some p =>
    obtain ⟨e, hp, -⟩ := h.hash hs
    simp only [hp, bind_eq_bind, bind_some]
    exact writeExistBuffer_spec h hs hsize
  | none =>
    have hn := σ.updateClockIdx_blockSize
    have hs' : σ.updateClockIdx.bufferCache sector = none := by
      rwa [updateClockIdx_bufferCache]
    simp only [hs']
    obtain ⟨σ', base, hσ', hw⟩ := writeNewBuffer_spec (updateClockIdx_sound h) hs' (hn ▸ hlt)
      hsize σ.updateClockIdx.clockIdx
    refine ⟨σ', base, hσ', hw.sound, hw.blockSize.trans hn, ?_, hw.cached, fun hc => absurd hs hc⟩
    rw [hw.view, updateClockIdx_view]

/-- The sector of the device that belongs to a slot holds what the slot holds. -/
def Flushed (σ : Cache) (i : Fin 64) : Prop :=
  ∀ p e, σ.cacheSectors i = some p → σ.heap p = some e →
    σ.disk e.sectorIdx = σ.bufferBase i

theorem Sound.setDisk (h : Sound σ) {d : ℕ → Sector}
    (hd : ∀ i p e, σ.cacheSectors i = some p → σ.heap p = some e → e.dirty = false →
      σ.bufferBase i = d e.sectorIdx) : Sound { σ with disk := d } where
  toIndexed := h.toIndexed.of_eq rfl rfl rfl rfl
  clean hi hp hdirty := hd _ _ _ hi hp hdirty
  inRange := h.inRange

theorem flushSlot_spec (h : Sound σ) (i : Fin 64) :
    ∃ d, σ.flushSlot i = some { σ with disk := d } ∧ Sound { σ with disk := d } ∧
      Flushed { σ with disk := d } i ∧
      (∀ j, σ.Flushed j → Flushed { σ with disk := d } j) ∧
      ∀ s, σ.bufferCache s = none → d s = σ.disk s := by
  cases hi : σ.cacheSectors i with
  | none =>
    refine ⟨σ.disk, by rw [flushSlot, hi], h, fun p e hp _ => ?_, fun _ => id, fun _ _ => rfl⟩
    rw [hi] at hp
    cases hp
  | some p =>
    obtain ⟨e, hp, -, hs⟩ := h.slot hi
    by_cases hdirty : e.dirty = true
    · refine ⟨update σ.disk e.sectorIdx (σ.bufferBase i), ?_, ?_⟩
      · simp only [flushSlot, hi, hp, bind_eq_bind, bind_some, hdirty, if_true,
          blockWrite, if_pos (h.inRange hs)]
      -- another slot has another sector
      have hother : ∀ j q e', σ.cacheSectors j = some q → σ.heap q = some e' →
          e'.sectorIdx = e.sectorIdx → j = i := by
        intro j q e' hj hq heq
        have hq' := h.hash_eq hj hq
        rw [heq, hs] at hq'
        cases hq'
        exact h.slot_inj hj hi
      refine ⟨h.setDisk fun j q e' hj hq hclean => ?_, fun q e' hq hq' => ?_,
        fun j hj q e' hq hq' => ?_, fun s hnone => ?_⟩
      · rw [update_of_ne, h.clean hj hq hclean]
        intro heq
        have hji := hother j q e' hj hq heq
        subst hji
        rw [hi] at hj
        cases hj
        rw [hp] at hq
        cases hq
        rw [hdirty] at hclean
        cases hclean
      · rw [hi] at hq
        cases hq
        rw [hp] at hq'
        cases hq'
        exact update_self ..
      · dsimp only at hq hq' ⊢
        rw [update_apply]
        split_ifs with heq
        · rw [hother j q e' hq hq' heq]
        · exact hj q e' hq hq'
      · refine update_of_ne ?_ ..
        rintro rfl
        rw [hs] at hnone
        cases hnone
    · refine ⟨σ.disk, ?_, h, fun q e' hq hq' => ?_, fun _ => id, fun _ _ => rfl⟩
      · simp only [flushSlot, hi, hp, bind_eq_bind, bind_some, hdirty]
        rfl
      · have hclean : e'.dirty = false := by
          rw [hi] at hq
          cases hq
          rw [hp] at hq'
          cases hq'
          simpa using hdirty
        exact (h.clean hq hq' hclean).symm

theorem flushSlots_spec (slots : List (Fin 64)) (h : Sound σ) :
    ∃ d, Run.run flushSlot σ slots = some { σ with disk := d } ∧
      Sound { σ with disk := d } ∧ (∀ i ∈ slots, Flushed { σ with disk := d } i) ∧
      (∀ j, σ.Flushed j → Flushed { σ with disk := d } j) ∧
      ∀ s, σ.bufferCache s = none → d s = σ.disk s := by
  induction slots generalizing σ with
  | nil => exact ⟨σ.disk, rfl, h, by simp, fun _ => id, fun _ _ => rfl⟩
  | cons i slots ih =>
    obtain ⟨d₁, hd1, hs1, hi, hold1, hnone1⟩ := flushSlot_spec h i
    obtain ⟨d, hd, hs, hall, hold, hnone⟩ := ih hs1
    refine ⟨d, ?_, hs, fun j hj => ?_, fun j hj => hold j (hold1 j hj), fun s hsec => ?_⟩
    · rw [Run.run_cons, hd1]
      exact hd
    · rcases mem_cons.mp hj with rfl | hj
      · exact hold j hi
      · exact hall j hj
    · exact (hnone s hsec).trans (hnone1 s hsec)

theorem bufferCacheFlush_spec (h : Sound σ) :
    ∃ σ', σ.bufferCacheFlush = some σ' ∧ Sound σ' ∧ σ'.blockSize = σ.blockSize ∧
      σ'.view = σ.view ∧ ∀ s, σ'.view s = σ'.disk s := by
  obtain ⟨d, hd, hs, hall, -, hnone⟩ := flushSlots_spec (finRange 64) h
  refine ⟨_, hd, hs, rfl, ?_, fun s => ?_⟩
  · funext s
    unfold view bufferCacheFind
    cases hb : σ.bufferCache s with
    | none => exact hnone s hb
    | some p =>
      obtain ⟨e, hp, -⟩ := h.hash hb
      simp only [bind_some, hp]
  · cases hb : σ.bufferCache s with
    | none => exact view_of_not_cached hb
    | some p =>
      obtain ⟨e, hp, rfl, hslot⟩ := h.hash hb
      rw [view_of_cached (σ := { σ with disk := d }) hb hp]
      exact (hall e.clockIdx (mem_finRange _) p e hslot hp).symm

theorem step_sound {op : Op} (h : Sound σ) (hop : op.InRange σ.blockSize) :
    ∃ σ', σ.step op = some σ' ∧ Sound σ' ∧ σ'.blockSize = σ.blockSize := by
  cases op with
  | read sector size offset =>
    obtain ⟨σ', hσ', hr⟩ := bufferCacheRead_spec h hop.1 hop.2
    exact ⟨σ', by rw [step, hσ']; rfl, hr.sound, hr.blockSize⟩
  | write sector data offset =>
    obtain ⟨σ', base, hσ', hw⟩ := bufferCacheWrite_spec _ h hop.1 hop.2
    exact ⟨σ', hσ', hw.sound, hw.blockSize⟩
  | flush =>
    obtain ⟨σ', hσ', hs, hb, -⟩ := bufferCacheFlush_spec h
    exact ⟨σ', hσ', hs, hb⟩

theorem run_sound {ops : List Op} (h : Sound σ) (hops : ∀ op ∈ ops, op.InRange σ.blockSize) :
    ∃ σ', Run.run step σ ops = some σ' ∧ Sound σ' ∧ σ'.blockSize = σ.blockSize := by
  induction ops generalizing σ with
  | nil => exact ⟨σ, rfl, h, rfl⟩
  | cons op ops ih =>
    obtain ⟨σ₁, hσ1, hs1, hb1⟩ := step_sound h (hops op mem_cons_self)
    obtain ⟨σ2, hσ2, hs2, hb2⟩ := ih hs1 fun o ho => hb1 ▸ hops o (mem_cons_of_mem op ho)
    exact ⟨σ2, by rw [Run.run_cons, hσ1]; exact hσ2, hs2, hb2.trans hb1⟩

/-- What every call does in a state, seen through the view: a read returns the bytes of
the view and changes none, a write changes that of its own sector at most, and a flush
makes the device equal to the view.  Clean slots hold what the device holds. -/
structure Transparent (σ : Cache) : Prop where
  read : ∀ sector size offset, sector < σ.blockSize → offset + size ≤ 512 →
    ∃ σ', σ.bufferCacheRead sector size offset =
      some (σ', (σ.view sector).slice offset size) ∧ ∀ s, σ'.view s = σ.view s
  write : ∀ sector size (data : Block size) offset, sector < σ.blockSize →
    offset + size ≤ 512 → ∃ σ', σ.bufferCacheWrite sector data offset = some σ' ∧
      ∀ s, s ≠ sector → σ'.view s = σ.view s
  clean : ∀ i p e, σ.cacheSectors i = some p → σ.heap p = some e → e.dirty = false →
    σ.bufferBase i = σ.disk e.sectorIdx
  flush : ∃ σ', σ.bufferCacheFlush = some σ' ∧ (∀ s, σ'.view s = σ.view s) ∧
    ∀ s, σ'.view s = σ'.disk s

theorem Sound.transparent (h : Sound σ) : Transparent σ where
  read sector size offset hlt hsize := by
    obtain ⟨σ', hσ', hr⟩ := bufferCacheRead_spec h hlt hsize
    exact ⟨σ', hσ', fun s => by rw [hr.view]⟩
  write sector size data offset hlt hsize := by
    obtain ⟨σ', base, hσ', hw⟩ := bufferCacheWrite_spec _ h hlt hsize
    exact ⟨σ', hσ', fun s hs => by rw [hw.view, update_of_ne hs]⟩
  clean _ _ _ hi hp hdirty := h.clean hi hp hdirty
  flush := by
    obtain ⟨σ', hσ', -, -, hv, hd⟩ := bufferCacheFlush_spec h
    exact ⟨σ', hσ', fun s => by rw [hv], hd⟩

/-- Every sequence of calls from the empty cache runs to its end, and the cache is
transparent there. -/
theorem run_transparent (n : ℕ) (disk : ℕ → Sector) (base : Fin 64 → Sector)
    (ops : List Op) (hops : ∀ op ∈ ops, op.InRange n) :
    ∃ σ, Run.run step (init n disk base) ops = some σ ∧ σ.blockSize = n ∧
      Transparent σ := by
  obtain ⟨σ, hσ, hs, hb⟩ := run_sound (init_sound n disk base) hops
  exact ⟨σ, hσ, hb, hs.transparent⟩

theorem run_transparent_writeReadFlush :
    ∃ σ, Run.run step (init 2 (fun _ _ => 7) fun _ _ => 9)
        [.write 1 [1, 2] 4, .read 0 4 508, .flush] = some σ ∧
      σ.blockSize = 2 ∧ Transparent σ :=
  run_transparent 2 _ _ _ (by simp [Op.InRange])

end CS162.Filesys.Cache
