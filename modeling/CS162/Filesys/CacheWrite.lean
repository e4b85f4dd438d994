import CS162.Filesys.CacheView

/-!
# Partial writes

A write to a sector that is not cached takes a slot without reading the sector from the
device.  The bytes around the written ones are then what the slot is left with: zeros
when another sector was evicted from it, and its uninitialised memory otherwise.
-/

namespace CS162.Filesys.Cache

open Option Function Block List

variable {σ σ' τ : Cache} {s p sector size offset : ℕ} {i slot : Fin 64} {dirty : Bool}
  {data : Block size} {c : Sector} {r : Cache × Block size}

/-- What a slot holds once its sector has been evicted. -/
def leftover (σ : Cache) (i : Fin 64) : Sector :=
  match σ.cacheSectors i with
  | none => σ.bufferBase i
  | some _ => fun _ => 0

theorem leftover_of_none (h : σ.cacheSectors i = none) : σ.leftover i = σ.bufferBase i := by
  rw [leftover, h]

theorem leftover_of_some (h : σ.cacheSectors i = some p) : σ.leftover i = fun _ => 0 := by
  rw [leftover, h]

/-- A slot that has taken a new sector holds what it was left with, and the other slots
have not changed. -/
theorem replaceEntry_base (h : Indexed σ)
    (hr : σ.replaceEntry sector slot dirty = some σ') :
    σ'.bufferBase = update σ.bufferBase slot (σ.leftover slot) := by
  obtain ⟨τ, hevict, hinsert⟩ := bind_eq_some_iff.mp hr
  obtain ⟨e, he, hinsert⟩ := bind_eq_some_iff.mp hinsert
  cases hinsert
  change (σ.mallocEntry ⟨sector, slot, dirty⟩).bufferCacheEvict (σ.cacheSectors slot) =
    some τ at hevict
  have hmalloc : (σ.mallocEntry ⟨sector, slot, dirty⟩).heap σ.brk =
      some ⟨sector, slot, dirty⟩ := update_self ..
  cases hi : σ.cacheSectors slot with
  | none =>
    rw [hi] at hevict
    cases hevict
    obtain rfl : (⟨sector, slot, dirty⟩ : CacheSector) = e := some.inj (hmalloc.symm.trans he)
    rw [leftover_of_none hi, update_eq_self]
    rfl
  | some p =>
    obtain ⟨e', hp, hslot, -⟩ := h.slot hi
    have hne : p ≠ σ.brk := (h.lt_brk hp).ne
    rw [hi] at hevict
    obtain ⟨υ, hdump, hdrop⟩ := bind_eq_some_iff.mp hevict
    obtain ⟨d, rfl⟩ := evictDump_eq hdump
    obtain ⟨e'', hp', hdrop⟩ := bind_eq_some_iff.mp hdrop
    have hp'' : (σ.mallocEntry ⟨sector, slot, dirty⟩).heap p = some e' :=
      (update_of_ne hne ..).trans hp
    obtain rfl : e' = e'' := some.inj (hp''.symm.trans hp')
    cases hdrop
    change update σ.bufferBase e'.clockIdx _ = _
    rw [hslot, leftover_of_some hi]

def hand (σ : Cache) : Fin 64 :=
  σ.updateClockIdx.clockIdx

theorem leftover_updateClockIdx (σ : Cache) (i : Fin 64) :
    σ.updateClockIdx.leftover i = σ.leftover i := by
  obtain ⟨r, c, hu⟩ := σ.updateClockIdx_eq
  rw [hu]
  rfl

theorem bufferCacheWrite_miss (h : Sound σ) (hs : σ.bufferCache sector = none)
    (hw : σ.bufferCacheWrite sector data offset = some σ') :
    σ'.view sector = (σ.leftover σ.hand).write offset data := by
  have hs' : σ.updateClockIdx.bufferCache sector = none := by
    rwa [updateClockIdx_bufferCache]
  have h' := updateClockIdx_sound h
  simp only [bufferCacheWrite, writeLocked, bufferCacheFind, hs, hs'] at hw
  obtain ⟨τ, hτ, hcopy⟩ := bind_eq_some_iff.mp hw
  obtain ⟨-, hcopy⟩ := ite_none_right_eq_some.mp hcopy
  cases hcopy
  obtain ⟨τ', hτ', hr⟩ := replaceEntry_replaced h' hs' σ.updateClockIdx.clockIdx true
  obtain rfl : τ = τ' := some.inj (hτ.symm.trans hτ')
  have hbase := replaceEntry_base h'.toIndexed hτ
  have hview := setBase_view hr.indexed hr.hash hr.entry
    ((τ.bufferBase σ.updateClockIdx.clockIdx).write offset data)
  rw [hview, update_self, hbase, update_self, leftover_updateClockIdx, hand]

def Op.Spares (sector : ℕ) : Op → Prop
  | .write s _ _ => s ≠ sector
  | _ => True

theorem step_view {op : Op} (h : Sound σ) (hop : op.InRange σ.blockSize) (hspare : op.Spares sector)
    (hstep : σ.step op = some σ') : σ'.view sector = σ.view sector := by
  cases op with
  | read s n o =>
    obtain ⟨τ, hτ, hr⟩ := bufferCacheRead_spec h hop.1 hop.2
    rw [step, hτ, map_some, some.injEq] at hstep
    rw [← hstep, hr.view]
  | write s d o =>
    obtain ⟨τ, base, hτ, hw⟩ := bufferCacheWrite_spec (ofList d) h hop.1 hop.2
    have hstep : some τ = some σ' := hτ.symm.trans hstep
    rw [← some.inj hstep, hw.view, update_of_ne (Ne.symm hspare)]
  | flush =>
    obtain ⟨τ, hτ, -, -, hv, -⟩ := bufferCacheFlush_spec h
    have hstep : some τ = some σ' := hτ.symm.trans hstep
    rw [← some.inj hstep, hv]

theorem run_view {ops : List Op} (h : Sound σ) (hops : ∀ op ∈ ops, op.InRange σ.blockSize)
    (hspare : ∀ op ∈ ops, op.Spares sector) (hrun : Run.run step σ ops = some σ') :
    Sound σ' ∧ σ'.blockSize = σ.blockSize ∧ σ'.view sector = σ.view sector := by
  induction ops generalizing σ with
  | nil =>
    cases hrun
    exact ⟨h, rfl, rfl⟩
  | cons op ops ih =>
    obtain ⟨τ, hτ, hrun⟩ := Run.run_cons_eq_some.mp hrun
    obtain ⟨τ', hτ', hs, hb⟩ := step_sound h (hops op mem_cons_self)
    obtain rfl : τ = τ' := some.inj (hτ.symm.trans hτ')
    obtain ⟨hs', hb', hv⟩ := ih hs (fun o ho => hb ▸ hops o (mem_cons_of_mem op ho))
      (fun o ho => hspare o (mem_cons_of_mem op ho)) hrun
    have hv' := step_view h (hops op mem_cons_self) (hspare op mem_cons_self) hτ
    exact ⟨hs', hb'.trans hb, hv.trans hv'⟩

/-- From the state on, as long as the sector is not written again: reads return the bytes
of `c`, the device holds `c` whenever the sector is not cached, as after its eviction,
and it holds `c` after a flush. -/
def Holds (σ : Cache) (sector : ℕ) (c : Sector) : Prop :=
  ∀ ops σ', (∀ op ∈ ops, op.InRange σ.blockSize ∧ op.Spares sector) →
    Run.run step σ ops = some σ' →
      (∀ size offset, offset + size ≤ 512 →
        ∃ τ, σ'.bufferCacheRead sector size offset = some (τ, c.slice offset size)) ∧
      (¬ σ'.Cached sector → σ'.disk sector = c) ∧
      ∃ τ, σ'.bufferCacheFlush = some τ ∧ τ.disk sector = c

theorem holds_iff (h : Sound σ) (hlt : sector < σ.blockSize) :
    σ.Holds sector c ↔ σ.view sector = c := by
  constructor
  · intro hc
    obtain ⟨τ, hτ⟩ := (hc [] σ (by simp) rfl).1 512 0 le_rfl
    obtain ⟨τ', hτ', -⟩ := bufferCacheRead_spec h hlt (le_refl (0 + 512))
    rw [hτ', some.injEq, Prod.mk.injEq, slice_full, slice_full] at hτ
    exact hτ.2
  · rintro rfl ops σ' hops hrun
    obtain ⟨hs, hb, hv⟩ := run_view h (fun op hop => (hops op hop).1)
      (fun op hop => (hops op hop).2) hrun
    have hlt' : sector < σ'.blockSize := by rwa [hb]
    refine ⟨fun size offset hsize => ?_, fun hc => ?_, ?_⟩
    · obtain ⟨τ, hτ, -⟩ := bufferCacheRead_spec hs hlt' hsize
      exact ⟨τ, by rw [hτ, hv]⟩
    · rw [← hv, view_of_not_cached (not_not.mp hc)]
    · obtain ⟨τ, hτ, -, -, hview, hdisk⟩ := bufferCacheFlush_spec hs
      exact ⟨τ, hτ, by rw [← hdisk, hview, hv]⟩

def AgreeOutside (offset size : ℕ) (b c : Sector) : Prop :=
  ∀ k, k < 512 → (k < offset ∨ offset + size ≤ k) → b.byte k = c.byte k

theorem write_eq_iff {b : Sector} :
    b.write offset data = c.write offset data ↔ AgreeOutside offset size b c := by
  constructor
  · intro heq k hk hout
    have hb : (b.write offset data).byte k = b.byte k := byte_write_outside hout
    rw [← hb, heq, byte_write_outside hout]
  · intro hagree
    refine ext_byte fun k hk => ?_
    by_cases hin : offset ≤ k ∧ k < offset + size
    · rw [byte_write_inside hk hin.1 hin.2, byte_write_inside hk hin.1 hin.2]
    · rw [byte_write_outside (by omega), byte_write_outside (by omega)]
      exact hagree k hk (by omega)

/-- `buffer_cache_write` changes exactly its bytes when the sector is cached, or when the
slot it takes happens to be left with the bytes around them. -/
theorem bufferCacheWrite_holds (σ : Cache) (data : Block size) (h : Sound σ)
    (hlt : sector < σ.blockSize) (hsize : offset + size ≤ 512) :
    ∃ σ', σ.bufferCacheWrite sector data offset = some σ' ∧
      (σ'.Holds sector ((σ.view sector).write offset data) ↔
        σ.Cached sector ∨ AgreeOutside offset size (σ.leftover σ.hand) (σ.view sector)) := by
  obtain ⟨σ', base, hσ', hw⟩ := bufferCacheWrite_spec data h hlt hsize
  refine ⟨σ', hσ', ?_⟩
  rw [holds_iff hw.sound (by rwa [hw.blockSize])]
  by_cases hs : σ.bufferCache sector = none
  · have hc : ¬ σ.Cached sector := not_not.mpr hs
    rw [bufferCacheWrite_miss h hs hσ', write_eq_iff]
    simp only [hc, false_or]
  · refine iff_of_true ?_ (.inl hs)
    rw [hw.view, update_self, hw.old hs]

theorem bufferCacheWrite_holds_whole :
    ∃ σ', (init 2 (fun _ _ => 7) fun _ _ => 0).bufferCacheWrite 1
        (fun _ => 5 : Block 512) 0 = some σ' ∧
      σ'.Holds 1 (write (fun _ => 7 : Sector) 0 (fun _ => 5 : Block 512)) := by
  obtain ⟨σ', hσ', hiff⟩ := bufferCacheWrite_holds (init 2 (fun _ _ => 7) fun _ _ => 0)
    (fun _ => 5 : Block 512) (init_sound _ _ _) (show 1 < 2 by decide) (le_refl (0 + 512))
  exact ⟨σ', hσ', hiff.mpr (.inr fun k hk hout => by omega)⟩

/-- Two bytes written to a sector of sevens that is not cached: the other bytes become
zeros. -/
theorem bufferCacheWrite_not_holds :
    ∃ σ', (init 2 (fun _ _ => 7) fun _ _ => 0).bufferCacheWrite 1
        (fun _ => 5 : Block 2) 4 = some σ' ∧ (σ'.view 1).byte 0 = 0 ∧
      ¬ σ'.Holds 1 (write (fun _ => 7 : Sector) 4 (fun _ => 5 : Block 2)) := by
  have h := init_sound 2 (fun _ _ => 7) fun _ _ => 0
  obtain ⟨σ', base, hσ', hw⟩ := bufferCacheWrite_spec (fun _ => 5 : Block 2) h
    (show 1 < 2 by decide) (show 4 + 2 ≤ 512 by decide)
  have hview := bufferCacheWrite_miss h rfl hσ'
  have hzero : (σ'.view 1).byte 0 = 0 := by
    rw [hview, byte_write_outside (.inl (by decide))]
    rfl
  refine ⟨σ', hσ', hzero, fun hholds => ?_⟩
  rw [holds_iff hw.sound (by rw [hw.blockSize]; decide)] at hholds
  rw [hholds, byte_write_outside (.inl (by decide))] at hzero
  revert hzero
  decide

end CS162.Filesys.Cache
