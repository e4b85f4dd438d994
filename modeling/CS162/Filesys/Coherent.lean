import CS162.Filesys.CacheView

/-!
# Calls that leave the device

A write to a sector past the end of the device stays in the cache until its slot is needed,
and only then does the kernel panic.  Such a cache is sound over a larger device, and every
call that ends does the same there.
-/

namespace CS162.Filesys.Cache

open Option

variable {σ σ' : Cache} {n p sector size offset : ℕ} {slot : Fin 64} {data : Block size}
  {r : Cache × Block size}

def resize (σ : Cache) (n : ℕ) : Cache :=
  { σ with blockSize := n }

theorem Sound.resize_mono {m : ℕ} (h : Sound (σ.resize n)) (hm : n ≤ m) :
    Sound (σ.resize m) where
  toIndexed := h.toIndexed.of_eq rfl rfl rfl rfl
  clean := h.clean
  inRange hs := (h.inRange hs).trans_le hm

theorem evictDump_resize (h : σ.evictDump p = some σ') (hn : σ.blockSize ≤ n) :
    (σ.resize n).evictDump p = some (σ'.resize n) ∧ σ'.blockSize = σ.blockSize := by
  obtain ⟨e, he, h⟩ := bind_eq_some_iff.mp h
  have he' : (σ.resize n).heap p = some e := he
  rw [evictDump, he', bind_eq_bind, bind_some]
  split_ifs at h ⊢ with hd
  · obtain ⟨hlt, h⟩ := ite_none_right_eq_some.mp h
    cases h
    exact ⟨if_pos (hlt.trans_le hn), rfl⟩
  · cases h
    exact ⟨rfl, rfl⟩

theorem evictDrop_resize (h : σ.evictDrop p = some σ') :
    (σ.resize n).evictDrop p = some (σ'.resize n) ∧ σ'.blockSize = σ.blockSize := by
  unfold evictDrop at h ⊢
  obtain ⟨e, he, h⟩ := bind_eq_some_iff.mp h
  have he' : (σ.resize n).heap p = some e := he
  rw [he', bind_eq_bind, bind_some]
  cases h
  exact ⟨rfl, rfl⟩

theorem bufferCacheEvict_resize {o : Option ℕ} (h : σ.bufferCacheEvict o = some σ')
    (hn : σ.blockSize ≤ n) :
    (σ.resize n).bufferCacheEvict o = some (σ'.resize n) ∧ σ'.blockSize = σ.blockSize := by
  cases o with
  | none =>
    cases h
    exact ⟨rfl, rfl⟩
  | some p =>
    obtain ⟨τ, hτ, h⟩ := bind_eq_some_iff.mp h
    obtain ⟨hdump, hsize⟩ := evictDump_resize hτ hn
    obtain ⟨hdrop, hsize'⟩ := evictDrop_resize (n := n) h
    exact ⟨bind_eq_some_iff.mpr ⟨_, hdump, hdrop⟩, hsize'.trans hsize⟩

theorem bufferCacheInsert_resize (h : σ.bufferCacheInsert p = some σ') :
    (σ.resize n).bufferCacheInsert p = some (σ'.resize n) ∧ σ'.blockSize = σ.blockSize := by
  unfold bufferCacheInsert at h ⊢
  obtain ⟨e, he, h⟩ := bind_eq_some_iff.mp h
  have he' : (σ.resize n).heap p = some e := he
  rw [he', bind_eq_bind, bind_some]
  cases h
  exact ⟨rfl, rfl⟩

theorem replaceEntry_resize {dirty : Bool} (h : σ.replaceEntry sector slot dirty = some σ')
    (hn : σ.blockSize ≤ n) :
    (σ.resize n).replaceEntry sector slot dirty = some (σ'.resize n) ∧
      σ'.blockSize = σ.blockSize := by
  obtain ⟨τ, hτ, h⟩ := bind_eq_some_iff.mp h
  obtain ⟨hevict, hsize⟩ := bufferCacheEvict_resize hτ hn
  obtain ⟨hinsert, hsize'⟩ := bufferCacheInsert_resize (n := n) h
  exact ⟨bind_eq_some_iff.mpr ⟨_, hevict, hinsert⟩, hsize'.trans hsize⟩

theorem bufferCacheFind_resize (σ : Cache) (n sector : ℕ) :
    (σ.resize n).bufferCacheFind sector = σ.bufferCacheFind sector := rfl

theorem readLocked_resize (h : σ.readLocked sector slot size offset = some r)
    (hn : σ.blockSize ≤ n) :
    (σ.resize n).readLocked sector slot size offset = some (r.1.resize n, r.2) ∧
      r.1.blockSize = σ.blockSize := by
  unfold readLocked at h ⊢
  rw [bufferCacheFind_resize]
  cases hs : σ.bufferCacheFind sector with
  | none =>
    rw [hs] at h
    obtain ⟨τ, hτ, h⟩ := bind_eq_some_iff.mp h
    obtain ⟨hrep, hsize⟩ := replaceEntry_resize hτ hn
    obtain ⟨c, hc, h⟩ := bind_eq_some_iff.mp h
    obtain ⟨b, hb, h⟩ := bind_eq_some_iff.mp h
    cases h
    obtain ⟨hlt, hc⟩ := ite_none_right_eq_some.mp hc
    have hc' : (τ.resize n).blockRead sector = some c := by
      rw [← hc]
      exact if_pos (hlt.trans_le (hsize.trans_le hn))
    have hb' : ({ τ.resize n with
        bufferBase := Function.update τ.bufferBase slot c } : Cache).copyOut slot size offset =
        some b := hb
    refine ⟨bind_eq_some_iff.mpr ⟨_, hrep, ?_⟩, hsize⟩
    exact bind_eq_some_iff.mpr ⟨c, hc', bind_eq_some_iff.mpr ⟨b, hb', rfl⟩⟩
  | some q =>
    rw [hs] at h
    obtain ⟨p, hp, h⟩ := bind_eq_some_iff.mp h
    obtain ⟨e, he, h⟩ := bind_eq_some_iff.mp h
    obtain ⟨b, hb, h⟩ := bind_eq_some_iff.mp h
    cases h
    refine ⟨bind_eq_some_iff.mpr ⟨p, hp, ?_⟩, rfl⟩
    exact bind_eq_some_iff.mpr ⟨e, he, bind_eq_some_iff.mpr ⟨b, hb, rfl⟩⟩

theorem updateClockIdx_resize (σ : Cache) (n : ℕ) :
    (σ.resize n).updateClockIdx = σ.updateClockIdx.resize n := by
  unfold updateClockIdx
  change (if (List.finRange 64).all σ.refbits then _ else
    if σ.refbits σ.clockIdx then _ else _) = _
  split_ifs <;> rfl

theorem bufferCacheRead_resize (h : σ.bufferCacheRead sector size offset = some r)
    (hn : σ.blockSize ≤ n) :
    (σ.resize n).bufferCacheRead sector size offset = some (r.1.resize n, r.2) ∧
      r.1.blockSize = σ.blockSize := by
  unfold bufferCacheRead at h ⊢
  rw [bufferCacheFind_resize]
  cases hs : σ.bufferCacheFind sector with
  | none =>
    rw [hs] at h
    have hu := σ.updateClockIdx_blockSize
    obtain ⟨hread, hsize⟩ := readLocked_resize h (hu.trans_le hn)
    dsimp only
    rw [updateClockIdx_resize]
    exact ⟨hread, hsize.trans hu⟩
  | some p =>
    rw [hs] at h
    obtain ⟨e, he, h⟩ := bind_eq_some_iff.mp h
    obtain ⟨hread, hsize⟩ := readLocked_resize h hn
    exact ⟨bind_eq_some_iff.mpr ⟨e, he, hread⟩, hsize⟩

theorem copyIn_resize (h : σ.copyIn slot data offset = some σ') :
    (σ.resize n).copyIn slot data offset = some (σ'.resize n) ∧
      σ'.blockSize = σ.blockSize ∧ offset + size ≤ 512 := by
  obtain ⟨hsize, h⟩ := ite_none_right_eq_some.mp h
  cases h
  exact ⟨if_pos hsize, rfl, hsize⟩

theorem writeLocked_resize (h : σ.writeLocked sector data slot offset = some σ')
    (hn : σ.blockSize ≤ n) :
    (σ.resize n).writeLocked sector data slot offset = some (σ'.resize n) ∧
      σ'.blockSize = σ.blockSize ∧ offset + size ≤ 512 := by
  unfold writeLocked at h ⊢
  rw [bufferCacheFind_resize]
  cases hs : σ.bufferCacheFind sector with
  | none =>
    rw [hs] at h
    obtain ⟨τ, hτ, h⟩ := bind_eq_some_iff.mp h
    obtain ⟨hrep, hsize⟩ := replaceEntry_resize hτ hn
    obtain ⟨hcopy, hsize', hoff⟩ := copyIn_resize (n := n) h
    exact ⟨bind_eq_some_iff.mpr ⟨_, hrep, hcopy⟩, hsize'.trans hsize, hoff⟩
  | some q =>
    rw [hs] at h
    obtain ⟨p, hp, h⟩ := bind_eq_some_iff.mp h
    obtain ⟨e, he, h⟩ := bind_eq_some_iff.mp h
    obtain ⟨hcopy, hsize, hoff⟩ := copyIn_resize (n := n) h
    refine ⟨bind_eq_some_iff.mpr ⟨p, hp, ?_⟩, hsize, hoff⟩
    exact bind_eq_some_iff.mpr ⟨e, he, hcopy⟩

theorem bufferCacheWrite_resize (h : σ.bufferCacheWrite sector data offset = some σ')
    (hn : σ.blockSize ≤ n) :
    (σ.resize n).bufferCacheWrite sector data offset = some (σ'.resize n) ∧
      σ'.blockSize = σ.blockSize ∧ offset + size ≤ 512 := by
  unfold bufferCacheWrite at h ⊢
  rw [bufferCacheFind_resize]
  cases hs : σ.bufferCacheFind sector with
  | none =>
    rw [hs] at h
    have hu := σ.updateClockIdx_blockSize
    obtain ⟨hwrite, hsize, hoff⟩ := writeLocked_resize h (hu.trans_le hn)
    dsimp only
    rw [updateClockIdx_resize]
    exact ⟨hwrite, hsize.trans hu, hoff⟩
  | some p =>
    rw [hs] at h
    obtain ⟨e, he, h⟩ := bind_eq_some_iff.mp h
    obtain ⟨hwrite, hsize⟩ := writeLocked_resize h hn
    exact ⟨bind_eq_some_iff.mpr ⟨e, he, hwrite⟩, hsize⟩

/-- The cache is sound over some device that is at least as large. -/
def Coherent (σ : Cache) : Prop :=
  ∃ n, σ.blockSize ≤ n ∧ Sound (σ.resize n)

theorem Sound.coherent (h : Sound σ) : Coherent σ :=
  ⟨σ.blockSize, le_rfl, h⟩

theorem bufferCacheRead_coherent (h : Coherent σ)
    (hr : σ.bufferCacheRead sector size offset = some r) :
    r.2 = (σ.view sector).slice offset size ∧ Coherent r.1 ∧ r.1.view = σ.view := by
  obtain ⟨n, hn, hs⟩ := h
  obtain ⟨hr', hsize⟩ := bufferCacheRead_resize hr hn
  obtain ⟨hlt, hoff⟩ := bufferCacheRead_inRange hs hr'
  obtain ⟨τ, hτ, hdone⟩ := bufferCacheRead_spec hs hlt hoff
  rw [hr', some.injEq, Prod.mk.injEq] at hτ
  rw [← hτ.1] at hdone
  exact ⟨hτ.2, ⟨n, hsize.trans_le hn, hdone.sound⟩, hdone.view⟩

theorem bufferCacheWrite_coherent (h : Coherent σ)
    (hw : σ.bufferCacheWrite sector data offset = some σ') : Coherent σ' := by
  obtain ⟨n, hn, hs⟩ := h
  have hn' : σ.blockSize ≤ max n (sector + 1) := hn.trans (le_max_left _ _)
  have hs' : Sound (σ.resize (max n (sector + 1))) := hs.resize_mono (le_max_left _ _)
  obtain ⟨hw', hsize, hoff⟩ := bufferCacheWrite_resize hw hn'
  have hlt : sector < max n (sector + 1) := lt_max_of_lt_right (Nat.lt_succ_self _)
  obtain ⟨τ, base, hτ, hdone⟩ := bufferCacheWrite_spec data hs' hlt hoff
  rw [hw'] at hτ
  cases hτ
  exact ⟨_, hsize.trans_le hn', hdone.sound⟩

end CS162.Filesys.Cache
