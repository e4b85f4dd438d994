import CS162.Filesys.Alloc

/-!
# Extending and creating inodes

`inode_allocate`, `inode_extend` and `inode_create` take sectors one at a time and never give
one back.  `Grown` says what they leave whether they succeed or not: the sectors taken were
free and are marked, and no other sector has changed but the data of the free map file.
-/

namespace CS162.Filesys

open Prog List Block Function InodeDisk

variable {σ σ' τ : Fs} {s sector idx : ℕ} {A B idxs : List ℕ} {d d' d₁ : InodeDisk}

/-- The sectors of `A` have been taken, the first free ones in order.  Nothing but their contents
and the data of the free map file has changed. -/
structure Grown (σ : Fs) (A : List ℕ) (σ' : Fs) : Prop where
  nodup : A.Nodup
  lt : ∀ s ∈ A, s < σ.size
  free : ∀ s ∈ A, σ.freeMap s = false
  freeMap : ∀ s, σ'.freeMap s = true ↔ σ.freeMap s = true ∨ s ∈ A
  sound : σ'.Sound
  size : σ'.size = σ.size
  rest : σ' = { σ with cache := σ'.cache, freeMap := σ'.freeMap }
  view : ∀ t, ¬ MapData σ t → t ∉ A → σ'.view t = σ.view t
  list : σ.freeList = A ++ σ'.freeList

def Fs.Full (σ : Fs) : Prop :=
  ∀ s, s < σ.size → σ.freeMap s = true

namespace Grown

theorem keepsMap (h : FsOk σ) (hg : Grown σ A σ') : KeepsMap σ σ' where
  size := hg.size
  freeMapFile := by rw [hg.rest]
  mapSector := by rw [hg.rest]; rfl
  mapDeny := by rw [hg.rest]; rfl
  view sector hi := by
    refine hg.view sector (h.not_mapData hi) fun hmem => ?_
    have hused := (h.map sector hi).used
    rw [hg.free sector hmem] at hused
    cases hused
  used s hs := (hg.freeMap s).mpr (.inl hs)

theorem ok (h : FsOk σ) (hg : Grown σ A σ') : FsOk σ' :=
  h.of_keepsMap (hg.keepsMap h) hg.sound

theorem of_same (hs : Same σ σ') : Grown σ [] σ' where
  nodup := nodup_nil
  lt s hs := by cases hs
  free s hs := by cases hs
  freeMap s := by rw [hs.rest]; simp
  sound := hs.sound
  size := hs.size
  rest := by rw [hs.rest]
  view t _ _ := by rw [hs.view]
  list := by
    rw [nil_append, Fs.freeList, Fs.freeList, hs.size]
    rw [hs.rest]

theorem of_allocated (ha : Allocated σ s σ') : Grown σ [s] σ' where
  nodup := nodup_singleton s
  lt t ht := by rw [mem_singleton.mp ht]; exact ha.lt
  free t ht := by rw [mem_singleton.mp ht]; exact ha.free
  freeMap t := by
    rw [ha.freeMap, update_apply, mem_singleton]
    by_cases hts : t = s <;> simp [hts]
  sound := ha.sound
  size := ha.size
  rest := ha.rest
  view t ht _ := ha.view t ht
  list := ha.freeList

theorem trans (h : FsOk σ) (hg : Grown σ A τ) (hg' : Grown τ B σ') :
    Grown σ (A ++ B) σ' where
  nodup := by
    refine nodup_append.mpr ⟨hg.nodup, hg'.nodup, fun a ha b hb hab => ?_⟩
    subst hab
    have hfree := hg'.free a hb
    rw [(hg.freeMap a).mpr (.inr ha)] at hfree
    cases hfree
  lt s hs := by
    rcases mem_append.mp hs with hs | hs
    · exact hg.lt s hs
    · rw [← hg.size]
      exact hg'.lt s hs
  free s hs := by
    rcases mem_append.mp hs with hs | hs
    · exact hg.free s hs
    · by_contra hne
      have hused := (hg.freeMap s).mpr (.inl (by simpa using hne))
      rw [hg'.free s hs] at hused
      cases hused
  freeMap s := by
    rw [hg'.freeMap, hg.freeMap, mem_append, or_assoc]
  sound := hg'.sound
  size := hg'.size.trans hg.size
  rest := by rw [hg'.rest, hg.rest]
  view t ht hmem := by
    rw [mem_append, not_or] at hmem
    rw [hg'.view t (by rwa [(hg.keepsMap h).mapData]) hmem.2, hg.view t ht hmem.1]
  list := by rw [hg.list, hg'.list, append_assoc]

theorem write (hg : Grown σ A τ) {c : Sector} (hw : Wrote τ s c σ') (hs : s ∈ A) :
    Grown σ A σ' where
  nodup := hg.nodup
  lt := hg.lt
  free := hg.free
  freeMap t := by
    rw [hw.rest]
    exact hg.freeMap t
  sound := hw.sound
  size := hw.size.trans hg.size
  rest := by rw [hw.rest, hg.rest]
  view t ht hmem := by
    have hne : t ≠ s := by
      rintro rfl
      exact hmem hs
    rw [hw.view, update_of_ne hne, hg.view t ht hmem]
  list := by
    rw [hg.list, Fs.freeList, Fs.freeList, hw.size]
    rw [hw.rest]

theorem not_mapData (h : FsOk σ) (hg : Grown σ A σ') (hs : s ∈ A) : ¬ MapData σ s := by
  intro hm
  have hused := h.mapData_used hm
  rw [hg.free s hs] at hused
  cases hused

theorem view_used (hg : Grown σ A σ') (hs : σ.freeMap s = true) (hm : ¬ MapData σ s) :
    σ'.view s = σ.view s := by
  refine hg.view s hm fun hmem => ?_
  rw [hg.free s hmem] at hs
  cases hs

theorem view_taken (h : FsOk σ) (hg : Grown σ A τ) (hg' : Grown τ B σ') (hs : s ∈ A) :
    σ'.view s = τ.view s := by
  refine hg'.view_used ((hg.freeMap s).mpr (.inr hs)) ?_
  rw [(hg.keepsMap h).mapData]
  exact hg.not_mapData h hs

theorem view_untaken (h : FsOk σ) (hg : Grown σ A τ) (hg' : Grown τ B σ') (hs : s ∈ B) :
    τ.view s = σ.view s := by
  refine hg.view s ?_ fun hA => ?_
  · rw [← (hg.keepsMap h).mapData]
    exact hg'.not_mapData (hg.ok h) hs
  · have hfree := hg'.free s hs
    rw [(hg.freeMap s).mpr (.inr hA)] at hfree
    cases hfree

theorem card (hg : Grown σ A σ') : σ'.freeSectors.card + A.length = σ.freeSectors.card := by
  have hsub : A.toFinset ⊆ σ.freeSectors := by
    intro s hs
    rw [mem_toFinset] at hs
    exact mem_freeSectors.mpr ⟨hg.lt s hs, hg.free s hs⟩
  have heq : σ'.freeSectors = σ.freeSectors \ A.toFinset := by
    ext s
    rw [Finset.mem_sdiff, mem_freeSectors, mem_freeSectors, mem_toFinset, hg.size]
    have := hg.freeMap s
    constructor
    · rintro ⟨hlt, hfree⟩
      rw [hfree] at this
      simp only [Bool.false_eq_true, false_iff, not_or, Bool.not_eq_true] at this
      exact ⟨⟨hlt, this.1⟩, this.2⟩
    · rintro ⟨⟨hlt, hfree⟩, hmem⟩
      refine ⟨hlt, ?_⟩
      by_contra hne
      rcases this.mp (by simpa using hne) with h | h
      · rw [hfree] at h
        cases h
      · exact hmem h
  rw [heq, ← toFinset_card_of_nodup hg.nodup, Finset.card_sdiff_add_card_eq_card hsub]

end Grown

theorem full_iff : σ.Full ↔ σ.freeSectors.card = 0 := by
  rw [Finset.card_eq_zero, Finset.eq_empty_iff_forall_notMem]
  constructor
  · intro h s hs
    rw [mem_freeSectors] at hs
    rw [h s hs.1] at hs
    cases hs.2
  · intro h s hlt
    by_contra hne
    exact h s (mem_freeSectors.mpr ⟨hlt, by simpa using hne⟩)

theorem readPtr_ensures (h : σ.Sound) (sector offset : ℕ) :
    Ensures (readPtr sector offset) σ fun x σ' => x = (σ.view sector).u32 offset ∧ Same σ σ' := by
  intro x σ' hr
  obtain ⟨b, t, hb, -⟩ := run_bind_eq_some.mp hr
  obtain ⟨r, hr', -⟩ := Option.map_eq_some_iff.mp hb
  obtain ⟨hlt, hoff⟩ := Cache.bufferCacheRead_inRange h hr'
  exact (readPtr_does h hlt hoff).ensures x σ' hr

/-- What a function that allocates leaves: the sectors it took, all of them when it
fails. -/
def Takes (σ : Fs) (σ' : Fs) (ok : Bool) (P : List ℕ → Prop) : Prop :=
  ∃ A, Grown σ A σ' ∧ (ok = false → σ'.Full) ∧ (ok = true → P A)

theorem alloc_takes (h : FsOk σ) :
    Does (freeMapAllocate 1) σ fun o σ' =>
      Takes σ σ' o.isSome fun A => ∃ s, o = some s ∧ A = [s] ∧ σ'.view s = σ.view s := by
  refine (freeMapAllocate_does h).mono fun o σ' ho => ?_
  cases o with
  | none =>
    obtain ⟨rfl, hfull⟩ := ho
    exact ⟨[], .of_same (.refl h.sound), fun _ => hfull, by simp⟩
  | some s =>
    have hmap := (Grown.of_allocated ho).not_mapData h mem_cons_self
    exact ⟨[s], .of_allocated ho, by simp, fun _ => ⟨s, rfl, rfl, ho.view s hmap⟩⟩

theorem allocZeroed_takes (h : FsOk σ) :
    Does (allocZeroed (freeMapAllocate 1)) σ fun o σ' =>
      Takes σ σ' o.isSome fun A => ∃ s, o = some s ∧ A = [s] ∧ σ'.view s = fun _ => 0 := by
  refine (alloc_takes h).bind fun o τ ho => ?_
  obtain ⟨A, hg, hfail, hok⟩ := ho
  cases o with
  | none =>
    rw [does_pure]
    exact ⟨A, hg, hfail, by simp⟩
  | some s =>
    obtain ⟨s', hs, rfl, -⟩ := hok rfl
    cases hs
    have hlt : s < τ.size := by
      rw [hg.size]
      exact hg.lt s mem_cons_self
    refine (writeBlock_does hg.sound hlt _).bind fun _ υ hw => ?_
    rw [does_pure]
    refine ⟨[s], hg.write hw mem_cons_self, by simp, fun _ => ⟨s, rfl, rfl, ?_⟩⟩
    rw [hw.view, update_self]

theorem Takes.of_same {ok : Bool} {P : List ℕ → Prop} (h : FsOk σ) (hs : Same σ τ)
    (ht : Takes τ σ' ok P) : Takes σ σ' ok P := by
  obtain ⟨A, hg, hfail, hok⟩ := ht
  exact ⟨A, (Grown.of_same hs).trans h hg, hfail, hok⟩

/-- What the indexes `idxs` of an inode look like when `A` are the sectors taken for
them: the direct ones lead to different sectors of `A`, in order as long as there is no other
index, and the other pointers are as before. -/
structure Linked (d : InodeDisk) (idxs : List ℕ) (A : List ℕ) (d' : InodeDisk) : Prop where
  mem : ∀ i ∈ idxs, i < 122 → direct d' i ∈ A
  inj : ∀ i ∈ idxs, ∀ j ∈ idxs, i < 122 → j < 122 →
    direct d' i = direct d' j → i = j
  old : ∀ i, i < 122 → i ∉ idxs → direct d' i = direct d i
  singly : singlyIndirect d' = singlyIndirect d
  doubly : doublyIndirect d' = doublyIndirect d
  len : (∀ i ∈ idxs, i < 122) → A.length = idxs.length
  order : ∀ k i, idxs[k]? = some i → (∀ j ∈ idxs.take (k + 1), j < 122) →
    A[k]? = some (direct d' i)

/-- The direct sectors of the indexes `idxs` keep their contents. -/
def KeepsDirect (σ σ' : Fs) (idxs : List ℕ) (d : InodeDisk) : Prop :=
  ∀ i ∈ idxs, i < 122 → σ'.view (direct d i) = σ.view (direct d i)

theorem Linked.nil : Linked d [] [] d :=
  ⟨by simp, by simp, fun _ _ _ => rfl, rfl, rfl, fun _ => rfl, by simp⟩

theorem Linked.indirect (hidx : 122 ≤ idx) : Linked d [idx] A d := by
  refine ⟨fun i hi hlt => ?_, fun i hi j hj hlt => ?_, fun _ _ _ => rfl, rfl, rfl,
    fun hall => ?_, fun k i _ hall => ?_⟩
  · rw [mem_singleton.mp hi] at hlt
    omega
  · rw [mem_singleton.mp hi] at hlt
    omega
  · have := hall idx mem_cons_self
    omega
  · have := hall idx mem_cons_self
    omega

theorem linked_direct (hidx : idx < 122) (hs : s < 2 ^ 32) :
    Linked d [idx] [s] (d.setU32 (4 * idx) s) := by
  have hself : direct (d.setU32 (4 * idx) s) idx = s := u32_setU32 (by omega) hs
  refine ⟨fun i hi _ => ?_, fun i hi j hj _ _ _ => ?_, fun i hlt hi => ?_, ?_, ?_, fun _ => rfl,
    fun k i hk _ => ?_⟩
  · rw [mem_singleton.mp hi, hself]
    exact mem_cons_self
  · rw [mem_singleton.mp hi, mem_singleton.mp hj]
  · rw [mem_singleton] at hi
    exact u32_setU32_of_disjoint (by omega)
  · exact u32_setU32_of_disjoint (by omega)
  · exact u32_setU32_of_disjoint (by omega)
  · obtain ⟨hlt, rfl⟩ := List.getElem?_eq_some_iff.mp hk
    obtain rfl : k = 0 := Nat.lt_one_iff.mp hlt
    exact congrArg some hself.symm

theorem Linked.append (hnodup : (idx :: idxs).Nodup) (hdisj : (A ++ B).Nodup)
    (h : Linked d [idx] A d₁) (h' : Linked d₁ idxs B d') : Linked d (idx :: idxs) (A ++ B) d' := by
  rw [nodup_cons] at hnodup
  have hhead : idx < 122 → direct d' idx ∈ A := by
    intro hlt
    rw [h'.old idx hlt hnodup.1]
    exact h.mem idx mem_cons_self hlt
  have hapart : ∀ i ∈ idxs, i < 122 → idx < 122 → direct d' idx ≠ direct d' i := by
    intro i hi hlt hlt' heq
    exact (nodup_append.mp hdisj).2.2 _ (hhead hlt') _ (h'.mem i hi hlt) heq
  refine ⟨fun i hi hlt => ?_, fun i hi j hj hlt hlt' heq => ?_, fun i hlt hi => ?_, ?_, ?_,
    fun hall => ?_, fun k i hk hall => ?_⟩
  · rcases mem_cons.mp hi with rfl | hi
    · exact mem_append_left _ (hhead hlt)
    · exact mem_append_right _ (h'.mem i hi hlt)
  · rcases mem_cons.mp hi with rfl | hi'
    · rcases mem_cons.mp hj with rfl | hj'
      · rfl
      · exact absurd heq (hapart j hj' hlt' hlt)
    · rcases mem_cons.mp hj with rfl | hj'
      · exact absurd heq.symm (hapart i hi' hlt hlt')
      · exact h'.inj i hi' j hj' hlt hlt' heq
  · rw [mem_cons, not_or] at hi
    rw [h'.old i hlt hi.2, h.old i hlt (by simpa using hi.1)]
  · rw [h'.singly, h.singly]
  · rw [h'.doubly, h.doubly]
  · rw [length_append, h.len fun i hi => hall i (mem_singleton.mp hi ▸ mem_cons_self),
      h'.len fun i hi => hall i (mem_cons_of_mem _ hi)]
    exact Nat.add_comm 1 idxs.length
  · have hidx : idx < 122 := hall idx (by simp)
    have hone : A.length = 1 := h.len fun i hi => mem_singleton.mp hi ▸ hidx
    cases k with
    | zero =>
      obtain rfl : idx = i := Option.some.inj hk
      rw [getElem?_append_left (by omega), h.order 0 idx rfl (by simpa using hidx),
        h'.old idx hidx hnodup.1]
    | succ k =>
      rw [getElem?_append_right (by omega), hone, Nat.add_sub_cancel]
      exact h'.order k i hk fun j hj => hall j (mem_cons_of_mem _ hj)

theorem KeepsDirect.indirect (hidx : 122 ≤ idx) : KeepsDirect σ σ' [idx] d := fun i hi hlt => by
  rw [mem_singleton.mp hi] at hlt
  omega

theorem KeepsDirect.append (h : FsOk σ) (hg : Grown σ A τ) (hg' : Grown τ B σ')
    (hlink : Linked d [idx] A d₁) (hlink' : Linked d₁ idxs B d') (hnodup : (idx :: idxs).Nodup)
    (hk : KeepsDirect σ τ [idx] d₁) (hk' : KeepsDirect τ σ' idxs d') :
    KeepsDirect σ σ' (idx :: idxs) d' := by
  intro i hi hlt
  rcases mem_cons.mp hi with rfl | hi
  · rw [hlink'.old i hlt (nodup_cons.mp hnodup).1]
    have hmem := hlink.mem i mem_cons_self hlt
    exact (hg.view_taken h hg' hmem).trans (hk i mem_cons_self hlt)
  · exact (hk' i hi hlt).trans (hg.view_untaken h hg' (hlink'.mem i hi hlt))

theorem extendSector_ensures (h : FsOk σ) (d : InodeDisk) (idx : ℕ) :
    Ensures (extendSector (freeMapAllocate 1) d idx) σ fun r σ' =>
      Takes σ σ' r.1 fun A => A ≠ [] ∧ Linked d [idx] A r.2 ∧ KeepsDirect σ σ' [idx] r.2 := by
  unfold extendSector determineLevel
  split_ifs with hdirect hsingly
  · -- a direct sector
    refine (alloc_takes h).ensures.bind fun o τ ho => ?_
    obtain ⟨A, hg, hfail, hok⟩ := ho
    cases o with
    | none => exact ensures_pure.mpr ⟨A, hg, hfail, by simp⟩
    | some s =>
      obtain ⟨s', hs, rfl, hview⟩ := hok rfl
      cases hs
      have hlt : s < 2 ^ 32 := (hg.lt s mem_cons_self).trans h.size_lt
      have hlink : Linked d [idx] [s] _ := linked_direct hdirect hlt
      refine ensures_pure.mpr ⟨[s], hg, by simp, fun _ => ⟨by simp, hlink, fun i hi hi' => ?_⟩⟩
      rwa [mem_singleton.mp (hlink.mem i hi hi')]
  · -- a singly indirect sector
    refine (readPtr_ensures h.sound _ _).bind fun p τ hp => ?_
    have hτ : FsOk τ := (Grown.of_same hp.2).ok h
    refine (allocZeroed_takes hτ).ensures.bind fun o υ ho => ?_
    obtain ⟨A, hg, hfail, hok⟩ := ho.of_same h hp.2
    cases o with
    | none => exact ensures_pure.mpr ⟨A, hg, hfail, by simp⟩
    | some s =>
      obtain ⟨s', -, rfl, -⟩ := hok rfl
      exact ensures_pure.mpr ⟨_, hg, by simp,
        fun _ => ⟨by simp, .indirect (by omega), .indirect (by omega)⟩⟩
  · -- a doubly indirect sector, with its index sector when it is the first one there
    refine (readPtr_ensures h.sound _ _).bind fun p τ hp => ?_
    have hτ : FsOk τ := (Grown.of_same hp.2).ok h
    have hindex : Ensures (if (idx - 122 - 128) % 128 = 0 then
        allocZeroed (freeMapAllocate 1) else pure (some p)) τ fun o υ =>
          Takes τ υ o.isSome fun _ => True := by
      split_ifs
      · refine (allocZeroed_takes hτ).ensures.mono fun o υ ho => ?_
        obtain ⟨A, hg, hfail, -⟩ := ho
        exact ⟨A, hg, hfail, fun _ => trivial⟩
      · exact ensures_pure.mpr ⟨[], .of_same (.refl hτ.sound), by simp, fun _ => trivial⟩
    refine hindex.bind fun o υ ho => ?_
    obtain ⟨A, hg, hfail, -⟩ := ho.of_same h hp.2
    cases o with
    | none => exact ensures_pure.mpr ⟨A, hg, hfail, by simp⟩
    | some q =>
      have hυ : FsOk υ := hg.ok h
      refine (readPtr_ensures hυ.sound _ _).bind fun _ ρ hρ => ?_
      have hρok : FsOk ρ := (Grown.of_same hρ.2).ok hυ
      refine (allocZeroed_takes hρok).ensures.bind fun o ω ho => ?_
      obtain ⟨B, hgB, hfail', hok⟩ := ho.of_same hυ hρ.2
      cases o with
      | none => exact ensures_pure.mpr ⟨A ++ B, hg.trans h hgB, hfail', by simp⟩
      | some s =>
        obtain ⟨s', -, rfl, -⟩ := hok rfl
        exact ensures_pure.mpr ⟨_, hg.trans h hgB, by simp,
          fun _ => ⟨by simp, .indirect (by omega), .indirect (by omega)⟩⟩

theorem extendLoop_ensures (h : FsOk σ) (d : InodeDisk) (hnodup : idxs.Nodup) :
    Ensures (extendLoop (freeMapAllocate 1) d idxs) σ fun r σ' => Takes σ σ' r.1 fun A =>
      idxs.length ≤ A.length ∧ Linked d idxs A r.2 ∧ KeepsDirect σ σ' idxs r.2 := by
  induction idxs generalizing σ d with
  | nil =>
    exact ensures_pure.mpr ⟨[], .of_same (.refl h.sound), by simp, fun _ => ⟨le_rfl, .nil, nofun⟩⟩
  | cons idx idxs ih =>
    refine (extendSector_ensures h d idx).bind fun r τ hr => ?_
    obtain ⟨ok, d₁⟩ := r
    obtain ⟨A, hg, hfail, hok⟩ := hr
    cases ok with
    | false => exact ensures_pure.mpr ⟨A, hg, hfail, by simp⟩
    | true =>
      obtain ⟨hne, hlink, hkept⟩ := hok rfl
      refine (ih (hg.ok h) d₁ (nodup_cons.mp hnodup).2).mono fun r σ' hr => ?_
      obtain ⟨B, hgB, hfail', hok'⟩ := hr
      have hgAB := hg.trans h hgB
      refine ⟨A ++ B, hgAB, hfail', fun hr => ?_⟩
      obtain ⟨hlen, hlink', hkept'⟩ := hok' hr
      refine ⟨?_, .append hnodup hgAB.nodup hlink hlink',
        .append h hg hgB hlink hlink' hnodup hkept hkept'⟩
      have := length_pos_iff.mpr hne
      rw [length_append, length_cons]
      omega

theorem inodeExtend_ensures (h : FsOk σ) {L length : ℕ} (hbits : lengthBits d = L)
    (hle : L ≤ length) (hmax : length ≤ maxLength) :
    Ensures (inodeExtend (freeMapAllocate 1) d length) σ fun r σ' => Takes σ σ' r.1 fun A =>
      (length + 511) / 512 - (L + 511) / 512 ≤ A.length ∧ ∃ d₁, r.2 = d₁.setU32 496 length ∧
      Linked d (range' ((L + 511) / 512) ((length + 511) / 512 - (L + 511) / 512)) A d₁ ∧
      KeepsDirect σ σ' (range' ((L + 511) / 512) ((length + 511) / 512 - (L + 511) / 512)) d₁ := by
  have hmax' : maxLength < 2 ^ 40 := by decide
  unfold inodeExtend
  rw [if_neg (by omega), if_neg (by omega)]
  rw [length_eq hbits (hle.trans hmax), bytesToSectors_eq (by omega), bytesToSectors_eq (by omega)]
  refine (extendLoop_ensures h d nodup_range').bind fun r τ hr => ?_
  obtain ⟨ok, d₁⟩ := r
  obtain ⟨A, hg, hfail, hok⟩ := hr
  cases ok with
  | false => exact ensures_pure.mpr ⟨A, hg, hfail, by simp⟩
  | true =>
    obtain ⟨hlen, hlink, hkept⟩ := hok rfl
    rw [length_range'] at hlen
    exact ensures_pure.mpr ⟨A, hg, by simp, fun _ => ⟨hlen, d₁, rfl, hlink, hkept⟩⟩

theorem inodeAllocate_ensures (h : FsOk σ) (d : InodeDisk) :
    Ensures (inodeAllocate (freeMapAllocate 1) d) σ fun r σ' =>
      lengthBits r.2 = lengthBits d ∧ Takes σ σ' r.1 fun A => ∃ s s',
      A = [s, s'] ∧ singlyIndirect r.2 = s ∧ doublyIndirect r.2 = s' ∧
      (σ'.view s = fun _ => 0) ∧ σ'.view s' = fun _ => 0 := by
  refine (alloc_takes h).ensures.bind fun o τ ho => ?_
  obtain ⟨A, hg, hfail, hok⟩ := ho
  cases o with
  | none => exact ensures_pure.mpr ⟨rfl, A, hg, hfail, by simp⟩
  | some s =>
    obtain ⟨_, hs, rfl, -⟩ := hok rfl
    cases hs
    have hlt : s < τ.size := by
      rw [hg.size]
      exact hg.lt s mem_cons_self
    refine (writeBlock_does hg.sound hlt _).ensures.bind fun _ υ hw => ?_
    have hgυ : Grown σ [s] υ := hg.write hw mem_cons_self
    have hυ : FsOk υ := hgυ.ok h
    have hbits : ∀ x, lengthBits (d.setU32 488 x) = lengthBits d :=
      fun x => u32_setU32_of_disjoint (by omega)
    refine (alloc_takes hυ).ensures.bind fun o ρ ho => ?_
    obtain ⟨B, hgB, hfail', hok'⟩ := ho
    have hgρ := hgυ.trans h hgB
    cases o with
    | none => exact ensures_pure.mpr ⟨hbits s, _, hgρ, hfail', by simp⟩
    | some s' =>
      obtain ⟨_, hs', rfl, -⟩ := hok' rfl
      cases hs'
      have hlt' : s' < ρ.size := by
        rw [hgB.size]
        exact hgB.lt s' mem_cons_self
      refine (writeBlock_does hgB.sound hlt' _).ensures.bind fun _ ω hw' => ?_
      have hmem : s' ∈ [s] ++ [s'] := by simp
      have hgω := hgρ.write hw' hmem
      have hne : s ≠ s' := by
        have := hgρ.nodup
        simp at this
        exact this
      refine ensures_pure.mpr ⟨?_, [s, s'], hgω, by simp, fun _ => ⟨s, s', rfl, ?_, ?_, ?_, ?_⟩⟩
      · exact (u32_setU32_of_disjoint (by omega)).trans (hbits s)
      · refine (u32_setU32_of_disjoint (by omega)).trans (u32_setU32 (by omega) ?_)
        exact (hg.lt s mem_cons_self).trans h.size_lt
      · exact u32_setU32 (by omega) ((hgB.lt s' mem_cons_self).trans hυ.size_lt)
      · -- the first index sector is not touched by the second allocation
        rw [hw'.view, update_of_ne hne, hgυ.view_taken h hgB mem_cons_self, hw.view, update_self]
      · rw [hw'.view, update_self]

/-- The inode `inode_create` has built when it succeeds, before it writes it. -/
structure Built (τ : Fs) (length : ℕ) (A : List ℕ) (d : InodeDisk) : Prop where
  length_eq : lengthBits d = length
  singly_mem : singlyIndirect d ∈ A
  doubly_mem : doublyIndirect d ∈ A
  singly_zero : τ.view (singlyIndirect d) = fun _ => 0
  direct_mem : ∀ i, i < 122 → 512 * i < length → direct d i ∈ A
  direct_ne : ∀ i, i < 122 → 512 * i < length →
    direct d i ≠ singlyIndirect d ∧
      direct d i ≠ doublyIndirect d
  direct_inj : ∀ i j, i < 122 → j < 122 → 512 * i < length → 512 * j < length →
    direct d i = direct d j → i = j
  singly_first : A[0]? = some (singlyIndirect d)
  order : ∀ i < 122, 512 * i < length → A[i + 2]? = some (direct d i)

theorem built_of_linked {d0 : InodeDisk} {s' length : ℕ} (h : FsOk σ) (hgA : Grown σ [s, s'] τ)
    (hgB : Grown τ B σ') (hmax : length ≤ maxLength) (hs : singlyIndirect d0 = s)
    (hs' : doublyIndirect d0 = s') (hzero : τ.view s = fun _ => 0)
    (hlink : Linked d0 (range' 0 ((length + 511) / 512)) B d₁) :
    Built σ' length ([s, s'] ++ B) (d₁.setU32 496 length) := by
  have hdirect : ∀ i, i < 122 → direct (d₁.setU32 496 length) i =
      direct d₁ i := fun i hi => u32_setU32_of_disjoint (by omega)
  have hsingly : singlyIndirect (d₁.setU32 496 length) = s := by
    rw [← hs, ← hlink.singly]
    exact u32_setU32_of_disjoint (by omega)
  have hdoubly : doublyIndirect (d₁.setU32 496 length) = s' := by
    rw [← hs', ← hlink.doubly]
    exact u32_setU32_of_disjoint (by omega)
  have hidx : ∀ i, 512 * i < length → i ∈ range' 0 ((length + 511) / 512) := by
    intro i hi
    rw [mem_range'_1]
    omega
  have hnodup := (hgA.trans h hgB).nodup
  have hapart : ∀ a ∈ B, a ≠ s ∧ a ≠ s' := by
    intro a ha
    have := (nodup_append.mp hnodup).2.2
    exact ⟨fun heq => this s (by simp) a ha heq.symm, fun heq => this s' (by simp) a ha heq.symm⟩
  constructor
  case length_eq =>
    refine u32_setU32 (by omega) ?_
    unfold maxLength at hmax
    omega
  case singly_mem => rw [hsingly]; simp
  case doubly_mem => rw [hdoubly]; simp
  case singly_zero =>
    rw [hsingly, hgA.view_taken h hgB (by simp), hzero]
  case direct_mem =>
    intro i hi hlt
    rw [hdirect i hi]
    exact mem_append_right _ (hlink.mem i (hidx i hlt) hi)
  case direct_ne =>
    intro i hi hlt
    rw [hdirect i hi, hsingly, hdoubly]
    exact hapart _ (hlink.mem i (hidx i hlt) hi)
  case direct_inj =>
    intro i j hi hj hlt hlt' heq
    rw [hdirect i hi, hdirect j hj] at heq
    exact hlink.inj i (hidx i hlt) j (hidx j hlt') hi hj heq
  case singly_first => rw [hsingly]; rfl
  case order =>
    intro i hi hlt
    rw [hdirect i hi]
    refine hlink.order i i ?_ fun j hj => ?_
    · rw [getElem?_range' (by omega)]
      simp
    · obtain ⟨k, hk, rfl⟩ := mem_iff_getElem.mp hj
      rw [length_take, length_range'] at hk
      simp only [getElem_take, getElem_range']
      omega

theorem inodeCreate_ensures (h : FsOk σ) (hlt : sector < σ.size) (length : ℕ) :
    Ensures (inodeCreate sector length) σ fun ok σ' => length ≤ maxLength ∧ ∃ A τ d, Grown σ A τ ∧
      Wrote τ sector d σ' ∧ (ok = false → τ.Full) ∧ (ok = true → Built τ length A d ∧
      KeepsDirect σ τ (range' 0 ((length + 511) / 512)) d ∧
      τ.view (doublyIndirect d) = fun _ => 0) := by
  unfold inodeCreate
  split_ifs with hmax
  · refine (inodeAllocate_ensures h _).bind fun r τ hr => ?_
    obtain ⟨allocated, d0⟩ := r
    obtain ⟨hbits, A, hgA, hfailA, hokA⟩ := hr
    have hbits0 : lengthBits d0 = 0 :=
      hbits.trans ((u32_setU32_of_disjoint (by omega)).trans u32_zero)
    refine (inodeExtend_ensures (hgA.ok h) hbits0 (Nat.zero_le _) hmax).bind fun r υ hr => ?_
    obtain ⟨extended, d⟩ := r
    obtain ⟨B, hgB, hfailB, hokB⟩ := hr
    have hg := hgA.trans h hgB
    have hlt' : sector < υ.size := by
      rw [hg.size]
      exact hlt
    refine (writeBlock_does hg.sound hlt' d).ensures.bind fun _ σ' hw => ?_
    refine ensures_pure.mpr ⟨hmax, A ++ B, υ, d, hg, hw, fun hf => ?_, fun hok => ?_⟩
    · cases extended with
      | false => exact hfailB rfl
      | true =>
        -- nothing was left for `inode_extend` when `inode_allocate` failed
        have hfull := hfailA (by simpa using hf)
        intro s hs
        rw [hgB.size] at hs
        exact (hgB.freeMap s).mpr (.inl (hfull s hs))
    · rw [Bool.and_eq_true] at hok
      obtain ⟨s, s', rfl, hs, hs', hzero, hzero'⟩ := hokA hok.2
      obtain ⟨-, d₁, rfl, hlink, hkept⟩ := hokB hok.1
      refine ⟨built_of_linked h hgA hgB hmax hs hs' hzero hlink, fun i hi hlt => ?_, ?_⟩
      · have hdirect : direct (d₁.setU32 496 length) i = direct d₁ i :=
          u32_setU32_of_disjoint (by omega)
        rw [hdirect]
        exact (hkept i hi hlt).trans (hgA.view_untaken h hgB (hlink.mem i hi hlt))
      · have hdoubly : doublyIndirect (d₁.setU32 496 length) = s' :=
          (u32_setU32_of_disjoint (by omega)).trans (hlink.doubly.trans hs')
        rw [hdoubly, hgA.view_taken h hgB (by simp), hzero']
  · exact ensures_failure

end CS162.Filesys
