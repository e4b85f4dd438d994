import CS162.Lib.Run
import CS162.Lib.Slots
import CS162.Pt.Ram

/-!
# Simulated memory over a sequence of accesses

`Memory` keeps beside the globals of `ram.c` the byte that was last stored at each address.  As long
as no access goes beyond the end of its chunk, a fetch returns these bytes, and a store leaves all
others alone.
-/

namespace CS162.Pt

open List Option Function

def ramSize : ℕ :=
  2 ^ 36

inductive Access where
  | store (addr : ℕ) (buf : List UInt8)
  | fetch (addr len : ℕ)

def Access.addr : Access → ℕ
  | .store addr _ | .fetch addr _ => addr

def Access.len : Access → ℕ
  | .store _ buf => buf.length
  | .fetch _ len => len

def Access.Inside (a : Access) : Prop :=
  a.addr + a.len ≤ ramSize

instance (a : Access) : Decidable a.Inside :=
  inferInstanceAs (Decidable (a.addr + a.len ≤ ramSize))

def Access.OneChunk (a : Access) : Prop :=
  a.addr % chunkSize + a.len ≤ chunkSize

instance (a : Access) : Decidable a.OneChunk :=
  inferInstanceAs (Decidable (a.addr % chunkSize + a.len ≤ chunkSize))

/-- The globals, and the byte last stored at each address. -/
structure Memory where
  ram : Ram
  stored : ℕ → Option UInt8

def access (s : Memory) (a : Access) : Option Memory :=
  if a.Inside then
    match a with
    | .store addr buf => (ramStore addr buf s.ram).map fun r =>
      ⟨r, fun x => if addr ≤ x ∧ x < addr + buf.length then buf[x - addr]? else s.stored x⟩
    | .fetch addr len => (ramFetch addr len s.ram).map fun (_, r) => ⟨r, s.stored⟩
  else none

/-- The byte at an address, when its chunk has been allocated. -/
def Ram.byte? (r : Ram) (x : ℕ) : Option UInt8 :=
  (r.chunkTable (x / chunkSize)).map fun chunk => r.chunks chunk (x % chunkSize)

/-- An access returns; a fetch gives the bytes last stored, and a store changes those of its range
and no others. -/
def Faithful (s : Memory) : Access → Prop
  | .store addr buf => ∃ r, ramStore addr buf s.ram = some r ∧
      (∀ i (h : i < buf.length), r.byte? (addr + i) = some buf[i]) ∧
      ∀ x v, (x < addr ∨ addr + buf.length ≤ x) → s.ram.byte? x = some v → r.byte? x = some v
  | .fetch addr len => ∃ bytes r, ramFetch addr len s.ram = some (bytes, r) ∧ bytes.length = len ∧
      (∀ i v, i < len → s.stored (addr + i) = some v → bytes[i]? = some v) ∧
      ∀ x v, s.ram.byte? x = some v → r.byte? x = some v

/-- Chunks of different indices are different, and allocated. -/
structure Ram.Ok (r : Ram) : Prop where
  lt : ∀ idx chunk, r.chunkTable idx = some chunk → chunk < r.numChunks
  inj : ∀ i j chunk, r.chunkTable i = some chunk → r.chunkTable j = some chunk → i = j

section Chunks

variable {r r' : Ram} {idx chunk addr len offset x : ℕ} {v : UInt8} {buf : List UInt8}

theorem getChunk_spec (hr : r.Ok) (hidx : idx < maxChunks) :
    ∃ chunk r', getChunk idx r = some (chunk, r') ∧ r'.Ok ∧ r'.chunkTable idx = some chunk ∧
      ∀ x v, r.byte? x = some v → r'.byte? x = some v := by
  rw [getChunk, if_pos hidx]
  cases hentry : r.chunkTable idx with
  | some chunk => exact ⟨chunk, r, rfl, hr, hentry, fun _ _ h => h⟩
  | none =>
    refine ⟨_, _, rfl, ⟨fun i c hc => ?_, fun i j c hi hj => ?_⟩, update_self _ _ _,
      fun x v hx => ?_⟩
    · rcases Slots.of_update_some hc with ⟨-, rfl⟩ | ⟨-, hc⟩
      · exact Nat.lt_succ_self _
      · exact (hr.lt i c hc).trans (Nat.lt_succ_self _)
    · exact Slots.update_inj hr.inj (fun x hx => (hr.lt x _ hx).false) hi hj
    · have hne : x / chunkSize ≠ idx := by
        rintro rfl
        rw [Ram.byte?, hentry] at hx
        cases hx
      unfold Ram.byte? at hx ⊢
      dsimp only
      rw [update_of_ne hne]
      exact hx

theorem Ram.byte?_write (hr : r.Ok) (hchunk : r.chunkTable (addr / chunkSize) = some chunk)
    (hin : addr % chunkSize + buf.length ≤ chunkSize) (x : ℕ) :
    (r.write chunk (addr % chunkSize) buf).byte? x =
      if addr ≤ x ∧ x < addr + buf.length then buf[x - addr]? else r.byte? x := by
  have hpos : 0 < chunkSize := by decide
  have haddr := Nat.div_add_mod addr chunkSize
  have hx := Nat.div_add_mod x chunkSize
  have hlt := Nat.mod_lt x hpos
  unfold Ram.byte? Ram.write
  dsimp only
  by_cases hidx : x / chunkSize = addr / chunkSize
  · -- in the same chunk addresses differ as offsets do
    rw [hidx] at hx
    rw [hidx, hchunk, map_some, update_self, map_some]
    have hle : addr % chunkSize ≤ x % chunkSize ↔ addr ≤ x := by omega
    by_cases hmem : addr ≤ x ∧ x < addr + buf.length
    · have hsub : x % chunkSize - addr % chunkSize = x - addr := by omega
      have hget : x - addr < buf.length := by omega
      rw [if_pos hmem, if_pos (hle.mpr hmem.1), hsub, getD_eq_getElem?_getD,
        getElem?_eq_getElem hget, getD_some]
    · rw [if_neg hmem]
      split_ifs with hge
      · have hsub : buf.length ≤ x % chunkSize - addr % chunkSize := by omega
        rw [getD_eq_getElem?_getD, getElem?_eq_none hsub, getD_none]
      · rfl
  · have hout : ¬ (addr ≤ x ∧ x < addr + buf.length) := by
      rintro ⟨hle, hlt'⟩
      refine hidx (Nat.div_eq_of_lt_le ?_ ?_)
      · rw [Nat.mul_comm]
        omega
      · rw [Nat.add_mul, Nat.one_mul, Nat.mul_comm]
        omega
    rw [if_neg hout]
    cases hentry : r.chunkTable (x / chunkSize) with
    | none => rfl
    | some c =>
      have hne : c ≠ chunk := fun heq => hidx (hr.inj _ _ c hentry (heq ▸ hchunk))
      rw [map_some, map_some, update_of_ne hne]

theorem idx_lt (hinside : addr + len ≤ ramSize) (hlen : len ≠ 0) :
    addr / chunkSize < maxChunks := by
  unfold ramSize at hinside
  unfold chunkSize maxChunks
  omega

theorem ramStore_spec (hr : r.Ok) (hinside : addr + buf.length ≤ ramSize)
    (hin : addr % chunkSize + buf.length ≤ chunkSize) :
    ∃ r', ramStore addr buf r = some r' ∧ r'.Ok ∧
      (∀ i (h : i < buf.length), r'.byte? (addr + i) = some buf[i]) ∧
      ∀ x v, (x < addr ∨ addr + buf.length ≤ x) → r.byte? x = some v → r'.byte? x = some v := by
  rcases Nat.eq_zero_or_pos buf.length with hlen | hlen
  · refine ⟨r, ?_, hr, fun i h => absurd h (by omega), fun _ _ _ h => h⟩
    rw [ramStore, hlen, ramStoreLoop]
  · obtain ⟨chunk, r1, hget, hr1, hentry, hkeep⟩ := getChunk_spec hr (idx_lt hinside hlen.ne')
    have hbyte := Ram.byte?_write hr1 hentry hin
    refine ⟨r1.write chunk (addr % chunkSize) buf, ?_, ⟨hr1.lt, hr1.inj⟩, fun i h => ?_,
      fun x v hx hv => ?_⟩
    · obtain ⟨n, hn⟩ := Nat.exists_eq_succ_of_ne_zero hlen.ne'
      rw [ramStore, hn, ramStoreLoop, if_neg hlen.ne', hget, bind_some]
      dsimp only
      rw [if_pos (by omega)]
    · rw [hbyte, if_pos (by omega), Nat.add_sub_cancel_left, getElem?_eq_getElem]
    · rw [hbyte, if_neg (by omega)]
      exact hkeep x v hv

theorem ramFetch_spec (hr : r.Ok) (hinside : addr + len ≤ ramSize)
    (hin : addr % chunkSize + len ≤ chunkSize) :
    ∃ bytes r', ramFetch addr len r = some (bytes, r') ∧ r'.Ok ∧ bytes.length = len ∧
      (∀ i v, i < len → r.byte? (addr + i) = some v → bytes[i]? = some v) ∧
      ∀ x v, r.byte? x = some v → r'.byte? x = some v := by
  cases hlen : len with
  | zero => exact ⟨[], r, rfl, hr, rfl, fun i v h => absurd h (by omega), fun _ _ h => h⟩
  | succ n =>
    rw [hlen] at hinside hin
    obtain ⟨chunk, r1, hget, hr1, hentry, hkeep⟩ :=
      getChunk_spec hr (idx_lt hinside (Nat.succ_ne_zero n))
    refine ⟨r1.slice chunk (addr % chunkSize) (n + 1), r1, ?_, hr1, ?_, fun i v hi hv => ?_, hkeep⟩
    · rw [ramFetch, ramFetchLoop, if_neg (by omega), hget, bind_some]
      dsimp only
      rw [if_pos (by omega)]
    · rw [Ram.slice, length_map, length_range]
    · have hv1 := hkeep _ _ hv
      have hdiv : (addr + i) / chunkSize = addr / chunkSize := by
        unfold chunkSize at *
        omega
      have hmod : (addr + i) % chunkSize = addr % chunkSize + i := by
        unfold chunkSize at *
        omega
      rw [Ram.byte?, hdiv, hmod, hentry, map_some] at hv1
      rw [Ram.slice, getElem?_map, getElem?_range hi, map_some]
      exact hv1

end Chunks

/-- The bytes last stored are there. -/
structure Memory.Ok (s : Memory) : Prop where
  ram : s.ram.Ok
  stored : ∀ x v, s.stored x = some v → s.ram.byte? x = some v

section Runs

variable {s s' : Memory} {a : Access}

theorem Memory.Ok.faithful (hs : s.Ok) (hinside : a.Inside) (hone : a.OneChunk) : Faithful s a := by
  cases a with
  | store addr buf =>
    obtain ⟨r, hstore, -, hbytes, hkeep⟩ := ramStore_spec hs.ram hinside hone
    exact ⟨r, hstore, hbytes, hkeep⟩
  | fetch addr len =>
    obtain ⟨bytes, r, hfetch, -, hlen, hbytes, hkeep⟩ := ramFetch_spec hs.ram hinside hone
    exact ⟨bytes, r, hfetch, hlen, fun i v hi hv => hbytes i v hi (hs.stored _ _ hv), hkeep⟩

theorem Memory.Ok.access (hs : s.Ok) (hone : a.OneChunk) (hstep : access s a = some s') :
    s'.Ok := by
  unfold Pt.access at hstep
  split_ifs at hstep with hinside
  cases a with
  | store addr buf =>
    have hinside : addr + buf.length ≤ ramSize := hinside
    obtain ⟨r, hstore, hr, hbytes, hkeep⟩ := ramStore_spec hs.ram hinside hone
    dsimp only at hstep
    rw [hstore] at hstep
    cases hstep
    refine ⟨hr, fun x v hx => ?_⟩
    dsimp only at hx
    split_ifs at hx with hmem
    · have hget : x - addr < buf.length := by omega
      have hbyte := hbytes _ hget
      rw [getElem?_eq_getElem hget] at hx
      cases hx
      rwa [show addr + (x - addr) = x by omega] at hbyte
    · exact hkeep x v (by omega) (hs.stored x v hx)
  | fetch addr len =>
    have hinside : addr + len ≤ ramSize := hinside
    obtain ⟨bytes, r, hfetch, hr, -, -, hkeep⟩ := ramFetch_spec hs.ram hinside hone
    dsimp only at hstep
    rw [hfetch] at hstep
    cases hstep
    exact ⟨hr, fun x v hx => hkeep x v (hs.stored x v hx)⟩

theorem ramInit_ok (contents : ℕ → ℕ → UInt8) : Memory.Ok ⟨ramInit contents, fun _ => none⟩ :=
  ⟨⟨fun _ _ h => (nomatch h), fun _ _ _ h => (nomatch h)⟩, fun _ _ h => (nomatch h)⟩

/-- After accesses that each stay in one chunk, one more such access is faithful. -/
theorem access_faithful {contents : ℕ → ℕ → UInt8} {as : List Access}
    (hone : ∀ b ∈ as, b.OneChunk)
    (hrun : Run.run access ⟨ramInit contents, fun _ => none⟩ as = some s) (hinside : a.Inside)
    (ha : a.OneChunk) : Faithful s a := by
  have hs : s.Ok := Run.run_invariant (fun _ _ _ hs hb hstep => hs.access hb hstep)
    (ramInit_ok contents) (Run.meets_of_forall access hone _) hrun
  exact hs.faithful hinside ha

/-- The last bytes of the first chunk and the first ones of the second are stored, and the former
are fetched. -/
theorem access_faithful_last :
    ∃ s, Run.run access ⟨ramInit fun _ _ => 0, fun _ => none⟩
        [.store (2 ^ 22 - 3) [1, 2, 3], .store (2 ^ 22) [7, 8]] = some s ∧
      Faithful s (.fetch (2 ^ 22 - 3) 3) := by
  obtain ⟨s, hrun⟩ : ∃ s, Run.run access ⟨ramInit fun _ _ => 0, fun _ => none⟩
      [.store (2 ^ 22 - 3) [1, 2, 3], .store (2 ^ 22) [7, 8]] = some s := ⟨_, rfl⟩
  refine ⟨s, hrun, access_faithful (fun b hb => ?_) hrun (by decide) (by decide)⟩
  rcases mem_pair.mp hb with rfl | rfl <;> decide

/-- Two bytes that go over the end of the first chunk are both stored at the first address, and a
fetch returns the second one there. -/
theorem access_not_faithful :
    ∃ s, Run.run access ⟨ramInit fun _ _ => 0, fun _ => none⟩
        [.store (2 ^ 22 - 1) [1, 2]] = some s ∧
      s.stored (2 ^ 22 - 1) = some 1 ∧
      (∃ r, ramFetch (2 ^ 22 - 1) 1 s.ram = some ([2], r)) ∧
      ¬ Faithful s (.fetch (2 ^ 22 - 1) 1) := by
  have hview : ((Run.run access ⟨ramInit fun _ _ => 0, fun _ => none⟩
      [.store (2 ^ 22 - 1) [1, 2]]).bind fun s =>
        (ramFetch (2 ^ 22 - 1) 1 s.ram).map fun x => (s.stored (2 ^ 22 - 1), x.1)) =
      some (some 1, [2]) := by decide +kernel
  obtain ⟨s, hrun, hview⟩ := bind_eq_some_iff.mp hview
  obtain ⟨⟨bytes, r⟩, hfetch, hview⟩ := map_eq_some_iff.mp hview
  obtain ⟨hstored, rfl⟩ := Prod.mk.inj hview
  refine ⟨s, hrun, hstored, ⟨r, hfetch⟩, fun h => ?_⟩
  obtain ⟨bytes, r', hfetch', -, hbytes, -⟩ := h
  have hget := hbytes 0 1 (by decide) hstored
  cases hfetch.symm.trans hfetch'
  exact absurd hget (by decide)

end Runs

end CS162.Pt
