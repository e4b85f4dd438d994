import CS162.Filesys.Directory
import CS162.Lib.Slots

/-!
# Directories are finite maps

The functions of `filesys/directory.c` over any store of bytes.  Over an inode they are the
functions of the file system; over an array of bytes of fixed length they keep a finite map
from names to sectors.
-/

namespace CS162

open List Block Function Run

namespace Filesys

open Prog

namespace DirEntry

variable {e : DirEntry} {n : CString} {sector : ℕ}

theorem length_add (he : e.length = 20) : (add e n sector).length = 20 := by
  simp only [add, length_append, length_ofFn, length_take, length_drop, length_cons, length_nil, he]
  omega

theorem length_remove (he : e.length = 20) : (remove e).length = 20 := by
  simp only [remove, length_append, length_take, length_cons, length_nil, he]
  omega

theorem inUse_add (he : e.length = 20) : inUse (add e n sector) = true := by
  have hlen : (ofFn (ofU32 sector) ++ (n.take 14 ++ [0] ++
      ((e.drop 4).take 15).drop (min n.length 14 + 1))).length = 19 := by
    simp only [length_append, length_ofFn, length_take, length_drop, length_cons, length_nil, he]
    omega
  unfold inUse add
  rw [getD_eq_getElem?_getD, getElem?_append_right hlen.le, hlen]
  rfl

theorem inUse_remove (he : e.length = 20) : inUse (remove e) = false := by
  have hlen : (e.take 19).length = 19 := by
    rw [length_take, he]
    rfl
  unfold inUse remove
  rw [getD_eq_getElem?_getD, getElem?_append_right hlen.le, hlen]
  rfl

theorem name_add (hn : n.length ≤ 14) (h0 : 0 ∉ n) (he : e.length = 20) :
    name (add e n sector) = n := by
  have hmid : ((add e n sector).drop 4).take 15 =
      n ++ 0 :: ((e.drop 4).take 15).drop (n.length + 1) := by
    have htake : n.take 14 = n := take_of_length_le hn
    have hlen : (n ++ [0] ++ ((e.drop 4).take 15).drop (n.length + 1)).length = 15 := by
      simp only [length_append, length_take, length_drop, length_cons, length_nil, he]
      omega
    unfold add
    rw [htake, Nat.min_eq_left hn, append_assoc, drop_append_of_le_length (by simp),
      drop_of_length_le (by simp), nil_append, take_left' hlen, append_assoc]
    rfl
  unfold name
  rw [hmid, takeWhile_append_of_pos]
  · simp
  · intro c hc
    simp only [bne_iff_ne, ne_eq]
    rintro rfl
    exact h0 hc

theorem inodeSector_add (hs : sector < 2 ^ 32) (he : e.length = 20) :
    inodeSector (add e n sector) = sector := by
  have hlen : 0 + 4 ≤ (add e n sector).length := by
    rw [length_add he]
    omega
  have hset : ((ofList (add e n sector)).setU32 0 sector).u32 0 = sector := u32_setU32 hlen hs
  refine (u32_congr fun i _ hi => ?_).trans hset
  have hi : i < 4 := by omega
  rw [setU32, byte_write_inside (by omega) (by omega) (by omega),
    byte_of_lt (by omega), byte_of_lt (by omega)]
  change (add e n sector)[i] = _
  unfold add
  rw [getElem_append_left (by simp; omega), getElem_append_left (by simpa using hi),
    List.getElem_ofFn]
  rfl

end DirEntry

/-- An array of `n` bytes as a store.  A read or a write that does not fit is cut at the
end, and `opens` says whether memory is left to open the inode of an entry, which is
known by its sector. -/
def arrayStore (n : ℕ) (opens : Bool) : DirStore (Block n) ℕ where
  readAt size ofs := do
    let b ← get
    return (List.range (min size (n - ofs))).map fun k => b.byte (ofs + k)
  writeAt e ofs := do
    modify fun b => b.write ofs (ofList e)
    return min e.length (n - ofs)
  openInode sector := return if opens then some sector else none
  removeInode _ := return ()
  closeInode _ := return ()

section

variable {n i k : ℕ} {opens : Bool} {b b' : Block n} {name : CString} {sector : ℕ} {e : DirEntry}
  {f : CString → Option ℕ}

def slot (b : Block n) (k : ℕ) : DirEntry :=
  (List.range 20).map fun j => b.byte (20 * k + j)

/-- The binding in a slot that is in use. -/
def content (b : Block n) (k : ℕ) : Option (CString × ℕ) :=
  if (slot b k).inUse then some ((slot b k).name, (slot b k).inodeSector) else none

theorem slot_length (b : Block n) (k : ℕ) : (slot b k).length = 20 := by
  rw [slot, length_map, length_range]

theorem content_congr (h : slot b' k = slot b k) : content b' k = content b k := by
  rw [content, h, content]

theorem readAt_slot (hk : k < n / 20) :
    Does ((arrayStore n opens).readAt 20 (20 * k)) b fun e b' => e = slot b k ∧ b' = b := by
  have hmin : min 20 (n - 20 * k) = 20 := by omega
  dsimp only [arrayStore]
  rw [does_bind, does_get, does_pure, hmin]
  exact ⟨rfl, rfl⟩

theorem readAt_end :
    Does ((arrayStore n opens).readAt 20 (20 * (n / 20))) b fun e b' => e.length ≠ 20 ∧ b' = b := by
  dsimp only [arrayStore]
  rw [does_bind, does_get, does_pure, length_map, length_range]
  exact ⟨by omega, rfl⟩

theorem writeAt_slot (hi : i < n / 20) (he : e.length = 20) :
    Does ((arrayStore n opens).writeAt e (20 * i)) b fun w b' =>
      w = 20 ∧ ∀ j, j < n / 20 → slot b' j = if j = i then e else slot b j := by
  dsimp only [arrayStore]
  rw [does_bind, does_modify, does_pure]
  refine ⟨by rw [he]; omega, fun j hj => ?_⟩
  split_ifs with hji
  · subst hji
    refine ext_getElem ((slot_length _ _).trans he.symm) fun k hk hk' => ?_
    have hk : k < 20 := he ▸ hk'
    simp only [slot, getElem_map, getElem_range]
    rw [byte_write_inside (by omega) (by omega) (by omega), Nat.add_sub_cancel_left, byte_of_lt hk']
    rfl
  · refine map_congr_left fun k hk => ?_
    rw [mem_range] at hk
    exact byte_write_outside (by omega)

theorem writeAt_end :
    Does ((arrayStore n opens).writeAt e (20 * (n / 20))) b fun w b' =>
      w ≠ 20 ∧ ∀ j, j < n / 20 → slot b' j = slot b j := by
  dsimp only [arrayStore]
  rw [does_bind, does_modify, does_pure]
  refine ⟨by omega, fun j hj => map_congr_left fun k hk => ?_⟩
  rw [mem_range] at hk
  exact byte_write_outside (by omega)

theorem content_eq_some {s : ℕ} :
    content b k = some (name, s) ↔
      (DirEntry.inUse (slot b k) && name = DirEntry.name (slot b k)) = true ∧
        s = DirEntry.inodeSector (slot b k) := by
  unfold content
  rw [Bool.and_eq_true, decide_eq_true_eq]
  split_ifs with hu
  · simp only [Option.some.injEq, Prod.mk.injEq, hu, true_and, eq_comm]
  · simp [hu]

theorem lookupLoop_array (fuel : ℕ) (hk : k ≤ n / 20) (hfuel : n / 20 - k < fuel) :
    Does ((arrayStore n opens).lookupLoop name fuel (20 * k)) b fun r b' => b' = b ∧
      ((∃ i, i < n / 20 ∧ r = some (slot b i, 20 * i) ∧
        content b i = some (name, DirEntry.inodeSector (slot b i))) ∨
      r = none ∧ ∀ i, k ≤ i → i < n / 20 → ∀ s, content b i ≠ some (name, s)) := by
  induction fuel generalizing k with
  | zero => omega
  | succ fuel ih =>
    rw [DirStore.lookupLoop]
    rcases Nat.lt_or_eq_of_le hk with hlt | rfl
    · refine (readAt_slot hlt).bind fun e b' he => ?_
      obtain ⟨rfl, rfl⟩ := he
      rw [if_pos (slot_length _ _)]
      split_ifs with hmatch
      · exact does_pure.mpr ⟨rfl, .inl ⟨k, hlt, rfl, content_eq_some.mpr ⟨hmatch, rfl⟩⟩⟩
      · refine (ih hlt (by omega)).mono fun r b'' hr => ⟨hr.1, hr.2.imp_right fun hnone => ?_⟩
        refine ⟨hnone.1, fun i hki hi s hs => ?_⟩
        rcases Nat.lt_or_eq_of_le hki with hki | rfl
        · exact hnone.2 i hki hi s hs
        · exact hmatch (content_eq_some.mp hs).1
    · refine readAt_end.bind fun e b' he => ?_
      rw [if_neg he.1, does_pure]
      exact ⟨he.2, .inr ⟨rfl, fun i hki hi => absurd hki (by omega)⟩⟩

theorem lookup_array (hn : n < 2 ^ 31) (name : CString) :
    Does ((arrayStore n opens).lookup name) b fun r b' => b' = b ∧
      ((∃ i, i < n / 20 ∧ r = some (slot b i, 20 * i) ∧
        content b i = some (name, DirEntry.inodeSector (slot b i))) ∨
      r = none ∧ ∀ i, i < n / 20 → ∀ s, content b i ≠ some (name, s)) := by
  have hfuel : n / 20 - 0 < dirFuel := by
    unfold dirFuel
    omega
  refine (lookupLoop_array dirFuel (Nat.zero_le _) hfuel).mono fun r b' hr => ?_
  exact ⟨hr.1, hr.2.imp_right fun hnone => ⟨hnone.1, fun i => hnone.2 i (Nat.zero_le i)⟩⟩

theorem freeSlotLoop_array (fuel : ℕ) (last : DirEntry) (hk : k ≤ n / 20)
    (hfuel : n / 20 - k < fuel) :
    Does ((arrayStore n opens).freeSlotLoop fuel (20 * k) last) b fun r b' => b' = b ∧
      ((∃ i, i < n / 20 ∧ r = (slot b i, 20 * i) ∧ content b i = none) ∨
      r.2 = 20 * (n / 20) ∧ ∀ i, k ≤ i → i < n / 20 → content b i ≠ none) := by
  induction fuel generalizing k last with
  | zero => omega
  | succ fuel ih =>
    rw [DirStore.freeSlotLoop]
    rcases Nat.lt_or_eq_of_le hk with hlt | rfl
    · refine (readAt_slot hlt).bind fun e b' he => ?_
      obtain ⟨rfl, rfl⟩ := he
      rw [if_pos (slot_length _ _)]
      split_ifs with huse
      · refine (ih _ hlt (by omega)).mono fun r b'' hr => ⟨hr.1, hr.2.imp_right fun hall => ?_⟩
        refine ⟨hall.1, fun i hki hi => ?_⟩
        rcases Nat.lt_or_eq_of_le hki with hki | rfl
        · exact hall.2 i hki hi
        · rw [content, if_pos huse]
          exact nofun
      · exact does_pure.mpr ⟨rfl, .inl ⟨k, hlt, rfl, if_neg huse⟩⟩
    · refine readAt_end.bind fun e b' he => ?_
      rw [if_neg he.1, does_pure]
      exact ⟨he.2, .inr ⟨rfl, fun i hki hi => absurd hki (by omega)⟩⟩

open Slots in
theorem dirLookup_array (hn : n < 2 ^ 31) (h : Denotes (n / 20) (content b) f) (name : CString) :
    Does ((arrayStore n opens).dirLookup name) b fun r b' =>
      r = (if opens then f name else none) ∧ b' = b := by
  refine (lookup_array hn name).bind fun r b' hr => ?_
  obtain ⟨rfl, ⟨i, hi, rfl, hc⟩ | ⟨rfl, hnone⟩⟩ := hr
  · have hf := (h.eq_some_iff name _).mpr ⟨i, hi, hc⟩
    dsimp only [arrayStore]
    rw [does_pure, hf]
    exact ⟨rfl, rfl⟩
  · have hf := h.eq_none_iff.mpr hnone
    rw [does_pure, hf, ite_self]
    exact ⟨rfl, rfl⟩

open Slots in
theorem dirAdd_array (hn : n < 2 ^ 31) (h : Denotes (n / 20) (content b) f) (h0 : 0 ∉ name)
    (hs : sector < 2 ^ 32) :
    Does ((arrayStore n opens).dirAdd name sector) b fun ok b' =>
      (ok = true ↔ 1 ≤ name.length ∧ name.length ≤ 14 ∧ f name = none ∧
        ∃ i, i < n / 20 ∧ content b i = none) ∧
      Denotes (n / 20) (content b') (if ok then update f name (some sector) else f) := by
  unfold DirStore.dirAdd
  split_ifs with hvalid
  · refine does_pure.mpr ⟨⟨nofun, fun hc => ?_⟩, h⟩
    rcases hvalid with rfl | hlong
    · exact absurd hc.1 (by decide)
    · omega
  rw [not_or] at hvalid
  have hpos : 1 ≤ name.length := length_pos_iff.mpr hvalid.1
  refine (lookup_array hn name).bind fun r b' hr => ?_
  obtain ⟨rfl, ⟨i, hi, rfl, hc⟩ | ⟨rfl, hnone⟩⟩ := hr
  · have hf := (h.eq_some_iff name _).mpr ⟨i, hi, hc⟩
    refine does_pure.mpr ⟨⟨nofun, fun hc => ?_⟩, h⟩
    rw [hf] at hc
    cases hc.2.2.1
  have hf := h.eq_none_iff.mpr hnone
  have hfuel : n / 20 - 0 < dirFuel := by
    unfold dirFuel
    omega
  refine (freeSlotLoop_array dirFuel _ (Nat.zero_le _) hfuel).bind fun r b'' hr => ?_
  obtain ⟨rfl, ⟨i, hi, rfl, hfree⟩ | ⟨hend, hfull⟩⟩ := hr
  · have he := slot_length b'' i
    refine (writeAt_slot hi (DirEntry.length_add he)).bind fun w b' hw => ?_
    have hnew : content b' i = some (name, sector) := by
      rw [content, hw.2 i hi, if_pos rfl, DirEntry.inUse_add he, if_pos rfl,
        DirEntry.name_add (by omega) h0 he, DirEntry.inodeSector_add hs he]
    rw [does_pure, decide_eq_true hw.1, if_pos rfl]
    refine ⟨iff_of_true rfl ⟨hpos, by omega, hf, i, hi, hfree⟩, ?_⟩
    refine (h.insert hi hfree hf).congr fun j hj => ?_
    by_cases hji : j = i
    · rw [hji, hnew, update_self]
    · rw [update_of_ne hji]
      exact content_congr (by rw [hw.2 j hj, if_neg hji])
  · obtain ⟨e, ofs⟩ := r
    obtain rfl : ofs = 20 * (n / 20) := hend
    refine writeAt_end.bind fun w b' hw => ?_
    rw [does_pure, decide_eq_false hw.1]
    refine ⟨iff_of_false nofun ?_, h.congr fun j hj => content_congr (hw.2 j hj)⟩
    rintro ⟨-, -, -, i, hi, hfree⟩
    exact hfull i (Nat.zero_le i) hi hfree

open Slots in
theorem dirRemove_array (hn : n < 2 ^ 31) (h : Denotes (n / 20) (content b) f) (name : CString) :
    Does ((arrayStore n opens).dirRemove name) b fun ok b' =>
      (ok = true ↔ f name ≠ none ∧ opens = true) ∧ Denotes (n / 20) (content b')
      (if ok then update f name none else f) := by
  refine (lookup_array hn name).bind fun r b' hr => ?_
  obtain ⟨rfl, ⟨i, hi, rfl, hc⟩ | ⟨rfl, hnone⟩⟩ := hr
  · have hf := (h.eq_some_iff name _).mpr ⟨i, hi, hc⟩
    cases opens with
    | false => exact does_pure.mpr ⟨iff_of_false nofun fun hh => (nomatch hh.2), h⟩
    | true =>
      have he := slot_length b' i
      change Does (do
        let n ← (arrayStore n true).writeAt (DirEntry.remove (slot b' i)) (20 * i)
        if n = 20 then return true else return false) b' _
      refine (writeAt_slot hi (DirEntry.length_remove he)).bind fun w b'' hw => ?_
      have hgone : content b'' i = none := by
        rw [content, hw.2 i hi, if_pos rfl, DirEntry.inUse_remove he]
        rfl
      rw [if_pos hw.1, does_pure, if_pos rfl]
      refine ⟨iff_of_true rfl ⟨by rw [hf]; nofun, rfl⟩, ?_⟩
      refine (h.erase hi hc).congr fun j hj => ?_
      by_cases hji : j = i
      · rw [hji, hgone, update_self]
      · rw [update_of_ne hji]
        exact content_congr (by rw [hw.2 j hj, if_neg hji])
  · have hf := h.eq_none_iff.mpr hnone
    exact does_pure.mpr ⟨iff_of_false nofun fun hh => hh.1 hf, h⟩

end

/-- A name: a C string has no zero byte. -/
abbrev Name : Type :=
  { name : CString // 0 ∉ name }

/-- A call; `opens` says whether memory is left to open the inode of the entry. -/
inductive DirCall where
  | add (name : Name) (sector : Fin (2 ^ 32))
  | remove (opens : Bool) (name : Name)
  | lookup (opens : Bool) (name : Name)

namespace DirCall

variable {n : ℕ}

def exec : DirCall → Prog (Block n) Bool
  | add name sector => (arrayStore n true).dirAdd name sector
  | remove opens name => (arrayStore n opens).dirRemove name
  | lookup opens name => Option.isSome <$> (arrayStore n opens).dirLookup name

/-- The sector of the latest successful `dir_add` of each name that no successful
`dir_remove` of it follows. -/
def bind (f : CString → Option ℕ) : DirCall → Bool → CString → Option ℕ
  | add name sector, true => update f name (some sector)
  | remove _ name, true => update f name none
  | _, _ => f

def step (s : Block n × (CString → Option ℕ)) (c : DirCall) :
    Option (Block n × (CString → Option ℕ)) :=
  (c.exec.run s.1).map fun (ok, b) => (b, c.bind s.2 ok)

open Slots in
theorem exec_denotes {b : Block n} {f : CString → Option ℕ} (hn : n < 2 ^ 31)
    (h : Denotes (n / 20) (content b) f) (c : DirCall) :
    Does c.exec b fun ok b' => Denotes (n / 20) (content b') (c.bind f ok) := by
  cases c with
  | add name sector =>
    refine (dirAdd_array hn h name.2 sector.2).mono fun ok b' hb => ?_
    cases ok <;> exact hb.2
  | remove opens name =>
    refine (dirRemove_array hn h name).mono fun ok b' hb => ?_
    cases ok <;> exact hb.2
  | lookup opens name =>
    rw [exec, map_eq_pure_bind]
    refine (dirLookup_array hn h name).bind fun r b' hr => does_pure.mpr ?_
    rw [hr.2]
    exact h

end DirCall

open Slots in
/-- After every sequence of calls on an array of zeros no name is in two slots, a lookup
yields the latest binding, `dir_add` succeeds exactly when the name can be bound, is not
bound and a slot is free, and a call that fails changes no binding. -/
theorem run_directory {n : ℕ} (hn : n < 2 ^ 31) {calls : List DirCall} {b : Block n}
    {f : CString → Option ℕ}
    (hr : run DirCall.step (fun _ => 0, fun _ => none) calls = some (b, f)) :
    (∀ i j, i < n / 20 → j < n / 20 → (slot b i).inUse = true → (slot b j).inUse = true →
      (slot b i).name = (slot b j).name → i = j) ∧
    (∀ name : Name, ((arrayStore n true).dirLookup name).run b = some (f name, b)) ∧
    (∀ (name : Name) (sector : Fin (2 ^ 32)),
      Does ((arrayStore n true).dirAdd name sector) b fun ok _ =>
        ok = true ↔ 1 ≤ name.1.length ∧ name.1.length ≤ 14 ∧ f name = none ∧
          ∃ i, i < n / 20 ∧ (slot b i).inUse = false) ∧
    (∀ (c : DirCall) (b' : Block n), c.exec.run b = some (false, b') →
      ∀ name : Name, ((arrayStore n true).dirLookup name).run b' = some (f name, b')) ∧
    ∀ c : DirCall, (c.exec.run b).isSome := by
  have h : Denotes (n / 20) (content b) f := by
    refine run_invariant' (I := fun s => Denotes (n / 20) (content s.1) s.2) ?_ ?_ hr
    · intro s c s' hs hstep
      obtain ⟨⟨ok, b'⟩, hrun, rfl⟩ := Option.map_eq_some_iff.mp hstep
      exact (DirCall.exec_denotes hn hs c).ensures ok b' hrun
    · refine denotes_empty fun i hi => if_neg ?_
      simp [slot, DirEntry.inUse]
  have hlookup : ∀ {b' : Block n}, Denotes (n / 20) (content b') f → ∀ name : Name,
      ((arrayStore n true).dirLookup name).run b' = some (f name, b') := by
    intro b' hb' name
    obtain ⟨r, b'', hrun, rfl, rfl⟩ := dirLookup_array hn hb' name
    exact hrun
  refine ⟨fun i j hi hj hui huj heq => ?_, hlookup h, fun name sector => ?_,
    fun c b' hc => ?_, fun c => ?_⟩
  · have hci : content b i = some ((slot b i).name, (slot b i).inodeSector) := if_pos hui
    have hcj : content b j = some ((slot b i).name, (slot b j).inodeSector) := by
      rw [heq]
      exact if_pos huj
    exact h.inj i j _ _ _ hi hj hci hcj
  · refine (dirAdd_array hn h name.2 sector.2).mono fun ok b' hb => hb.1.trans ?_
    simp only [content, ite_eq_right_iff, reduceCtorEq, imp_false, Bool.not_eq_true]
  · have hb' := (DirCall.exec_denotes hn h c).ensures false b' hc
    have hsame : c.bind f false = f := by cases c <;> rfl
    rw [hsame] at hb'
    exact hlookup hb'
  · obtain ⟨ok, b', hrun, -⟩ := DirCall.exec_denotes hn h c
    rw [hrun]
    rfl

def sampleDirCalls : List DirCall :=
  [.add ⟨[97], by decide⟩ 5, .add ⟨[98], by decide⟩ 6, .add ⟨[99], by decide⟩ 7,
    .remove true ⟨[97], by decide⟩, .add ⟨[99], by decide⟩ 8]

theorem run_directory_sample :
    ∃ (b : Block 50) (f : CString → Option ℕ),
      run DirCall.step (fun _ => 0, fun _ => none) sampleDirCalls = some (b, f) ∧
        f [99] = some 8 ∧ ∀ name : Name,
          ((arrayStore 50 true).dirLookup name).run b = some (f name, b) := by
  have hr : (run DirCall.step ((fun _ => 0 : Block 50), fun _ => none) sampleDirCalls).map
      (fun s => s.2 [99]) = some (some 8) := by decide +kernel
  obtain ⟨⟨b, f⟩, hrun, hf⟩ := Option.map_eq_some_iff.mp hr
  exact ⟨b, f, hrun, hf, (run_directory (by decide) hrun).2.1⟩

end Filesys

end CS162
