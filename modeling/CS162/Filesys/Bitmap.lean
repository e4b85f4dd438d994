import CS162.Filesys.Inode

/-!
# Bitmaps

The functions of `lib/kernel/bitmap.c` on the words they work on.  A failed assertion has no
result.  `Bitmap.bit` is the bit a position stands for.
-/

namespace CS162.Filesys

open Option List BitVec Function

structure Bitmap where
  bitCnt : ℕ
  bits : ℕ → BitVec 32

namespace Bitmap

def elemIdx (bitIdx : ℕ) : ℕ :=
  bitIdx / 32

def bitMask (bitIdx : ℕ) : BitVec 32 :=
  1#32 <<< (bitIdx % 32)

/-- `byte_cnt`; the sum in `DIV_ROUND_UP` is a `size_t`. -/
def byteCnt (bitCnt : ℕ) : ℕ :=
  4 * ((bitCnt + 31) % 2 ^ 32 / 32)

def mark (b : Bitmap) (bitIdx : ℕ) : Bitmap :=
  { b with
    bits := update b.bits (elemIdx bitIdx)
      (b.bits (elemIdx bitIdx) ||| bitMask bitIdx) }

def reset (b : Bitmap) (bitIdx : ℕ) : Bitmap :=
  { b with
    bits := update b.bits (elemIdx bitIdx)
      (b.bits (elemIdx bitIdx) &&& ~~~bitMask bitIdx) }

def set (b : Bitmap) (idx : ℕ) (value : Bool) : Option Bitmap :=
  if idx < b.bitCnt then some (if value then b.mark idx else b.reset idx) else none

def test (b : Bitmap) (idx : ℕ) : Option Bool :=
  if idx < b.bitCnt then some (b.bits (elemIdx idx) &&& bitMask idx ≠ 0#32) else none

/-- The assertions on a group of bits; their sum is a `size_t`. -/
def GroupOk (b : Bitmap) (start cnt : ℕ) : Prop :=
  start ≤ b.bitCnt ∧ (start + cnt) % 2 ^ 32 ≤ b.bitCnt

instance (b : Bitmap) (start cnt : ℕ) : Decidable (b.GroupOk start cnt) :=
  inferInstanceAs (Decidable (_ ∧ _))

def setLoop (start : ℕ) (value : Bool) : List ℕ → Bitmap → Option Bitmap
  | [], b => some b
  | i :: is, b => (b.set (start + i) value).bind (setLoop start value is)

def setMultiple (b : Bitmap) (start cnt : ℕ) (value : Bool) : Option Bitmap :=
  if b.GroupOk start cnt then setLoop start value (List.range cnt) b else none

def setAll (b : Bitmap) (value : Bool) : Option Bitmap :=
  b.setMultiple 0 b.bitCnt value

def containsLoop (b : Bitmap) (start : ℕ) (value : Bool) : List ℕ → Option Bool
  | [] => some false
  | i :: is => (b.test (start + i)).bind fun v =>
    if v = value then some true else containsLoop b start value is

def contains (b : Bitmap) (start cnt : ℕ) (value : Bool) : Option Bool :=
  if b.GroupOk start cnt then b.containsLoop start value (List.range cnt) else none

def all (b : Bitmap) (start cnt : ℕ) : Option Bool :=
  (b.contains start cnt false).map (!·)

def scanLoop (b : Bitmap) (cnt : ℕ) (value : Bool) : List ℕ → Option (Option ℕ)
  | [] => some none
  | i :: is => (b.contains i cnt !value).bind fun v =>
    if v then scanLoop b cnt value is else some (some i)

/-- `bitmap_scan`; `BITMAP_ERROR` is no position. -/
def scan (b : Bitmap) (start cnt : ℕ) (value : Bool) : Option (Option ℕ) :=
  if start ≤ b.bitCnt then
    if cnt ≤ b.bitCnt then
      b.scanLoop cnt value (List.range' start (b.bitCnt - cnt + 1 - start))
    else some none
  else none

def scanAndFlip (b : Bitmap) (start cnt : ℕ) (value : Bool) : Option (Option ℕ × Bitmap) :=
  (b.scan start cnt value).bind fun
    | none => some (none, b)
    | some idx => (b.setMultiple idx cnt !value).map fun b' => (some idx, b')

/-- `bitmap_create`.  `malloc` says whether memory is left, which is then full of
`garbage`; nothing is allocated for a size of zero bytes. -/
def create (malloc : Bool) (garbage : ℕ → BitVec 32) (bitCnt : ℕ) : Option Bitmap :=
  if malloc ∧ (byteCnt bitCnt ≠ 0 ∨ bitCnt = 0) then setAll ⟨bitCnt, garbage⟩ false else none

def bufSize (bitCnt : ℕ) : ℕ :=
  8 + byteCnt bitCnt

/-- `bitmap_create_in_buf`, in a buffer full of `garbage`. -/
def createInBuf (garbage : ℕ → BitVec 32) (bitCnt blockSize : ℕ) : Option Bitmap :=
  if bufSize bitCnt ≤ blockSize then setAll ⟨bitCnt, garbage⟩ false else none

variable {b b' : Bitmap} {i j start cnt : ℕ} {value : Bool}

def bit (b : Bitmap) (i : ℕ) : Bool :=
  (b.bits (elemIdx i)).getLsbD (i % 32)

theorem getLsbD_bitMask (i j : ℕ) : (bitMask i).getLsbD j = decide (j = i % 32) := by
  have hlt : i % 32 < 32 := Nat.mod_lt _ (by decide)
  rw [bitMask, ← twoPow_eq, getLsbD_twoPow, decide_eq_true hlt, Bool.true_and]
  exact decide_eq_decide.mpr eq_comm

theorem and_bitMask_ne_zero (x : BitVec 32) (i : ℕ) :
    x &&& bitMask i ≠ 0#32 ↔ x.getLsbD (i % 32) = true := by
  rw [not_iff_comm, Bool.not_eq_true]
  constructor
  · intro hbit
    refine eq_of_getLsbD_eq fun k _ => ?_
    rw [getLsbD_and, getLsbD_bitMask, getLsbD_zero]
    by_cases hki : k = i % 32
    · rw [hki, hbit, Bool.false_and]
    · rw [decide_eq_false hki, Bool.and_false]
  · intro hzero
    have := congrArg (fun y : BitVec 32 => y.getLsbD (i % 32)) hzero
    simpa [getLsbD_bitMask] using this

theorem eq_of_elemIdx (h : elemIdx i = elemIdx j) (hm : i % 32 = j % 32) : i = j := by
  unfold elemIdx at h
  omega

theorem ext_bit (hcnt : b.bitCnt = b'.bitCnt) (h : ∀ i, b.bit i = b'.bit i) : b = b' := by
  obtain ⟨n, w⟩ := b
  obtain ⟨m, v⟩ := b'
  obtain rfl : n = m := hcnt
  congr
  funext k
  refine eq_of_getLsbD_eq fun l hl => ?_
  have hkl := h (32 * k + l)
  have hidx : elemIdx (32 * k + l) = k := by
    unfold elemIdx
    omega
  have hmod : (32 * k + l) % 32 = l := by omega
  unfold bit at hkl
  rwa [hidx, hmod] at hkl

theorem bit_mark (b : Bitmap) (i j : ℕ) : (b.mark i).bit j = if j = i then true else b.bit j := by
  unfold bit mark
  dsimp only
  by_cases hidx : elemIdx j = elemIdx i
  · rw [hidx, update_self, getLsbD_or, getLsbD_bitMask]
    by_cases hji : j = i
    · rw [if_pos hji, hji, decide_eq_true rfl, Bool.or_true]
    · have hne : ¬ j % 32 = i % 32 := fun hm => hji (eq_of_elemIdx hidx hm)
      rw [if_neg hji, decide_eq_false hne, Bool.or_false]
  · have hji : ¬ j = i := fun heq => hidx (by rw [heq])
    rw [if_neg hji, update_of_ne hidx]

theorem bit_reset (b : Bitmap) (i j : ℕ) :
    (b.reset i).bit j = if j = i then false else b.bit j := by
  have hlt : j % 32 < 32 := Nat.mod_lt _ (by decide)
  unfold bit reset
  dsimp only
  by_cases hidx : elemIdx j = elemIdx i
  · rw [hidx, update_self, getLsbD_and, getLsbD_not, getLsbD_bitMask,
      decide_eq_true hlt, Bool.true_and]
    by_cases hji : j = i
    · rw [if_pos hji, hji, decide_eq_true rfl, Bool.not_true, Bool.and_false]
    · have hne : ¬ j % 32 = i % 32 := fun hm => hji (eq_of_elemIdx hidx hm)
      rw [if_neg hji, decide_eq_false hne, Bool.not_false, Bool.and_true]
  · have hji : ¬ j = i := fun heq => hidx (by rw [heq])
    rw [if_neg hji, update_of_ne hidx]

theorem test_eq (hi : i < b.bitCnt) : b.test i = some (b.bit i) := by
  unfold test bit
  rw [if_pos hi]
  congr 1
  rw [Bool.eq_iff_iff, decide_eq_true_iff]
  exact and_bitMask_ne_zero _ _

theorem set_eq (hi : i < b.bitCnt) (value : Bool) :
    ∃ b', b.set i value = some b' ∧ b'.bitCnt = b.bitCnt ∧
      ∀ j, b'.bit j = if j = i then value else b.bit j := by
  refine ⟨_, if_pos hi, ?_, fun j => ?_⟩
  · cases value <;> rfl
  · cases value
    · exact bit_reset b i j
    · exact bit_mark b i j

theorem groupOk_of_le (h : start + cnt ≤ b.bitCnt) (hlt : b.bitCnt < 2 ^ 32) :
    b.GroupOk start cnt :=
  ⟨by omega, by rw [Nat.mod_eq_of_lt (by omega)]; exact h⟩

theorem setLoop_eq (value : Bool) (is : List ℕ) (h : ∀ i ∈ is, start + i < b.bitCnt) :
    ∃ b', setLoop start value is b = some b' ∧ b'.bitCnt = b.bitCnt ∧
      ∀ j, b'.bit j = if ∃ i ∈ is, j = start + i then value else b.bit j := by
  induction is generalizing b with
  | nil => exact ⟨b, rfl, rfl, fun j => (if_neg (by simp)).symm⟩
  | cons i is ih =>
    obtain ⟨b1, h1, hcnt1, hbit1⟩ := set_eq (h i mem_cons_self) value
    obtain ⟨b', h', hcnt', hbit'⟩ := ih fun k hk => by
      rw [hcnt1]
      exact h k (mem_cons_of_mem i hk)
    refine ⟨b', by rw [setLoop, h1]; exact h', hcnt'.trans hcnt1, fun j => ?_⟩
    rw [hbit', hbit1]
    by_cases hj : ∃ k ∈ is, j = start + k
    · rw [if_pos hj, if_pos (by
        obtain ⟨k, hk, heq⟩ := hj
        exact ⟨k, mem_cons_of_mem i hk, heq⟩)]
    · rw [if_neg hj]
      exact if_congr (by simp [hj]) rfl rfl

theorem setMultiple_eq (h : start + cnt ≤ b.bitCnt) (hlt : b.bitCnt < 2 ^ 32) (value : Bool) :
    ∃ b', b.setMultiple start cnt value = some b' ∧ b'.bitCnt = b.bitCnt ∧
      b'.bit = bitmapSetMultiple b.bit start cnt value := by
  have hin : ∀ i ∈ range cnt, start + i < b.bitCnt := fun i hi => by
    rw [mem_range] at hi
    omega
  obtain ⟨b', hloop, hcnt, hbit⟩ := setLoop_eq value (range cnt) hin
  refine ⟨b', by rw [setMultiple, if_pos (groupOk_of_le h hlt), hloop], hcnt, funext fun j => ?_⟩
  rw [hbit, bitmapSetMultiple]
  refine if_congr ⟨?_, fun hj => ⟨j - start, mem_range.mpr (by omega), by omega⟩⟩ rfl rfl
  rintro ⟨i, hi, rfl⟩
  rw [mem_range] at hi
  omega

theorem containsLoop_eq (value : Bool) (is : List ℕ) (h : ∀ i ∈ is, start + i < b.bitCnt) :
    b.containsLoop start value is = some (is.any fun i => b.bit (start + i) = value) := by
  induction is with
  | nil => rfl
  | cons i is ih =>
    rw [containsLoop, test_eq (h i mem_cons_self), bind_some, any_cons]
    split_ifs with hv
    · rw [decide_eq_true hv, Bool.true_or]
    · rw [decide_eq_false hv, Bool.false_or]
      exact ih fun k hk => h k (mem_cons_of_mem i hk)

theorem contains_eq (h : start + cnt ≤ b.bitCnt) (hlt : b.bitCnt < 2 ^ 32) (value : Bool) :
    b.contains start cnt value = some ((range cnt).any fun i => b.bit (start + i) = value) := by
  rw [contains, if_pos (groupOk_of_le h hlt)]
  refine containsLoop_eq value _ fun i hi => ?_
  rw [mem_range] at hi
  omega

theorem scanLoop_eq (hlt : b.bitCnt < 2 ^ 32) (value : Bool) (is : List ℕ)
    (h : ∀ i ∈ is, i + cnt ≤ b.bitCnt) :
    b.scanLoop cnt value is =
      some (is.find? fun i => (range cnt).all fun j => b.bit (i + j) = value) := by
  induction is with
  | nil => rfl
  | cons i is ih =>
    have hflip : ((range cnt).any fun j => b.bit (i + j) = !value) =
        !(range cnt).all fun j => b.bit (i + j) = value := by
      rw [not_all_eq_any_not]
      congr
      funext j
      cases b.bit (i + j) <;> cases value <;> rfl
    rw [scanLoop, contains_eq (h i mem_cons_self) hlt, bind_some, hflip, find?_cons]
    cases (range cnt).all fun j => b.bit (i + j) = value with
    | true => rfl
    | false => exact ih fun k hk => h k (mem_cons_of_mem i hk)

theorem scan_eq (hlt : b.bitCnt < 2 ^ 32) (cnt : ℕ) :
    b.scan 0 cnt false = some (bitmapScan b.bit b.bitCnt cnt) := by
  unfold scan bitmapScan
  rw [if_pos (Nat.zero_le _)]
  split_ifs with hcnt
  · rw [Nat.sub_zero, ← range_eq_range', scanLoop_eq hlt]
    · congr
      funext i
      congr
      funext j
      cases b.bit (i + j) <;> rfl
    · intro i hi
      rw [mem_range] at hi
      omega
  · rfl

theorem all_eq (h : start + cnt ≤ b.bitCnt) (hlt : b.bitCnt < 2 ^ 32) :
    b.all start cnt = some ((range cnt).all fun i => b.bit (start + i)) := by
  rw [all, contains_eq h hlt, map_some, not_any_eq_all_not]
  congr
  funext i
  cases b.bit (start + i) <;> rfl

theorem setAll_eq (hlt : b.bitCnt < 2 ^ 32) (value : Bool) :
    ∃ b', b.setAll value = some b' ∧ b'.bitCnt = b.bitCnt ∧
      ∀ i, i < b.bitCnt → b'.bit i = value := by
  obtain ⟨b', hb', hcnt, hbit⟩ := setMultiple_eq (Nat.zero_add b.bitCnt).le hlt value
  refine ⟨b', hb', hcnt, fun i hi => ?_⟩
  rw [hbit]
  exact if_pos ⟨Nat.zero_le i, by omega⟩

end Bitmap

section Scan

variable {bits : ℕ → Bool} {n cnt s j : ℕ}

theorem bitmapScan_clear (h : bitmapScan bits n cnt = some s) (hj : j < cnt) :
    bits (s + j) = false := by
  obtain ⟨-, h⟩ := ite_none_right_eq_some.mp h
  have hall := find?_some h
  simp only [List.all_eq_true, mem_range, Bool.not_eq_true'] at hall
  exact hall j hj

theorem bitmapScan_some (h : bitmapScan bits n cnt = some s) :
    s + cnt ≤ n ∧ ∀ i, s ≤ i → i < s + cnt → bits i = false := by
  have hcnt : cnt ≤ n := by
    by_contra hcnt
    rw [bitmapScan, if_neg hcnt] at h
    cases h
  refine ⟨?_, fun i hi hi' => ?_⟩
  · rw [bitmapScan, if_pos hcnt] at h
    have := mem_range.mp (mem_of_find?_eq_some h)
    omega
  · have := bitmapScan_clear h (j := i - s) (by omega)
    rwa [Nat.add_sub_cancel' hi] at this

theorem bitmapScan_none (h : bitmapScan bits n cnt = none) (hs : s + cnt ≤ n) :
    ∃ i, s ≤ i ∧ i < s + cnt ∧ bits i = true := by
  have hcnt : cnt ≤ n := by omega
  rw [bitmapScan, if_pos hcnt, find?_eq_none] at h
  have hnot := h s (mem_range.mpr (by omega))
  rw [List.all_eq_true] at hnot
  push Not at hnot
  obtain ⟨j, hj, hbit⟩ := hnot
  rw [mem_range] at hj
  rw [ne_eq, Bool.not_eq_true, Bool.not_eq_false'] at hbit
  exact ⟨s + j, by omega, by omega, hbit⟩

theorem Bitmap.scanAndFlip_none {b : Bitmap} (hlt : b.bitCnt < 2 ^ 32)
    (h : bitmapScan b.bit b.bitCnt cnt = none) : b.scanAndFlip 0 cnt false = some (none, b) := by
  rw [scanAndFlip, scan_eq hlt, h]
  rfl

theorem Bitmap.scanAndFlip_some {b : Bitmap} (hlt : b.bitCnt < 2 ^ 32)
    (h : bitmapScan b.bit b.bitCnt cnt = some s) :
    ∃ b', b.scanAndFlip 0 cnt false = some (some s, b') ∧ b'.bitCnt = b.bitCnt ∧
      b'.bit = bitmapSetMultiple b.bit s cnt true := by
  obtain ⟨b', hb', hcnt, hbit⟩ := setMultiple_eq (bitmapScan_some h).1 hlt true
  refine ⟨b', ?_, hcnt, hbit⟩
  rw [scanAndFlip, scan_eq hlt, h]
  simp only [bind_some, Bool.not_false, hb', map_some]

end Scan

namespace Bitmap

/-- The `cnt` bits from `i` on exist and have the value. -/
def Group (b : Bitmap) (cnt : ℕ) (value : Bool) (i : ℕ) : Prop :=
  i + cnt ≤ b.bitCnt ∧ ∀ j < cnt, b.bit (i + j) = value

/-- What `bitmap_scan_and_flip` has to find and to leave. -/
structure FirstFit (b : Bitmap) (start cnt : ℕ) (value : Bool) (o : Option ℕ) (b' : Bitmap) :
    Prop where
  found : ∀ i, o = some i → start ≤ i ∧ b.Group cnt value i ∧ i < 2 ^ 32 - 1
  least : ∀ i, o = some i → ∀ k, start ≤ k → k < i → ¬ b.Group cnt value k
  flips : ∀ i, o = some i → b'.bitCnt = b.bitCnt ∧
    ∀ j, b'.bit j = if i ≤ j ∧ j < i + cnt then !value else b.bit j
  error_iff : o = none ↔ ∀ i, start ≤ i → ¬ b.Group cnt value i
  unchanged : o = none → b' = b

variable {b : Bitmap} {start cnt : ℕ}

theorem scan_spec (hlt : b.bitCnt < 2 ^ 32) (hstart : start ≤ b.bitCnt) (cnt : ℕ) (value : Bool) :
    ∃ o, b.scan start cnt value = some o ∧ (∀ i, o = some i → start ≤ i ∧ b.Group cnt value i ∧
      ∀ k, start ≤ k → k < i → ¬ b.Group cnt value k) ∧
      (o = none → ∀ i, start ≤ i → ¬ b.Group cnt value i) := by
  have hall : ∀ i, (range cnt).all (fun j => b.bit (i + j) = value) = true ↔
      ∀ j < cnt, b.bit (i + j) = value := by simp
  rw [scan, if_pos hstart]
  split_ifs with hcnt
  · rw [scanLoop_eq hlt]
    · refine ⟨_, rfl, fun i hi => ?_, fun hnone i hi hg => ?_⟩
      · obtain ⟨hp, hmem, hleast⟩ := find?_range'_eq_some.mp hi
        rw [mem_range'_1] at hmem
        refine ⟨hmem.1, ⟨by omega, (hall i).mp hp⟩, fun k hk hki hg => ?_⟩
        exact absurd ((hall k).mpr hg.2) (by simpa using hleast k hk hki)
      · have hno := find?_range'_eq_none.mp hnone i hi (by have := hg.1; omega)
        exact absurd ((hall i).mpr hg.2) (by simpa using hno)
    · intro i hi
      rw [mem_range'_1] at hi
      omega
  · exact ⟨none, rfl, nofun, fun _ i _ hg => hcnt (by have := hg.1; omega)⟩

/-- The first group that fits is found and flipped, whatever the size of the bitmap. -/
theorem scanAndFlip_firstFit (hlt : b.bitCnt < 2 ^ 32) (hstart : start ≤ b.bitCnt)
    (hcnt : 1 ≤ cnt) (value : Bool) :
    ∃ o b', b.scanAndFlip start cnt value = some (o, b') ∧ b.FirstFit start cnt value o b' := by
  obtain ⟨o, hscan, hsome, hnone⟩ := scan_spec hlt hstart cnt value
  rw [scanAndFlip, hscan, bind_some]
  cases o with
  | none =>
    exact ⟨none, b, rfl, nofun, nofun, nofun, iff_of_true rfl (hnone rfl), fun _ => rfl⟩
  | some s =>
    obtain ⟨hs, hg, hleast⟩ := hsome s rfl
    have hle := hg.1
    obtain ⟨b', hb', hcnt', hbit⟩ := setMultiple_eq hle hlt !value
    refine ⟨some s, b', by simp only [hb', map_some], ?_, ?_, ?_, ?_, nofun⟩
    · rintro i ⟨⟩
      exact ⟨hs, hg, by omega⟩
    · rintro i ⟨⟩
      exact hleast
    · rintro i ⟨⟩
      exact ⟨hcnt', congrFun hbit⟩
    · exact iff_of_false nofun fun h => h s hs hg

/-- The last word has seven bits in use. -/
theorem scanAndFlip_firstFit_partial :
    ∃ o b', scanAndFlip ⟨39, fun _ => 0x0f0f0f0f#32⟩ 3 4 false = some (o, b') ∧
      FirstFit ⟨39, fun _ => 0x0f0f0f0f#32⟩ 3 4 false o b' :=
  scanAndFlip_firstFit (by decide) (by decide) (by decide) false

end Bitmap

end CS162.Filesys
