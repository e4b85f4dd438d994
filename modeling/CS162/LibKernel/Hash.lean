import CS162.Lib.Trace
import CS162.LibKernel.List

/-!
# The hash table

`lib/kernel/hash.c` over elements of any type.  A bucket is the list of the elements that are
linked into it; `Laid` says how it is one in memory.  Every call that may `rehash` is told
whether the allocation succeeds.  `Sound` says how the buckets hold the elements, and
`Represents` which map they stand for.
-/

namespace CS162.LibKernel

open Option List Function

/-- The functions a table is made with. -/
structure HashFuns (α : Type) where
  hash : α → BitVec 32
  less : α → α → Bool

/-- `struct hash`, apart from the functions. -/
structure Hash (α : Type) where
  elemCnt : ℕ
  bucketCnt : ℕ
  buckets : ℕ → List α

variable {α : Type}

/-- `hash_init`, when there is memory for the buckets. -/
def hashInit : Hash α where
  elemCnt := 0
  bucketCnt := 4
  buckets := fun _ => []

def turnOffLeast1bit (x : ℕ) : ℕ :=
  x &&& (x - 1)

def isPowerOf2 (x : ℕ) : Bool :=
  x ≠ 0 ∧ turnOffLeast1bit x = 0

/-- The loop in `rehash` that turns off bits until one is left. -/
def roundLoop : ℕ → ℕ → ℕ
  | 0, cnt => cnt
  | fuel + 1, cnt => if isPowerOf2 cnt then cnt else roundLoop fuel (turnOffLeast1bit cnt)

/-- The number of buckets that `rehash` wants. -/
def newBucketCnt (elemCnt : ℕ) : ℕ :=
  let cnt := if elemCnt / 2 < 4 then 4 else elemCnt / 2
  roundLoop cnt cnt

def moveLoop (push : (ℕ → List α) → α → ℕ → List α) (old : ℕ → List α) :
    List ℕ → (ℕ → List α) → ℕ → List α
  | [], new => new
  | i :: is, new => moveLoop push old is ((old i).foldl push new)

namespace HashFuns

/-- The index that `find_bucket` computes. -/
def bucketIdx (f : HashFuns α) (bucketCnt : ℕ) (e : α) : ℕ :=
  (f.hash e).toNat &&& (bucketCnt - 1)

/-- Neither element is less than the other. -/
def same (f : HashFuns α) (a b : α) : Bool :=
  !f.less a b && !f.less b a

def findElem (f : HashFuns α) (bucket : List α) (e : α) : Option α :=
  bucket.find? fun hi => f.same hi e

/-- `list_push_front` into the bucket of the element. -/
def push (f : HashFuns α) (bucketCnt : ℕ) (buckets : ℕ → List α) (e : α) : ℕ → List α :=
  update buckets (f.bucketIdx bucketCnt e) (e :: buckets (f.bucketIdx bucketCnt e))

def rehash (f : HashFuns α) (malloc : Bool) (h : Hash α) : Hash α :=
  let cnt := newBucketCnt h.elemCnt
  if cnt = h.bucketCnt then
    h
  else if malloc then
    { h with
      bucketCnt := cnt
      buckets := moveLoop (f.push cnt) h.buckets (List.range h.bucketCnt) fun _ => [] }
  else
    h

def insertElem (f : HashFuns α) (h : Hash α) (e : α) : Hash α :=
  { h with elemCnt := h.elemCnt + 1, buckets := f.push h.bucketCnt h.buckets e }

def hashFind (f : HashFuns α) (h : Hash α) (e : α) : Option α :=
  f.findElem (h.buckets (f.bucketIdx h.bucketCnt e)) e

end HashFuns

variable [DecidableEq α]

/-- `remove_elem`: the element is taken out of the list it is linked into. -/
def Hash.removeElem (h : Hash α) (e : α) : Hash α :=
  { h with elemCnt := h.elemCnt - 1, buckets := fun i => (h.buckets i).erase e }

namespace HashFuns

def hashInsert (f : HashFuns α) (malloc : Bool) (h : Hash α) (new : α) : Option α × Hash α :=
  match f.hashFind h new with
  | none => (none, f.rehash malloc (f.insertElem h new))
  | some old => (some old, f.rehash malloc h)

def hashReplace (f : HashFuns α) (malloc : Bool) (h : Hash α) (new : α) : Option α × Hash α :=
  match f.hashFind h new with
  | none => (none, f.rehash malloc (f.insertElem h new))
  | some old => (some old, f.rehash malloc (f.insertElem (h.removeElem old) new))

def hashDelete (f : HashFuns α) (malloc : Bool) (h : Hash α) (e : α) : Option α × Hash α :=
  match f.hashFind h e with
  | none => (none, h)
  | some found => (some found, f.rehash malloc (h.removeElem found))

end HashFuns

/-- A call, and whether the allocation inside `rehash` succeeds. -/
inductive HashCall (α : Type) where
  | insert (malloc : Bool) (e : α)
  | replace (malloc : Bool) (e : α)
  | find (e : α)
  | delete (malloc : Bool) (e : α)

def HashFuns.exec (f : HashFuns α) (h : Hash α) : HashCall α → Option α × Hash α
  | .insert malloc e => f.hashInsert malloc h e
  | .replace malloc e => f.hashReplace malloc h e
  | .find e => (f.hashFind h e, h)
  | .delete malloc e => f.hashDelete malloc h e

/-- `less` is a strict weak order, and elements that it does not tell apart have the same
hash. -/
structure HashFuns.Lawful (f : HashFuns α) : Prop where
  order : IsStrictWeakOrder α fun a b => f.less a b = true
  hash_eq : ∀ a b, f.same a b = true → f.hash a = f.hash b

variable {f : HashFuns α} {h : Hash α} {a b c e x : α} {buckets : ℕ → List α} {cnt n i : ℕ}

omit [DecidableEq α] in
theorem HashFuns.same_iff : f.same a b = true ↔ ¬ f.less a b = true ∧ ¬ f.less b a = true := by
  unfold HashFuns.same
  rw [Bool.and_eq_true, Bool.not_eq_true', Bool.not_eq_true', Bool.not_eq_true, Bool.not_eq_true]

omit [DecidableEq α] in
theorem HashFuns.same_symm (h : f.same a b = true) : f.same b a = true :=
  same_iff.mpr (same_iff.mp h).symm

namespace HashFuns.Lawful

omit [DecidableEq α]

theorem same_refl (hf : f.Lawful) (a : α) : f.same a a = true :=
  have hirrefl := hf.order.irrefl a
  same_iff.mpr ⟨hirrefl, hirrefl⟩

theorem same_trans (hf : f.Lawful) (h : f.same a b = true) (h' : f.same b c = true) :
    f.same a c = true :=
  same_iff.mpr (hf.order.incomp_trans a b c (same_iff.mp h) (same_iff.mp h'))

/-- The classes of equivalent elements. -/
def setoid (hf : f.Lawful) : Setoid α where
  r a b := f.same a b = true
  iseqv := ⟨hf.same_refl, same_symm, hf.same_trans⟩

abbrev Key (hf : f.Lawful) : Type :=
  Quotient hf.setoid

def key (hf : f.Lawful) (e : α) : hf.Key :=
  Quotient.mk hf.setoid e

theorem key_eq (hf : f.Lawful) : hf.key a = hf.key b ↔ f.same a b = true :=
  Quotient.eq (r := hf.setoid)

open Classical in
noncomputable def exec (hf : f.Lawful) (m : hf.Key → Option α) :
    HashCall α → Option α × (hf.Key → Option α)
  | .insert _ e => (m (hf.key e),
      if m (hf.key e) = none then update m (hf.key e) (some e) else m)
  | .replace _ e => (m (hf.key e), update m (hf.key e) (some e))
  | .find e => (m (hf.key e), m)
  | .delete _ e => (m (hf.key e), update m (hf.key e) none)

end HashFuns.Lawful

theorem isPowerOf2_iff (hn : n ≠ 0) : isPowerOf2 n = true ↔ n.isPowerOfTwo := by
  unfold isPowerOf2 turnOffLeast1bit
  rw [decide_eq_true_iff, Nat.and_sub_one_eq_zero_iff_isPowerOfTwo hn]
  exact and_iff_right hn

theorem turnOffLeast1bit_le (n : ℕ) : turnOffLeast1bit n ≤ n - 1 :=
  Nat.and_le_right

theorem four_le_turnOffLeast1bit (hn : 4 ≤ n) (hpow : ¬ n.isPowerOfTwo) :
    4 ≤ turnOffLeast1bit n := by
  have hne : n ≠ 0 := by omega
  have hbit := Nat.ge_two_pow_of_testBit (Nat.and_sub_one_testBit_log2 hne hpow)
  have hlog : 2 ≤ n.log2 := (Nat.le_log2 hne).mpr hn
  calc 4 = 2 ^ 2 := rfl
    _ ≤ 2 ^ n.log2 := Nat.pow_le_pow_right (by decide) hlog
    _ ≤ turnOffLeast1bit n := hbit

theorem roundLoop_isPowerOfTwo (fuel : ℕ) (hfuel : n ≤ fuel) (hn : 4 ≤ n) :
    (roundLoop fuel n).isPowerOfTwo ∧ 4 ≤ roundLoop fuel n := by
  induction fuel generalizing n with
  | zero => omega
  | succ fuel ih =>
    rw [roundLoop]
    have hiff := isPowerOf2_iff (show n ≠ 0 by omega)
    split_ifs with hpow
    · exact ⟨hiff.mp hpow, hn⟩
    · have hle := turnOffLeast1bit_le n
      exact ih (by omega) (four_le_turnOffLeast1bit hn fun hp => hpow (hiff.mpr hp))

theorem newBucketCnt_isPowerOfTwo (elemCnt : ℕ) :
    (newBucketCnt elemCnt).isPowerOfTwo ∧ 4 ≤ newBucketCnt elemCnt := by
  refine roundLoop_isPowerOfTwo _ le_rfl ?_
  split_ifs <;> omega

def Hash.elems (h : Hash α) : List α :=
  (List.range h.bucketCnt).flatMap h.buckets

/-- Every element is in the bucket that its hash selects. -/
def HashFuns.Placed (f : HashFuns α) (bucketCnt : ℕ) (buckets : ℕ → List α) : Prop :=
  ∀ i, ∀ e ∈ buckets i, f.bucketIdx bucketCnt e = i

omit [DecidableEq α]

theorem HashFuns.bucketIdx_lt (f : HashFuns α) (hcnt : 0 < cnt) (e : α) :
    f.bucketIdx cnt e < cnt := by
  have hle : f.bucketIdx cnt e ≤ cnt - 1 := Nat.and_le_right
  omega

theorem flatMap_update_cons (buckets : ℕ → List α) (e : α) (hi : i < n) :
    ((range n).flatMap (update buckets i (e :: buckets i))).Perm
      (e :: (range n).flatMap buckets) := by
  induction n with
  | zero => omega
  | succ n ih =>
    rw [range_succ, flatMap_append, flatMap_append, flatMap_singleton, flatMap_singleton]
    by_cases hin : i = n
    · subst hin
      have hsame : (range i).flatMap (update buckets i (e :: buckets i)) =
          (range i).flatMap buckets := by
        refine flatMap_congr fun j hj => ?_
        rw [update_of_ne (mem_range.mp hj).ne]
      rw [hsame, update_self]
      exact perm_middle
    · rw [update_of_ne (Ne.symm hin)]
      exact (ih (by omega)).append_right _

theorem HashFuns.push_perm (f : HashFuns α) (hcnt : 0 < cnt) (buckets : ℕ → List α) (e : α) :
    ((range cnt).flatMap (f.push cnt buckets e)).Perm (e :: (range cnt).flatMap buckets) :=
  flatMap_update_cons buckets e (f.bucketIdx_lt hcnt e)

theorem HashFuns.Placed.push (hp : f.Placed cnt buckets) (e : α) :
    f.Placed cnt (f.push cnt buckets e) := by
  intro i x hx
  unfold HashFuns.push at hx
  by_cases hi : i = f.bucketIdx cnt e
  · rw [hi, update_self] at hx
    rcases mem_cons.mp hx with rfl | hx
    · exact hi.symm
    · exact (hp _ x hx).trans hi.symm
  · rw [update_of_ne hi] at hx
    exact hp i x hx

/-- The buckets are lists of elements in memory, bucket `i` that at `l i`, and no two of them
share a byte. -/
structure Laid (m : Mem) (l : ℕ → ℕ) (cnt : ℕ) (buckets : ℕ → List ℕ) : Prop where
  linked : ∀ i < cnt, Linked m (l i) (buckets i)
  apart : ∀ i < cnt, ∀ j < cnt, i ≠ j →
    ∀ x ∈ elems (l i) (buckets i), ∀ y ∈ elems (l j) (buckets j), Apart x y

/-- To push an element is `list_push_front` on the words of its bucket. -/
theorem Laid.push {m : Mem} {l : ℕ → ℕ} {buckets : ℕ → List ℕ} (h : Laid m l cnt buckets)
    (f : HashFuns ℕ) (hcnt : 0 < cnt) {e : ℕ}
    (hap : ∀ i < cnt, ∀ x ∈ elems (l i) (buckets i), Apart e x) (he : e + 8 ≤ 2 ^ 32)
    (he0 : e ≠ 0) :
    ∃ m', listPushFront (l (f.bucketIdx cnt e)) e m = some m' ∧
      Laid m' l cnt (f.push cnt buckets e) := by
  have hb := f.bucketIdx_lt hcnt e
  unfold HashFuns.push
  generalize f.bucketIdx cnt e = b at *
  obtain ⟨m', hm', hlinked, hsame⟩ := (h.linked b hb).pushFront (hap b hb) he he0
  have hfar : ∀ i < cnt, i ≠ b → ∀ x ∈ elems (l i) (buckets i),
      ∀ y ∈ elems (l b) (e :: buckets b), Apart x y := by
    intro i hi hib x hx y hy
    by_cases hye : y = e
    · exact hye ▸ (hap i hi x hx).symm
    · refine h.apart i hi b hb hib x hx y ?_
      simp only [elems, cons_append, mem_cons] at hy ⊢
      tauto
  refine ⟨m', hm', fun i hi => ?_, fun i hi j hj hij => ?_⟩
  · by_cases hib : i = b
    · rw [hib, update_self]
      exact hlinked
    · rw [update_of_ne hib]
      refine (h.linked i hi).congr (hsame.mono ?_)
      rintro a ⟨x, hx, hxa⟩ ⟨y, hy, hya⟩
      have := hfar i hi hib x hx y hy
      unfold Apart at this
      omega
  · by_cases hib : i = b
    · subst hib
      rw [update_self, update_of_ne hij.symm]
      exact fun x hx y hy => (hfar j hj hij.symm y hy x hx).symm
    · rw [update_of_ne hib]
      by_cases hjb : j = b
      · rw [hjb, update_self]
        exact hfar i hi hib
      · rw [update_of_ne hjb]
        exact h.apart i hi j hj hij

theorem HashFuns.foldl_push (f : HashFuns α) (hcnt : 0 < cnt) (l : List α)
    (hp : f.Placed cnt buckets) :
    f.Placed cnt (l.foldl (f.push cnt) buckets) ∧
      ((range cnt).flatMap (l.foldl (f.push cnt) buckets)).Perm
        (l ++ (range cnt).flatMap buckets) := by
  induction l generalizing buckets with
  | nil => exact ⟨hp, .refl _⟩
  | cons e l ih =>
    obtain ⟨hplaced, hperm⟩ := ih (hp.push e)
    refine ⟨hplaced, hperm.trans ?_⟩
    exact ((f.push_perm hcnt buckets e).append_left l).trans perm_middle

theorem HashFuns.moveLoop_push (f : HashFuns α) (hcnt : 0 < cnt) (old : ℕ → List α) (is : List ℕ)
    (hp : f.Placed cnt buckets) :
    f.Placed cnt (moveLoop (f.push cnt) old is buckets) ∧
      ((range cnt).flatMap (moveLoop (f.push cnt) old is buckets)).Perm
        (is.flatMap old ++ (range cnt).flatMap buckets) := by
  induction is generalizing buckets with
  | nil => exact ⟨hp, .refl _⟩
  | cons i is ih =>
    obtain ⟨hplaced, hperm⟩ := f.foldl_push hcnt (old i) hp
    obtain ⟨hplaced', hperm'⟩ := ih hplaced
    refine ⟨hplaced', hperm'.trans ?_⟩
    rw [flatMap_cons, append_assoc]
    exact (hperm.append_left _).trans (perm_append_comm_assoc _ _ _)

/-- How the buckets hold the elements. -/
structure HashFuns.Sound (f : HashFuns α) (h : Hash α) : Prop where
  pow : h.bucketCnt.isPowerOfTwo
  four : 4 ≤ h.bucketCnt
  placed : f.Placed h.bucketCnt h.buckets
  distinct : h.elems.Pairwise fun a b => ¬ f.same a b = true
  count : h.elemCnt = h.elems.length

namespace HashFuns.Sound

theorem pos (h' : f.Sound h) : 0 < h.bucketCnt := by
  have := h'.four
  omega

theorem mem_elems (h' : f.Sound h) : e ∈ h.elems ↔ e ∈ h.buckets (f.bucketIdx h.bucketCnt e) := by
  unfold Hash.elems
  rw [mem_flatMap]
  constructor
  · rintro ⟨i, -, he⟩
    rwa [h'.placed i e he]
  · intro he
    exact ⟨_, mem_range.mpr (f.bucketIdx_lt h'.pos e), he⟩

theorem eq_of_same (h' : f.Sound h) (ha : a ∈ h.elems) (hb : b ∈ h.elems)
    (hsame : f.same a b = true) : a = b := by
  by_contra hne
  have : Std.Symm fun a b => ¬ f.same a b = true := ⟨fun _ _ hab hba => hab (same_symm hba)⟩
  exact h'.distinct.forall ha hb hne hsame

theorem hashFind_eq_some (hf : f.Lawful) (h' : f.Sound h) :
    f.hashFind h e = some x ↔ x ∈ h.elems ∧ f.same x e = true := by
  unfold HashFuns.hashFind HashFuns.findElem
  constructor
  · intro hfind
    have hsame := find?_some hfind
    have hmem := mem_of_find?_eq_some hfind
    have hidx := h'.placed _ x hmem
    rw [h'.mem_elems, hidx]
    exact ⟨hmem, hsame⟩
  · rintro ⟨hmem, hsame⟩
    have hidx : f.bucketIdx h.bucketCnt x = f.bucketIdx h.bucketCnt e := by
      unfold HashFuns.bucketIdx
      rw [hf.hash_eq x e hsame]
    have hbucket := h'.mem_elems.mp hmem
    rw [hidx] at hbucket
    obtain ⟨y, hfind⟩ := isSome_iff_exists.mp
      (find?_isSome (p := fun hi => f.same hi e).mpr ⟨x, hbucket, hsame⟩)
    have hy := mem_of_find?_eq_some hfind
    have hysame := find?_some hfind
    have hyidx := h'.placed _ y hy
    rw [← hyidx] at hy
    rw [hfind, h'.eq_of_same (h'.mem_elems.mpr hy) hmem (hf.same_trans hysame (same_symm hsame))]

theorem rehash (h' : f.Sound h) (malloc : Bool) :
    f.Sound (f.rehash malloc h) ∧ (f.rehash malloc h).elems.Perm h.elems := by
  unfold HashFuns.rehash
  dsimp only
  split_ifs with hcnt hmalloc
  · exact ⟨h', .refl _⟩
  · obtain ⟨hpow, hfour⟩ := newBucketCnt_isPowerOfTwo h.elemCnt
    have hpos : 0 < newBucketCnt h.elemCnt := by omega
    have hempty : f.Placed (newBucketCnt h.elemCnt) fun _ => [] :=
      fun _ _ he => absurd he not_mem_nil
    obtain ⟨hplaced, hperm⟩ := f.moveLoop_push hpos h.buckets (range h.bucketCnt) hempty
    have hnil : (range (newBucketCnt h.elemCnt)).flatMap (fun _ => ([] : List α)) = [] :=
      flatMap_eq_nil_iff.mpr fun _ _ => rfl
    rw [hnil, append_nil] at hperm
    refine ⟨⟨hpow, hfour, hplaced, ?_, ?_⟩, hperm⟩
    · exact (hperm.pairwise_iff fun hab hba => hab (same_symm hba)).mpr h'.distinct
    · exact h'.count.trans hperm.length_eq.symm
  · exact ⟨h', .refl _⟩

theorem insertElem (h' : f.Sound h) (hnew : ∀ x ∈ h.elems, ¬ f.same x e = true) :
    f.Sound (f.insertElem h e) ∧ (f.insertElem h e).elems.Perm (e :: h.elems) := by
  have hperm : (f.insertElem h e).elems.Perm (e :: h.elems) := f.push_perm h'.pos h.buckets e
  refine ⟨⟨h'.pow, h'.four, h'.placed.push e, ?_, ?_⟩, hperm⟩
  · rw [hperm.pairwise_iff fun hab hba => hab (same_symm hba), pairwise_cons]
    exact ⟨fun x hx hsame => hnew x hx (same_symm hsame), h'.distinct⟩
  · rw [hperm.length_eq, length_cons, ← h'.count]
    rfl

theorem nodup (hf : f.Lawful) (h' : f.Sound h) : h.elems.Nodup := by
  refine h'.distinct.imp fun {a b} hsame hab => hsame ?_
  rw [← hab]
  exact hf.same_refl a

theorem removeElem [DecidableEq α] (hf : f.Lawful) (h' : f.Sound h) (hx : x ∈ h.elems) :
    f.Sound (h.removeElem x) ∧ (h.removeElem x).elems = h.elems.erase x := by
  have hnodup := h'.nodup hf
  have hbuckets : ∀ i ∈ range h.bucketCnt,
      (h.buckets i).erase x = (h.buckets i).filter (· != x) := fun i hi =>
    ((nodup_flatMap.mp hnodup).1 i hi).erase_eq_filter x
  have helems : (h.removeElem x).elems = h.elems.erase x := by
    rw [hnodup.erase_eq_filter, Hash.elems, Hash.elems, filter_flatMap]
    exact flatMap_congr hbuckets
  refine ⟨⟨h'.pow, h'.four, fun i e he => h'.placed i e (mem_of_mem_erase he), ?_, ?_⟩, helems⟩
  · rw [helems]
    exact h'.distinct.sublist erase_sublist
  · rw [helems, length_erase_of_mem hx, ← h'.count]
    rfl

end HashFuns.Sound

/-- The map a table stands for. -/
def HashFuns.Represents (hf : f.Lawful) (h : Hash α) (m : hf.Key → Option α) : Prop :=
  ∀ e x, m (hf.key e) = some x ↔ x ∈ h.elems ∧ f.same x e = true

namespace HashFuns.Represents

variable {hf : f.Lawful} {m : hf.Key → Option α}

theorem hashFind (hm : Represents hf h m) (h' : f.Sound h) (e : α) :
    f.hashFind h e = m (hf.key e) := by
  refine ext fun x => ?_
  rw [h'.hashFind_eq_some hf, hm e x]

theorem of_perm {h1 : Hash α} (hm : Represents hf h m) (hperm : h1.elems.Perm h.elems) :
    Represents hf h1 m := by
  intro e x
  rw [hm e x, hperm.mem_iff]

theorem rehash (hm : Represents hf h m) (h' : f.Sound h) (malloc : Bool) :
    f.Sound (f.rehash malloc h) ∧ Represents hf (f.rehash malloc h) m :=
  have hrehash := h'.rehash malloc
  ⟨hrehash.1, hm.of_perm hrehash.2⟩

open Classical in
theorem insertElem (hm : Represents hf h m) (h' : f.Sound h) (hnone : m (hf.key e) = none) :
    f.Sound (f.insertElem h e) ∧
      Represents hf (f.insertElem h e) (update m (hf.key e) (some e)) := by
  have hnew : ∀ x ∈ h.elems, ¬ f.same x e = true := fun x hx hsame => by
    rw [(hm e x).mpr ⟨hx, hsame⟩] at hnone
    exact some_ne_none x hnone
  obtain ⟨hsound, hperm⟩ := h'.insertElem hnew
  refine ⟨hsound, fun e' x => ?_⟩
  rw [hperm.mem_iff, mem_cons, or_and_right, ← hm e' x]
  by_cases hkey : hf.key e' = hf.key e
  · rw [hkey, update_self, hnone, some_inj]
    constructor
    · rintro rfl
      exact .inl ⟨rfl, same_symm (hf.key_eq.mp hkey)⟩
    · rintro (⟨hx, -⟩ | hx)
      · exact hx.symm
      · exact absurd hx.symm (some_ne_none x)
  · rw [update_of_ne hkey, iff_or_self]
    rintro ⟨rfl, hsame⟩
    exact absurd (hf.key_eq.mpr (same_symm hsame)) hkey

open Classical in
theorem removeElem [DecidableEq α] (hm : Represents hf h m) (h' : f.Sound h)
    (hsome : m (hf.key e) = some x) :
    f.Sound (h.removeElem x) ∧ Represents hf (h.removeElem x) (update m (hf.key e) none) := by
  obtain ⟨hx, hsame⟩ := (hm e x).mp hsome
  obtain ⟨hsound, helems⟩ := h'.removeElem hf hx
  refine ⟨hsound, fun e' y => ?_⟩
  rw [helems, (h'.nodup hf).mem_erase_iff, and_assoc, ← hm e' y]
  by_cases hkey : hf.key e' = hf.key e
  · rw [hkey, update_self, hsome, some_inj]
    constructor
    · intro hy
      exact absurd hy.symm (some_ne_none y)
    · rintro ⟨hne, hxy⟩
      exact absurd hxy.symm hne
  · rw [update_of_ne hkey, iff_and_self]
    rintro hy rfl
    have hkey' := (hm e' y).mp hy
    exact hkey (hf.key_eq.mpr (hf.same_trans (same_symm hkey'.2) hsame))

open Classical in
theorem exec [DecidableEq α] (h' : f.Sound h) (hm : Represents hf h m) (call : HashCall α) :
    (f.exec h call).1 = (hf.exec m call).1 ∧
      f.Sound (f.exec h call).2 ∧ Represents hf (f.exec h call).2 (hf.exec m call).2 := by
  cases call with
  | insert malloc e =>
    rw [HashFuns.exec, Lawful.exec, HashFuns.hashInsert, hm.hashFind h' e]
    cases hfind : m (hf.key e) with
    | none =>
      obtain ⟨hsound, hmap⟩ := hm.insertElem h' hfind
      rw [if_pos rfl]
      exact ⟨rfl, hmap.rehash hsound malloc⟩
    | some old =>
      rw [if_neg (some_ne_none old)]
      exact ⟨rfl, hm.rehash h' malloc⟩
  | replace malloc e =>
    rw [HashFuns.exec, Lawful.exec, HashFuns.hashReplace, hm.hashFind h' e]
    cases hfind : m (hf.key e) with
    | none =>
      obtain ⟨hsound, hmap⟩ := hm.insertElem h' hfind
      exact ⟨rfl, hmap.rehash hsound malloc⟩
    | some old =>
      obtain ⟨hsound, hmap⟩ := hm.removeElem h' hfind
      obtain ⟨hsound, hmap⟩ := hmap.insertElem hsound (e := e) (update_self _ _ _)
      rw [update_idem] at hmap
      exact ⟨rfl, hmap.rehash hsound malloc⟩
  | find e => exact ⟨hm.hashFind h' e, h', hm⟩
  | delete malloc e =>
    rw [HashFuns.exec, Lawful.exec, HashFuns.hashDelete, hm.hashFind h' e]
    cases hfind : m (hf.key e) with
    | none =>
      refine ⟨rfl, h', ?_⟩
      have hsame := update_eq_self (hf.key e) m
      rw [hfind] at hsame
      exact hsame.symm ▸ hm
    | some found =>
      obtain ⟨hsound, hmap⟩ := hm.removeElem h' hfind
      exact ⟨rfl, hmap.rehash hsound malloc⟩

theorem card (h' : f.Sound h) (hm : Represents hf h m) :
    {k | m k ≠ none}.Finite ∧ {k | m k ≠ none}.ncard = h.elemCnt := by
  classical
  have hkeys : {k | m k ≠ none} = hf.key '' {x | x ∈ h.elems} := by
    ext k
    induction k using Quotient.inductionOn with
    | h e =>
      change m (hf.key e) ≠ none ↔ ∃ x, x ∈ h.elems ∧ hf.key x = hf.key e
      rw [ne_none_iff_exists']
      refine exists_congr fun x => ?_
      rw [hm e x, hf.key_eq]
  have hinj : Set.InjOn hf.key {x | x ∈ h.elems} := fun a ha b hb hab =>
    h'.eq_of_same ha hb (hf.key_eq.mp hab)
  have hfinset : {x | x ∈ h.elems} = (h.elems.toFinset : Set α) := by
    ext x
    rw [coe_toFinset]
  rw [hkeys]
  refine ⟨(hfinset ▸ h.elems.toFinset.finite_toSet).image _, ?_⟩
  rw [hinj.ncard_image, hfinset, Set.ncard_coe_finset,
    toFinset_card_of_nodup (h'.nodup hf), h'.count]

end HashFuns.Represents

theorem sound_hashInit (f : HashFuns α) : f.Sound hashInit :=
  ⟨⟨2, rfl⟩, le_rfl, fun _ _ he => absurd he not_mem_nil, List.Pairwise.nil, rfl⟩

theorem represents_hashInit (hf : f.Lawful) : HashFuns.Represents hf hashInit fun _ => none := by
  intro e x
  constructor
  · intro hx
    exact absurd hx.symm (some_ne_none x)
  · rintro ⟨hx, -⟩
    exact absurd hx not_mem_nil

/-- The calls on a table return what they return on a map with a key for each class of
equivalent elements, whichever allocations fail. -/
theorem hash_refines_map [DecidableEq α] (f : HashFuns α) (hf : f.Lawful)
    (calls : List (HashCall α)) :
    let table := Trace.trace f.exec hashInit calls
    let map := Trace.trace hf.exec (fun _ => none) calls
    table.1 = map.1 ∧ (∀ e, f.hashFind table.2 e = map.2 (hf.key e)) ∧
      {k | map.2 k ≠ none}.Finite ∧ {k | map.2 k ≠ none}.ncard = table.2.elemCnt ∧
      (∀ i, ∀ e ∈ table.2.buckets i, i < table.2.bucketCnt ∧
        f.bucketIdx table.2.bucketCnt e = i) ∧
      table.2.bucketCnt.isPowerOfTwo ∧ 4 ≤ table.2.bucketCnt := by
  obtain ⟨hanswers, hsound, hmap⟩ := Trace.trace_simulation
    (R := fun h m => f.Sound h ∧ HashFuns.Represents hf h m)
    (fun h m call hr => hr.2.exec hr.1 call) ⟨sound_hashInit f, represents_hashInit hf⟩ calls
  obtain ⟨hfinite, hcard⟩ := hmap.card hsound
  refine ⟨hanswers, hmap.hashFind hsound, hfinite, hcard, fun i e he => ?_, hsound.pow, hsound.four⟩
  have hidx := hsound.placed i e he
  exact ⟨hidx ▸ f.bucketIdx_lt hsound.pos e, hidx⟩

/-- Numbers that agree up to the last digit are equivalent. -/
def tens : HashFuns ℕ where
  hash n := BitVec.ofNat 32 (n / 10)
  less a b := a / 10 < b / 10

theorem tens_lawful : tens.Lawful where
  order := {
    irrefl := fun a => by simp [tens]
    trans := fun a b c => by simp only [tens, decide_eq_true_eq]; omega
    incomp_trans := fun a b c => by simp only [tens, decide_eq_true_eq]; omega }
  hash_eq a b h := by
    have h := HashFuns.same_iff.mp h
    simp only [tens, decide_eq_true_eq] at h ⊢
    rw [show a / 10 = b / 10 by omega]

/-- Eighteen elements make the table grow, at the second attempt. -/
theorem hash_refines_map_tens :
    let calls := (List.range 18).map (fun n => HashCall.insert (n != 15) (10 * n)) ++
      [.insert true 13, .replace true 27, .find 25, .delete true 35, .find 30]
    let table := Trace.trace tens.exec hashInit calls
    let map := Trace.trace tens_lawful.exec (fun _ => none) calls
    table.1 = map.1 ∧ table.1.drop 18 = [some 10, some 20, some 27, some 30, none] ∧
      table.2.bucketCnt = 8 ∧ {k | map.2 k ≠ none}.ncard = 17 := by
  intro calls table map
  obtain ⟨hanswers, -, -, hcard, -⟩ := hash_refines_map tens tens_lawful calls
  exact ⟨hanswers, by decide +kernel, by decide +kernel, hcard.trans (by decide +kernel)⟩

end CS162.LibKernel
