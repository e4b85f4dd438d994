import Mathlib

/-!
# Words and their counts

A word is a string without a zero byte, and `strcmp` gives the lexicographic order of the
bytes.  `Counts ws es` says that the records `es` are those of the words `ws` with their
numbers of occurrences, as far as an `int` holds them, and `Tally ws out` that the pairs
`out` are what a user expects to see.
-/

namespace CS162.WordCount

open List Function

/-- A string of C. -/
structure Word where
  bytes : List UInt8
  nulFree : 0 ∉ bytes
deriving DecidableEq

namespace Word

theorem zero_not_mem_nil : (0 : UInt8) ∉ ([] : List UInt8) :=
  not_mem_nil

def codes (w : Word) : List ℕ :=
  w.bytes.map UInt8.toNat

theorem codes_injective : Function.Injective codes := by
  intro w v h
  have hbytes : w.bytes = v.bytes := map_injective_iff.mpr (fun a b => UInt8.toNat_inj.mp) h
  cases w
  cases v
  simpa using hbytes

/-- Words in the order of a dictionary. -/
instance : LinearOrder Word :=
  LinearOrder.lift' codes codes_injective

end Word

def strcmpLoop : List UInt8 → List UInt8 → ℤ
  | [], [] => 0
  | [], b :: _ => -b.toNat
  | a :: _, [] => a.toNat
  | a :: s, b :: t => if a = b then strcmpLoop s t else a.toNat - b.toNat

def strcmp (w v : Word) : ℤ :=
  strcmpLoop w.bytes v.bytes

theorem toNat_pos_of_not_mem {b : UInt8} {t : List UInt8} (h : 0 ∉ b :: t) : 0 < b.toNat := by
  have hne : b ≠ 0 := fun e => h (e ▸ mem_cons_self)
  have hne' : b.toNat ≠ (0 : UInt8).toNat := fun e => hne (UInt8.toNat_inj.mp e)
  exact Nat.pos_of_ne_zero hne'

theorem strcmpLoop_neg_iff {s t : List UInt8} (ht : 0 ∉ t) :
    strcmpLoop s t < 0 ↔ s.map UInt8.toNat < t.map UInt8.toNat := by
  induction s generalizing t with
  | nil =>
    cases t with
    | nil => simp [strcmpLoop]
    | cons b t =>
      have := toNat_pos_of_not_mem ht
      simp only [strcmpLoop, map_nil, map_cons, nil_lt_cons, iff_true]
      omega
  | cons a s ih =>
    cases t with
    | nil => simp [strcmpLoop]
    | cons b t =>
      rw [strcmpLoop, map_cons, map_cons, cons_lt_cons_iff]
      by_cases hab : a = b
      · subst hab
        rw [if_pos rfl, ih (fun h => ht (mem_cons_of_mem a h))]
        simp
      · have hne : a.toNat ≠ b.toNat := fun e => hab (UInt8.toNat_inj.mp e)
        rw [if_neg hab]
        omega

theorem strcmpLoop_eq_zero_iff {s t : List UInt8} (hs : 0 ∉ s) (ht : 0 ∉ t) :
    strcmpLoop s t = 0 ↔ s = t := by
  induction s generalizing t with
  | nil =>
    cases t with
    | nil => simp [strcmpLoop]
    | cons b t =>
      have := toNat_pos_of_not_mem ht
      simp only [strcmpLoop, nil_eq, reduceCtorEq, iff_false]
      omega
  | cons a s ih =>
    cases t with
    | nil =>
      have := toNat_pos_of_not_mem hs
      simp only [strcmpLoop, reduceCtorEq, iff_false]
      omega
    | cons b t =>
      rw [strcmpLoop, cons_eq_cons]
      by_cases hab : a = b
      · rw [if_pos hab, ih (fun h => hs (mem_cons_of_mem a h)) (fun h => ht (mem_cons_of_mem b h))]
        simp [hab]
      · have hne : a.toNat ≠ b.toNat := fun e => hab (UInt8.toNat_inj.mp e)
        rw [if_neg hab]
        simp only [hab, false_and, iff_false]
        omega

theorem strcmp_neg_iff {w v : Word} : strcmp w v < 0 ↔ w < v :=
  strcmpLoop_neg_iff v.nulFree

theorem strcmp_eq_zero_iff {w v : Word} : strcmp w v = 0 ↔ w = v := by
  rw [strcmp, strcmpLoop_eq_zero_iff w.nulFree v.nulFree]
  cases w
  cases v
  simp

/-- A `word_count_t` without its links. -/
structure WordCountT where
  word : Word
  count : BitVec 32
deriving DecidableEq

namespace WordCountT

/-- The count and then the word. -/
def key (a : WordCountT) : ℤ ×ₗ Word :=
  toLex (a.count.toInt, a.word)

theorem key_injective : Function.Injective key := by
  intro a b h
  obtain ⟨hcount, hword⟩ := Prod.mk.inj (toLex_inj.mp h)
  cases a
  cases b
  simp only [mk.injEq]
  exact ⟨hword, BitVec.toInt_inj.mp hcount⟩

instance : LinearOrder WordCountT :=
  LinearOrder.lift' key key_injective

theorem lt_iff {a b : WordCountT} :
    a < b ↔ a.count.toInt < b.count.toInt ∨ a.count.toInt = b.count.toInt ∧ a.word < b.word :=
  Prod.Lex.toLex_lt_toLex

/-- What `fprint_words` shows of a record. -/
def pair (a : WordCountT) : Word × ℤ :=
  (a.word, a.count.toInt)

end WordCountT

def lessCount (wc1 wc2 : WordCountT) : Bool :=
  wc1.count.slt wc2.count || (wc1.count == wc2.count && decide (strcmp wc1.word wc2.word < 0))

def lessList (wc1 wc2 : WordCountT) : Bool :=
  if wc1.count = wc2.count then decide (strcmp wc1.word wc2.word < 0)
  else wc1.count.slt wc2.count

theorem lessCount_iff {a b : WordCountT} : lessCount a b ↔ a < b := by
  rw [WordCountT.lt_iff, BitVec.toInt_inj]
  simp [lessCount, BitVec.slt_iff_toInt_lt, strcmp_neg_iff]

theorem lessList_iff {a b : WordCountT} : lessList a b ↔ a < b := by
  rw [WordCountT.lt_iff, BitVec.toInt_inj, lessList]
  split
  · next h => simp [h, strcmp_neg_iff]
  · next h => simp [h, BitVec.slt_iff_toInt_lt]

/-- The records hold every word of `ws` once, with the number of its occurrences
as far as an `int` holds it. -/
structure Counts (ws : List Word) (es : List WordCountT) : Prop where
  nodup : (es.map WordCountT.word).Nodup
  mem : ∀ w c, ⟨w, c⟩ ∈ es ↔ w ∈ ws ∧ c = BitVec.ofNat 32 (ws.count w)

/-- Every word once, with the number of its occurrences. -/
structure Exact (ws : List Word) (out : List (Word × ℤ)) : Prop where
  nodup : (out.map Prod.fst).Nodup
  mem : ∀ w n, (w, n) ∈ out ↔ w ∈ ws ∧ n = ws.count w

/-- Every word once, with the number of its occurrences, in ascending order of
the number and then of the word. -/
structure Tally (ws : List Word) (out : List (Word × ℤ)) : Prop extends Exact ws out where
  sorted : out.Pairwise fun x y => x.2 < y.2 ∨ x.2 = y.2 ∧ x.1 < y.1

namespace Counts

variable {ws ws' : List Word} {es es' A B : List WordCountT} {e : WordCountT} {w : Word}

theorem nil : Counts [] [] :=
  ⟨nodup_nil, by simp⟩

theorem perm (h : Counts ws es) (hp : es.Perm es') : Counts ws es' :=
  ⟨(hp.map _).nodup_iff.mp h.nodup, fun w c => hp.mem_iff.symm.trans (h.mem w c)⟩

theorem of_perm (h : Counts ws es) (hp : ws.Perm ws') : Counts ws' es :=
  ⟨h.nodup, fun w c => by rw [h.mem, hp.mem_iff, hp.count_eq]⟩

theorem word_mem (h : Counts ws es) : w ∈ es.map WordCountT.word ↔ w ∈ ws := by
  rw [mem_map]
  constructor
  · rintro ⟨⟨v, c⟩, he, rfl⟩
    exact ((h.mem v c).mp he).1
  · exact fun hw => ⟨⟨w, _⟩, (h.mem w _).mpr ⟨hw, rfl⟩, rfl⟩

theorem bump (h : Counts ws (e :: es)) :
    Counts (ws ++ [e.word]) ({ e with count := e.count + 1 } :: es) := by
  refine ⟨h.nodup, fun w c => ?_⟩
  have hnew : ∀ a ∈ es, a.word ≠ e.word := fun a ha hae =>
    (nodup_cons.mp h.nodup).1 (mem_map.mpr ⟨a, ha, hae⟩)
  obtain ⟨he, hcount⟩ := (h.mem e.word e.count).mp mem_cons_self
  by_cases hw : w = e.word
  · subst hw
    have hnot : ⟨e.word, c⟩ ∉ es := fun hmem => hnew _ hmem rfl
    simp [hnot, hcount, he, count_append, BitVec.ofNat_add]
  · have hmem := h.mem w c
    have hne : ∀ d, (⟨w, c⟩ : WordCountT) ≠ ⟨e.word, d⟩ := fun d hd =>
      hw (congrArg WordCountT.word hd)
    rw [mem_cons, or_iff_right (hne e.count)] at hmem
    rw [mem_cons, or_iff_right (hne _), hmem]
    simp [hw, count_append, Ne.symm hw]

theorem insert (h : Counts ws es) (hw : w ∉ es.map WordCountT.word) :
    Counts (ws ++ [w]) (⟨w, 1⟩ :: es) := by
  refine ⟨nodup_cons.mpr ⟨hw, h.nodup⟩, fun v c => ?_⟩
  have hws : w ∉ ws := fun hmem => hw (h.word_mem.mpr hmem)
  by_cases hv : v = w
  · subst hv
    have hnot : ⟨v, c⟩ ∉ es := fun hmem => hw (mem_map.mpr ⟨_, hmem, rfl⟩)
    simp [hnot, count_append, count_eq_zero_of_not_mem hws]
  · have hne : (⟨v, c⟩ : WordCountT) ≠ ⟨w, 1⟩ := fun hd => hv (congrArg WordCountT.word hd)
    rw [mem_cons, or_iff_right hne, h.mem]
    simp [hv, count_append, Ne.symm hv]

theorem perm_of_counts (h : Counts ws es) (h' : Counts ws es') : es.Perm es' :=
  (perm_ext_iff_of_nodup h.nodup.of_map h'.nodup.of_map).mpr fun ⟨w, c⟩ => by
    rw [h.mem, h'.mem]

theorem eq_of_sorted (h : Counts ws es) (h' : Counts ws es') (hs : es.Pairwise (· ≤ ·))
    (hs' : es'.Pairwise (· ≤ ·)) : es = es' :=
  (h.perm_of_counts h').eq_of_pairwise (fun _ _ _ _ => le_antisymm) hs hs'

theorem toInt_ofNat_eq_iff (n : ℕ) : (BitVec.ofNat 32 n).toInt = n ↔ n < 2 ^ 31 := by
  constructor
  · intro h
    have := BitVec.toInt_lt (x := BitVec.ofNat 32 n)
    omega
  · intro h
    rw [BitVec.toInt_eq_toNat_of_lt, BitVec.toNat_ofNat, Nat.mod_eq_of_lt (by omega)]
    rw [BitVec.toNat_ofNat]
    omega

theorem map_fst_pair (es : List WordCountT) :
    (es.map WordCountT.pair).map Prod.fst = es.map WordCountT.word := by
  rw [map_map]
  rfl

theorem exact_iff (h : Counts ws es) :
    Exact ws (es.map WordCountT.pair) ↔ ∀ w, ws.count w < 2 ^ 31 := by
  constructor
  · intro hx w
    by_cases hw : w ∈ ws
    · obtain ⟨⟨v, c⟩, he, hpair⟩ := mem_map.mp ((hx.mem w _).mpr ⟨hw, rfl⟩)
      obtain ⟨rfl, hc⟩ := Prod.mk.inj hpair
      rw [((h.mem _ _).mp he).2] at hc
      exact (toInt_ofNat_eq_iff _).mp hc
    · rw [count_eq_zero_of_not_mem hw]
      exact Nat.two_pow_pos 31
  · intro hlt
    refine ⟨by rw [map_fst_pair]; exact h.nodup, fun w n => ?_⟩
    rw [mem_map]
    constructor
    · rintro ⟨⟨v, c⟩, he, hpair⟩
      obtain ⟨rfl, rfl⟩ := Prod.mk.inj hpair
      obtain ⟨hw, rfl⟩ := (h.mem _ _).mp he
      exact ⟨hw, (toInt_ofNat_eq_iff _).mpr (hlt _)⟩
    · rintro ⟨hw, rfl⟩
      refine ⟨⟨w, _⟩, (h.mem w _).mpr ⟨hw, rfl⟩, ?_⟩
      rw [WordCountT.pair, (toInt_ofNat_eq_iff _).mpr (hlt w)]

theorem tally_iff (h : Counts ws es) (hs : es.Pairwise (· ≤ ·)) :
    Tally ws (es.map WordCountT.pair) ↔ ∀ w, ws.count w < 2 ^ 31 := by
  rw [← h.exact_iff]
  refine ⟨Tally.toExact, fun hx => ⟨hx, pairwise_map.mpr ?_⟩⟩
  refine (hs.and (nodup_iff_pairwise_ne.mp h.nodup.of_map)).imp fun ⟨hle, hne⟩ => ?_
  exact WordCountT.lt_iff.mp (lt_of_le_of_ne hle hne)

section Nodes

variable {data : ℕ → WordCountT} {nodes : List ℕ} {x : ℕ}

theorem map_update_of_not_mem (hx : x ∉ nodes) (e : WordCountT) :
    nodes.map (update data x e) = nodes.map data := by
  refine map_congr_left fun y hy => update_of_ne ?_ e data
  rintro rfl
  exact hx hy

theorem bump_node (h : Counts ws (nodes.map data)) (hnd : nodes.Nodup) (hx : x ∈ nodes) :
    Counts (ws ++ [(data x).word])
      (nodes.map (update data x { data x with count := (data x).count + 1 })) := by
  have hperm := perm_cons_erase hx
  have hnot : x ∉ nodes.erase x := hnd.not_mem_erase
  have hnew := (h.perm (hperm.map data)).bump
  refine hnew.perm (List.Perm.trans ?_ (hperm.map _).symm)
  rw [map_cons, update_self, map_update_of_not_mem hnot]

theorem insert_node (h : Counts ws (nodes.map data)) (hx : x ∉ nodes)
    (hw : ∀ y ∈ nodes, (data y).word ≠ w) :
    Counts (ws ++ [w]) ((x :: nodes).map (update data x ⟨w, 1⟩)) := by
  have hnew : w ∉ (nodes.map data).map WordCountT.word := by
    rw [map_map, mem_map]
    rintro ⟨y, hy, hyw⟩
    exact hw y hy hyw
  rw [map_cons, update_self, map_update_of_not_mem hx]
  exact h.insert hnew

end Nodes

end Counts

theorem length_lt_of_nodup {nodes : List ℕ} {n : ℕ} (hn : 0 < n) (hnd : nodes.Nodup)
    (h : ∀ x ∈ nodes, x ≠ 0 ∧ x < n) : nodes.length < n := by
  have hcons : (0 :: nodes).Nodup := nodup_cons.mpr ⟨fun h0 => (h 0 h0).1 rfl, hnd⟩
  have hsub : 0 :: nodes ⊆ range n := by
    intro x hx
    rcases mem_cons.mp hx with rfl | hx
    · exact mem_range.mpr hn
    · exact mem_range.mpr (h x hx).2
  have := (hcons.subperm hsub).length_le
  rwa [length_cons, length_range] at this

end CS162.WordCount
