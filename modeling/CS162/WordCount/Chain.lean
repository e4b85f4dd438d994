import CS162.WordCount.Words

/-!
# The word counter with its own list

The functions of `word_count.c`.  A `Chain` is the memory the list lives in; zero is the null
pointer, and `malloc` does not fail.  A loop takes a bound on the number of its rounds, and
has no result when it is too small; a list has fewer records than were allocated, so the bound
that the functions use is not.
-/

namespace CS162.WordCount

open Option List Function

/-- The list of `word_count.c` in memory. -/
structure Chain where
  data : ℕ → WordCountT
  next : ℕ → ℕ
  brk : ℕ
  head : ℕ

namespace Chain

def start : Chain where
  data := fun _ => ⟨⟨[], List.not_mem_nil⟩, 0⟩
  next := fun _ => 0
  brk := 1
  head := 0

def initWords (σ : Chain) : Chain :=
  { σ with head := 0 }

def findWordLoop (σ : Chain) (word : Word) : ℕ → ℕ → Option ℕ
  | 0, _ => none
  | n + 1, wc =>
    if wc ≠ 0 ∧ strcmp word (σ.data wc).word ≠ 0 then findWordLoop σ word n (σ.next wc)
    else some wc

def findWord (σ : Chain) (word : Word) : Option ℕ :=
  findWordLoop σ word σ.brk σ.head

def addWord (σ : Chain) (word : Word) : Option (Chain × ℕ) :=
  (σ.findWord word).map fun wc =>
    if wc ≠ 0 then
      let e := σ.data wc
      ({ σ with data := update σ.data wc { e with count := e.count + 1 } }, wc)
    else
      ({ data := update σ.data σ.brk ⟨word, 1⟩
         next := update σ.next σ.brk σ.head
         brk := σ.brk + 1
         head := σ.brk }, σ.brk)

def fprintWordsLoop (σ : Chain) : ℕ → ℕ → Option (List (Word × ℤ))
  | 0, _ => none
  | n + 1, wc =>
    if wc ≠ 0 then (fprintWordsLoop σ n (σ.next wc)).map ((σ.data wc).pair :: ·)
    else some []

def fprintWords (σ : Chain) : Option (List (Word × ℤ)) :=
  fprintWordsLoop σ σ.brk σ.head

section Sorting

variable (less : ℕ → ℕ → Bool)

def insertLoop (next : ℕ → ℕ) (elem : ℕ) : ℕ → ℕ → ℕ → Option (ℕ × ℕ)
  | 0, _, _ => none
  | n + 1, prev, cur =>
    if cur ≠ 0 ∧ less cur elem then insertLoop next elem n cur (next cur)
    else some (prev, cur)

/-- `wordcount_insert_ordered`: the members `next` and the first record after
it. -/
def wordcountInsertOrdered (n : ℕ) (next : ℕ → ℕ) (wclist elem : ℕ) : Option ((ℕ → ℕ) × ℕ) :=
  let prev := wclist
  if prev = 0 ∨ less elem prev then some (update next elem prev, elem)
  else
    (insertLoop less next elem n prev (next prev)).map fun (prev, cur) =>
      (update (update next prev elem) elem cur, wclist)

def sortLoop (m : ℕ) : ℕ → (ℕ → ℕ) → ℕ → ℕ → Option ((ℕ → ℕ) × ℕ)
  | 0, _, _, _ => none
  | n + 1, next, head, sorted =>
    if head ≠ 0 then
      let toInsert := head
      let head := next head
      let next := update next toInsert 0
      (wordcountInsertOrdered less m next sorted toInsert).bind fun (next, sorted) =>
        sortLoop m n next head sorted
    else some (next, sorted)

end Sorting

def wordcountSort (σ : Chain) (less : WordCountT → WordCountT → Bool) : Option Chain :=
  (sortLoop (fun x y => less (σ.data x) (σ.data y)) σ.brk σ.brk σ.next σ.head 0).map
    fun (next, sorted) => { σ with next := next, head := sorted }

def addWords (σ : Chain) (ws : List Word) : Option Chain :=
  ws.foldlM (fun σ word => (σ.addWord word).map Prod.fst) σ

/-- The pairs that are shown when the words were added to an empty list and the
list was sorted. -/
def words (ws : List Word) : Option (List (Word × ℤ)) :=
  (start.initWords.addWords ws).bind fun σ =>
    (σ.wordcountSort lessCount).bind fprintWords

/-- From `p` on the members `next` lead through the records `nodes`. -/
def Chained (next : ℕ → ℕ) : ℕ → List ℕ → Prop
  | p, [] => p = 0
  | p, x :: l => p = x ∧ x ≠ 0 ∧ Chained next (next x) l

/-- The list has the records `nodes`. -/
structure Holds (σ : Chain) (nodes : List ℕ) : Prop where
  chained : Chained σ.next σ.head nodes
  nodup : nodes.Nodup
  lt_brk : ∀ x ∈ nodes, x < σ.brk
  brk_pos : 0 < σ.brk

variable {next next' : ℕ → ℕ} {p : ℕ} {l nodes : List ℕ} {σ : Chain} {ws : List Word} {w : Word}

theorem Chained.congr (h : Chained next p l) (hn : ∀ x ∈ l, next' x = next x) :
    Chained next' p l := by
  induction l generalizing p with
  | nil => exact h
  | cons x l ih =>
    obtain ⟨hp, hx, hl⟩ := h
    refine ⟨hp, hx, ?_⟩
    rw [hn x mem_cons_self]
    exact ih hl fun y hy => hn y (mem_cons_of_mem x hy)

theorem Chained.update (h : Chained next p l) {x : ℕ} (hx : x ∉ l) (v : ℕ) :
    Chained (update next x v) p l := by
  refine h.congr fun y hy => update_of_ne ?_ v next
  rintro rfl
  exact hx hy

theorem Chained.ne_zero (h : Chained next p l) : ∀ x ∈ l, x ≠ 0 := by
  induction l generalizing p with
  | nil => simp
  | cons x l ih =>
    intro y hy
    rcases mem_cons.mp hy with rfl | hy
    · exact h.2.1
    · exact ih h.2.2 y hy

theorem Holds.length_lt (h : Holds σ nodes) : nodes.length < σ.brk :=
  length_lt_of_nodup h.brk_pos h.nodup fun x hx => ⟨h.chained.ne_zero x hx, h.lt_brk x hx⟩

theorem Holds.brk_not_mem (h : Holds σ nodes) : σ.brk ∉ nodes :=
  fun hmem => Nat.lt_irrefl _ (h.lt_brk σ.brk hmem)

theorem findWordLoop_spec {n : ℕ} (h : Chained σ.next p l) (hn : l.length < n) :
    ∃ wc, findWordLoop σ w n p = some wc ∧
      (wc = 0 ∧ (∀ x ∈ l, (σ.data x).word ≠ w) ∨ wc ∈ l ∧ (σ.data wc).word = w) := by
  induction n generalizing p l with
  | zero => omega
  | succ n ih =>
    cases l with
    | nil => exact ⟨p, if_neg fun hp => hp.1 h, .inl ⟨h, by simp⟩⟩
    | cons x l =>
      obtain ⟨rfl, hp, hl⟩ := h
      rw [findWordLoop]
      by_cases hw : strcmp w (σ.data p).word = 0
      · refine ⟨p, if_neg fun hne => hne.2 hw, .inr ⟨mem_cons_self, ?_⟩⟩
        exact (strcmp_eq_zero_iff.mp hw).symm
      · rw [if_pos ⟨hp, hw⟩]
        obtain ⟨wc, hwc, hfound⟩ := ih hl (Nat.lt_of_succ_lt_succ hn)
        refine ⟨wc, hwc, hfound.imp (fun h => ⟨h.1, ?_⟩) fun h => ⟨?_, h.2⟩⟩
        · intro y hy
          rcases mem_cons.mp hy with rfl | hy
          · exact fun e => hw (strcmp_eq_zero_iff.mpr e.symm)
          · exact h.2 y hy
        · exact mem_cons_of_mem p h.1

theorem addWord_spec (h : Holds σ nodes) (hc : Counts ws (nodes.map σ.data)) (w : Word) :
    ∃ σ' wc nodes', σ.addWord w = some (σ', wc) ∧ Holds σ' nodes' ∧
      Counts (ws ++ [w]) (nodes'.map σ'.data) := by
  obtain ⟨wc, hwc, hfound⟩ := findWordLoop_spec h.chained h.length_lt
  rw [addWord, findWord, hwc, map_some]
  rcases hfound with ⟨rfl, hnew⟩ | ⟨hmem, rfl⟩
  · refine ⟨_, _, σ.brk :: nodes, congrArg some (if_neg fun hne => hne rfl), ?_, ?_⟩
    · refine ⟨⟨rfl, Nat.pos_iff_ne_zero.mp h.brk_pos, ?_⟩, ?_, ?_, Nat.succ_pos _⟩
      · dsimp only
        rw [update_self]
        exact h.chained.update h.brk_not_mem σ.head
      · exact nodup_cons.mpr ⟨h.brk_not_mem, h.nodup⟩
      · intro x hx
        rcases mem_cons.mp hx with rfl | hx
        · exact Nat.lt_succ_self _
        · exact Nat.lt_succ_of_lt (h.lt_brk x hx)
    · exact hc.insert_node h.brk_not_mem hnew
  · refine ⟨_, _, nodes, congrArg some (if_pos (h.chained.ne_zero wc hmem)), ?_, ?_⟩
    · exact ⟨h.chained, h.nodup, h.lt_brk, h.brk_pos⟩
    · exact hc.bump_node h.nodup hmem

theorem addWords_spec (h : Holds σ nodes) (hc : Counts ws (nodes.map σ.data)) (vs : List Word) :
    ∃ σ' nodes', σ.addWords vs = some σ' ∧ Holds σ' nodes' ∧ Counts (ws ++ vs)
      (nodes'.map σ'.data) := by
  induction vs generalizing σ nodes ws with
  | nil => exact ⟨σ, nodes, rfl, h, by rwa [append_nil]⟩
  | cons v vs ih =>
    obtain ⟨σ₁, wc, nodes1, hσ1, h1, hc1⟩ := addWord_spec h hc v
    obtain ⟨σ2, nodes2, hσ2, h2, hc2⟩ := ih h1 hc1
    refine ⟨σ2, nodes2, ?_, h2, ?_⟩
    · rw [addWords, foldlM_cons, hσ1]
      exact hσ2
    · rwa [append_assoc] at hc2

theorem fprintWordsLoop_spec {n : ℕ} (h : Chained σ.next p l) (hn : l.length < n) :
    fprintWordsLoop σ n p = some ((l.map σ.data).map WordCountT.pair) := by
  induction n generalizing p l with
  | zero => omega
  | succ n ih =>
    cases l with
    | nil => exact if_neg fun hp => hp h
    | cons x l =>
      obtain ⟨rfl, hp, hl⟩ := h
      rw [fprintWordsLoop, if_pos hp, ih hl (Nat.lt_of_succ_lt_succ hn)]
      rfl

section Sorting

variable {less : ℕ → ℕ → Bool} {elem n : ℕ}

theorem insertLoop_spec (less : ℕ → ℕ → Bool) (h : Chained next p (p :: l)) (hnd : (p :: l).Nodup)
    (helem : elem ∉ p :: l) (helem0 : elem ≠ 0) (hn : l.length < n) :
    ∃ A B prev cur, l = A ++ B ∧ insertLoop less next elem n p (next p) = some (prev, cur) ∧
      prev ∈ p :: A ∧ Chained (update (update next prev elem) elem cur) p (p :: (A ++ elem :: B)) ∧
      (∀ x ∈ A, less x elem) ∧ ∀ x ∈ B.head?, ¬ less x elem := by
  induction n generalizing p l with
  | zero => omega
  | succ n ih =>
    obtain ⟨-, hp, hl⟩ := h
    have hpe : p ≠ elem := fun e => helem (e ▸ mem_cons_self)
    rw [insertLoop]
    cases l with
    | nil =>
      refine ⟨[], [], p, next p, rfl, if_neg fun hne => hne.1 hl, mem_cons_self,
        ⟨rfl, hp, ?_⟩, by simp, by simp⟩
      rw [update_of_ne hpe, update_self]
      refine ⟨rfl, helem0, ?_⟩
      rw [update_self]
      exact hl
    | cons c l =>
      have hl' := hl
      obtain ⟨hc, hc0, hrest⟩ := hl'
      obtain ⟨hpl, hnd'⟩ := nodup_cons.mp hnd
      have helem' : elem ∉ c :: l := fun h => helem (mem_cons_of_mem p h)
      rw [hc] at hl ⊢
      by_cases hless : less c elem
      · rw [if_pos ⟨hc0, hless⟩]
        obtain ⟨A, B, prev, cur, rfl, hloop, hprev, hchain, hA, hB⟩ :=
          ih hl hnd' helem' (Nat.lt_of_succ_lt_succ hn)
        refine ⟨c :: A, B, prev, cur, rfl, hloop, mem_cons_of_mem p hprev, ⟨rfl, hp, ?_⟩, ?_, hB⟩
        · -- the link from `p` to `c` is not one of those that change
          have hpp : p ≠ prev := by
            intro e
            have := mem_append_left B (e ▸ hprev)
            exact hpl this
          rw [update_of_ne hpe, update_of_ne hpp, hc]
          exact hchain
        · intro x hx
          rcases mem_cons.mp hx with rfl | hx
          · exact hless
          · exact hA x hx
      · refine ⟨[], c :: l, p, c, rfl, if_neg fun hne => hless hne.2, mem_cons_self,
          ⟨rfl, hp, ?_⟩, by simp, by simpa using hless⟩
        rw [update_of_ne hpe, update_self]
        refine ⟨rfl, helem0, ?_⟩
        rw [update_self]
        exact (hl.update hpl elem).update helem' c

variable {data : ℕ → WordCountT}

theorem pairwise_middle {A B : List ℕ} (h : (A ++ B).Pairwise (data · ≤ data ·))
    (hA : ∀ x ∈ A, data x ≤ data elem) (hB : ∀ x ∈ B.head?, data elem ≤ data x) :
    (A ++ elem :: B).Pairwise (data · ≤ data ·) := by
  obtain ⟨hpA, hpB, hAB⟩ := pairwise_append.mp h
  have helemB : ∀ x ∈ B, data elem ≤ data x := by
    cases B with
    | nil => simp
    | cons b B =>
      intro x hx
      have hb : data elem ≤ data b := hB b rfl
      rcases mem_cons.mp hx with rfl | hx
      · exact hb
      · exact le_trans hb ((pairwise_cons.mp hpB).1 x hx)
  refine pairwise_append.mpr ⟨hpA, pairwise_cons.mpr ⟨helemB, hpB⟩, ?_⟩
  intro x hx y hy
  rcases mem_cons.mp hy with rfl | hy
  · exact hA x hx
  · exact hAB x hx y hy

variable (hless : ∀ x y, less x y ↔ data x < data y)
include hless

theorem wordcountInsertOrdered_spec (h : Chained next p l) (hnd : (elem :: l).Nodup)
    (helem0 : elem ≠ 0) (hsorted : l.Pairwise (data · ≤ data ·)) (hn : l.length ≤ n) :
    ∃ next' p' l', wordcountInsertOrdered less n next p elem = some (next', p') ∧
      Chained next' p' l' ∧ l'.Perm (elem :: l) ∧ l'.Pairwise (data · ≤ data ·) ∧
      ∀ x ∉ elem :: l, next' x = next x := by
  obtain ⟨helem, hnd⟩ := nodup_cons.mp hnd
  rw [wordcountInsertOrdered]
  by_cases hfirst : p = 0 ∨ less elem p
  · refine ⟨_, _, elem :: l, if_pos hfirst, ⟨rfl, helem0, ?_⟩, .refl _, ?_, ?_⟩
    · rw [update_self]
      exact h.update helem p
    · refine pairwise_middle (A := []) hsorted (by simp) fun x hx => ?_
      cases l with
      | nil => cases hx
      | cons y l =>
        obtain ⟨rfl, hp, -⟩ := h
        obtain rfl : p = x := some.inj hx
        exact le_of_lt ((hless _ _).mp (hfirst.resolve_left hp))
    · intro x hx
      refine update_of_ne ?_ p next
      rintro rfl
      exact hx mem_cons_self
  · obtain ⟨hp, hpe⟩ := not_or.mp hfirst
    cases l with
    | nil => exact absurd h hp
    | cons y l =>
      obtain rfl : p = y := h.1
      obtain ⟨A, B, prev, cur, rfl, hloop, hprev, hchain, hA, hB⟩ :=
        insertLoop_spec less h hnd helem helem0 hn
      refine ⟨_, _, p :: (A ++ elem :: B), ?_, hchain, ?_, ?_, ?_⟩
      · rw [if_neg hfirst, hloop]
        rfl
      · exact (perm_middle.cons p).trans (.swap elem p _)
      · refine pairwise_middle (A := p :: A) hsorted (fun x hx => ?_) fun x hx => ?_
        · rcases mem_cons.mp hx with rfl | hx
          · exact not_lt.mp fun hlt => hpe ((hless _ _).mpr hlt)
          · exact le_of_lt ((hless _ _).mp (hA x hx))
        · exact not_lt.mp fun hlt => hB x hx ((hless _ _).mpr hlt)
      · intro x hx
        have hxe : x ≠ elem := fun e => hx (e ▸ mem_cons_self)
        have hxp : x ≠ prev := by
          rintro rfl
          exact hx (mem_cons_of_mem elem (mem_append_left B hprev))
        rw [update_of_ne hxe, update_of_ne hxp]

theorem sortLoop_spec {m q : ℕ} {s : List ℕ} (h : Chained next p l) (hs : Chained next q s)
    (hnd : (l ++ s).Nodup) (hsorted : s.Pairwise (data · ≤ data ·)) (hn : l.length < n)
    (hm : l.length + s.length ≤ m) :
    ∃ next' q' s', sortLoop less m n next p q = some (next', q') ∧ Chained next' q' s' ∧
      s'.Perm (l ++ s) ∧ s'.Pairwise (data · ≤ data ·) := by
  induction n generalizing next p q l s with
  | zero => omega
  | succ n ih =>
    rw [sortLoop]
    cases l with
    | nil => exact ⟨next, q, s, if_neg fun hp => hp h, hs, .refl _, hsorted⟩
    | cons x l =>
      obtain ⟨rfl, hp, hl⟩ := h
      rw [length_cons] at hn hm
      obtain ⟨hpls, hnd⟩ := nodup_cons.mp hnd
      obtain ⟨hndl, hnds, hdisj⟩ := nodup_append.mp hnd
      have hpl : p ∉ l := fun hmem => hpls (mem_append_left s hmem)
      have hps : p ∉ s := fun hmem => hpls (mem_append_right l hmem)
      obtain ⟨next1, q1, s1, h1, hs1, hperm1, hsorted1, hframe⟩ :=
        wordcountInsertOrdered_spec hless (hs.update hps 0) (nodup_cons.mpr ⟨hps, hnds⟩)
          hp hsorted (n := m) (by omega)
      -- the records that are left are not touched
      have hl1 : Chained next1 (next p) l := by
        refine hl.congr fun y hy => ?_
        have hyp : y ≠ p := fun e => hpl (e ▸ hy)
        have hys : y ∉ p :: s := by
          intro hmem
          rcases mem_cons.mp hmem with e | hmem
          · exact hyp e
          · exact hdisj y hy y hmem rfl
        rw [hframe y hys, update_of_ne hyp]
      have hperm : (l ++ s1).Perm (p :: l ++ s) := (hperm1.append_left l).trans perm_middle
      have hlen := hperm1.length_eq
      rw [length_cons] at hlen
      obtain ⟨next2, q2, s2, h2, hs2, hperm2, hsorted2⟩ :=
        ih hl1 hs1 (hperm.nodup_iff.mpr (nodup_cons.mpr ⟨hpls, hnd⟩)) hsorted1 (by omega) (by omega)
      refine ⟨next2, q2, s2, ?_, hs2, hperm2.trans hperm, hsorted2⟩
      rw [if_pos hp]
      dsimp only
      rw [h1]
      exact h2

end Sorting

theorem wordcountSort_spec {less : WordCountT → WordCountT → Bool}
    (hless : ∀ a b, less a b ↔ a < b) (h : Holds σ nodes) :
    ∃ σ' nodes', σ.wordcountSort less = some σ' ∧ Holds σ' nodes' ∧ σ'.data = σ.data ∧
      nodes'.Perm nodes ∧ (nodes'.map σ'.data).Pairwise (· ≤ ·) := by
  have hlen := h.length_lt
  obtain ⟨next, q, s, hloop, hs, hperm, hsorted⟩ := sortLoop_spec (s := []) (m := σ.brk)
    (fun x y => hless (σ.data x) (σ.data y)) h.chained rfl
    (by rw [append_nil]; exact h.nodup) .nil hlen (by rw [length_nil]; omega)
  rw [append_nil] at hperm
  refine ⟨{ σ with next := next, head := q }, s, ?_,
    ⟨hs, hperm.nodup_iff.mpr h.nodup, ?_, h.brk_pos⟩, rfl, hperm, pairwise_map.mpr hsorted⟩
  · rw [wordcountSort, hloop]
    rfl
  · exact fun x hx => h.lt_brk x (hperm.mem_iff.mp hx)

theorem start_holds : Holds start.initWords [] :=
  ⟨rfl, .nil, by simp, Nat.one_pos⟩

theorem words_spec (ws : List Word) :
    ∃ es, words ws = some (es.map WordCountT.pair) ∧ Counts ws es ∧ es.Pairwise (· ≤ ·) := by
  obtain ⟨σ₁, nodes1, hσ1, h1, hc1⟩ := addWords_spec start_holds .nil ws
  obtain ⟨σ2, nodes2, hσ2, h2, hdata, hperm, hsorted⟩ :=
    wordcountSort_spec (fun _ _ => lessCount_iff) h1
  refine ⟨nodes2.map σ2.data, ?_, ?_, hsorted⟩
  · rw [words, hσ1, bind_some, hσ2, bind_some]
    exact fprintWordsLoop_spec h2.chained h2.length_lt
  · rw [nil_append, ← hdata] at hc1
    exact hc1.perm (hperm.map _).symm

end Chain

end CS162.WordCount
