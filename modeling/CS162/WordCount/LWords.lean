import CS162.WordCount.PintosList
import CS162.WordCount.Words

/-!
# The word counter with a Pintos list

The functions of `word_count_l.c`. A record and its list element have the same address, and
`malloc` does not fail.
-/

namespace CS162.WordCount

open Option List Function Links WordCountT

/-- The list of `word_count_l.c` in memory. -/
structure LWords where
  links : Links
  data : ℕ → WordCountT
  brk : ℕ

namespace LWords

def hd : ℕ := 1

def tl : ℕ := 2

def start : LWords where
  links := ⟨fun _ => 0, fun _ => 0⟩
  data := fun _ => ⟨⟨[], Word.zero_not_mem_nil⟩, 0⟩
  brk := 3

def initWords (σ : LWords) : LWords :=
  { σ with links := σ.links.listInit hd tl }

def findWordLoop (σ : LWords) (word : Word) : ℕ → ℕ → Option ℕ
  | 0, _ => none
  | n + 1, e =>
    if e ≠ tl then
      if strcmp (σ.data e).word word = 0 then some e
      else (σ.links.listNext e).bind (findWordLoop σ word n)
    else some 0

def findWord (σ : LWords) (word : Word) : Option ℕ :=
  findWordLoop σ word σ.brk (σ.links.next hd)

def increment (σ : LWords) (wc : ℕ) : LWords :=
  let e := σ.data wc
  { σ with data := update σ.data wc { e with count := e.count + 1 } }

/-- A new record for the word at the end of the list. -/
def pushNew (σ : LWords) (word : Word) : Option LWords :=
  (σ.links.listInsert tl σ.brk).map fun links =>
    { links := links
      data := update σ.data σ.brk ⟨word, 1⟩
      brk := σ.brk + 1 }

def addWord (σ : LWords) (word : Word) : Option (LWords × ℕ) :=
  (σ.findWord word).bind fun wc =>
    if wc ≠ 0 then some (σ.increment wc, wc)
    else (σ.pushNew word).map fun σ' => (σ', σ.brk)

def fprintWordsLoop (σ : LWords) : ℕ → ℕ → Option (List (Word × ℤ))
  | 0, _ => none
  | n + 1, e =>
    if e ≠ tl then
      (σ.links.listNext e).bind fun e' =>
        (fprintWordsLoop σ n e').map ((σ.data e).pair :: ·)
    else some []

def fprintWords (σ : LWords) : Option (List (Word × ℤ)) :=
  fprintWordsLoop σ σ.brk (σ.links.next hd)

/-- `wordcount_sort`; `less` compares the records of two elements. -/
def wordcountSort (σ : LWords) (less : WordCountT → WordCountT → Bool) : Option LWords :=
  (σ.links.listSort (fun x y => less (σ.data x) (σ.data y)) σ.brk hd tl).map fun links =>
    { σ with links := links }

def addWords (σ : LWords) (ws : List Word) : Option LWords :=
  ws.foldlM (fun σ word => (σ.addWord word).map Prod.fst) σ

def words (ws : List Word) : Option (List (Word × ℤ)) :=
  (start.initWords.addWords ws).bind fun σ =>
    (σ.wordcountSort lessList).bind fprintWords

/-- The list has the records `nodes`. -/
structure Holds (σ : LWords) (nodes : List ℕ) : Prop where
  linked : σ.links.Linked hd tl nodes
  lt_brk : ∀ x ∈ nodes, x < σ.brk
  tl_lt_brk : tl < σ.brk

variable {p : ℕ} {l nodes A : List ℕ} {σ : LWords} {ws : List Word} {w : Word}

namespace Holds

variable (h : Holds σ nodes)

include h

theorem nodup : nodes.Nodup := by
  have hnd := h.linked.nodup
  rw [cons_append] at hnd
  exact (nodup_append.mp (nodup_cons.mp hnd).2).1

theorem ne_zero : ∀ x ∈ nodes, x ≠ 0 :=
  fun x hx => h.linked.pos x (by simp [hx])

theorem length_lt : nodes.length < σ.brk :=
  length_lt_of_nodup (Nat.lt_of_le_of_lt (Nat.zero_le _) h.tl_lt_brk) h.nodup fun x hx =>
    ⟨h.ne_zero x hx, h.lt_brk x hx⟩

theorem brk_not_mem : σ.brk ∉ nodes :=
  fun hmem => Nat.lt_irrefl _ (h.lt_brk σ.brk hmem)

theorem increment (wc : ℕ) : Holds (σ.increment wc) nodes :=
  ⟨h.linked, h.lt_brk, h.tl_lt_brk⟩

theorem pushNew (w : Word) :
    ∃ σ', σ.pushNew w = some σ' ∧ Holds σ' (nodes ++ [σ.brk]) ∧
      σ'.data = update σ.data σ.brk ⟨w, 1⟩ := by
  have hbrk : σ.brk ∉ hd :: (nodes ++ []) ++ [tl] := by
    have htl := h.tl_lt_brk
    have hnot := h.brk_not_mem
    simp only [hd, tl] at htl ⊢
    simp only [append_nil, cons_append, mem_cons, mem_append, not_mem_nil, or_false, not_or]
    exact ⟨by omega, hnot, by omega⟩
  have hlinked : σ.links.Linked hd tl (nodes ++ []) := by
    rw [append_nil]
    exact h.linked
  obtain ⟨L, hL, hlinked⟩ := hlinked.listInsert hbrk (Nat.ne_zero_of_lt h.tl_lt_brk)
  have hL : σ.links.listInsert tl σ.brk = some L := hL
  refine ⟨⟨L, update σ.data σ.brk ⟨w, 1⟩, σ.brk + 1⟩, ?_, ⟨hlinked, ?_, ?_⟩, rfl⟩
  · rw [LWords.pushNew, hL]
    rfl
  · intro x hx
    rcases mem_append.mp hx with hx | hx
    · exact Nat.lt_succ_of_lt (h.lt_brk x hx)
    · rw [mem_singleton.mp hx]
      exact Nat.lt_succ_self _
  · exact Nat.lt_succ_of_lt h.tl_lt_brk

end Holds

theorem findWordLoop_spec {n : ℕ} (h : σ.links.Linked hd tl (A ++ l)) (hn : l.length < n) :
    ∃ wc, findWordLoop σ w n (l.headD tl) = some wc ∧
      (wc = 0 ∧ (∀ x ∈ l, (σ.data x).word ≠ w) ∨ wc ∈ l ∧ (σ.data wc).word = w) := by
  induction n generalizing A l with
  | zero => omega
  | succ n ih =>
    cases l with
    | nil => exact ⟨0, if_neg fun hp => hp rfl, .inl ⟨rfl, by simp⟩⟩
    | cons x l =>
      have hx : x ≠ tl := Links.Linked.ne_headD (A := l) (B := []) (by rwa [append_nil])
      rw [headD_cons, findWordLoop, if_pos hx]
      by_cases hw : strcmp (σ.data x).word w = 0
      · exact ⟨x, if_pos hw, .inr ⟨mem_cons_self, strcmp_eq_zero_iff.mp hw⟩⟩
      · rw [if_neg hw, h.listNext, bind_some]
        have h' : σ.links.Linked hd tl ((A ++ [x]) ++ l) := by
          rwa [append_assoc, singleton_append]
        obtain ⟨wc, hwc, hfound⟩ := ih h' (Nat.lt_of_succ_lt_succ hn)
        refine ⟨wc, hwc, hfound.imp (fun h => ⟨h.1, ?_⟩) fun h => ⟨?_, h.2⟩⟩
        · intro y hy
          rcases mem_cons.mp hy with rfl | hy
          · exact fun e => hw (strcmp_eq_zero_iff.mpr e)
          · exact h.2 y hy
        · exact mem_cons_of_mem x h.1

theorem findWord_spec (h : Holds σ nodes) (w : Word) :
    ∃ wc, σ.findWord w = some wc ∧
      (wc = 0 ∧ (∀ x ∈ nodes, (σ.data x).word ≠ w) ∨ wc ∈ nodes ∧ (σ.data wc).word = w) := by
  rw [findWord, h.linked.next_head]
  exact findWordLoop_spec (A := []) h.linked h.length_lt

theorem addWord_spec (h : Holds σ nodes) (hc : Counts ws (nodes.map σ.data)) (w : Word) :
    ∃ σ' wc nodes', σ.addWord w = some (σ', wc) ∧ Holds σ' nodes' ∧
      Counts (ws ++ [w]) (nodes'.map σ'.data) := by
  obtain ⟨wc, hwc, hfound⟩ := findWord_spec h w
  rw [addWord, hwc, bind_some]
  rcases hfound with ⟨rfl, hnew⟩ | ⟨hmem, rfl⟩
  · obtain ⟨σ', hσ', h', hdata⟩ := h.pushNew w
    rw [if_neg fun hne => hne rfl, hσ']
    refine ⟨σ', σ.brk, nodes ++ [σ.brk], rfl, h', ?_⟩
    rw [hdata]
    exact (hc.insert_node h.brk_not_mem hnew).perm ((perm_append_singleton _ _).symm.map _)
  · refine ⟨_, _, nodes, if_pos (h.ne_zero wc hmem), h.increment wc, ?_⟩
    exact hc.bump_node h.nodup hmem

theorem addWords_spec (h : Holds σ nodes) (hc : Counts ws (nodes.map σ.data)) (vs : List Word) :
    ∃ σ' nodes', σ.addWords vs = some σ' ∧ Holds σ' nodes' ∧ Counts (ws ++ vs)
      (nodes'.map σ'.data) := by
  induction vs generalizing σ nodes ws with
  | nil => exact ⟨σ, nodes, rfl, h, by rwa [append_nil]⟩
  | cons v vs ih =>
    obtain ⟨σ₁, wc, nodes1, hσ1, h1, hc1⟩ := addWord_spec h hc v
    obtain ⟨σ2, nodes2, hσ2, h2, hc2⟩ := ih h1 hc1
    refine ⟨σ2, nodes2, ?_, h2, ?_⟩
    · rw [addWords, foldlM_cons, hσ1]
      exact hσ2
    · rwa [append_assoc] at hc2

theorem fprintWordsLoop_spec {n : ℕ} (h : σ.links.Linked hd tl (A ++ l)) (hn : l.length < n) :
    fprintWordsLoop σ n (l.headD tl) = some ((l.map σ.data).map pair) := by
  induction n generalizing A l with
  | zero => omega
  | succ n ih =>
    cases l with
    | nil => exact if_neg fun hp => hp rfl
    | cons x l =>
      have hx : x ≠ tl := Links.Linked.ne_headD (A := l) (B := []) (by rwa [append_nil])
      have h' : σ.links.Linked hd tl ((A ++ [x]) ++ l) := by
        rwa [append_assoc, singleton_append]
      rw [headD_cons, fprintWordsLoop, if_pos hx, h.listNext, bind_some,
        ih h' (Nat.lt_of_succ_lt_succ hn)]
      rfl

theorem fprintWords_spec (h : Holds σ nodes) :
    σ.fprintWords = some ((nodes.map σ.data).map pair) := by
  rw [fprintWords, h.linked.next_head]
  exact fprintWordsLoop_spec (A := []) h.linked h.length_lt

theorem wordcountSort_spec {less : WordCountT → WordCountT → Bool}
    (hless : ∀ a b, less a b ↔ a < b) (h : Holds σ nodes) :
    ∃ σ' nodes', σ.wordcountSort less = some σ' ∧ Holds σ' nodes' ∧ σ'.data = σ.data ∧
      nodes'.Perm nodes ∧ (nodes'.map σ'.data).Pairwise (· ≤ ·) := by
  have hle : ∀ x y, notLess (fun x y => less (σ.data x) (σ.data y)) x y ↔
      σ.data x ≤ σ.data y := by
    intro x y
    rw [notLess, Bool.not_eq_true', ← Bool.not_eq_true, hless, not_lt]
  have htrans : ∀ x y z, notLess (fun x y => less (σ.data x) (σ.data y)) x y →
      notLess (fun x y => less (σ.data x) (σ.data y)) y z →
      notLess (fun x y => less (σ.data x) (σ.data y)) x z :=
    fun x y z hxy hyz => (hle x z).mpr (le_trans ((hle x y).mp hxy) ((hle y z).mp hyz))
  obtain ⟨L, nodes', hL, hlinked, ⟨hperm, -⟩, hsorted⟩ :=
    h.linked.listSort (n := σ.brk) htrans (fun x y => by
      rw [Bool.or_eq_true, hle, hle]
      exact le_total _ _) h.length_lt
  refine ⟨{ σ with links := L }, nodes', ?_, ⟨hlinked, ?_, h.tl_lt_brk⟩, rfl, hperm, ?_⟩
  · rw [wordcountSort, hL]
    rfl
  · exact fun x hx => h.lt_brk x (hperm.mem_iff.mp hx)
  · exact pairwise_map.mpr (hsorted.imp fun hxy => (hle _ _).mp hxy)

theorem start_holds : Holds start.initWords [] := by
  refine ⟨⟨?_, rfl, rfl, by decide, by decide⟩, by simp, by decide⟩
  exact isChain_cons_cons.mpr ⟨⟨rfl, rfl⟩, .singleton _⟩

theorem words_spec (ws : List Word) :
    ∃ es, words ws = some (es.map pair) ∧ Counts ws es ∧ es.Pairwise (· ≤ ·) := by
  obtain ⟨σ₁, nodes1, hσ1, h1, hc1⟩ := addWords_spec start_holds .nil ws
  obtain ⟨σ2, nodes2, hσ2, h2, hdata, hperm, hsorted⟩ :=
    wordcountSort_spec (fun _ _ => lessList_iff) h1
  refine ⟨nodes2.map σ2.data, ?_, ?_, hsorted⟩
  · rw [words, hσ1, bind_some, hσ2, bind_some]
    exact fprintWords_spec h2
  · rw [nil_append, ← hdata] at hc1
    exact hc1.perm (hperm.map _).symm

end LWords

end CS162.WordCount
