import CS162.Lib.Run
import CS162.WordCount.Helpers
import CS162.WordCount.LWords

/-!
# The word counter with one thread per file

`pwords.c` with a thread for every file.  A step is the reading of a word, a search of
`add_word` in `word_count_p.c`, or its update of the list under the lock.  A search that
found nothing may be out of date when the thread gets the lock: then the word gets a second
record.  `Fresh` says that it is not.
-/

namespace CS162.WordCount

open Option List LWords WordCountT
open Run

/-- A thread in `count_words`, with what it has not read of its file: before
`get_word`, before `find_word`, and before the lock with what `find_word`
returned. -/
inductive Thread where
  | reading (infile : List UInt8)
  | searching (word : Word) (infile : List UInt8)
  | updating (word : Word) (wc : ℕ) (infile : List UInt8)
  | finished
deriving DecidableEq

/-- The list and the threads. -/
structure PWords where
  list : LWords
  threads : List Thread

/-- What `add_word` does with the lock. -/
def LWords.update (σ : LWords) (word : Word) (wc : ℕ) : Option LWords :=
  if wc ≠ 0 then some (σ.increment wc) else σ.pushNew word

namespace PWords

def boot (files : List (List UInt8)) : PWords where
  list := start.initWords
  threads := files.map Thread.reading

/-- What a thread does after `get_word`. -/
def afterRead : ℕ × Word × List UInt8 → Thread
  | (len, word, infile) =>
    if len = 0 then .finished
    else if len = 1 then .reading infile
    else .searching word infile

def step (σ : PWords) (t : ℕ) : Option PWords :=
  (σ.threads[t]?).bind fun
    | .reading infile =>
      some { σ with threads := σ.threads.set t (afterRead (getWord infile)) }
    | .searching word infile =>
      (σ.list.findWord word).map fun wc =>
        { σ with threads := σ.threads.set t (.updating word wc infile) }
    | .updating word wc infile =>
      (σ.list.update word wc).map fun list =>
        { list := list, threads := σ.threads.set t (.reading infile) }
    | .finished => none

/-- All threads were joined. -/
def Finished (σ : PWords) : Prop :=
  ∀ th ∈ σ.threads, th = .finished

instance (σ : PWords) : Decidable σ.Finished :=
  inferInstanceAs (Decidable (∀ th ∈ σ.threads, th = .finished))

/-- The word that the thread will append when it gets the lock. -/
def appends : Thread → Option Word
  | .updating word 0 _ => some word
  | _ => none

/-- A word that the thread `t` is about to append is not on the list. -/
def Fresh (σ : PWords) (t : ℕ) : Prop :=
  ∀ th ∈ σ.threads[t]?, ∀ word ∈ appends th, σ.list.findWord word = some 0

instance (σ : PWords) (t : ℕ) : Decidable (σ.Fresh t) :=
  inferInstanceAs (Decidable (∀ th ∈ σ.threads[t]?, ∀ word ∈ appends th, _))

/-- The words a thread will still add. -/
def pending : Thread → List Word
  | .reading infile => countedWords infile
  | .searching word infile => word :: countedWords infile
  | .updating word _ infile => word :: countedWords infile
  | .finished => []

/-- The records are linked, and a record that a thread has found is one of
them. -/
structure Sound (σ : PWords) (nodes : List ℕ) : Prop where
  holds : σ.list.Holds nodes
  found : ∀ word wc infile, .updating word wc infile ∈ σ.threads →
    wc = 0 ∨ wc ∈ nodes ∧ (σ.list.data wc).word = word

variable {σ σ' : PWords} {t : ℕ} {nodes : List ℕ}

theorem pending_afterRead (s : List UInt8) : pending (afterRead (getWord s)) = countedWords s := by
  rcases getWord_spec s with ⟨hlen, hwords⟩ | ⟨w, s', hget, hlen, hwords⟩
  · rw [countedWords, hwords]
    exact congrArg pending (if_pos hlen)
  · rw [hget, countedWords, hwords, afterRead, if_neg hlen]
    by_cases hone : w.bytes.length = 1
    · rw [if_pos hone, filter_cons_of_neg (by simp [hone])]
      rfl
    · rw [if_neg hone, filter_cons_of_pos (by simp [hone])]
      rfl

/-- All words that will still be added. -/
def remaining (σ : PWords) : List Word :=
  σ.threads.flatMap pending

theorem flatMap_middle_perm (A B : List Thread) (th : Thread) :
    ((A ++ th :: B).flatMap pending).Perm (pending th ++ (A ++ B).flatMap pending) := by
  rw [flatMap_append, flatMap_cons, flatMap_append, ← append_assoc, ← append_assoc]
  exact perm_append_comm.append_right _

theorem remaining_set {th : Thread} (hth : σ.threads[t]? = some th) (th' : Thread) (l : LWords) :
    ∃ ws, σ.remaining.Perm (pending th ++ ws) ∧
      (remaining ⟨l, σ.threads.set t th'⟩).Perm (pending th' ++ ws) := by
  obtain ⟨ht, rfl⟩ := List.getElem?_eq_some_iff.mp hth
  have hsplit : σ.threads = σ.threads.take t ++ σ.threads[t] :: σ.threads.drop (t + 1) := by
    rw [← drop_eq_getElem_cons ht, take_append_drop]
  refine ⟨(σ.threads.take t ++ σ.threads.drop (t + 1)).flatMap pending, ?_, ?_⟩
  · rw [remaining]
    nth_rewrite 1 [hsplit]
    exact flatMap_middle_perm _ _ _
  · rw [remaining, set_eq_take_append_cons_drop, if_pos ht]
    exact flatMap_middle_perm _ _ _

theorem afterRead_ne_updating (r : ℕ × Word × List UInt8) (word : Word) (wc : ℕ)
    (infile : List UInt8) : afterRead r ≠ .updating word wc infile := by
  rw [afterRead]
  split
  · exact nofun
  · split
    · exact nofun
    · exact nofun

theorem word_increment (l : LWords) (wc x : ℕ) :
    ((l.increment wc).data x).word = (l.data x).word := by
  rw [increment]
  dsimp only
  rw [Function.update_apply]
  split
  · next hx => rw [hx]
  · rfl

theorem mem_of_mem_set {l : List Thread} {th th' : Thread} (h : th' ∈ l.set t th) :
    th' = th ∨ th' ∈ l :=
  (mem_or_eq_of_mem_set h).symm

theorem findWord_eq_zero_iff (h : σ.list.Holds nodes) {w : Word} :
    σ.list.findWord w = some 0 ↔ ∀ x ∈ nodes, (σ.list.data x).word ≠ w := by
  obtain ⟨wc, hwc, hfound⟩ := findWord_spec h w
  rw [hwc]
  rcases hfound with ⟨rfl, hnew⟩ | ⟨hmem, hword⟩
  · exact ⟨fun _ => hnew, fun _ => rfl⟩
  · constructor
    · intro h0
      exact absurd (some.inj h0) (h.ne_zero wc hmem)
    · exact fun hne => absurd hword (hne wc hmem)

theorem step_cases (h : Sound σ nodes) (hs : σ.step t = some σ') :
    (Sound σ' nodes ∧ σ'.list = σ.list ∧ σ.remaining.Perm σ'.remaining ∧ σ.Fresh t) ∨
    (∃ wc ∈ nodes, Sound σ' nodes ∧ σ'.list = σ.list.increment wc ∧
      σ.remaining.Perm ((σ.list.data wc).word :: σ'.remaining) ∧ σ.Fresh t) ∨
    ∃ w, Sound σ' (nodes ++ [σ.list.brk]) ∧
      σ'.list.data = Function.update σ.list.data σ.list.brk ⟨w, 1⟩ ∧
      σ.remaining.Perm (w :: σ'.remaining) ∧
      (σ.Fresh t ↔ ∀ x ∈ nodes, (σ.list.data x).word ≠ w) := by
  obtain ⟨th, hth, hs⟩ := bind_eq_some_iff.mp hs
  have hfresh : appends th = none → σ.Fresh t := by
    intro hnone th' hth' word hword
    rw [mem_def, hth] at hth'
    obtain rfl := some.inj hth'
    rw [hnone] at hword
    cases hword
  cases th with
  | reading infile =>
    obtain rfl := some.inj hs
    obtain ⟨ws, hws, hws'⟩ := remaining_set hth (afterRead (getWord infile)) σ.list
    rw [pending_afterRead] at hws'
    refine .inl ⟨⟨h.holds, fun word wc s hmem => ?_⟩, rfl, hws.trans hws'.symm, hfresh rfl⟩
    rcases mem_of_mem_set hmem with heq | hmem
    · exact absurd heq.symm (afterRead_ne_updating _ word wc s)
    · exact h.found word wc s hmem
  | searching word infile =>
    obtain ⟨wc, hwc, rfl⟩ := map_eq_some_iff.mp hs
    obtain ⟨ws, hws, hws'⟩ := remaining_set hth (.updating word wc infile) σ.list
    refine .inl ⟨⟨h.holds, fun word' wc' s hmem => ?_⟩, rfl, hws.trans hws'.symm, hfresh rfl⟩
    rcases mem_of_mem_set hmem with heq | hmem
    · cases heq
      obtain ⟨wc', hwc', hfound⟩ := findWord_spec h.holds word
      rw [hwc] at hwc'
      obtain rfl := some.inj hwc'
      exact hfound.imp And.left id
    · exact h.found word' wc' s hmem
  | updating word wc infile =>
    obtain ⟨list, hlist, rfl⟩ := map_eq_some_iff.mp hs
    obtain ⟨ws, hws, hws'⟩ := remaining_set hth (.reading infile) list
    have hperm : σ.remaining.Perm (word :: remaining ⟨list, σ.threads.set t (.reading infile)⟩) :=
      hws.trans (hws'.symm.cons word)
    have hmem := mem_of_getElem? hth
    have hother : ∀ word' wc' s, .updating word' wc' s ∈ σ.threads.set t (.reading infile) →
        .updating word' wc' s ∈ σ.threads := by
      intro word' wc' s hmem'
      exact (mem_of_mem_set hmem').resolve_left nofun
    rw [update] at hlist
    split at hlist
    · next hwc =>
        obtain rfl := some.inj hlist
        obtain ⟨hnode, hword⟩ := (h.found word wc infile hmem).resolve_left hwc
        refine .inr (.inl ⟨wc, hnode, ⟨h.holds.increment wc, ?_⟩, rfl, ?_, hfresh ?_⟩)
        · intro word' wc' s hmem'
          rw [word_increment]
          exact h.found word' wc' s (hother word' wc' s hmem')
        · rw [hword]
          exact hperm
        · cases wc with
          | zero => exact absurd rfl hwc
          | succ wc => rfl
    · next hwc =>
        obtain rfl : wc = 0 := not_not.mp hwc
        obtain ⟨list', hlist', hholds, hdata⟩ := h.holds.pushNew word
        rw [hlist] at hlist'
        obtain rfl := some.inj hlist'
        refine .inr (.inr ⟨word, ⟨hholds, ?_⟩, hdata, hperm, ?_⟩)
        · intro word' wc' s hmem'
          refine (h.found word' wc' s (hother word' wc' s hmem')).imp id fun hfound => ?_
          refine ⟨mem_append_left _ hfound.1, ?_⟩
          have hne : wc' ≠ σ.list.brk := fun e => h.holds.brk_not_mem (e ▸ hfound.1)
          rw [hdata, Function.update_of_ne hne]
          exact hfound.2
        · rw [← findWord_eq_zero_iff h.holds, Fresh, hth]
          simp [appends]
  | finished => cases hs

/-- The words of the records. -/
def listed (σ : PWords) (nodes : List ℕ) : List Word :=
  (nodes.map σ.list.data).map word

theorem listed_increment {wc : ℕ} (h : σ'.list = σ.list.increment wc) :
    σ'.listed nodes = σ.listed nodes := by
  rw [listed, listed, List.map_map, List.map_map, h]
  exact map_congr_left fun x _ => word_increment σ.list wc x

theorem listed_pushNew {w : Word} (h : Sound σ nodes)
    (hdata : σ'.list.data = Function.update σ.list.data σ.list.brk ⟨w, 1⟩) :
    σ'.listed (nodes ++ [σ.list.brk]) = σ.listed nodes ++ [w] := by
  rw [listed, listed, hdata, map_append, Counts.map_update_of_not_mem h.holds.brk_not_mem,
    map_singleton, Function.update_self, map_append]
  rfl

/-- The records count the words `done`, and the words that are left complete
them to `all`. -/
structure Counting (all : List Word) (σ : PWords) : Prop where
  counting : ∃ nodes done, Sound σ nodes ∧ Counts done (nodes.map σ.list.data) ∧
    (done ++ σ.remaining).Perm all

theorem Counting.step {all : List Word} (h : Counting all σ) (hfresh : σ.Fresh t)
    (hs : σ.step t = some σ') : Counting all σ' := by
  obtain ⟨nodes, done, hsound, hc, hperm⟩ := h
  rcases step_cases hsound hs with ⟨hsound', hlist, hrem, -⟩ |
    ⟨wc, hwc, hsound', hlist, hrem, -⟩ | ⟨w, hsound', hdata, hrem, hiff⟩
  · rw [← hlist] at hc
    exact ⟨nodes, done, hsound', hc, (hrem.symm.append_left done).trans hperm⟩
  · refine ⟨nodes, done ++ [(σ.list.data wc).word], hsound', ?_, ?_⟩
    · rw [hlist]
      exact hc.bump_node hsound.holds.nodup hwc
    · rw [append_assoc]
      exact (hrem.symm.append_left done).trans hperm
  · refine ⟨nodes ++ [σ.list.brk], done ++ [w], hsound', ?_, ?_⟩
    · rw [hdata]
      exact (hc.insert_node hsound.holds.brk_not_mem (hiff.mp hfresh)).perm
        ((perm_append_singleton _ _).symm.map _)
    · rw [append_assoc]
      exact (hrem.symm.append_left done).trans hperm

theorem run_fresh {ts : List ℕ} (h : Sound σ nodes) (hr : run step σ ts = some σ') :
    ∃ nodes', Sound σ' nodes' ∧
      ((σ'.listed nodes').Nodup → (σ.listed nodes).Nodup ∧ Meets step Fresh σ ts) := by
  induction ts generalizing σ nodes with
  | nil =>
    cases hr
    exact ⟨nodes, h, fun hnd => ⟨hnd, trivial⟩⟩
  | cons t ts ih =>
    obtain ⟨σ₁, hs, hr⟩ := run_cons_eq_some.mp hr
    have hmeets : Meets step Fresh σ₁ ts → σ.Fresh t → Meets step Fresh σ (t :: ts) := by
      intro hm hf
      refine ⟨hf, fun σ2 hs2 => ?_⟩
      rw [hs] at hs2
      obtain rfl := some.inj hs2
      exact hm
    rcases step_cases h hs with ⟨h1, hlist, -, hf⟩ | ⟨wc, -, h1, hlist, -, hf⟩ |
      ⟨w, h1, hdata, -, hiff⟩
    · obtain ⟨nodes', h', hnd'⟩ := ih h1 hr
      refine ⟨nodes', h', fun hnd => ?_⟩
      obtain ⟨hnd1, hm⟩ := hnd' hnd
      rw [listed, hlist] at hnd1
      exact ⟨hnd1, hmeets hm hf⟩
    · obtain ⟨nodes', h', hnd'⟩ := ih h1 hr
      refine ⟨nodes', h', fun hnd => ?_⟩
      obtain ⟨hnd1, hm⟩ := hnd' hnd
      rw [listed_increment hlist] at hnd1
      exact ⟨hnd1, hmeets hm hf⟩
    · obtain ⟨nodes', h', hnd'⟩ := ih h1 hr
      refine ⟨nodes', h', fun hnd => ?_⟩
      obtain ⟨hnd1, hm⟩ := hnd' hnd
      rw [listed_pushNew h hdata] at hnd1
      obtain ⟨hnd0, -, hdisj⟩ := nodup_append.mp hnd1
      refine ⟨hnd0, hmeets hm (hiff.mpr fun x hx hxw => ?_)⟩
      refine hdisj w ?_ w mem_cons_self rfl
      exact List.mem_map.mpr ⟨_, List.mem_map_of_mem hx, hxw⟩

theorem boot_sound (files : List (List UInt8)) : Sound (boot files) [] := by
  refine ⟨start_holds, fun word wc s hmem => ?_⟩
  obtain ⟨s', -, heq⟩ := List.mem_map.mp hmem
  cases heq

theorem boot_counting (files : List (List UInt8)) :
    Counting (files.flatMap countedWords) (boot files) := by
  refine ⟨[], [], boot_sound files, .nil, ?_⟩
  rw [nil_append, remaining, boot, flatMap_map]
  exact .refl _

theorem run_counts {files : List (List UInt8)} {ts : List ℕ} (hm : Meets step Fresh (boot files) ts)
    (hr : run step (boot files) ts = some σ) (hfin : σ.Finished) :
    ∃ nodes, Sound σ nodes ∧ Counts (files.flatMap countedWords) (nodes.map σ.list.data) := by
  obtain ⟨nodes, done, hsound, hc, hperm⟩ :=
    run_invariant (fun _ _ _ h hf hs => Counting.step h hf hs) (boot_counting files) hm hr
  have hrem : σ.remaining = [] := by
    refine flatMap_eq_nil_iff.mpr fun th hth => ?_
    rw [hfin th hth]
    rfl
  rw [hrem, append_nil] at hperm
  exact ⟨nodes, hsound, hc.of_perm hperm⟩

theorem flatMap_countedWords (files : List (List UInt8)) :
    files.flatMap countedWords = (files.flatMap fileWords).filter fun w => w.bytes.length ≠ 1 := by
  rw [filter_flatMap]
  rfl

/-- When all threads have finished, the list has every counted word once, with
the number of its occurrences in all files, if and only if every word that was
appended was not on the list at that time, and no count overflows. For all words
of the files it must also be that none of them has only one letter, as such
words are not counted. -/
theorem run_prints_exact_iff {files : List (List UInt8)} {ts : List ℕ}
    (hr : run step (boot files) ts = some σ) (hfin : σ.Finished) :
    ∃ out, σ.list.fprintWords = some out ∧
      (Exact (files.flatMap countedWords) out ↔ Meets step Fresh (boot files) ts ∧
        ∀ w, (files.flatMap countedWords).count w < 2 ^ 31) ∧
      (Exact (files.flatMap fileWords) out ↔ Meets step Fresh (boot files) ts ∧
        (∀ w, (files.flatMap fileWords).count w < 2 ^ 31) ∧
        ∀ w ∈ files.flatMap fileWords, w.bytes.length ≠ 1) := by
  obtain ⟨nodes, hsound, hnd⟩ := run_fresh (boot_sound files) hr
  obtain ⟨out, hout⟩ : ∃ out, σ.list.fprintWords = some out := ⟨_, fprintWords_spec hsound.holds⟩
  have hmeets : ∀ ws, Exact ws out → Meets step Fresh (boot files) ts := by
    intro ws hx
    rw [fprintWords_spec hsound.holds] at hout
    obtain rfl := some.inj hout
    have hfst := hx.nodup
    rw [Counts.map_fst_pair] at hfst
    exact (hnd hfst).2
  have hcounts : Meets step Fresh (boot files) ts →
      ∃ es, out = es.map pair ∧ Counts (files.flatMap countedWords) es := by
    intro hm
    obtain ⟨nodes', hsound', hc⟩ := run_counts hm hr hfin
    rw [fprintWords_spec hsound'.holds] at hout
    exact ⟨_, (some.inj hout).symm, hc⟩
  have hiff : Exact (files.flatMap countedWords) out ↔ Meets step Fresh (boot files) ts ∧
      ∀ w, (files.flatMap countedWords).count w < 2 ^ 31 := by
    constructor
    · intro hx
      obtain ⟨es, rfl, hc⟩ := hcounts (hmeets _ hx)
      exact ⟨hmeets _ hx, hc.exact_iff.mp hx⟩
    · rintro ⟨hm, hlt⟩
      obtain ⟨es, rfl, hc⟩ := hcounts hm
      exact hc.exact_iff.mpr hlt
  have hall : (∀ w ∈ files.flatMap fileWords, w.bytes.length ≠ 1) →
      files.flatMap countedWords = files.flatMap fileWords := by
    intro hlen
    rw [flatMap_countedWords]
    exact filter_eq_self.mpr fun w hw => decide_eq_true (hlen w hw)
  refine ⟨out, hout, hiff, fun hx => ?_, fun ⟨hm, hlt, hlen⟩ => ?_⟩
  · have hlen : ∀ w ∈ files.flatMap fileWords, w.bytes.length ≠ 1 := by
      intro w hw
      obtain ⟨es, rfl, hc⟩ := hcounts (hmeets _ hx)
      have hlisted : w ∈ (es.map pair).map Prod.fst :=
        List.mem_map.mpr ⟨_, (hx.mem w _).mpr ⟨hw, rfl⟩, rfl⟩
      rw [Counts.map_fst_pair, hc.word_mem, flatMap_countedWords] at hlisted
      exact of_decide_eq_true (mem_filter.mp hlisted).2
    rw [hall hlen] at hiff
    exact ⟨(hiff.mp hx).1, (hiff.mp hx).2, hlen⟩
  · rw [hall hlen] at hiff
    exact hiff.mpr ⟨hm, hlt⟩

/-- Two files with the word `it`. -/
def twoFiles : List (List UInt8) :=
  [[105, 116], [105, 116]]

/-- One thread after the other counts the word twice. -/
theorem run_exact_sequential :
    ∃ σ, run step (boot twoFiles) [0, 0, 0, 0, 1, 1, 1, 1] = some σ ∧
      σ.list.fprintWords = some [(wordOf [105, 116], 2)] ∧
      Exact (twoFiles.flatMap fileWords) [(wordOf [105, 116], 2)] := by
  have h : (run step (boot twoFiles) [0, 0, 0, 0, 1, 1, 1, 1]).map (fun σ => decide (σ.Finished ∧
      σ.list.fprintWords = some [(wordOf [105, 116], 2)])) = some true := by
    decide +kernel
  obtain ⟨σ, hr, hσ⟩ := map_eq_some_iff.mp h
  obtain ⟨hfin, hprint⟩ := of_decide_eq_true hσ
  obtain ⟨out, hout, -, hiff⟩ := run_prints_exact_iff hr hfin
  rw [hprint] at hout
  obtain rfl := some.inj hout
  refine ⟨σ, hr, hprint, hiff.mpr ⟨by decide +kernel, fun w => ?_, by decide +kernel⟩⟩
  calc (twoFiles.flatMap fileWords).count w ≤ (twoFiles.flatMap fileWords).length :=
        count_le_length
    _ < 2 ^ 31 := by decide +kernel

/-- Two threads that both search before either of them appends give the word two
records. -/
theorem race_two_records :
    ∃ σ, run step (boot twoFiles) [0, 1, 0, 1, 0, 1, 0, 1] = some σ ∧ σ.Finished ∧
      σ.list.fprintWords = some [(wordOf [105, 116], 1), (wordOf [105, 116], 1)] ∧
      ∀ ws, ¬ Exact ws [(wordOf [105, 116], 1), (wordOf [105, 116], 1)] := by
  have h : (run step (boot twoFiles) [0, 1, 0, 1, 0, 1, 0, 1]).map (fun σ => decide (σ.Finished ∧
      σ.list.fprintWords =
        some [(wordOf [105, 116], 1), (wordOf [105, 116], 1)])) = some true := by
    decide +kernel
  obtain ⟨σ, hr, hσ⟩ := map_eq_some_iff.mp h
  obtain ⟨hfin, hprint⟩ := of_decide_eq_true hσ
  refine ⟨σ, hr, hfin, hprint, fun ws hx => ?_⟩
  have hnd := hx.nodup
  simp at hnd

end PWords

end CS162.WordCount
