import CS162.WordCount.Chain
import CS162.WordCount.LWords

/-!
# The two word counters agree

Both counters show the counts of the words in their order, and the words
determine the counts and the order, so they show the same pairs. The pairs are
the numbers of occurrences unless a word occurs too often for an `int`.
-/

namespace CS162.WordCount

open List LWords

theorem exists_words_eq (ws : List Word) :
    ∃ es, Chain.words ws = some (es.map WordCountT.pair) ∧
      words ws = some (es.map WordCountT.pair) ∧ Counts ws es ∧ es.Pairwise (· ≤ ·) := by
  obtain ⟨es, hes, hc, hs⟩ := Chain.words_spec ws
  obtain ⟨es', hes', hc', hs'⟩ := words_spec ws
  obtain rfl : es = es' := hc.eq_of_sorted hc' hs hs'
  exact ⟨es, hes, hes', hc, hs⟩

/-- Both counters show the same pairs, and these are the tally of the words if
and only if every word occurs fewer than `2 ^ 31` times. -/
theorem words_agree (ws : List Word) :
    ∃ out, Chain.words ws = some out ∧ words ws = some out ∧
      (Tally ws out ↔ ∀ w, ws.count w < 2 ^ 31) := by
  obtain ⟨es, hes, hes', hc, hs⟩ := exists_words_eq ws
  exact ⟨_, hes, hes', hc.tally_iff hs⟩

/-- The word `it`. -/
def wordIt : Word where
  bytes := [105, 116]
  nulFree := by decide

example : words [wordIt, ⟨[97, 116], by decide⟩, wordIt] =
    some [(⟨[97, 116], by decide⟩, 1), (wordIt, 2)] := by
  decide +kernel

theorem counts_replicate {w : Word} {n : ℕ} (hn : n ≠ 0) :
    Counts (replicate n w) [⟨w, BitVec.ofNat 32 n⟩] := by
  refine ⟨nodup_singleton w, fun v c => ?_⟩
  rw [mem_singleton, mem_replicate, WordCountT.mk.injEq]
  constructor
  · rintro ⟨rfl, rfl⟩
    exact ⟨⟨hn, rfl⟩, by rw [count_replicate_self]⟩
  · rintro ⟨⟨-, rfl⟩, rfl⟩
    exact ⟨rfl, by rw [count_replicate_self]⟩

/-- A word that occurs `2 ^ 31` times is shown with a negative count. -/
theorem words_overflow :
    Chain.words (replicate (2 ^ 31) wordIt) = some [(wordIt, -2 ^ 31)] ∧
      words (replicate (2 ^ 31) wordIt) = some [(wordIt, -2 ^ 31)] ∧
      ¬ Tally (replicate (2 ^ 31) wordIt) [(wordIt, -2 ^ 31)] := by
  obtain ⟨es, hes, hes', hc, hs⟩ := exists_words_eq (replicate (2 ^ 31) wordIt)
  have hperm := hc.perm_of_counts (counts_replicate (Nat.two_pow_pos 31).ne')
  obtain rfl := perm_singleton.mp hperm
  refine ⟨hes, hes', fun ht => ?_⟩
  have hlt := (hc.tally_iff hs).mp ht wordIt
  rw [count_replicate_self] at hlt
  exact Nat.lt_irrefl _ hlt

end CS162.WordCount
