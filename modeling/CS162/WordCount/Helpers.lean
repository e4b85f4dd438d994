import CS162.Lib.Split
import CS162.WordCount.Words

/-!
# Reading words from a file

`get_word` of `word_helpers.c` on the bytes of a file that are left; `malloc` and `realloc` do
not fail.  `fileWords` are the words of a file: its longest runs of letters, in lower case.
-/

namespace CS162.WordCount

open List Split

def isalpha (c : UInt8) : Bool :=
  (65 ≤ c && c ≤ 90) || (97 ≤ c && c ≤ 122)

def tolower (c : UInt8) : UInt8 :=
  if 65 ≤ c && c ≤ 90 then c + 32 else c

/-- The string in a buffer: it ends at the first zero byte. -/
def Word.ofBuffer (buffer : List UInt8) : Word where
  bytes := buffer.takeWhile (· != 0)
  nulFree := fun h => by simpa using List.mem_takeWhile_imp h

/-- The first loop of `get_word`: the first letter and what is left after it. -/
def skipLoop : List UInt8 → Option (UInt8 × List UInt8)
  | [] => none
  | ch :: infile => if isalpha ch then some (ch, infile) else skipLoop infile

/-- The second loop of `get_word`; the character that ends the word is read
too. -/
def accumulateLoop : List UInt8 → UInt8 → List UInt8 → List UInt8 × List UInt8
  | buffer, ch, [] => (buffer ++ [tolower ch], [])
  | buffer, ch, ch' :: infile =>
    let buffer := buffer ++ [tolower ch]
    if isalpha ch' then accumulateLoop buffer ch' infile else (buffer, infile)

/-- `get_word`: the length it returns, the word and what is left of the file. -/
def getWord (infile : List UInt8) : ℕ × Word × List UInt8 :=
  match skipLoop infile with
  | none => (0, Word.ofBuffer [], [])
  | some (ch, infile) =>
    let (buffer, infile) := accumulateLoop [] ch infile
    (buffer.length, Word.ofBuffer buffer, infile)

/-- The word that a run of letters is. -/
def wordOf (letters : List UInt8) : Word :=
  Word.ofBuffer (letters.map tolower)

/-- The words of a file. -/
def fileWords (infile : List UInt8) : List Word :=
  (split (fun c => !isalpha c) infile).map wordOf

/-- The words that `count_words` adds: those of more than one letter. -/
def countedWords (infile : List UInt8) : List Word :=
  (fileWords infile).filter fun w => w.bytes.length ≠ 1

theorem tolower_ne_zero {c : UInt8} (h : isalpha c) : tolower c ≠ 0 := by
  have hall : ∀ n : Fin 256, isalpha (UInt8.ofFin n) → tolower (UInt8.ofFin n) ≠ 0 := by
    decide +kernel
  exact hall c.toFin h

theorem bytes_wordOf {letters : List UInt8} (h : ∀ c ∈ letters, isalpha c) :
    (wordOf letters).bytes = letters.map tolower := by
  refine takeWhile_eq_self_iff.mpr fun b hb => ?_
  obtain ⟨c, hc, rfl⟩ := List.mem_map.mp hb
  exact bne_iff_ne.mpr (tolower_ne_zero (h c hc))

theorem skipLoop_spec (s : List UInt8) :
    skipLoop s = none ∧ fileWords s = [] ∨
      ∃ c s', skipLoop s = some (c, s') ∧ isalpha c ∧ fileWords s = fileWords (c :: s') := by
  induction s with
  | nil => exact .inl ⟨rfl, rfl⟩
  | cons c s ih =>
    rw [skipLoop]
    by_cases hc : isalpha c
    · exact .inr ⟨c, s, if_pos hc, hc, rfl⟩
    · have hwords : fileWords (c :: s) = fileWords s := by
        rw [fileWords, split_cons_sep (by simp [hc]), fileWords]
      rw [if_neg hc, hwords]
      exact ih

theorem accumulateLoop_spec (letters : List UInt8) {c : UInt8} (s : List UInt8)
    (hletters : ∀ b ∈ letters ++ [c], isalpha b) :
    ∃ letters' s', (∀ b ∈ letters', isalpha b) ∧ letters' ≠ [] ∧
      accumulateLoop (letters.map tolower) c s = (letters'.map tolower, s') ∧
      fileWords (letters ++ c :: s) = wordOf letters' :: fileWords s' := by
  have hsep : ∀ b ∈ letters ++ [c], (!isalpha b) = false := fun b hb => by
    rw [hletters b hb]
    rfl
  induction s generalizing letters c with
  | nil =>
    refine ⟨letters ++ [c], [], hletters, by simp, by simp [accumulateLoop], ?_⟩
    rw [fileWords, split_of_forall (by simp) hsep]
    rfl
  | cons c' s ih =>
    rw [accumulateLoop]
    by_cases hc : isalpha c'
    · have hletters' : ∀ b ∈ (letters ++ [c]) ++ [c'], isalpha b := by
        intro b hb
        rcases mem_append.mp hb with hb | hb
        · exact hletters b hb
        · rw [mem_singleton.mp hb]
          exact hc
      obtain ⟨letters', s', hl, hne, hacc, hwords⟩ :=
        ih _ hletters' fun b hb => by rw [hletters' b hb]; rfl
      rw [map_append] at hacc
      rw [append_assoc] at hwords
      exact ⟨letters', s', hl, hne, (if_pos hc).trans hacc, hwords⟩
    · refine ⟨letters ++ [c], s, hletters, by simp, ?_, ?_⟩
      · rw [map_append]
        exact if_neg hc
      · rw [append_cons, fileWords, split_append_sep (by simp [hc]), split_of_forall (by simp) hsep]
        rfl

theorem getWord_spec (s : List UInt8) :
    (getWord s).1 = 0 ∧ fileWords s = [] ∨ ∃ w s', getWord s = (w.bytes.length, w, s') ∧
      w.bytes.length ≠ 0 ∧ fileWords s = w :: fileWords s' := by
  rw [getWord]
  rcases skipLoop_spec s with ⟨hskip, hwords⟩ | ⟨c, s', hskip, hc, hwords⟩
  · rw [hskip]
    exact .inl ⟨rfl, hwords⟩
  · obtain ⟨letters, s'', hl, hne, hacc, hwords'⟩ := accumulateLoop_spec [] s' (by simpa using hc)
    have hlen : (wordOf letters).bytes.length = (letters.map tolower).length :=
      congrArg List.length (bytes_wordOf hl)
    refine .inr ⟨wordOf letters, s'', ?_, ?_, hwords.trans hwords'⟩
    · have hacc : accumulateLoop [] c s' = (letters.map tolower, s'') := hacc
      rw [hskip, hlen]
      dsimp only
      rw [hacc]
      rfl
    · rw [hlen, length_map]
      exact fun h => hne (eq_nil_of_length_eq_zero h)

end CS162.WordCount
