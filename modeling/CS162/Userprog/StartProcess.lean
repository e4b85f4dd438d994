import CS162.Lib.Split
import CS162.Userprog.Load

/-!
# Starting a process

`process_execute` and `start_process` of `userprog/process.c`, with `strtok_r`.  Addresses are
those of the running process, and what `load` returns and does to memory is given.  `stores`
lists what is written through pointers; what a store behind the end of `argv` does to other
variables of the kernel is not followed.
-/

namespace CS162.Userprog

open List Mem Split
open Threads

namespace Start

/-- Memory, and the stores that were made. -/
structure Proc where
  mem : Mem
  stores : List (ℕ × ℕ)

namespace Proc

def setWord (p : Proc) (a v : ℕ) : Proc :=
  ⟨p.mem.setWord a v, p.stores ++ [(a, 4)]⟩

def memset (p : Proc) (dst : ℕ) (value : UInt8) (size : ℕ) : Proc :=
  ⟨p.mem.memset dst value size, p.stores ++ [(dst, size)]⟩

def memcpy (p : Proc) (dst src size : ℕ) : Proc :=
  ⟨p.mem.memcpy dst src size, p.stores ++ [(dst, size)]⟩

end Proc

def minus (a b : ℕ) : ℕ :=
  (2 ^ 32 + a - b) % 2 ^ 32

def space : UInt8 := 0x20

def strlen (m : Mem) : ℕ → ℕ → Option ℕ
  | 0, _ => none
  | fuel + 1, s => if m s = 0 then some 0 else (strlen m fuel (s + 1)).map (· + 1)

def skipSpaces (m : Mem) : ℕ → ℕ → Option ℕ
  | 0, _ => none
  | fuel + 1, s => if m s = space then skipSpaces m fuel (s + 1) else some s

def tokenEnd (m : Mem) : ℕ → ℕ → Option ℕ
  | 0, _ => none
  | fuel + 1, s => if m s = space ∨ m s = 0 then some s else tokenEnd m fuel (s + 1)

/-- `strtok_r` with a space as the only delimiter, from `s` on: the token and `*save_ptr`. -/
def strtokR (fuel s : ℕ) (p : Proc) : Option (Option ℕ × ℕ × Proc) :=
  (skipSpaces p.mem fuel s).bind fun s =>
    if p.mem s = 0 then some (none, s, p)
    else (tokenEnd p.mem fuel s).map fun e =>
      if p.mem e = 0 then (some s, e, p) else (some s, e + 1, p.memset e 0 1)

/-- The loop of `start_process` over the tokens: `argc` and the state after it. -/
def tokenLoop (argv offset fuel : ℕ) : ℕ → ℕ → Option ℕ → ℕ → Proc → Option (ℕ × Proc)
  | 0, _, _, _, _ => none
  | _ + 1, argc, none, _, p => some (argc, p)
  | rounds + 1, argc, some token, savePtr, p =>
    (strtokR fuel savePtr (p.setWord (argv + 4 * argc) (minus token offset))).bind
      fun (token, savePtr, p) => tokenLoop argv offset fuel rounds (argc + 1) token savePtr p

/-- The call of `strtok_r` before the loop, or the one in its body, and the loop after it. -/
def fromToken (argv offset fuel rounds argc s : ℕ) (p : Proc) : Option (ℕ × Proc) :=
  (strtokR fuel s p).bind fun (token, savePtr, p) =>
    tokenLoop argv offset fuel rounds argc token savePtr p

/-- The end of `start_process`, after the command line was copied to `esp`: the padding, the
vector and the frame. -/
def pushFrame (argv argc fnSz esp : ℕ) (p : Proc) : Proc × ℕ :=
  let epSz := 16 - (fnSz + (argc + 3) * 4) % 16
  let esp := minus esp epSz
  let p := p.memset esp 0 epSz
  let esp := minus esp ((argc + 1) * 4)
  let p := p.memcpy esp argv ((argc + 1) * 4)
  let esp := minus esp 4
  let p := p.setWord esp ((esp + 4) % 2 ^ 32)
  let esp := minus esp 4
  let p := p.setWord esp argc
  let esp := minus esp 4
  (p.memset esp 0 4, esp)

/-- `start_process` from `load` on.  `palloc_free_page` overwrites the command line; a process that
was loaded starts at an address with a stack. -/
def afterLoad (start : Option (ℕ × ℕ)) (fileName argv argc fnSz : ℕ) (p : Proc) :
    Proc × Option (ℕ × ℕ) :=
  -- `if_` is zeroed, and `load` sets `if_.esp` only when it succeeds
  let esp := minus ((start.map Prod.snd).getD 0) fnSz
  let p := p.memcpy esp fileName fnSz
  let p := { p with mem := p.mem.memset fileName 0xcc pgSize }
  match start with
  | none => (p, none)
  | some (eip, _) =>
    let (p, esp) := pushFrame argv argc fnSz esp p
    (p, some (eip, esp))

/-- `start_process`, when `load` returns `start` and does `loading` to memory. -/
def startProcess (start : Option (ℕ × ℕ)) (loading : Mem → Mem) (fileName argv : ℕ) (m : Mem) :
    Option (Proc × Option (ℕ × ℕ)) :=
  (strlen m pgSize fileName).bind fun len =>
    let fnSz := len + 1
    let offset := minus (fileName + fnSz) loaderPhysBase
    (fromToken argv offset pgSize pgSize 0 fileName ⟨m, []⟩).map fun (argc, p) =>
      let p := p.setWord (argv + 4 * argc) 0
      afterLoad start fileName argv argc fnSz { p with mem := loading p.mem }

def strlcpy (m : Mem) (dst : ℕ) (src : List UInt8) (size : ℕ) : Mem :=
  m.store dst (src.take (size - 1) ++ [0])

/-- `process_execute` up to the new thread, which runs `start_process` on the copy. -/
def processExecute (start : Option (ℕ × ℕ)) (loading : Mem → Mem) (fileName argv : ℕ) (m : Mem)
    (cmd : List UInt8) : Option (Proc × Option (ℕ × ℕ)) :=
  startProcess start loading fileName argv (strlcpy m fileName cmd pgSize)

def words (s : List UInt8) : List (List UInt8) :=
  split (· = space) s

def CStr (m : Mem) : ℕ → List UInt8 → Prop
  | a, [] => m a = 0
  | a, b :: s => m a = b ∧ b ≠ 0 ∧ CStr m (a + 1) s

/-- The size of the stack with its padding. -/
def padding (s : List UInt8) : ℕ :=
  16 - (s.length + 1 + ((words s).length + 3) * 4) % 16

def stackSize (s : List UInt8) : ℕ :=
  s.length + 1 + padding s + ((words s).length + 1) * 4 + 12

/-- The copy of the command line is a page of the kernel, and `argv` is an array of 128 pointers
on the stack of the new thread, which has at least the return address above it.  Both are in the
kernel's mapping of RAM, which has at most 64 MB and so does not reach the last page. -/
structure Placed (fileName argv : ℕ) : Prop where
  file_kernel : loaderPhysBase ≤ fileName
  file_end : fileName + pgSize ≤ 2 ^ 32 - pgSize
  argv_kernel : loaderPhysBase ≤ argv
  argv_end : argv + 516 ≤ 2 ^ 32 - pgSize
  apart : argv + 516 ≤ fileName ∨ fileName + pgSize ≤ argv

/-- What `load` does: the result is that of a run of `load`, and the two buffers, which are not in
the pages it gets, are left alone. -/
structure IsLoad (start : Option (ℕ × ℕ)) (loading : Mem → Mem) (fileName argv : ℕ) : Prop where
  result : ∃ k file s r s', Loading.load k false file s = some (r, s') ∧ r.start = start
  keeps : ∀ m, Mem.Same (fun a => fileName ≤ a ∧ a < fileName + pgSize ∨
    argv ≤ a ∧ a < argv + 512) m (loading m)

section Strings

variable {m m' : Mem} {a fuel : ℕ} {s t : List UInt8}

theorem CStr.congr (h : CStr m a s) (hm : ∀ x, a ≤ x → x ≤ a + s.length → m' x = m x) :
    CStr m' a s := by
  induction s generalizing a with
  | nil => exact (hm a le_rfl le_rfl).trans h
  | cons b s ih =>
    obtain ⟨hb, hne, hs⟩ := h
    rw [length_cons] at hm
    exact ⟨(hm a le_rfl (by omega)).trans hb, hne, ih hs fun x hx hx' => hm x (by omega) (by omega)⟩

theorem cstr_of_forall (h : ∀ i (hi : i < s.length), m (a + i) = s[i]) (hnul : m (a + s.length) = 0)
    (hs : (0 : UInt8) ∉ s) : CStr m a s := by
  induction s generalizing a with
  | nil => exact hnul
  | cons b s ih =>
    refine ⟨h 0 (Nat.succ_pos _), fun hb => hs (hb ▸ mem_cons_self), ih ?_ ?_ ?_⟩
    · intro i hi
      rw [Nat.add_assoc, Nat.add_comm 1 i]
      exact h (i + 1) (Nat.succ_lt_succ hi)
    · rwa [Nat.add_assoc, Nat.add_comm 1]
    · exact fun hmem => hs (mem_cons_of_mem _ hmem)

theorem cstr_strlcpy (m : Mem) (dst size : ℕ) (hs : (0 : UInt8) ∉ s) :
    CStr (strlcpy m dst s size) dst (s.take (size - 1)) := by
  refine cstr_of_forall (fun i hi => ?_) ?_ fun hmem => hs (mem_of_mem_take hmem)
  · rw [strlcpy, store_of_mem (by rw [length_append]; omega), getElem_append_left hi]
  · rw [strlcpy, store_of_mem (by rw [length_append]; exact Nat.lt_succ_self _),
      getElem_append_right le_rfl]
    simp

theorem CStr.right (h : CStr m a (s ++ t)) : CStr m (a + s.length) t := by
  induction s generalizing a with
  | nil => exact h
  | cons b s ih =>
    have hs := ih h.2.2
    rwa [length_cons, Nat.add_comm s.length, ← Nat.add_assoc]

theorem CStr.cut (h : CStr m a (s ++ t)) : CStr (m.memset (a + s.length) 0 1) a s := by
  induction s generalizing a with
  | nil => exact memset_of_mem ⟨le_rfl, Nat.lt_succ_self _⟩
  | cons b s ih =>
    obtain ⟨hb, hne, hs⟩ := h
    refine ⟨?_, hne, ?_⟩
    · rw [memset_of_apart (Or.inl (by rw [length_cons]; omega)), hb]
    · have hcut := ih hs
      rwa [length_cons, Nat.add_comm s.length, ← Nat.add_assoc]

theorem CStr.nul (h : CStr m a s) : m (a + s.length) = 0 := by
  have := CStr.right (s := s) (t := []) (by rwa [append_nil])
  exact this

section

variable (h : CStr m a s) (hfuel : s.length < fuel)

include h hfuel

theorem CStr.strlen : Start.strlen m fuel a = some s.length := by
  induction s generalizing a fuel with
  | nil =>
    obtain ⟨n, rfl⟩ := Nat.exists_eq_add_of_lt hfuel
    rw [length_nil, Nat.zero_add, Start.strlen, if_pos (show m a = 0 from h)]
  | cons b s ih =>
    obtain ⟨n, rfl⟩ : ∃ n, fuel = n + 1 := ⟨fuel - 1, by omega⟩
    rw [length_cons] at hfuel
    rw [Start.strlen, h.1, if_neg h.2.1, ih h.2.2 (by omega)]
    rfl

theorem CStr.skipSpaces :
    ∃ sp r, s = sp ++ r ∧ words s = words r ∧ r.head? ≠ some space ∧
      Start.skipSpaces m fuel a = some (a + sp.length) := by
  induction s generalizing a fuel with
  | nil =>
    obtain ⟨n, rfl⟩ : ∃ n, fuel = n + 1 := ⟨fuel - 1, by omega⟩
    refine ⟨[], [], rfl, rfl, by simp, ?_⟩
    rw [Start.skipSpaces, show m a = 0 from h, if_neg (by decide)]
    rfl
  | cons b s ih =>
    obtain ⟨n, rfl⟩ : ∃ n, fuel = n + 1 := ⟨fuel - 1, by omega⟩
    rw [length_cons] at hfuel
    by_cases hb : b = space
    · obtain ⟨sp, r, rfl, hwords, hhead, hskip⟩ := ih h.2.2 (Nat.lt_of_succ_lt_succ hfuel)
      refine ⟨b :: sp, r, rfl, ?_, hhead, ?_⟩
      · rw [← hwords]
        exact split_cons_sep (p := (· = space)) (decide_eq_true hb) _
      · rw [Start.skipSpaces, h.1, if_pos hb, hskip, length_cons, Nat.add_assoc, Nat.add_comm 1]
    · refine ⟨[], b :: s, rfl, rfl, by simpa using hb, ?_⟩
      rw [Start.skipSpaces, h.1, if_neg hb]
      rfl

theorem CStr.tokenEnd :
    ∃ w r, s = w ++ r ∧ (∀ b ∈ w, b ≠ space) ∧ (r = [] ∨ ∃ r', r = space :: r') ∧
      Start.tokenEnd m fuel a = some (a + w.length) := by
  induction s generalizing a fuel with
  | nil =>
    obtain ⟨n, rfl⟩ : ∃ n, fuel = n + 1 := ⟨fuel - 1, by omega⟩
    refine ⟨[], [], rfl, by simp, Or.inl rfl, ?_⟩
    rw [Start.tokenEnd, if_pos (Or.inr (show m a = 0 from h))]
    rfl
  | cons b s ih =>
    obtain ⟨n, rfl⟩ : ∃ n, fuel = n + 1 := ⟨fuel - 1, by omega⟩
    rw [length_cons] at hfuel
    by_cases hb : b = space
    · refine ⟨[], b :: s, rfl, by simp, Or.inr ⟨s, by rw [hb]⟩, ?_⟩
      rw [Start.tokenEnd, if_pos (Or.inl (h.1.trans hb))]
      rfl
    · obtain ⟨w, r, rfl, hw, hr, hend⟩ := ih h.2.2 (Nat.lt_of_succ_lt_succ hfuel)
      refine ⟨b :: w, r, rfl, ?_, hr, ?_⟩
      · intro x hx
        rcases mem_cons.mp hx with rfl | hx
        · exact hb
        · exact hw x hx
      · rw [Start.tokenEnd, h.1, if_neg (not_or.mpr ⟨hb, h.2.1⟩), hend, length_cons,
          Nat.add_assoc, Nat.add_comm 1]

end

theorem words_append_space (s t : List UInt8) : words (s ++ space :: t) = words s ++ words t :=
  split_append_sep (by decide) s t

theorem words_of_forall (hne : s ≠ []) (h : ∀ b ∈ s, b ≠ space) : words s = [s] :=
  split_of_forall hne fun b hb => decide_eq_false (h b hb)

end Strings

section Tokens

variable {p : Proc} {fuel s : ℕ} {r : List UInt8}

/-- A store into the `len` bytes from `s` on. -/
def Within (s len : ℕ) (x : ℕ × ℕ) : Prop :=
  s ≤ x.1 ∧ x.1 + x.2 ≤ s + len

/-- What `strtok_r` does for a word `w` before the rest `r'` of a string: the word is a string of
its own, the rest is still there, and nothing outside of the string has changed. -/
structure Token (p : Proc) (s len : ℕ) (w r' : List UInt8) (token savePtr : ℕ) (p' : Proc) :
    Prop where
  word : CStr p'.mem token w
  rest : CStr p'.mem savePtr r'
  after : s ≤ token
  before : token + w.length ≤ savePtr
  separate : token + w.length < savePtr ∨ r' = []
  ends : savePtr + r'.length = s + len
  same : Mem.Same (fun a => a < s ∨ s + len ≤ a) p.mem p'.mem
  stores : ∃ new, p'.stores = p.stores ++ new ∧ ∀ x ∈ new, Within s len x

theorem strtokR_spec (h : CStr p.mem s r) (hfuel : r.length < fuel) :
    (words r = [] ∧ ∃ e, strtokR fuel s p = some (none, e, p)) ∨
      ∃ w r' token savePtr p', words r = w :: words r' ∧ r'.length < r.length ∧
        strtokR fuel s p = some (some token, savePtr, p') ∧
        Token p s r.length w r' token savePtr p' := by
  obtain ⟨sp, r, rfl, hwords, hhead, hskip⟩ := h.skipSpaces hfuel
  have hr := h.right
  rw [length_append] at hfuel
  rw [strtokR, hskip, Option.bind_some, hwords]
  cases r with
  | nil => exact Or.inl ⟨rfl, _, if_pos hr⟩
  | cons b r =>
    rw [show p.mem (s + sp.length) = b from hr.1, if_neg hr.2.1]
    have hlength : (b :: r).length < fuel := by omega
    obtain ⟨w, r', hsplit, hw, hr', hend⟩ := hr.tokenEnd hlength
    -- the token has its first character at least
    have hne : w ≠ [] := by
      rintro rfl
      rcases hr' with rfl | ⟨r'', rfl⟩
      · cases hsplit
      · cases hsplit
        exact hhead rfl
    rw [hend, Option.map_some]
    rw [hsplit] at hr ⊢
    refine Or.inr ?_
    rcases hr' with rfl | ⟨r'', rfl⟩
    · refine ⟨w, [], s + sp.length, s + sp.length + w.length, p, ?_, ?_, ?_, ?_⟩
      · rw [append_nil, words_of_forall hne hw]
        rfl
      · have := length_pos_iff.mpr hne
        simp only [length_append, length_nil]
        omega
      · rw [if_pos]
        exact hr.right
      · rw [append_nil] at hr
        exact {
          word := hr
          rest := hr.nul
          after := Nat.le_add_right _ _
          before := le_rfl
          separate := Or.inr rfl
          ends := by simp only [length_append, length_nil]; omega
          same := Mem.Same.refl _ _
          stores := ⟨[], (append_nil _).symm, by simp⟩ }
    · have hspace : p.mem (s + sp.length + w.length) = space := hr.right.1
      refine ⟨w, r'', s + sp.length, s + sp.length + w.length + 1,
        p.memset (s + sp.length + w.length) 0 1, ?_, ?_, ?_, ?_⟩
      · rw [words_append_space, words_of_forall hne hw]
        rfl
      · simp only [length_append, length_cons]
        omega
      · rw [if_neg (by rw [hspace]; decide)]
      · exact {
          word := hr.cut
          rest := hr.right.2.2.congr fun x hx _ => memset_of_apart (Or.inr hx)
          after := Nat.le_add_right _ _
          before := Nat.le_succ _
          separate := Or.inl (Nat.lt_succ_self _)
          ends := by simp only [length_append, length_cons]; omega
          same := same_memset fun x hx hx' => by
            simp only [length_append, length_cons]
            omega
          stores := ⟨[_], rfl, fun x hx => by
            rw [mem_singleton.mp hx]
            simp only [Within, length_append, length_cons]
            omega⟩ }

end Tokens

end Start

end CS162.Userprog
