import Mathlib

/-!
# The request parser

`http_request_parse` of `libhttp.c`. The buffer holds the bytes that were read and a terminator;
a scan that would look behind it has no result.
-/

namespace CS162.Http

open List Option

structure HttpRequest where
  method : List UInt8
  path : List UInt8
deriving DecidableEq

def isUpper (c : UInt8) : Bool :=
  decide (0x41 ≤ c ∧ c ≤ 0x5a)

def isPath (c : UInt8) : Bool :=
  decide (c ≠ 0 ∧ c ≠ 0x20 ∧ c ≠ 0x0a)

def isRest (c : UInt8) : Bool :=
  decide (c ≠ 0 ∧ c ≠ 0x0a)

/-- A loop that moves `read_end` on while the byte there meets a condition. -/
def scan (p : UInt8 → Bool) (readBuffer : List UInt8) : ℕ → ℕ → Option ℕ
  | 0, _ => none
  | n + 1, readEnd =>
    readBuffer[readEnd]?.bind fun c =>
      if p c then scan p readBuffer n (readEnd + 1) else some readEnd

/-- `http_request_parse` after a `read` of the bytes `bytes`; the outer option is
for a look outside the buffer, the inner one for the null pointer. -/
def httpRequestParse (bytes : List UInt8) : Option (Option HttpRequest) :=
  let readBuffer := bytes ++ [0]
  let n := readBuffer.length
  (scan isUpper readBuffer n 0).bind fun methodEnd =>
    if methodEnd = 0 then some none
    else
      readBuffer[methodEnd]?.bind fun c =>
        if c ≠ 0x20 then some none
        else
          (scan isPath readBuffer n (methodEnd + 1)).bind fun pathEnd =>
            if pathEnd - (methodEnd + 1) = 0 then some none
            else
              (scan isRest readBuffer n pathEnd).bind fun lineEnd =>
                readBuffer[lineEnd]?.bind fun c =>
                  if c ≠ 0x0a then some none
                  else some (some
                    { method := readBuffer.take methodEnd
                      path := (readBuffer.drop (methodEnd + 1)).take
                        (pathEnd - (methodEnd + 1)) })

/-- The text begins with a request line, its first two parts as long as they can
be: `[A-Z]+`, a space, `[^ \n]+`, `[^\n]*` and a line feed. -/
structure RequestLine (s : List UInt8) (q : HttpRequest) : Prop where
  split : ∃ rest tail, s = q.method ++ 0x20 :: (q.path ++ (rest ++ 0x0a :: tail)) ∧
    (∀ c ∈ rest, c ≠ 0x0a) ∧ ∀ c ∈ rest.head?, c = 0x20
  method : q.method ≠ [] ∧ ∀ c ∈ q.method, isUpper c
  path : q.path ≠ [] ∧ ∀ c ∈ q.path, c ≠ 0x20 ∧ c ≠ 0x0a

/-- The same for a buffer, in which the text ends at a zero byte; `d` is the byte that
ends the path. -/
def Begins (l : List UInt8) (q : HttpRequest) : Prop :=
  ∃ d x rest y, l = q.method ++ 0x20 :: (q.path ++ d :: x) ∧ d :: x = rest ++ 0x0a :: y ∧
    (q.method ≠ [] ∧ ∀ c ∈ q.method, isUpper c) ∧ (q.path ≠ [] ∧ ∀ c ∈ q.path, isPath c) ∧
    isPath d = false ∧ ∀ c ∈ rest, isRest c

variable {p : UInt8 → Bool} {l u v w v' w' : List UInt8} {n : ℕ} {c d : UInt8}
  {q : HttpRequest}

theorem exists_stop (p : UInt8 → Bool) (h : 0 ∈ l) (hp : p 0 = false) :
    ∃ v c w, l = v ++ c :: w ∧ (∀ x ∈ v, p x) ∧ p c = false := by
  induction l with
  | nil => cases h
  | cons b l ih =>
    cases hb : p b with
    | false => exact ⟨[], b, l, rfl, by simp, hb⟩
    | true =>
      have hl : 0 ∈ l := (mem_cons.mp h).resolve_left fun h0 => by simp [← h0, hp] at hb
      obtain ⟨v, c, w, rfl, hv, hc⟩ := ih hl
      exact ⟨b :: v, c, w, rfl, by simpa [hb] using hv, hc⟩

theorem stop_unique (hv : ∀ x ∈ v, p x) (hc : p c = false) (hv' : ∀ x ∈ v', p x)
    (hd : p d = false) (h : v ++ c :: w = v' ++ d :: w') : v = v' ∧ c = d ∧ w = w' := by
  have htake : ∀ {v w : List UInt8} {c : UInt8}, (∀ x ∈ v, p x) → p c = false →
      (v ++ c :: w).takeWhile p = v := by
    intro v w c hv hc
    rw [takeWhile_append_of_pos hv, takeWhile_cons_of_neg (by simp [hc]), append_nil]
  have hvv : v = v' := by rw [← htake hv hc, h, htake hv' hd]
  subst hvv
  exact ⟨rfl, cons_eq_cons.mp (append_cancel_left h)⟩

theorem zero_mem_rest (h : 0 ∈ v ++ c :: w) (hp : p 0 = false) (hv : ∀ x ∈ v, p x)
    (hc : c ≠ 0) : 0 ∈ w := by
  rcases mem_append.mp h with h | h
  · exact absurd (hv 0 h) (by simp [hp])
  · exact (mem_cons.mp h).resolve_left hc.symm

theorem scan_eq (hv : ∀ x ∈ v, p x) (hc : p c = false) (hn : v.length < n) :
    scan p (u ++ (v ++ c :: w)) n u.length = some (u.length + v.length) := by
  induction v generalizing u n with
  | nil =>
    obtain _ | n := n
    · omega
    · simp [scan, hc]
  | cons b v ih =>
    obtain _ | n := n
    · omega
    · rw [length_cons] at hn
      have hstep := ih (u := u ++ [b]) (fun x hx => hv x (mem_cons_of_mem b hx))
        (Nat.lt_of_succ_lt_succ hn)
      rw [append_assoc, length_append, length_singleton] at hstep
      simp only [scan, cons_append, getElem?_append_right (Nat.le_refl u.length),
        Nat.sub_self, getElem?_cons_zero, bind_some, hv b mem_cons_self, if_true]
      rw [length_cons, Nat.add_comm v.length, ← Nat.add_assoc]
      exact hstep

theorem getElem?_stop (u v w : List UInt8) (c : UInt8) :
    (u ++ (v ++ c :: w))[u.length + v.length]? = some c := by
  rw [← append_assoc, ← length_append, getElem?_append_right (Nat.le_refl _)]
  simp

theorem requestLine_iff : RequestLine (l.takeWhile (· ≠ 0)) q ↔ Begins l q := by
  constructor
  · rintro ⟨⟨rest, tail, hs, hrest, hhead⟩, hm, hp, hpath⟩
    have hl := (takeWhile_append_dropWhile (p := (· ≠ (0 : UInt8))) (l := l)).symm
    have hne : ∀ c ∈ l.takeWhile (· ≠ 0), c ≠ 0 := fun c hc => by
      simpa using mem_takeWhile_imp hc
    rw [hs] at hne hl
    obtain ⟨d, x, hdx, hd⟩ : ∃ d x, rest ++ 0x0a :: (tail ++ l.dropWhile (· ≠ 0)) = d :: x ∧
        isPath d = false := by
      cases rest with
      | nil => exact ⟨0x0a, _, rfl, rfl⟩
      | cons d rest => exact ⟨d, _, rfl, by rw [hhead d rfl]; rfl⟩
    refine ⟨d, x, rest, _, ?_, hdx.symm, hm, ⟨hp, fun c hc => ?_⟩, hd, fun c hc => ?_⟩
    · rw [← hdx]
      simpa using hl
    · exact decide_eq_true ⟨hne c (by simp [hc]), hpath c hc⟩
    · exact decide_eq_true ⟨hne c (by simp [hc]), hrest c hc⟩
  · rintro ⟨d, x, rest, y, rfl, hdx, hm, hp, hd, hrest⟩
    rw [hdx]
    simp only [isPath, isRest, decide_eq_true_eq] at hp hrest
    refine ⟨⟨rest, y.takeWhile (· ≠ 0), ?_, fun c hc => (hrest c hc).2, fun c hc => ?_⟩, hm,
      hp.1, fun c hc => (hp.2 c hc).2⟩
    · rw [takeWhile_append_of_pos, takeWhile_cons_of_pos (by decide), takeWhile_append_of_pos,
        takeWhile_append_of_pos, takeWhile_cons_of_pos (by decide)]
      · exact fun c hc => decide_eq_true (hrest c hc).1
      · exact fun c hc => decide_eq_true (hp.2 c hc).1
      · intro c hc
        refine decide_eq_true ?_
        rintro rfl
        exact absurd (hm.2 0 hc) (by decide)
    · cases rest with
      | nil => cases hc
      | cons e rest =>
        cases hc
        obtain ⟨rfl, -⟩ := cons_eq_cons.mp hdx
        obtain ⟨h0, hlf⟩ := hrest d mem_cons_self
        by_contra hsp
        simp [isPath, h0, hlf, hsp] at hd

/-- A request is returned just for a request line, with its first two parts, and no
scan looks outside the buffer. -/
theorem httpRequestParse_iff (bytes : List UInt8) :
    ∃ r, httpRequestParse bytes = some r ∧
      ∀ q, r = some q ↔ RequestLine (bytes.takeWhile (· ≠ 0)) q := by
  have htext : bytes.takeWhile (· ≠ 0) = (bytes ++ [0]).takeWhile (· ≠ 0) := by
    induction bytes with
    | nil => rfl
    | cons b bytes ih => rw [cons_append, takeWhile_cons, takeWhile_cons, ih]
  rw [htext, httpRequestParse]
  simp only [requestLine_iff]
  have h0 : (0 : UInt8) ∈ bytes ++ [0] := by simp
  generalize bytes ++ [0] = l at h0
  generalize hn : l.length = n
  have hnone : (∀ q, ¬ Begins l q) → ∃ r, some (none : Option HttpRequest) = some r ∧ ∀ q,
    r = some q ↔ Begins l q := fun h => ⟨none, rfl, fun q => ⟨nofun, fun hq => absurd hq (h q)⟩⟩
  -- the method, and the byte behind it
  obtain ⟨m, c, w, rfl, hm, hc⟩ := exists_stop isUpper h0 rfl
  have hscan : scan isUpper (m ++ c :: w) n 0 = some m.length := by
    simpa using scan_eq (u := []) (w := w) (n := n) hm hc (by simp [← hn])
  have hget : (m ++ c :: w)[m.length]? = some c := by simp
  rw [hscan, bind_some, hget, bind_some]
  have hmethod : ∀ {q}, Begins (m ++ c :: w) q → m = q.method ∧ c = 0x20 ∧
      ∃ d x rest y, w = q.path ++ d :: x ∧ d :: x = rest ++ 0x0a :: y ∧
        (∀ c ∈ q.path, isPath c) ∧ isPath d = false ∧ ∀ c ∈ rest, isRest c := by
    rintro q ⟨d, x, rest, y, heq, hdx, hq, hpath, hd, hrest⟩
    obtain ⟨h1, h2, h3⟩ := stop_unique hm hc hq.2 rfl heq
    exact ⟨h1, h2, d, x, rest, y, h3, hdx, hpath.2, hd, hrest⟩
  by_cases hnil : m.length = 0
  · rw [if_pos hnil]
    refine hnone fun q hq => ?_
    obtain ⟨-, -, -, -, -, -, hm', -⟩ := id hq
    exact hm'.1 ((hmethod hq).1 ▸ length_eq_zero_iff.mp hnil)
  rw [if_neg hnil]
  by_cases hsp : c ≠ 0x20
  · rw [if_pos hsp]
    exact hnone fun q hq => hsp (hmethod hq).2.1
  rw [if_neg hsp]
  obtain rfl : c = 0x20 := not_not.mp hsp
  -- the path, and the byte behind it
  have h1 : 0 ∈ w := zero_mem_rest h0 rfl hm (by decide)
  obtain ⟨b, d, x, rfl, hb, hd⟩ := exists_stop isPath h1 rfl
  have hscan : scan isPath (m ++ 0x20 :: (b ++ d :: x)) n (m.length + 1) =
      some (m.length + 1 + b.length) := by
    have := scan_eq (u := m ++ [0x20]) (w := x) (n := n) hb hd (by simp [← hn]; omega)
    rwa [append_assoc, length_append] at this
  have hpath : ∀ {q}, Begins (m ++ 0x20 :: (b ++ d :: x)) q → m = q.method ∧ b = q.path ∧
      ∃ rest y, d :: x = rest ++ 0x0a :: y ∧ ∀ c ∈ rest, isRest c := by
    intro q hq
    obtain ⟨hmq, -, d', x', rest, y, heq, hdx, hq, hd', hrest⟩ := hmethod hq
    obtain ⟨hbq, rfl, rfl⟩ := stop_unique hb hd hq hd' heq
    exact ⟨hmq, hbq, rest, y, hdx, hrest⟩
  rw [hscan, bind_some, Nat.add_sub_cancel_left]
  by_cases hempty : b.length = 0
  · rw [if_pos hempty]
    refine hnone fun q hq => ?_
    obtain ⟨-, -, -, -, -, -, -, hp, -⟩ := id hq
    exact hp.1 ((hpath hq).2.1 ▸ length_eq_zero_iff.mp hempty)
  rw [if_neg hempty]
  -- the rest of the line
  have h2 : 0 ∈ d :: x := (mem_append.mp h1).resolve_left fun h =>
    absurd (hb 0 h) (by decide)
  obtain ⟨e, f, y, hdx, he, hf⟩ := exists_stop isRest h2 rfl
  have hscan : scan isRest (m ++ 0x20 :: (b ++ d :: x)) n (m.length + 1 + b.length) =
      some (m.length + 1 + b.length + e.length) := by
    have hlen : e.length < n := by
      have := congrArg List.length hdx
      simp only [← hn, length_append, length_cons] at this ⊢
      omega
    have := scan_eq (u := m ++ 0x20 :: b) (w := y) (n := n) he hf hlen
    rw [hdx]
    simpa [Nat.add_assoc, Nat.add_comm 1] using this
  have hget : (m ++ 0x20 :: (b ++ d :: x))[m.length + 1 + b.length + e.length]? = some f := by
    have := getElem?_stop (m ++ 0x20 :: b) e y f
    rw [hdx]
    simpa [Nat.add_assoc, Nat.add_comm 1] using this
  rw [hscan, bind_some, hget, bind_some]
  by_cases hlf : f ≠ 0x0a
  · rw [if_pos hlf]
    refine hnone fun q hq => ?_
    obtain ⟨-, -, rest, y', heq, hrest⟩ := hpath hq
    exact hlf (stop_unique he hf hrest rfl (hdx ▸ heq)).2.1
  rw [if_neg hlf]
  obtain rfl : f = 0x0a := not_not.mp hlf
  refine ⟨_, rfl, fun q => ?_⟩
  have htake : (m ++ 0x20 :: (b ++ d :: x)).take m.length = m := by simp
  have hdrop : ((m ++ 0x20 :: (b ++ d :: x)).drop (m.length + 1)).take b.length = b := by simp
  rw [htake, hdrop]
  constructor
  · rintro ⟨⟩
    exact ⟨d, x, e, y, rfl, hdx, ⟨by simpa using hnil, hm⟩, ⟨by simpa using hempty, hb⟩, hd, he⟩
  · intro hq
    obtain ⟨rfl, rfl, -⟩ := hpath hq
    rfl

end CS162.Http
