import CS162.Lib.Split
import CS162.Tpc.Rpc

/-!
# Strings

What the journal uses of Go's `unicode/utf8`, `unicode`, `strings` and `strconv`.  `fields`
splits a string at its white space, which is found by decoding the string rune by rune.
-/

namespace CS162.Tpc

open List Split

/-- The bytes of a text of ASCII characters. -/
def ascii (text : List Char) : Bytes :=
  text.map fun c => UInt8.ofNat c.toNat

def newline : UInt8 := 0x0a

def carriageReturn : UInt8 := 0x0d

def space : UInt8 := 0x20

/-- A byte in the range of the second byte of an encoding, and so no first byte. -/
def Within (lo hi b : UInt8) : Bool :=
  lo ≤ b && b ≤ hi

def runeError : ℕ := 0xfffd

/-- `DecodeRuneInString` on a string with first byte `b0`: the rune and how many bytes it has. -/
def decodeRune (b0 : UInt8) (rest : Bytes) : ℕ × ℕ :=
  if b0 < 0x80 then (b0.toNat, 1)
  else if Within 0xc2 0xdf b0 then
    match rest with
    | b1 :: _ =>
      if Within 0x80 0xbf b1 then (b0.toNat % 32 * 64 + b1.toNat % 64, 2) else (runeError, 1)
    | [] => (runeError, 1)
  else if Within 0xe0 0xef b0 then
    match rest with
    | b1 :: b2 :: _ =>
      if Within (if b0 = 0xe0 then 0xa0 else 0x80) (if b0 = 0xed then 0x9f else 0xbf) b1 &&
          Within 0x80 0xbf b2 then
        (b0.toNat % 16 * 4096 + b1.toNat % 64 * 64 + b2.toNat % 64, 3)
      else (runeError, 1)
    | _ => (runeError, 1)
  else if Within 0xf0 0xf4 b0 then
    match rest with
    | b1 :: b2 :: b3 :: _ =>
      if Within (if b0 = 0xf0 then 0x90 else 0x80) (if b0 = 0xf4 then 0x8f else 0xbf) b1 &&
          Within 0x80 0xbf b2 && Within 0x80 0xbf b3 then
        (b0.toNat % 8 * 262144 + b1.toNat % 64 * 4096 + b2.toNat % 64 * 64 + b3.toNat % 64, 4)
      else (runeError, 1)
    | _ => (runeError, 1)
  else (runeError, 1)

def isSpace (r : ℕ) : Bool :=
  (0x09 ≤ r && r ≤ 0x0d) || r = 0x20 || r = 0x85 || r = 0xa0 || r = 0x1680 ||
    (0x2000 ≤ r && r ≤ 0x200a) || r = 0x2028 || r = 0x2029 || r = 0x202f || r = 0x205f || r = 0x3000

/-- Which bytes of a string belong to white space, when the first `skip` of them are the rest of a
rune that is white space or not as `blank` says. -/
def blanks : ℕ → Bool → Bytes → List Bool
  | _, _, [] => []
  | skip + 1, blank, _ :: bytes => blank :: blanks skip blank bytes
  | 0, _, b :: bytes =>
    let (r, width) := decodeRune b bytes
    isSpace r :: blanks (width - 1) (isSpace r) bytes

def fields (s : Bytes) : List Bytes :=
  loop (s.zip (blanks 0 false s)) []

/-- A string without white space. -/
def Solid (s : Bytes) : Prop :=
  ∀ blank ∈ blanks 0 false s, blank = false

instance (s : Bytes) : Decidable (Solid s) :=
  inferInstanceAs (Decidable (∀ _ ∈ _, _))

def itoa (n : ℤ) : Bytes :=
  ascii (if n < 0 then '-' :: Nat.toDigits 10 n.natAbs else Nat.toDigits 10 n.natAbs)

section Blanks

variable {x : UInt8} {s t : Bytes} {skip : ℕ} {blank : Bool}

theorem decodeRune_append_ascii (b0 : UInt8) (s t : Bytes) (hx : x < 0x80) :
    decodeRune b0 (s ++ x :: t) = decodeRune b0 s := by
  have hlow : ∀ lo hi, 0x80 ≤ lo → Within lo hi x = false := fun lo hi hlo => by
    simp only [Within, Bool.and_eq_false_iff, decide_eq_false_iff_not, UInt8.not_le]
    exact Or.inl (UInt8.lt_of_lt_of_le hx hlo)
  have hrange : ∀ (p : Prop) [Decidable p] (x : UInt8), 0x80 ≤ x →
      (0x80 : UInt8) ≤ if p then x else 0x80 := fun p _ x hx => by
    split
    · exact hx
    · exact UInt8.le_refl _
  unfold decodeRune
  rcases s with _ | ⟨b1, _ | ⟨b2, _ | ⟨b3, s⟩⟩⟩
  · rcases t with _ | ⟨x, _ | ⟨y, t⟩⟩ <;> simp [hlow, hrange]
  · cases t <;> simp [hlow]
  · simp [hlow]
  · simp

theorem decodeRune_width (b0 : UInt8) (s : Bytes) :
    1 ≤ (decodeRune b0 s).2 ∧ (decodeRune b0 s).2 ≤ s.length + 1 := by
  unfold decodeRune
  rcases s with _ | ⟨b1, _ | ⟨b2, _ | ⟨b3, s⟩⟩⟩ <;> simp <;> split_ifs <;> simp

@[simp] theorem blanks_length (skip : ℕ) (blank : Bool) (s : Bytes) :
    (blanks skip blank s).length = s.length := by
  induction s generalizing skip blank with
  | nil =>
    rw [blanks]
    rfl
  | cons b s ih => cases skip <;> simp [blanks, ih]

theorem blanks_zero (blank : Bool) (s : Bytes) : blanks 0 blank s = blanks 0 false s := by
  cases s <;> rfl

theorem blanks_append_ascii (hx : x < 0x80) (hskip : skip ≤ s.length) :
    blanks skip blank (s ++ x :: t) =
      blanks skip blank s ++ isSpace x.toNat :: blanks 0 false t := by
  induction s generalizing skip blank with
  | nil =>
    obtain rfl : skip = 0 := Nat.le_zero.mp hskip
    have hdecode : decodeRune x t = (x.toNat, 1) := by rw [decodeRune.eq_def, if_pos hx]
    simp only [nil_append, blanks, hdecode]
    exact congrArg (isSpace x.toNat :: ·) (blanks_zero _ t)
  | cons b s ih =>
    cases skip with
    | succ skip =>
      rw [cons_append, blanks, blanks, ih (Nat.le_of_succ_le_succ hskip)]
      rfl
    | zero =>
      have hwidth := decodeRune_width b s
      rw [cons_append, blanks, blanks, decodeRune_append_ascii b s t hx]
      dsimp only
      rw [ih (by omega)]
      rfl

theorem Solid.not_mem (h : Solid s) (hx : x < 0x80) (hspace : isSpace x.toNat) : x ∉ s := by
  intro hmem
  obtain ⟨a, b, rfl⟩ := append_of_mem hmem
  have hblank := h (isSpace x.toNat) (by
    rw [blanks_append_ascii hx (Nat.zero_le _)]
    exact mem_append_right _ (mem_cons_self ..))
  rw [hspace] at hblank
  cases hblank

theorem solid_of_printable (h : ∀ b ∈ s, 0x20 < b ∧ b < 0x7f) : Solid s := by
  intro blank hmem
  induction s with
  | nil => exact absurd hmem not_mem_nil
  | cons b s ih =>
    obtain ⟨hlo, hhi⟩ := h b (mem_cons_self ..)
    have hdecode : decodeRune b s = (b.toNat, 1) := by
      rw [decodeRune.eq_def, if_pos (UInt8.lt_trans hhi (by decide))]
    have hspace : isSpace b.toNat = false := by
      have hlo' : 0x20 < b.toNat := hlo
      have hhi' : b.toNat < 0x7f := hhi
      simp only [isSpace, Bool.or_eq_false_iff, Bool.and_eq_false_iff, decide_eq_false_iff_not]
      omega
    rw [blanks, hdecode] at hmem
    dsimp only at hmem
    rw [hspace] at hmem
    rcases mem_cons.mp hmem with rfl | hmem
    · rfl
    · exact ih (fun x hx => h x (mem_cons_of_mem _ hx)) hmem

end Blanks

section Fields

variable {s t : Bytes}

theorem fields_append_space (s t : Bytes) : fields (s ++ space :: t) = fields s ++ fields t := by
  unfold fields
  rw [blanks_append_ascii (by decide) (Nat.zero_le _), zip_append (by simp), zip_cons_cons]
  exact loop_append_sep ..

theorem fields_of_solid (hne : s ≠ []) (h : Solid s) : fields s = [s] := by
  rw [fields, loop_of_forall fun x hx => h _ (of_mem_zip hx).2,
    map_fst_zip (by simp), nil_append, if_neg (by simpa using hne)]

theorem mem_of_mem_fields {f : Bytes} (hf : f ∈ fields s) {b : UInt8} (hb : b ∈ f) : b ∈ s :=
  (of_mem_zip ((mem_of_mem_loop hf hb).resolve_left not_mem_nil)).1

theorem ne_nil_of_mem_fields {f : Bytes} (hf : f ∈ fields s) : f ≠ [] :=
  ne_nil_of_mem_loop hf

theorem fields_length (s : Bytes) :
    (fields s).flatten.length + (s.zip (blanks 0 false s)).countP Prod.snd = s.length := by
  have h := loop_length (s.zip (blanks 0 false s)) []
  rwa [length_zip, blanks_length, Nat.min_self, length_nil, Nat.zero_add] at h

theorem fields_length_le (s : Bytes) : (fields s).flatten.length ≤ s.length :=
  (Nat.le_add_right _ _).trans (fields_length s).le

theorem solid_of_length (h : (fields s).flatten.length = s.length) : Solid s := by
  have hlen := fields_length s
  have hcount : (s.zip (blanks 0 false s)).countP Prod.snd = 0 := by omega
  intro blank hmem
  have hsnd : blank ∈ (s.zip (blanks 0 false s)).map Prod.snd := by
    rwa [map_snd_zip (by simp)]
  obtain ⟨x, hx, rfl⟩ := List.mem_map.mp hsnd
  exact Bool.eq_false_iff.mpr (countP_eq_zero.mp hcount x hx)

end Fields

end CS162.Tpc
