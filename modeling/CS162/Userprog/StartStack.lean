import CS162.Userprog.LoadSafe
import CS162.Userprog.StartProcess

/-!
# The initial stack of a process

What `start_process` leaves in memory, and what it stores on the way.
-/

namespace CS162.Userprog

open List Option Mem Loading
open Threads

namespace Start

/-- The loop has found the words of a string: each is a string of its own with its entry in the
vector, and nothing outside of the string and of these entries has changed. -/
structure Parsed (argv offset argc s : ℕ) (r : List UInt8) (p p' : Proc) : Prop where
  entry : ∀ i (h : i < (words r).length), ∃ t, s ≤ t ∧ t + (words r)[i].length ≤ s + r.length ∧
    p'.mem.word (argv + 4 * (argc + i)) = minus t offset ∧ CStr p'.mem t (words r)[i]
  same : Mem.Same (fun a => (a < s ∨ s + r.length ≤ a) ∧
    (a < argv + 4 * argc ∨ argv + 4 * (argc + (words r).length) ≤ a)) p.mem p'.mem
  stores : ∃ new, p'.stores = p.stores ++ new ∧ ∀ x ∈ new, Within s r.length x ∨
    Within (argv + 4 * argc) (4 * (words r).length) x

section Loop

variable {argv offset fuel rounds argc s savePtr : ℕ} {r : List UInt8} {p p' : Proc}

theorem minus_lt (a b : ℕ) : minus a b < 2 ^ 32 :=
  Nat.mod_lt _ (by norm_num)

theorem Parsed.cons {w r' : List UInt8} {token : ℕ} {p1 : Proc} (hwords : words r = w :: words r')
    (htoken : Token p s r.length w r' token savePtr p1)
    (happart : argv + 4 * (argc + (words r).length) ≤ s ∨ s + r.length < argv + 4 * argc)
    (h : Parsed argv offset (argc + 1) savePtr r'
    (p1.setWord (argv + 4 * argc) (minus token offset)) p') : Parsed argv offset argc s r p p' := by
  have hlength : (words r).length = (words r').length + 1 := by rw [hwords, length_cons]
  have hafter := htoken.after
  have hbefore := htoken.before
  have hends := htoken.ends
  have hseparate := htoken.separate
  refine ⟨?_, ?_, ?_⟩
  · intro i hi
    cases i with
    | zero =>
      refine ⟨token, hafter, ?_, ?_, ?_⟩
      · simp only [hwords, getElem_cons_zero]
        omega
      · rw [Nat.add_zero, h.same.word fun x hx hx' => by omega]
        exact word_setWord _ _ (minus_lt _ _)
      · simp only [hwords, getElem_cons_zero]
        refine htoken.word.congr fun x hx hx' => ?_
        have hrest : x < savePtr ∨ savePtr + r'.length ≤ x := by
          rcases hseparate with hlt | rfl
          · exact Or.inl (by omega)
          · exact Nat.lt_or_ge x savePtr
        rw [h.same x ⟨hrest, by omega⟩]
        exact setWord_of_apart (by omega)
    | succ i =>
      obtain ⟨t, hle, hend, hword, hstr⟩ := h.entry i (by omega)
      refine ⟨t, by omega, ?_, ?_, ?_⟩
      · simp only [hwords, getElem_cons_succ]
        omega
      · rw [← hword, Nat.add_assoc argc 1 i, Nat.add_comm 1 i]
      · simpa only [hwords, getElem_cons_succ] using hstr
  · intro a ha
    rw [h.same a (by omega)]
    exact (setWord_of_apart (by omega)).trans (htoken.same a ha.1)
  · obtain ⟨new1, h1, hnew1⟩ := htoken.stores
    obtain ⟨new2, h2, hnew2⟩ := h.stores
    refine ⟨new1 ++ [(argv + 4 * argc, 4)] ++ new2, ?_, ?_⟩
    · rw [h2, Proc.setWord, h1]
      simp only [append_assoc]
    · intro x hx
      rcases mem_append.mp hx with hx | hx
      · rcases mem_append.mp hx with hx | hx
        · exact Or.inl (hnew1 x hx)
        · rw [mem_singleton.mp hx]
          exact Or.inr ⟨le_rfl, by simp only; omega⟩
      · rcases hnew2 x hx with hx | hx
        · unfold Within at hx ⊢
          omega
        · unfold Within at hx ⊢
          omega

theorem fromToken_spec (h : CStr p.mem s r) (hfuel : r.length < fuel) (hrounds : r.length < rounds)
    (happart : argv + 4 * (argc + (words r).length) ≤ s ∨ s + r.length < argv + 4 * argc) :
    ∃ p', fromToken argv offset fuel rounds argc s p = some (argc + (words r).length, p') ∧
      Parsed argv offset argc s r p p' := by
  induction rounds generalizing argc s r p with
  | zero => omega
  | succ rounds ih =>
    rcases strtokR_spec h hfuel with ⟨hwords, e, hnone⟩ |
      ⟨w, r', token, savePtr, p1, hwords, hlt, hsome, htoken⟩
    · refine ⟨p, ?_, ?_, Mem.Same.refl _ _, [], (append_nil _).symm, by simp⟩
      · rw [fromToken, hnone, hwords]
        rfl
      · intro i hi
        rw [hwords] at hi
        cases hi
    · have hlength : (words r).length = (words r').length + 1 := by
        rw [hwords, length_cons]
      have hends := htoken.ends
      have hrest : CStr (p1.setWord (argv + 4 * argc) (minus token offset)).mem savePtr r' :=
        htoken.rest.congr fun x _ _ => setWord_of_apart (by omega)
      have happart' : argv + 4 * (argc + 1 + (words r').length) ≤ savePtr ∨
          savePtr + r'.length < argv + 4 * (argc + 1) := by
        omega
      obtain ⟨p', hrun, hparsed⟩ := ih hrest (by omega) (by omega) happart'
      refine ⟨p', ?_, hparsed.cons hwords htoken happart⟩
      rw [hlength, Nat.add_comm (words r').length 1, ← Nat.add_assoc, ← hrun, fromToken, hsome]
      rfl

/-! A store that was made stays in the list. -/

theorem strtokR_stores {token : Option ℕ} (h : strtokR fuel s p = some (token, savePtr, p')) :
    p.stores ⊆ p'.stores := by
  obtain ⟨e, -, h⟩ := bind_eq_some_iff.mp h
  split at h
  · cases h
    exact List.Subset.refl _
  · obtain ⟨e', -, h⟩ := map_eq_some_iff.mp h
    split at h
    · cases h
      exact List.Subset.refl _
    · cases h
      exact subset_append_left _ _

theorem tokenLoop_stores {token : Option ℕ} {n : ℕ}
    (h : tokenLoop argv offset fuel rounds argc token savePtr p = some (n, p')) :
    p.stores ⊆ p'.stores := by
  induction rounds generalizing argc token savePtr p with
  | zero => cases h
  | succ rounds ih =>
    cases token with
    | none =>
      cases h
      exact List.Subset.refl _
    | some token =>
      obtain ⟨⟨token', savePtr', p1⟩, hstrtok, h⟩ := bind_eq_some_iff.mp h
      exact List.Subset.trans (subset_append_left _ _)
        (List.Subset.trans (strtokR_stores hstrtok) (ih h))

theorem fromToken_overflow {n : ℕ} (h : CStr p.mem s r) (hfuel : r.length < fuel)
    (hargc : argc ≤ 128) (hmany : 128 < argc + (words r).length)
    (happart : argv + 516 ≤ s ∨ s + r.length < argv)
    (hrun : fromToken argv offset fuel rounds argc s p = some (n, p')) :
    (argv + 512, 4) ∈ p'.stores := by
  induction rounds generalizing argc s r p with
  | zero =>
    obtain ⟨_, -, hrun⟩ := bind_eq_some_iff.mp hrun
    cases hrun
  | succ rounds ih =>
    rcases strtokR_spec h hfuel with ⟨hwords, -⟩ |
      ⟨w, r', token, savePtr, p1, hwords, hlt, hsome, htoken⟩
    · rw [hwords, length_nil] at hmany
      omega
    · have hends := htoken.ends
      rw [hwords, length_cons] at hmany
      rw [fromToken, hsome, bind_some] at hrun
      rcases Nat.lt_or_eq_of_le hargc with hargc | rfl
      · exact ih (htoken.rest.congr fun x _ _ => setWord_of_apart (by omega)) (by omega)
          hargc (by omega) (by omega) hrun
      · obtain ⟨⟨token', savePtr', p2⟩, hstrtok, hloop⟩ := bind_eq_some_iff.mp hrun
        exact tokenLoop_stores hloop
          (strtokR_stores hstrtok (mem_append_right _ (mem_singleton_self _)))

end Loop

section Frame

variable {argv argc fnSz esp : ℕ} {p : Proc}

theorem minus_of_le {a b : ℕ} (hab : b ≤ a) (ha : a < 2 ^ 32) : minus a b = a - b := by
  unfold minus
  omega

theorem CStr.memcpy {m : Mem} {t dst src n : ℕ} {w : List UInt8} (h : CStr m t w) (hsrc : src ≤ t)
    (hend : t + w.length < src + n) : CStr (m.memcpy dst src n) (dst + (t - src)) w := by
  induction w generalizing t with
  | nil =>
    rw [CStr, memcpy_of_mem (by omega)]
    have hsame : src + (dst + (t - src) - dst) = t := by omega
    rw [hsame]
    exact h
  | cons b w ih =>
    obtain ⟨hb, hne, hw⟩ := h
    rw [length_cons] at hend
    refine ⟨?_, hne, ?_⟩
    · rw [memcpy_of_mem (by omega)]
      have hsame : src + (dst + (t - src) - dst) = t := by omega
      rw [hsame]
      exact hb
    · have hrest := ih hw (by omega) (by omega)
      have hnext : dst + (t + 1 - src) = dst + (t - src) + 1 := by omega
      rwa [hnext] at hrest

/-- The padding `start_process` computes. -/
def epSz (argc fnSz : ℕ) : ℕ :=
  16 - (fnSz + (argc + 3) * 4) % 16

/-- The areas below `esp`: the frame, the vector and the padding. -/
structure Pushed (argv argc fnSz esp : ℕ) (p p' : Proc) (esp' : ℕ) : Prop where
  size : esp' + 12 + (argc + 1) * 4 + epSz argc fnSz = esp
  ret_eq : p'.mem.word esp' = 0
  argc_eq : p'.mem.word (esp' + 4) = argc
  argv_eq : p'.mem.word (esp' + 8) = esp' + 12
  vector : ∀ i ≤ argc, p'.mem.word (esp' + 12 + 4 * i) = p.mem.word (argv + 4 * i)
  same : Mem.Same (fun a => esp ≤ a) p.mem p'.mem
  stores : p'.stores = p.stores ++ [(esp' + 12 + (argc + 1) * 4, epSz argc fnSz),
    (esp' + 12, (argc + 1) * 4), (esp' + 8, 4), (esp' + 4, 4), (esp', 4)]

theorem pushFrame_spec (hroom : 12 + (argc + 1) * 4 + epSz argc fnSz ≤ esp) (hesp : esp < 2 ^ 32)
    (hargv : esp ≤ argv) :
    Pushed argv argc fnSz esp p (pushFrame argv argc fnSz esp p).1
      (pushFrame argv argc fnSz esp p).2 := by
  obtain ⟨e, rfl⟩ : ∃ e, esp = e + 12 + (argc + 1) * 4 + epSz argc fnSz :=
    ⟨esp - (12 + (argc + 1) * 4 + epSz argc fnSz), by omega⟩
  have h1 : minus (e + 12 + (argc + 1) * 4 + epSz argc fnSz) (epSz argc fnSz) =
      e + 12 + (argc + 1) * 4 := by
    rw [minus_of_le (by omega) hesp, Nat.add_sub_cancel]
  have h2 : minus (e + 12 + (argc + 1) * 4) ((argc + 1) * 4) = e + 12 := by
    rw [minus_of_le (by omega) (by omega), Nat.add_sub_cancel]
  have h3 : minus (e + 12) 4 = e + 8 := minus_of_le (by omega) (by omega)
  have h4 : minus (e + 8) 4 = e + 4 := minus_of_le (by omega) (by omega)
  have h5 : minus (e + 4) 4 = e := minus_of_le (by omega) (by omega)
  have h6 : (e + 8 + 4) % 2 ^ 32 = e + 12 := Nat.mod_eq_of_lt (by omega)
  have heq : pushFrame argv argc fnSz (e + 12 + (argc + 1) * 4 + epSz argc fnSz) p =
      ((((((p.memset (e + 12 + (argc + 1) * 4) 0 (epSz argc fnSz)).memcpy (e + 12) argv
        ((argc + 1) * 4)).setWord (e + 8) (e + 12)).setWord (e + 4) argc).memset e 0 4), e) := by
    have hpad : 16 - (fnSz + (argc + 3) * 4) % 16 = epSz argc fnSz := rfl
    simp only [pushFrame, hpad, h1, h2, h3, h4, h5, h6]
  rw [heq]
  refine ⟨rfl, ?_, ?_, ?_, ?_, ?_, ?_⟩ <;> dsimp only
  · exact word_eq_zero fun x hx hx' => memset_of_mem ⟨hx, hx'⟩
  · refine (word_memset_of_apart (by omega)).trans ?_
    exact word_setWord _ _ (by omega)
  · refine (word_memset_of_apart (by omega)).trans ?_
    refine (word_setWord_of_apart (by omega)).trans ?_
    exact word_setWord _ _ (by omega)
  · intro i hi
    refine (word_memset_of_apart (by omega)).trans ?_
    refine (word_setWord_of_apart (by omega)).trans ?_
    refine (word_setWord_of_apart (by omega)).trans ?_
    refine (word_memcpy (by omega)).trans ?_
    rw [Nat.add_sub_cancel_left]
    exact word_memset_of_apart (by omega)
  · intro a ha
    refine (memset_of_apart (by omega)).trans ?_
    refine (setWord_of_apart (by omega)).trans ?_
    refine (setWord_of_apart (by omega)).trans ?_
    refine (memcpy_of_apart (by omega)).trans ?_
    exact memset_of_apart (by omega)
  · simp only [Proc.memset, Proc.setWord, Proc.memcpy, append_assoc, cons_append, nil_append]

end Frame

section Whole

variable {start : Option (ℕ × ℕ)} {loading : Mem → Mem} {fileName argv esp : ℕ} {m : Mem}
  {s : List UInt8} {k : Globals} {l l' : Loading.Loader} {r : Loading.Loaded} {p : Proc}

theorem installOrFree_installed {pd upage kpage : ℕ} {writable : Bool}
    (h : installOrFree k pd upage kpage writable l = some (true, l')) :
    (pgNo upage, kpage) ∈ l'.installed := by
  obtain ⟨⟨_ | _, l₁⟩, hinstall, h⟩ := bind_eq_some_iff.mp h
  · obtain ⟨_, -, h⟩ := map_eq_some_iff.mp h
    cases h
  · cases h
    obtain ⟨kaddr, -, hinstall⟩ := bind_eq_some_iff.mp hinstall
    split at hinstall
    · obtain ⟨⟨_ | _, pages⟩, -, hinstall⟩ := map_eq_some_iff.mp hinstall
      · cases hinstall
      · cases hinstall
        exact mem_cons_self
    · cases hinstall

theorem finishLoad_start {pd entry : ℕ} {x : Bool × Loading.Loader} {eip : ℕ}
    (h : finishLoad k pd entry x = some (r, l')) (hr : r.start = some (eip, esp)) :
    esp = loaderPhysBase ∧ ∃ kpage, (pgNo (loaderPhysBase - pgSize), kpage) ∈ l'.installed := by
  obtain ⟨_ | _, l⟩ := x
  · cases h
    cases hr
  · obtain ⟨⟨_ | _, l₁⟩, hstack, h⟩ := map_eq_some_iff.mp h
    · cases h
      cases hr
    · cases h
      cases hr
      obtain ⟨⟨_ | kpage, pages⟩, -, hstack⟩ := bind_eq_some_iff.mp hstack
      · cases hstack
      · exact ⟨rfl, kpage, installOrFree_installed hstack⟩

theorem load_start {checked : Bool} {file : Option (List UInt8)} {eip : ℕ}
    (h : load k checked file l = some (r, l')) (hr : r.start = some (eip, esp)) :
    esp = loaderPhysBase ∧ ∃ kpage, (pgNo (loaderPhysBase - pgSize), kpage) ∈ l'.installed := by
  obtain ⟨⟨_ | pd, pages⟩, -, h⟩ := bind_eq_some_iff.mp h
  · cases h
    cases hr
  · cases file with
    | none =>
      cases h
      cases hr
    | some file =>
      dsimp only at h
      split at h
      · cases h
        cases hr
      · obtain ⟨x, -, h⟩ := bind_eq_some_iff.mp h
        exact finishLoad_start h hr

variable (start loading) in
theorem startProcess_eq (hplaced : Placed fileName argv) (h : CStr m fileName s)
    (hlength : s.length < pgSize) (hwords : (words s).length ≤ 128) :
    ∃ p, Parsed argv (minus (fileName + (s.length + 1)) loaderPhysBase) 0 fileName s ⟨m, []⟩ p ∧
      startProcess start loading fileName argv m =
        some (afterLoad start fileName argv (words s).length (s.length + 1)
          ⟨loading (p.mem.setWord (argv + 4 * (words s).length) 0),
            p.stores ++ [(argv + 4 * (words s).length, 4)]⟩) := by
  have happart : argv + 4 * (0 + (words s).length) ≤ fileName ∨
      fileName + s.length < argv + 4 * 0 := by
    have := hplaced.apart
    omega
  obtain ⟨p, hrun, hparsed⟩ : ∃ p, fromToken argv
      (minus (fileName + (s.length + 1)) loaderPhysBase) pgSize pgSize 0 fileName ⟨m, []⟩ =
        some (0 + (words s).length, p) ∧ Parsed argv _ 0 fileName s ⟨m, []⟩ p :=
    fromToken_spec (p := ⟨m, []⟩) h hlength hlength happart
  refine ⟨p, hparsed, ?_⟩
  rw [Nat.zero_add] at hrun
  rw [startProcess, h.strlen hlength, bind_some]
  dsimp only
  rw [hrun]
  rfl

theorem afterLoad_stores (argc fnSz : ℕ) (p : Proc) :
    p.stores ⊆ (afterLoad start fileName argv argc fnSz p).1.stores := by
  cases start with
  | none => exact subset_append_left _ _
  | some start =>
    simp only [afterLoad, pushFrame, Proc.memcpy, Proc.memset, Proc.setWord, append_assoc]
    exact subset_append_left _ _

theorem startProcess_overflow {out : Option (ℕ × ℕ)} (hplaced : Placed fileName argv)
    (h : CStr m fileName s) (hlength : s.length < pgSize) (hwords : 128 ≤ (words s).length)
    (hrun : startProcess start loading fileName argv m = some (p, out)) :
    (argv + 512, 4) ∈ p.stores := by
  have happart := hplaced.apart
  rcases Nat.eq_or_lt_of_le hwords with hwords | hwords
  · obtain ⟨p1, -, heq⟩ := startProcess_eq start loading hplaced h hlength hwords.ge
    rw [hrun] at heq
    have hp := congrArg Prod.fst (some.inj heq)
    dsimp only at hp
    rw [hp]
    apply afterLoad_stores
    rw [← hwords]
    exact mem_append_right _ (mem_singleton_self _)
  · rw [startProcess, h.strlen hlength, bind_some] at hrun
    obtain ⟨⟨argc, p1⟩, hloop, hrun⟩ := map_eq_some_iff.mp hrun
    have hp := congrArg Prod.fst hrun
    dsimp only at hp
    rw [← hp]
    apply afterLoad_stores
    refine mem_append_left _ (fromToken_overflow h hlength (Nat.zero_le _) ?_ ?_ hloop)
    · rwa [Nat.zero_add]
    · omega

theorem epSz_le (argc fnSz : ℕ) : epSz argc fnSz ≤ 16 :=
  Nat.sub_le _ _

theorem afterLoad_pushed {argc fnSz : ℕ} (eip : ℕ) (p : Proc) (hplaced : Placed fileName argv)
    (hfnSz : fnSz ≤ pgSize) (hargc : argc ≤ 128) :
    ∃ p' esp, afterLoad (some (eip, loaderPhysBase)) fileName argv argc fnSz p =
      (p', some (eip, esp)) ∧ Pushed argv argc fnSz (loaderPhysBase - fnSz)
      ⟨(p.mem.memcpy (loaderPhysBase - fnSz) fileName fnSz).memset fileName 0xcc pgSize,
      p.stores ++ [(loaderPhysBase - fnSz, fnSz)]⟩ p' esp := by
  have hkernel := hplaced.argv_kernel
  have hpad := epSz_le argc fnSz
  have hesp : minus loaderPhysBase fnSz = loaderPhysBase - fnSz :=
    minus_of_le (by unfold pgSize loaderPhysBase at *; omega) (by unfold loaderPhysBase; omega)
  refine ⟨_, _, ?_, pushFrame_spec ?_ ?_ ?_⟩
  · simp only [afterLoad, map_some, getD_some, hesp]
    rfl
  · unfold pgSize loaderPhysBase at *
    omega
  · unfold loaderPhysBase
    omega
  · omega

/-- The stack of a process that starts with a command line.  The areas of the frame, of the vector,
of the padding and of the string are next to each other, up to `PHYS_BASE`. -/
structure StackLayout (s : List UInt8) (m : Mem) (esp : ℕ) : Prop where
  ret : m.word esp = 0
  argc : m.word (esp + 4) = (words s).length
  argv : m.word (esp + 8) = esp + 12
  args : ∀ i (h : i < (words s).length),
    loaderPhysBase - (s.length + 1) ≤ m.word (esp + 12 + 4 * i) ∧
    m.word (esp + 12 + 4 * i) + (words s)[i].length < loaderPhysBase ∧
    CStr m (m.word (esp + 12 + 4 * i)) (words s)[i]
  null : m.word (esp + 12 + 4 * (words s).length) = 0
  aligned : (esp + 4) % 16 = 0
  areas : esp + 12 + ((words s).length + 1) * 4 + padding s + (s.length + 1) = loaderPhysBase
  page : loaderPhysBase - pgSize ≤ esp

theorem minus_offset {t fnSz : ℕ} (hfnSz : fnSz ≤ pgSize)
    (ht : fileName ≤ t) (ht' : t < fileName + fnSz) :
    minus t (minus (fileName + fnSz) loaderPhysBase) = loaderPhysBase - fnSz + (t - fileName) := by
  unfold minus pgSize loaderPhysBase at *
  omega

theorem stackLayout_of_pushed {p' : Proc} {q : Mem} (hplaced : Placed fileName argv)
    (hlength : s.length < pgSize) (hwords : (words s).length ≤ 127) (hfit : stackSize s ≤ pgSize)
    (hparsed : Parsed argv (minus (fileName + (s.length + 1)) loaderPhysBase) 0 fileName s
      ⟨m, []⟩ p)
    (hkeeps : Mem.Same (fun a => fileName ≤ a ∧ a < fileName + pgSize ∨ argv ≤ a ∧ a < argv + 512)
      (p.mem.setWord (argv + 4 * (words s).length) 0) q) {stores : List (ℕ × ℕ)}
    (hpushed : Pushed argv (words s).length (s.length + 1) (loaderPhysBase - (s.length + 1))
      ⟨(q.memcpy (loaderPhysBase - (s.length + 1)) fileName (s.length + 1)).memset fileName 0xcc
        pgSize, stores⟩ p' esp) : StackLayout s p'.mem esp := by
  have hfile := hplaced.file_kernel
  have hargv := hplaced.argv_kernel
  have happart := hplaced.apart
  have hsize := hpushed.size
  have hbase : loaderPhysBase = 0xc0000000 := rfl
  -- the vector on the stack is the array
  have hvector : ∀ i ≤ (words s).length, p'.mem.word (esp + 12 + 4 * i) =
      (p.mem.setWord (argv + 4 * (words s).length) 0).word (argv + 4 * i) := by
    intro i hi
    rw [hpushed.vector i hi]
    refine (word_memset_of_apart (by omega)).trans ?_
    refine (word_congr fun x _ _ => memcpy_of_apart (by omega)).trans ?_
    exact hkeeps.word fun x _ _ => by omega
  refine ⟨hpushed.ret_eq, hpushed.argc_eq, hpushed.argv_eq, fun i hi => ?_, ?_, ?_, ?_, ?_⟩
  · obtain ⟨t, ht, ht', hword, hstr⟩ := hparsed.entry i hi
    rw [hvector i hi.le, word_setWord_of_apart (by omega)]
    rw [Nat.zero_add] at hword
    rw [hword, minus_offset hlength ht (by omega)]
    refine ⟨Nat.le_add_right _ _, by omega, ?_⟩
    have hcopy : CStr q t (words s)[i] := hstr.congr fun x hx hx' => by
      rw [hkeeps x (by omega)]
      exact setWord_of_apart (by omega)
    have hmoved : CStr (q.memcpy (loaderPhysBase - (s.length + 1)) fileName (s.length + 1))
      (loaderPhysBase - (s.length + 1) + (t - fileName)) (words s)[i] := hcopy.memcpy ht (by omega)
    refine hmoved.congr fun x hx hx' => ?_
    rw [hpushed.same x (by omega)]
    exact memset_of_apart (by omega)
  · rw [hvector _ le_rfl]
    exact word_setWord _ _ (by norm_num)
  · unfold epSz at hsize
    omega
  · change esp + 12 + _ + epSz _ _ + _ = _
    omega
  · change s.length + 1 + epSz _ _ + _ + 12 ≤ _ at hfit
    omega

/-- The initial stack of a process: any command line with at most 127 arguments whose stack fits
into a page. -/
theorem processExecute_stack {eip esp₀ : ℕ} (hplaced : Placed fileName argv)
    (hload : IsLoad start loading fileName argv) (hstart : start = some (eip, esp₀)) (m : Mem)
    (cmd : List UInt8) (hcmd : (0 : UInt8) ∉ cmd) (hwords : (words cmd).length ≤ 127)
    (hfit : stackSize cmd ≤ pgSize) :
    ∃ p esp, processExecute start loading fileName argv m cmd = some (p, some (eip, esp)) ∧
      StackLayout cmd p.mem esp := by
  obtain ⟨k, file, l, r, l', hl, hr⟩ := hload.result
  obtain ⟨rfl, -⟩ := load_start hl (hr.trans hstart)
  have hlength : cmd.length < pgSize := by
    unfold stackSize at hfit
    omega
  have hcopy := cstr_strlcpy m fileName pgSize hcmd
  rw [take_of_length_le (by omega)] at hcopy
  obtain ⟨p, hparsed, heq⟩ := startProcess_eq start loading hplaced hcopy hlength (by omega)
  subst hstart
  obtain ⟨p', esp, hafter, hpushed⟩ := afterLoad_pushed eip
    ⟨loading (p.mem.setWord (argv + 4 * (words cmd).length) 0),
      p.stores ++ [(argv + 4 * (words cmd).length, 4)]⟩ hplaced (Nat.succ_le_of_lt hlength)
    (hwords.trans (by omega))
  refine ⟨p', esp, ?_, ?_⟩
  · rw [processExecute, heq, hafter]
  · exact stackLayout_of_pushed hplaced hlength hwords hfit hparsed (hload.keeps _) hpushed

theorem placed_sample : Placed 0xc0300000 0xc0310e00 :=
  ⟨by decide, by decide, by decide, by decide, by decide⟩

theorem isLoad_sample : IsLoad (some (0x08048054, 0xc0000000)) id 0xc0300000 0xc0310e00 := by
  refine ⟨?_, fun m => Mem.Same.refl _ m⟩
  have hstart : (load ⟨0xc0101000, 1024⟩ false (some sampleFile)
      ⟨samplePages, 0, [], []⟩).map (fun x => x.1.start) =
        some (some (0x08048054, 0xc0000000)) := by decide +kernel
  obtain ⟨⟨r, l⟩, hload, hr⟩ := map_eq_some_iff.mp hstart
  exact ⟨_, _, _, r, l, hload, hr⟩

/-- The command line `"ab c"`. -/
theorem processExecute_stack_sample :
    ∃ p esp, processExecute (some (0x08048054, 0xc0000000)) id 0xc0300000 0xc0310e00 (fun _ => 0)
        [0x61, 0x62, 0x20, 0x63] = some (p, some (0x08048054, esp)) ∧
      StackLayout [0x61, 0x62, 0x20, 0x63] p.mem esp :=
  processExecute_stack placed_sample isLoad_sample rfl _ _ (by decide) (by decide +kernel)
    (by decide +kernel)

/-- Where `start_process` may store: into `argv`, into the stack page of a process that was loaded,
and, by `strtok_r`, into its copy of the command line. -/
def Inside (start : Option (ℕ × ℕ)) (fileName argv : ℕ) (x : ℕ × ℕ) : Prop :=
  Within argv 512 x ∨ start ≠ none ∧ Within (loaderPhysBase - pgSize) pgSize x ∨
    Within fileName pgSize x

theorem inside_of_pushed {p' : Proc} {offset : ℕ} (eip esp0 : ℕ) (hplaced : Placed fileName argv)
    (hlength : s.length < pgSize) (hwords : (words s).length ≤ 127) {q : Mem}
    (hparsed : Parsed argv offset 0 fileName s ⟨m, []⟩ p)
    (hpushed : Pushed argv (words s).length (s.length + 1) (loaderPhysBase - (s.length + 1))
      ⟨q, p.stores ++ [(argv + 4 * (words s).length, 4)] ++
        [(loaderPhysBase - (s.length + 1), s.length + 1)]⟩ p' esp) :
    (∀ x ∈ p'.stores, Inside (some (eip, esp0)) fileName argv x) ↔ stackSize s ≤ pgSize := by
  have hsize := hpushed.size
  have hargv := hplaced.argv_kernel
  have hfile := hplaced.file_kernel
  have hstack : stackSize s = s.length + 1 + epSz (words s).length (s.length + 1) +
    ((words s).length + 1) * 4 + 12 := rfl
  obtain ⟨new, hnew, hnews⟩ := hparsed.stores
  rw [hpushed.stores]
  constructor
  · intro hinside
    -- the return address is the lowest
    have hlast := hinside (esp, 4) (by simp)
    unfold Inside Within at hlast
    omega
  · intro hfit x hx
    rcases mem_append.mp hx with hx | hx
    · rw [hnew, append_assoc] at hx
      rcases mem_append.mp hx with hx | hx
      · rcases hnews x hx with ⟨hx, hx'⟩ | ⟨hx, hx'⟩
        · exact Or.inr (Or.inr ⟨hx, by omega⟩)
        · exact Or.inl ⟨by omega, by omega⟩
      · simp only [mem_append, mem_singleton] at hx
        rcases hx with rfl | rfl
        · exact Or.inl ⟨Nat.le_add_right _ _, by dsimp only; omega⟩
        · exact Or.inr (Or.inl ⟨some_ne_none _, by dsimp only; omega, by dsimp only; omega⟩)
    · refine Or.inr (Or.inl ⟨some_ne_none _, ?_⟩)
      simp only [mem_cons, not_mem_nil, or_false] at hx
      rcases hx with rfl | rfl | rfl | rfl | rfl <;> unfold Within <;> dsimp only <;> omega

/-- Starting a process stores inside of its buffers exactly when it was loaded, has at most 127
arguments, and its stack fits into a page. -/
theorem processExecute_inside_iff (hplaced : Placed fileName argv)
    (hload : IsLoad start loading fileName argv) (m : Mem) (cmd : List UInt8)
    (hcmd : (0 : UInt8) ∉ cmd) :
    (∃ p out, processExecute start loading fileName argv m cmd = some (p, out) ∧
      ∀ x ∈ p.stores, Inside start fileName argv x) ↔
      start ≠ none ∧ (words (cmd.take (pgSize - 1))).length ≤ 127 ∧
        stackSize (cmd.take (pgSize - 1)) ≤ pgSize := by
  have hcopy := cstr_strlcpy m fileName pgSize hcmd
  have hlength : (cmd.take (pgSize - 1)).length < pgSize := by
    rw [length_take]
    unfold pgSize
    omega
  generalize cmd.take (pgSize - 1) = s at *
  have hargv := hplaced.argv_kernel
  have hend := hplaced.argv_end
  have hfile := hplaced.file_end
  have happart := hplaced.apart
  have hbase : loaderPhysBase = 0xc0000000 := rfl
  have hpage : pgSize = 4096 := rfl
  by_cases hwords : (words s).length ≤ 127
  · obtain ⟨p, hparsed, heq⟩ := startProcess_eq start loading hplaced hcopy hlength (by omega)
    rw [processExecute, heq]
    cases start with
    | none =>
      refine iff_of_false ?_ fun h => h.1 rfl
      rintro ⟨p', out, hrun, hinside⟩
      -- the command line is copied to the end of the address space
      cases hrun
      have hesp : minus 0 (s.length + 1) = 2 ^ 32 - (s.length + 1) := by
        unfold minus
        omega
      have hcopied := hinside (minus 0 (s.length + 1), s.length + 1)
        (mem_append_right _ (mem_singleton_self _))
      unfold Inside Within at hcopied
      rw [hesp] at hcopied
      dsimp only at hcopied
      omega
    | some start =>
      obtain ⟨eip, esp0⟩ := start
      obtain ⟨k, file, l, r, l', hl, hr⟩ := hload.result
      obtain ⟨rfl, -⟩ := load_start hl hr
      obtain ⟨p', esp, hafter, hpushed⟩ := afterLoad_pushed eip
        ⟨loading (p.mem.setWord (argv + 4 * (words s).length) 0),
          p.stores ++ [(argv + 4 * (words s).length, 4)]⟩ hplaced (Nat.succ_le_of_lt hlength)
        (hwords.trans (by omega))
      have hiff := inside_of_pushed eip loaderPhysBase hplaced hlength hwords hparsed hpushed
      rw [hafter]
      constructor
      · rintro ⟨_, _, hrun, hinside⟩
        cases hrun
        exact ⟨some_ne_none _, hwords, hiff.mp hinside⟩
      · rintro ⟨-, -, hfit⟩
        exact ⟨p', _, rfl, hiff.mpr hfit⟩
  · refine iff_of_false ?_ fun h => hwords h.2.1
    rintro ⟨p, out, hrun, hinside⟩
    have hover := hinside _ (startProcess_overflow hplaced hcopy hlength (by omega) hrun)
    unfold Inside Within at hover
    dsimp only at hover
    omega

theorem processExecute_inside_sample :
    ∃ p out, processExecute (some (0x08048054, 0xc0000000)) id 0xc0300000 0xc0310e00 (fun _ => 0)
        [0x61, 0x62, 0x20, 0x63] = some (p, out) ∧
      ∀ x ∈ p.stores, Inside (some (0x08048054, 0xc0000000)) 0xc0300000 0xc0310e00 x :=
  (processExecute_inside_iff placed_sample isLoad_sample (fun _ => 0) [0x61, 0x62, 0x20, 0x63]
    (by decide)).mpr ⟨by decide, by decide +kernel, by decide +kernel⟩

/-- When `a` cannot be loaded its name is copied to the last two bytes of the address space. -/
theorem processExecute_not_inside :
    IsLoad none id 0xc0300000 0xc0310e00 ∧
      ∃ p, processExecute none id 0xc0300000 0xc0310e00 (fun _ => 0) [0x61] = some (p, none) ∧
        (0xfffffffe, 2) ∈ p.stores ∧ ¬ Inside none 0xc0300000 0xc0310e00 (0xfffffffe, 2) := by
  refine ⟨⟨?_, fun m => Mem.Same.refl _ m⟩, ?_⟩
  · have hstart : (load ⟨0xc0101000, 1024⟩ false none
        ⟨samplePages, 0, [], []⟩).map (fun x => x.1.start) = some none := by
      decide +kernel
    obtain ⟨⟨r, l⟩, hload, hr⟩ := map_eq_some_iff.mp hstart
    exact ⟨_, _, _, r, l, hload, hr⟩
  · have hrun : (processExecute none id 0xc0300000 0xc0310e00 (fun _ => 0) [0x61]).map
        (fun x => (x.1.stores, x.2)) =
          some ([(0xc0310e00, 4), (0xc0310e04, 4), (0xfffffffe, 2)], none) := by
      decide +kernel
    obtain ⟨⟨p, out⟩, hrun, hp⟩ := map_eq_some_iff.mp hrun
    obtain ⟨hstores, rfl⟩ := Prod.mk.inj hp
    refine ⟨p, hrun, ?_, ?_⟩
    · rw [hstores]
      decide
    · unfold Inside Within
      decide

end Whole

end Start

end CS162.Userprog
