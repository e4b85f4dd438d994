import CS162.Lib.Runs
import CS162.LibKernel.List

/-!
# Pintos lists and their sort

The functions of `list.c` that the word counters use, over the members `prev` and `next`; a
failed assertion has no result, nor has a loop whose bound is too small.  `Linked L hd tl
nodes` says that the list has the elements `nodes`.  Every pass of `list_sort` that outputs
more than one run at least halves their number.
-/

namespace CS162.WordCount

open Option List Function

/-- The members `prev` and `next` of the list elements. -/
structure Links where
  prev : ℕ → ℕ
  next : ℕ → ℕ

namespace Links

def setPrev (L : Links) (e v : ℕ) : Links :=
  { L with prev := update L.prev e v }

def setNext (L : Links) (e v : ℕ) : Links :=
  { L with next := update L.next e v }

def isHead (L : Links) (e : ℕ) : Prop :=
  e ≠ 0 ∧ L.prev e = 0 ∧ L.next e ≠ 0

def isInterior (L : Links) (e : ℕ) : Prop :=
  e ≠ 0 ∧ L.prev e ≠ 0 ∧ L.next e ≠ 0

def isTail (L : Links) (e : ℕ) : Prop :=
  e ≠ 0 ∧ L.prev e ≠ 0 ∧ L.next e = 0

instance (L : Links) (e : ℕ) : Decidable (L.isHead e) :=
  inferInstanceAs (Decidable (_ ∧ _))

instance (L : Links) (e : ℕ) : Decidable (L.isInterior e) :=
  inferInstanceAs (Decidable (_ ∧ _))

instance (L : Links) (e : ℕ) : Decidable (L.isTail e) :=
  inferInstanceAs (Decidable (_ ∧ _))

def listInit (L : Links) (hd tl : ℕ) : Links :=
  (((L.setPrev hd 0).setNext hd tl).setPrev tl hd).setNext tl 0

def listNext (L : Links) (e : ℕ) : Option ℕ :=
  if L.isHead e ∨ L.isInterior e then some (L.next e) else none

def listPrev (L : Links) (e : ℕ) : Option ℕ :=
  if L.isInterior e ∨ L.isTail e then some (L.prev e) else none

/-- The assignments of `list_insert`. -/
def linkIn (L : Links) (before e : ℕ) : Links :=
  let L := L.setPrev e (L.prev before)
  let L := L.setNext e before
  let L := L.setNext (L.prev before) e
  L.setPrev before e

def listInsert (L : Links) (before e : ℕ) : Option Links :=
  if (L.isInterior before ∨ L.isTail before) ∧ e ≠ 0 then some (L.linkIn before e) else none

/-- The assignments of `list_splice` that take the element `e` out. -/
def unlink (L : Links) (e : ℕ) : Links :=
  let L := L.setNext (L.prev e) (L.next e)
  L.setPrev (L.next e) (L.prev e)

def listSplice (L : Links) (before first last : ℕ) : Option Links :=
  if L.isInterior before ∨ L.isTail before then
    if first = last then some L
    else
      (L.listPrev last).bind fun last =>
        if L.isInterior first ∧ L.isInterior last then
          let L := L.setNext (L.prev first) (L.next last)
          let L := L.setPrev (L.next last) (L.prev first)
          let L := L.setPrev first (L.prev before)
          let L := L.setNext last before
          let L := L.setNext (L.prev before) first
          some (L.setPrev before last)
        else none
  else none

variable (less : ℕ → ℕ → Bool)

def isSortedLoop (L : Links) (b : ℕ) : ℕ → ℕ → Option Bool
  | 0, _ => none
  | n + 1, a =>
    (L.listNext a).bind fun a =>
      if a = b then some true
      else (L.listPrev a).bind fun p =>
        if less a p then some false else isSortedLoop L b n a

def isSorted (n : ℕ) (L : Links) (a b : ℕ) : Option Bool :=
  if a = b then some true else isSortedLoop less L b n a

def findEndOfRunLoop (L : Links) (b : ℕ) : ℕ → ℕ → Option ℕ
  | 0, _ => none
  | n + 1, a =>
    (L.listNext a).bind fun a =>
      if a = b then some a
      else (L.listPrev a).bind fun p =>
        if less a p then some a else findEndOfRunLoop L b n a

def findEndOfRun (n : ℕ) (L : Links) (a b : ℕ) : Option ℕ :=
  if a ≠ 0 ∧ b ≠ 0 ∧ a ≠ b then findEndOfRunLoop less L b n a else none

def inplaceMergeLoop (b1 : ℕ) : ℕ → Links → ℕ → ℕ → Option Links
  | 0, _, _, _ => none
  | n + 1, L, a0, a1b0 =>
    if a0 ≠ a1b0 ∧ a1b0 ≠ b1 then
      if less a1b0 a0 then
        (L.listNext a1b0).bind fun a1b0 =>
          (L.listPrev a1b0).bind fun first =>
            (L.listSplice a0 first a1b0).bind fun L => inplaceMergeLoop b1 n L a0 a1b0
      else (L.listNext a0).bind fun a0 => inplaceMergeLoop b1 n L a0 a1b0
    else some L

def inplaceMerge (n : ℕ) (L : Links) (a0 a1b0 b1 : ℕ) : Option Links :=
  if a0 ≠ 0 ∧ a1b0 ≠ 0 ∧ b1 ≠ 0 ∧ isSorted less n L a0 a1b0 = some true ∧
      isSorted less n L a1b0 b1 = some true then
    inplaceMergeLoop less b1 n L a0 a1b0
  else none

/-- One pass of `list_sort` from the element `a0` on, with the runs output so
far; `m` bounds the loops inside. -/
def sortPass (m tl : ℕ) : ℕ → Links → ℕ → ℕ → Option (Links × ℕ)
  | 0, _, _, _ => none
  | n + 1, L, a0, outputRunCnt =>
    if a0 = tl then some (L, outputRunCnt)
    else
      (findEndOfRun less m L a0 tl).bind fun a1b0 =>
        if a1b0 = tl then some (L, outputRunCnt + 1)
        else
          (findEndOfRun less m L a1b0 tl).bind fun b1 =>
            (inplaceMerge less m L a0 a1b0 b1).bind fun L =>
              sortPass m tl n L b1 (outputRunCnt + 1)

/-- The passes of `list_sort`. -/
def sortPasses (m hd tl : ℕ) : ℕ → Links → Option Links
  | 0, _ => none
  | n + 1, L =>
    (sortPass less m tl m L (L.next hd) 0).bind fun (L, outputRunCnt) =>
      if 1 < outputRunCnt then sortPasses m hd tl n L else some L

def listSort (n : ℕ) (L : Links) (hd tl : ℕ) : Option Links :=
  (sortPasses less n hd tl n L).bind fun L =>
    if isSorted less n L (L.next hd) tl = some true then some L else none

/-- The element `y` follows `x`. -/
def Follows (L : Links) (x y : ℕ) : Prop :=
  L.next x = y ∧ L.prev y = x

/-- The list has the elements `nodes`. -/
structure Linked (L : Links) (hd tl : ℕ) (nodes : List ℕ) : Prop where
  links : (hd :: nodes ++ [tl]).IsChain L.Follows
  head : L.prev hd = 0
  tail : L.next tl = 0
  nodup : (hd :: nodes ++ [tl]).Nodup
  pos : ∀ x ∈ hd :: nodes ++ [tl], x ≠ 0

variable {less} {L L' : Links} {hd tl a b e : ℕ} {nodes A B : List ℕ}

theorem isChain_follows_congr {l : List ℕ} (h : l.IsChain L.Follows)
    (hn : ∀ x ∈ l.dropLast, L'.next x = L.next x) (hp : ∀ y ∈ l.tail, L'.prev y = L.prev y) :
    l.IsChain L'.Follows := by
  induction l with
  | nil => exact .nil
  | cons x l ih =>
    cases l with
    | nil => exact .singleton x
    | cons y l =>
      obtain ⟨hxy, hl⟩ := isChain_cons_cons.mp h
      refine isChain_cons_cons.mpr ⟨⟨?_, ?_⟩, ih hl (fun z hz => ?_) fun z hz => ?_⟩
      · rw [hn x (by simp)]
        exact hxy.1
      · rw [hp y (by simp)]
        exact hxy.2
      · exact hn z (by simp [hz])
      · exact hp z (mem_of_mem_tail hz)

namespace Linked

theorem follows (h : Linked L hd tl (A ++ b :: B)) : L.Follows b (B.headD tl) := by
  have hall : hd :: (A ++ b :: B) ++ [tl] =
      (hd :: A) ++ b :: B.headD tl :: (B ++ [tl]).tail := by
    cases B with
    | nil => simp
    | cons c B => simp
  have hlinks := h.links
  rw [hall, isChain_append_cons_cons] at hlinks
  exact hlinks.2.1

theorem follows_head (h : Linked L hd tl nodes) : L.Follows hd (nodes.headD tl) := by
  have hlinks := h.links
  cases nodes with
  | nil => exact (isChain_cons_cons.mp hlinks).1
  | cons x nodes => exact (isChain_cons_cons.mp hlinks).1

theorem next_head (h : Linked L hd tl nodes) : L.next hd = nodes.headD tl :=
  h.follows_head.1

theorem headD_mem (B : List ℕ) (tl : ℕ) : B.headD tl ∈ B ++ [tl] := by
  cases B with
  | nil => simp
  | cons c B => simp

theorem prev_headD_ne (h : Linked L hd tl (A ++ B)) : L.prev (B.headD tl) ≠ 0 := by
  rcases eq_nil_or_concat A with rfl | ⟨A, a, rfl⟩
  · have hf := h.follows_head.2
    rw [nil_append] at hf
    rw [hf]
    exact h.pos hd (by simp)
  · rw [concat_eq_append, append_assoc, singleton_append] at h
    rw [h.follows.2]
    exact h.pos a (by simp)

theorem headD_ne_zero (h : Linked L hd tl (A ++ B)) : B.headD tl ≠ 0 := by
  refine h.pos _ ?_
  have hmem := headD_mem B tl
  rw [cons_append, append_assoc]
  exact mem_cons_of_mem _ (mem_append_right A hmem)

theorem isInterior (h : Linked L hd tl (A ++ b :: B)) : L.isInterior b := by
  refine ⟨h.pos b (by simp), h.prev_headD_ne, ?_⟩
  rw [h.follows.1]
  have hassoc : A ++ b :: B = (A ++ [b]) ++ B := by simp
  rw [hassoc] at h
  exact h.headD_ne_zero

theorem interior_or_tail (h : Linked L hd tl (A ++ B)) :
    L.isInterior (B.headD tl) ∨ L.isTail (B.headD tl) := by
  cases B with
  | nil => exact .inr ⟨h.headD_ne_zero, h.prev_headD_ne, h.tail⟩
  | cons b B => exact .inl h.isInterior

theorem listNext (h : Linked L hd tl (A ++ b :: B)) : L.listNext b = some (B.headD tl) := by
  rw [Links.listNext, if_pos (.inr h.isInterior), h.follows.1]

theorem listPrev (h : Linked L hd tl (A ++ b :: B)) : L.listPrev (B.headD tl) = some b := by
  have hassoc : A ++ b :: B = (A ++ [b]) ++ B := by simp
  have hpos := (hassoc ▸ h).interior_or_tail
  rw [Links.listPrev, if_pos hpos, h.follows.2]

end Linked

theorem unlink_next (L : Links) (e : ℕ) :
    (L.unlink e).next = update L.next (L.prev e) (L.next e) := rfl

theorem unlink_prev (L : Links) (e : ℕ) :
    (L.unlink e).prev = update L.prev (L.next e) (L.prev e) := by
  have hnext : update L.next (L.prev e) (L.next e) e = L.next e := by
    rw [update_apply, ite_self]
  exact congrArg (fun q => update L.prev q (L.prev e)) hnext

theorem linkIn_next (L : Links) (before e : ℕ) :
    (L.linkIn before e).next = update (update L.next e before) (L.prev before) e := by
  have hprev : update L.prev e (L.prev before) before = L.prev before := by
    rw [update_apply, ite_self]
  exact congrArg (fun p => update (update L.next e before) p e) hprev

theorem linkIn_prev (L : Links) (before e : ℕ) :
    (L.linkIn before e).prev =
      update (update L.prev e (L.prev before)) before e := rfl

theorem exists_seam (hd tl : ℕ) (A B : List ℕ) :
    ∃ P p Q, hd :: A = P ++ [p] ∧ B ++ [tl] = B.headD tl :: Q := by
  refine ⟨(hd :: A).dropLast, (hd :: A).getLast (cons_ne_nil hd A), (B ++ [tl]).tail,
    (dropLast_append_getLast _).symm, ?_⟩
  cases B with
  | nil => rfl
  | cons b B => rfl

theorem seam_apart {P Q : List ℕ} {p q : ℕ} (h : (P ++ p :: q :: Q).Nodup) :
    (∀ x ∈ P, x ≠ p) ∧ (∀ x ∈ P ++ [p], x ≠ q) ∧ (∀ x ∈ q :: Q, x ≠ p) ∧ ∀ x ∈ Q, x ≠ q := by
  obtain ⟨-, hright, hcross⟩ := nodup_append.mp h
  obtain ⟨hp, hright⟩ := nodup_cons.mp hright
  obtain ⟨hq, -⟩ := nodup_cons.mp hright
  refine ⟨fun x hx => ?_, fun x hx => ?_, fun x hx e => hp (e ▸ hx), fun x hx e => hq (e ▸ hx)⟩
  · exact hcross x hx p mem_cons_self
  · rcases mem_append.mp hx with hx | hx
    · exact hcross x hx q (mem_cons_of_mem p mem_cons_self)
    · rw [mem_singleton.mp hx]
      exact fun e => hp (e ▸ mem_cons_self)

theorem isChain_join {P Q : List ℕ} {p q : ℕ} (hleft : (P ++ [p]).IsChain L.Follows)
    (hright : (q :: Q).IsChain L.Follows) (hpq : L'.Follows p q)
    (hnl : ∀ x ∈ P, L'.next x = L.next x) (hpl : ∀ y ∈ (P ++ [p]).tail, L'.prev y = L.prev y)
    (hnr : ∀ x ∈ q :: Q, L'.next x = L.next x) (hpr : ∀ y ∈ Q, L'.prev y = L.prev y) :
    (P ++ p :: q :: Q).IsChain L'.Follows := by
  rw [isChain_append_cons_cons]
  refine ⟨isChain_follows_congr hleft (fun x hx => ?_) hpl, hpq,
    isChain_follows_congr hright (fun x hx => ?_) hpr⟩
  · rw [dropLast_concat] at hx
    exact hnl x hx
  · exact hnr x (dropLast_subset _ hx)

namespace Linked

theorem unlink (h : Linked L hd tl (A ++ e :: B)) : Linked (L.unlink e) hd tl (A ++ B) := by
  obtain ⟨P, p, Q, hA, hB⟩ := exists_seam hd tl A B
  have hnext := h.follows.1
  generalize B.headD tl = q at hB hnext
  have hall : hd :: (A ++ e :: B) ++ [tl] = P ++ p :: e :: q :: Q := by
    rw [cons_append, append_assoc, ← cons_append, hA, cons_append, hB, append_assoc]
    rfl
  have hnew : hd :: (A ++ B) ++ [tl] = P ++ p :: q :: Q := by
    rw [cons_append, append_assoc, ← cons_append, hA, hB, append_assoc]
    rfl
  have hsub : (P ++ p :: q :: Q).Sublist (P ++ p :: e :: q :: Q) :=
    (List.Sublist.refl P).append ((sublist_cons_self e (q :: Q)).cons_cons p)
  obtain ⟨hlinks, hhead, htail, hnodup, hpos⟩ := h
  rw [hall] at hlinks hnodup hpos
  obtain ⟨hleft, ⟨-, hprev⟩, hright⟩ := isChain_append_cons_cons.mp hlinks
  have hnd := hnodup.sublist hsub
  obtain ⟨hPp, hPq, hQp, hQq⟩ := seam_apart hnd
  have hn' : ∀ x, x ≠ p → (L.unlink e).next x = L.next x := by
    intro x hx
    rw [unlink_next, hprev, update_of_ne hx]
  have hp' : ∀ y, y ≠ q → (L.unlink e).prev y = L.prev y := by
    intro y hy
    rw [unlink_prev, hnext, update_of_ne hy]
  refine ⟨?_, ?_, ?_, hnew ▸ hnd, fun x hx => ?_⟩
  · rw [hnew]
    refine isChain_join hleft (isChain_cons_cons.mp hright).2 ⟨?_, ?_⟩
      (fun x hx => hn' x (hPp x hx)) (fun y hy => hp' y (hPq y (mem_of_mem_tail hy)))
      (fun x hx => hn' x (hQp x hx)) fun y hy => hp' y (hQq y hy)
    · rw [unlink_next, hprev, hnext, update_self]
    · rw [unlink_prev, hprev, hnext, update_self]
  · rw [hp' hd (hPq hd (hA ▸ mem_cons_self))]
    exact hhead
  · rw [hn' tl (hQp tl (hB ▸ mem_append_right B mem_cons_self))]
    exact htail
  · rw [hnew] at hx
    exact hpos x (hsub.subset hx)

theorem linkIn (h : Linked L hd tl (A ++ B)) (he : e ∉ hd :: (A ++ B) ++ [tl]) (he0 : e ≠ 0) :
    Linked (L.linkIn (B.headD tl) e) hd tl (A ++ e :: B) := by
  obtain ⟨P, p, Q, hA, hB⟩ := exists_seam hd tl A B
  generalize B.headD tl = q at hB
  have hall : hd :: (A ++ B) ++ [tl] = P ++ p :: q :: Q := by
    rw [cons_append, append_assoc, ← cons_append, hA, hB, append_assoc]
    rfl
  have hnew : hd :: (A ++ e :: B) ++ [tl] = P ++ p :: e :: q :: Q := by
    rw [cons_append, append_assoc, ← cons_append, hA, cons_append, hB, append_assoc]
    rfl
  obtain ⟨hlinks, hhead, htail, hnodup, hpos⟩ := h
  rw [hall] at hlinks hnodup hpos he
  obtain ⟨hleft, ⟨-, hprev⟩, hright⟩ := isChain_append_cons_cons.mp hlinks
  obtain ⟨hPp, hPq, hQp, hQq⟩ := seam_apart hnodup
  have hne : ∀ x ∈ P ++ p :: q :: Q, x ≠ e := fun x hx hxe => he (hxe ▸ hx)
  have hn' : ∀ x, x ≠ p → x ≠ e → (L.linkIn q e).next x = L.next x := by
    intro x hx hxe
    rw [linkIn_next, hprev, update_of_ne hx, update_of_ne hxe]
  have hp' : ∀ y, y ≠ q → y ≠ e → (L.linkIn q e).prev y = L.prev y := by
    intro y hy hye
    rw [linkIn_prev, update_of_ne hy, update_of_ne hye]
  have hPe : ∀ x ∈ P ++ [p], x ≠ e := by
    intro x hx
    refine hne x ?_
    rw [append_cons]
    exact mem_append_left _ hx
  have hQe : ∀ x ∈ q :: Q, x ≠ e := fun x hx =>
    hne x (mem_append_right P (mem_cons_of_mem p hx))
  have hep : e ≠ p := (hPe p (by simp)).symm
  have heq : e ≠ q := (hQe q (by simp)).symm
  -- the new element is first linked with the row behind it
  have hrow : ([] ++ e :: q :: Q).IsChain (L.linkIn q e).Follows := by
    refine isChain_join (.singleton e) hright ⟨?_, ?_⟩ (by simp) (by simp)
      (fun x hx => hn' x (hQp x hx) (hQe x hx))
      fun y hy => hp' y (hQq y hy) (hQe y (mem_cons_of_mem q hy))
    · rw [linkIn_next, hprev, update_of_ne hep, update_self]
    · rw [linkIn_prev, update_self]
  refine ⟨?_, ?_, ?_, ?_, fun x hx => ?_⟩
  · rw [hnew, isChain_append_cons_cons]
    refine ⟨isChain_follows_congr hleft (fun x hx => ?_) fun y hy => ?_, ⟨?_, ?_⟩, hrow⟩
    · rw [dropLast_concat] at hx
      exact hn' x (hPp x hx) (hPe x (mem_append_left _ hx))
    · exact hp' y (hPq y (mem_of_mem_tail hy)) (hPe y (mem_of_mem_tail hy))
    · rw [linkIn_next, hprev, update_self]
    · rw [linkIn_prev, update_of_ne heq, update_self, hprev]
  · have hmem : hd ∈ P ++ [p] := hA ▸ mem_cons_self
    rw [hp' hd (hPq hd hmem) (hPe hd hmem)]
    exact hhead
  · have hmem : tl ∈ q :: Q := hB ▸ mem_append_right B mem_cons_self
    rw [hn' tl (hQp tl hmem) (hQe tl hmem)]
    exact htail
  · rw [hnew, append_cons]
    refine nodup_middle.mpr (nodup_cons.mpr ⟨?_, ?_⟩)
    · rwa [← append_cons]
    · rwa [← append_cons]
  · rw [hnew, append_cons] at hx
    rcases mem_append.mp hx with hx | hx
    · exact hpos x (by rw [append_cons]; exact mem_append_left _ hx)
    · rcases mem_cons.mp hx with rfl | hx
      · exact he0
      · exact hpos x (by rw [append_cons]; exact mem_append_right _ hx)

theorem listInsert (h : Linked L hd tl (A ++ B)) (he : e ∉ hd :: (A ++ B) ++ [tl]) (he0 : e ≠ 0) :
    ∃ L', L.listInsert (B.headD tl) e = some L' ∧ Linked L' hd tl (A ++ e :: B) :=
  ⟨_, if_pos ⟨h.interior_or_tail, he0⟩, h.linkIn he he0⟩

/-- The links that the words in memory hold. -/
def ofMem (m : Mem) : Links where
  prev := LibKernel.prev m
  next := LibKernel.next m

theorem linked_ofMem {m : Mem} {l : ℕ} (h : LibKernel.Linked m l nodes) :
    Linked (ofMem m) l (LibKernel.tailElem l) nodes := by
  refine ⟨h.links, h.head, h.tail, h.apart.imp fun hxy heq => ?_, h.pos⟩
  unfold LibKernel.Apart at hxy
  omega

/-- `list_insert` on the words in memory and over their links. -/
theorem listInsert_ofMem {m : Mem} {l : ℕ} (h : LibKernel.Linked m l (A ++ B))
    (hap : ∀ x ∈ LibKernel.elems l (A ++ B), LibKernel.Apart e x) (he : e + 8 ≤ 2 ^ 32)
    (he0 : e ≠ 0) :
    ∃ m' L', LibKernel.listInsert (B.headD (LibKernel.tailElem l)) e m = some m' ∧
      (ofMem m).listInsert (B.headD (LibKernel.tailElem l)) e = some L' ∧
      Linked (ofMem m') l (LibKernel.tailElem l) (A ++ e :: B) ∧
      Linked L' l (LibKernel.tailElem l) (A ++ e :: B) := by
  have hhead : (B ++ [LibKernel.tailElem l]).head (by simp) = B.headD (LibKernel.tailElem l) := by
    cases B <;> rfl
  have hmem : e ∉ LibKernel.elems l (A ++ B) := fun hmem => by
    have := hap e hmem
    unfold LibKernel.Apart at this
    omega
  obtain ⟨m', hm', hlinked, -⟩ := h.insert hap he he0
  obtain ⟨L', hL', hlinked'⟩ := (linked_ofMem h).listInsert hmem he0
  exact ⟨m', L', hhead ▸ hm', hL', linked_ofMem hlinked, hlinked'⟩

theorem not_mem_rest (h : Linked L hd tl (A ++ e :: B)) : e ∉ hd :: (A ++ B) ++ [tl] := by
  have hnd : ((hd :: A) ++ e :: (B ++ [tl])).Nodup := by
    have := h.nodup
    rwa [cons_append, append_assoc] at this
  have hmem := (nodup_cons.mp (nodup_middle.mp hnd)).1
  rwa [cons_append, ← append_assoc, ← cons_append] at hmem

theorem listSplice {P : List ℕ} (h : Linked L hd tl (P ++ a :: (A ++ b :: B))) :
    ∃ L', L.listSplice a b (B.headD tl) = some L' ∧ Linked L' hd tl (P ++ b :: a :: (A ++ B)) := by
  have hb : Linked L hd tl ((P ++ a :: A) ++ b :: B) := by
    rw [append_assoc, cons_append]
    exact h
  have hb' := hb.not_mem_rest
  have hne : b ≠ B.headD tl := by
    intro e
    rw [cons_append, append_assoc, ← cons_append] at hb'
    exact hb' (mem_append_right _ (e ▸ headD_mem B tl))
  have hsplice : L.listSplice a b (B.headD tl) = some ((L.unlink b).linkIn a b) := by
    rw [Links.listSplice, if_pos (.inl h.isInterior), if_neg hne, hb.listPrev, bind_some,
      if_pos ⟨hb.isInterior, hb.isInterior⟩]
    rfl
  refine ⟨_, hsplice, ?_⟩
  have hout : Linked (L.unlink b) hd tl (P ++ a :: (A ++ B)) := by
    have := hb.unlink
    rwa [append_assoc, cons_append] at this
  refine hout.linkIn ?_ (hb.isInterior).1
  rwa [append_assoc, cons_append] at hb'

end Linked

/-- The order that `less` gives: `y` is not less than `x`. -/
def notLess (less : ℕ → ℕ → Bool) (x y : ℕ) : Bool :=
  !less y x

theorem notLess_of_less (h : less b a) : notLess less a b = false := by
  rw [notLess, h]
  rfl

theorem notLess_of_not_less (h : ¬ less b a) : notLess less a b = true := by
  rw [notLess, Bool.eq_false_of_not_eq_true h]
  rfl

namespace Linked

variable {P Q R s : List ℕ} {n m : ℕ}

theorem ne_headD (h : Linked L hd tl (P ++ b :: (A ++ B))) : b ≠ B.headD tl := by
  intro e
  have hmem := h.not_mem_rest
  rw [cons_append, append_assoc, ← cons_append, append_assoc] at hmem
  exact hmem (mem_append_right _ (mem_append_right A (e ▸ headD_mem B tl)))

theorem isSortedLoop (h : Linked L hd tl (P ++ a :: (A ++ B)))
    (hrun : (a :: A).IsChain (notLess less · ·)) (hn : A.length < n) :
    isSortedLoop less L (B.headD tl) n a = some true := by
  induction A generalizing P a n with
  | nil =>
    obtain _ | n := n
    · omega
    · rw [Links.isSortedLoop, h.listNext, bind_some]
      exact if_pos rfl
  | cons c A ih =>
    obtain _ | n := n
    · omega
    · obtain ⟨hac, hrun⟩ := isChain_cons_cons.mp hrun
      have hc : Linked L hd tl ((P ++ [a]) ++ c :: (A ++ B)) := by
        rw [append_assoc]
        exact h
      have hless : ¬ less c a := by
        intro hlt
        rw [notLess_of_less hlt] at hac
        exact absurd hac (by simp)
      have hprev : L.listPrev c = some a := h.listPrev
      rw [Links.isSortedLoop, h.listNext, bind_some, cons_append, headD_cons,
        if_neg hc.ne_headD, hprev, bind_some, if_neg hless]
      exact ih hc hrun (Nat.lt_of_succ_lt_succ hn)

theorem isSorted (h : Linked L hd tl (P ++ (A ++ B))) (hrun : A.IsChain (notLess less · ·))
    (hn : A.length ≤ n) : isSorted less n L ((A ++ B).headD tl) (B.headD tl) = some true := by
  cases A with
  | nil => exact if_pos rfl
  | cons a A =>
    rw [Links.isSorted, cons_append, headD_cons, if_neg h.ne_headD]
    exact isSortedLoop h hrun hn

theorem findEndOfRunLoop (h : Linked L hd tl (P ++ a :: s)) (hn : s.length < n) :
    findEndOfRunLoop less L tl n a = some ((afterRun (notLess less) a s).headD tl) := by
  induction s generalizing P a n with
  | nil =>
    obtain _ | n := n
    · omega
    · rw [Links.findEndOfRunLoop, h.listNext, bind_some]
      exact if_pos rfl
  | cons c s ih =>
    obtain _ | n := n
    · omega
    · have hc : Linked L hd tl ((P ++ [a]) ++ c :: s) := by
        rw [append_assoc]
        exact h
      have hne : c ≠ tl := ne_headD (by rwa [append_nil])
      have hprev : L.listPrev c = some a := h.listPrev
      rw [Links.findEndOfRunLoop, h.listNext, bind_some, headD_cons, if_neg hne,
        hprev, bind_some, afterRun]
      by_cases hless : less c a
      · rw [if_pos hless, notLess_of_less hless]
        rfl
      · rw [if_neg hless, notLess_of_not_less hless]
        exact ih hc (Nat.lt_of_succ_lt_succ hn)

theorem findEndOfRun (h : Linked L hd tl (P ++ a :: s)) (hn : s.length < n) :
    findEndOfRun less n L a tl = some ((afterRun (notLess less) a s).headD tl) := by
  have hne : a ≠ tl := ne_headD (by rwa [append_nil])
  rw [Links.findEndOfRun, if_pos ⟨h.isInterior.1, h.pos tl (by simp), hne⟩]
  exact h.findEndOfRunLoop hn

theorem inplaceMergeLoop (h : Linked L hd tl (P ++ (A ++ (B ++ Q))))
    (hn : A.length + B.length < n) :
    ∃ L', inplaceMergeLoop less (Q.headD tl) n L ((A ++ (B ++ Q)).headD tl)
      ((B ++ Q).headD tl) = some L' ∧ Linked L' hd tl (P ++ (A.merge B (notLess less) ++ Q)) := by
  induction n generalizing L P A B with
  | zero => omega
  | succ n ih =>
    rcases A with _ | ⟨a, A⟩
    · refine ⟨L, if_neg fun hne => hne.1 rfl, ?_⟩
      rw [nil_merge]
      exact h
    rcases B with _ | ⟨b, B⟩
    · refine ⟨L, if_neg fun hne => hne.2 rfl, ?_⟩
      rw [merge_right]
      exact h
    have hb : Linked L hd tl ((P ++ a :: A) ++ b :: (B ++ Q)) := by
      rw [append_assoc]
      exact h
    have hne : a ≠ b ∧ b ≠ Q.headD tl := ⟨ne_headD h, hb.ne_headD⟩
    simp only [cons_append, headD_cons, length_cons] at hn ⊢
    rw [Links.inplaceMergeLoop, if_pos hne, cons_merge_cons]
    by_cases hless : less b a
    · -- the head of the second run goes before what is left of the first
      obtain ⟨L1, hL1, h1⟩ := listSplice (B := B ++ Q) h
      rw [if_pos hless, hb.listNext, bind_some, hb.listPrev, bind_some, hL1,
        bind_some, notLess_of_less hless, if_neg Bool.false_ne_true]
      have h1' : Linked L1 hd tl ((P ++ [b]) ++ (a :: A ++ (B ++ Q))) := by
        rw [append_assoc]
        exact h1
      obtain ⟨L2, hL2, h2⟩ := ih h1' (by rw [length_cons]; omega)
      refine ⟨L2, hL2, ?_⟩
      rw [append_assoc] at h2
      exact h2
    · rw [if_neg hless, h.listNext, bind_some, notLess_of_not_less hless, if_pos rfl]
      have h1 : Linked L hd tl ((P ++ [a]) ++ (A ++ (b :: B ++ Q))) := by
        rw [append_assoc]
        exact h
      obtain ⟨L2, hL2, h2⟩ := ih h1 (by rw [length_cons]; omega)
      refine ⟨L2, hL2, ?_⟩
      rw [append_assoc] at h2
      exact h2

theorem inplaceMerge (h : Linked L hd tl (P ++ (A ++ (B ++ Q)))) (hA : A.IsChain (notLess less · ·))
    (hB : B.IsChain (notLess less · ·)) (hn : A.length + B.length < n) :
    ∃ L', inplaceMerge less n L ((A ++ (B ++ Q)).headD tl) ((B ++ Q).headD tl) (Q.headD tl) =
      some L' ∧ Linked L' hd tl (P ++ (A.merge B (notLess less) ++ Q)) := by
  have hB' : Linked L hd tl ((P ++ A) ++ (B ++ Q)) := by
    rw [append_assoc]
    exact h
  have hQ : Linked L hd tl ((P ++ A ++ B) ++ Q) := by
    rw [append_assoc]
    exact hB'
  rw [Links.inplaceMerge, if_pos ⟨h.headD_ne_zero, hB'.headD_ne_zero, hQ.headD_ne_zero,
    h.isSorted hA (by omega), hB'.isSorted hB (by omega)⟩]
  exact h.inplaceMergeLoop hn

section Order

variable (htrans : ∀ x y z, notLess less x y → notLess less y z → notLess less x z)
  (htotal : ∀ x y, notLess less x y || notLess less y x)
include htrans htotal

theorem sortPass {c : ℕ} (h : Linked L hd tl (P ++ s)) (hm : s.length < m) (hn : s.length < n) :
    ∃ L' k s', sortPass less m tl n L (s.headD tl) c = some (L', c + k) ∧
      Linked L' hd tl (P ++ s') ∧ Rearranges (notLess less) s' s ∧
      2 * k ≤ runs (notLess less) s + 1 ∧ runs (notLess less) s' ≤ k := by
  induction n generalizing L P s c with
  | zero => omega
  | succ n ih =>
    rcases s with _ | ⟨a, s⟩
    · exact ⟨L, 0, [], if_pos rfl, h, .refl _, by omega, Nat.le_refl 0⟩
    rw [length_cons] at hm hn
    have hne : a ≠ tl := ne_headD (by rwa [append_nil])
    obtain ⟨R, hs, hR, hruns⟩ := exists_first_run a s
    rw [Links.sortPass, headD_cons, if_neg hne, h.findEndOfRun (by omega), bind_some]
    generalize afterRun (notLess less) a s = T at hs hruns ⊢
    subst hs
    rcases T with _ | ⟨b, T⟩
    · refine ⟨L, 1, a :: R, if_pos rfl, ?_, ?_, by omega, runs_le_one_iff.mpr hR⟩
      · rwa [append_nil] at h
      · rw [append_nil]
        exact .refl _
    have hb : Linked L hd tl ((P ++ a :: R) ++ b :: T) := by
      rw [append_assoc]
      exact h
    have hne : b ≠ tl := ne_headD (by rwa [append_nil])
    rw [length_append, length_cons] at hm hn
    obtain ⟨R', hT, hR', hruns'⟩ := exists_first_run b T
    rw [headD_cons, if_neg hne, hb.findEndOfRun (by omega), bind_some]
    generalize afterRun (notLess less) b T = U at hT hruns' ⊢
    subst hT
    rw [length_append] at hm hn
    -- the two runs are merged, and the pass goes on with what is left
    have hlen : (a :: R).length + (b :: R').length < m := by
      rw [length_cons, length_cons]
      omega
    obtain ⟨L1, hL1, h1⟩ := inplaceMerge h hR hR' hlen
    have hrun := runs_le_one_iff.mpr (isChain_merge htrans htotal hR hR')
    have hmerge := Rearranges.merge htrans (b :: R') hR
    generalize (a :: R).merge (b :: R') (notLess less) = M at h1 hrun hmerge
    have h1' : Linked L1 hd tl ((P ++ M) ++ U) := by
      rw [append_assoc]
      exact h1
    obtain ⟨L2, k, U', hL2, h2, hU, hk, hU'⟩ := ih h1' (by omega) (by omega)
    refine ⟨L2, k + 1, M ++ U', ?_, ?_, ?_, ?_, ?_⟩
    · have hL1 : Links.inplaceMerge less m L a b (U.headD tl) = some L1 := hL1
      rw [hL1, bind_some, hL2, Nat.add_assoc, Nat.add_comm 1]
    · rwa [append_assoc] at h2
    · have := hmerge.append hU
      rwa [append_assoc] at this
    · rw [hruns, hruns']
      omega
    · have := runs_append_le (r := notLess less) M U'
      omega

theorem sortPasses (h : Linked L hd tl nodes) (hm : nodes.length < m)
    (hn : runs (notLess less) nodes < n) :
    ∃ L' nodes', sortPasses less m hd tl n L = some L' ∧ Linked L' hd tl nodes' ∧
      Rearranges (notLess less) nodes' nodes ∧ nodes'.IsChain (notLess less · ·) := by
  induction n generalizing L nodes with
  | zero => omega
  | succ n ih =>
    obtain ⟨L1, k, nodes1, hL1, h1, hre, hk, hruns⟩ := sortPass htrans htotal (P := []) h hm hm
    rw [Nat.zero_add] at hL1
    rw [nil_append] at h1
    rw [Links.sortPasses, h.next_head, hL1, bind_some]
    by_cases hcnt : 1 < k
    · dsimp only
      rw [if_pos hcnt]
      obtain ⟨L2, nodes2, hL2, h2, hre2, hrun⟩ := ih h1 (hre.perm.length_eq.symm ▸ hm) (by omega)
      exact ⟨L2, nodes2, hL2, h2, hre2.trans hre, hrun⟩
    · exact ⟨L1, nodes1, if_neg hcnt, h1, hre, runs_le_one_iff.mp (by omega)⟩

theorem listSort (h : Linked L hd tl nodes) (hn : nodes.length < n) :
    ∃ L' nodes', listSort less n L hd tl = some L' ∧ Linked L' hd tl nodes' ∧
      Rearranges (notLess less) nodes' nodes ∧ nodes'.Pairwise (notLess less · ·) := by
  have hruns := runs_le_length (r := notLess less) nodes
  obtain ⟨L', nodes', hL', h', hre, hrun⟩ := sortPasses htrans htotal h hn (n := n) (by omega)
  have hsorted : Links.isSorted less n L' (L'.next hd) tl = some true := by
    have hlen := hre.perm.length_eq
    have h'' : Linked L' hd tl ([] ++ (nodes' ++ [])) := by
      rwa [append_nil]
    have := h''.isSorted hrun (n := n) (by omega)
    rwa [append_nil, ← h'.next_head] at this
  refine ⟨L', nodes', ?_, h', hre, pairwise_of_isChain htrans hrun⟩
  rw [Links.listSort, hL', bind_some, if_pos hsorted]

end Order

end Linked

/-- A strict order for which being incomparable is transitive. -/
structure StrictWeak (less : ℕ → ℕ → Bool) : Prop where
  irrefl : ∀ x, ¬ less x x
  trans : ∀ x y z, less x y → less y z → less x z
  incomp : ∀ x y z, ¬ less x y ∧ ¬ less y x → ¬ less y z ∧ ¬ less z y → ¬ less x z

theorem StrictWeak.not_less_trans {x y z : ℕ} (h : StrictWeak less) (hxy : ¬ less x y)
    (hyz : ¬ less y z) : ¬ less x z := by
  intro hxz
  have hyx : ¬ less y x := fun hyx => hyz (h.trans y x z hyx hxz)
  have hzy : ¬ less z y := fun hzy => hxy (h.trans x z y hxz hzy)
  exact h.incomp x y z ⟨hxy, hyx⟩ ⟨hyz, hzy⟩ hxz

/-- `list_sort` ends, and sorts stably, as soon as the bound on its rounds is more
than the length of the list. -/
theorem Linked.listSort_stable {n : ℕ} (hless : StrictWeak less) (h : Linked L hd tl nodes)
    (hn : nodes.length < n) :
    ∃ L' nodes', L.listSort less n hd tl = some L' ∧ L'.Linked hd tl nodes' ∧
      nodes'.Perm nodes ∧ nodes'.Pairwise (fun x y => ¬ less y x) ∧
      ∀ c, nodes'.filter (fun x => !less x c && !less c x) =
        nodes.filter fun x => !less x c && !less c x := by
  have hle : ∀ x y, notLess less x y ↔ ¬ less y x := by simp [notLess]
  have htrans : ∀ x y z, notLess less x y → notLess less y z → notLess less x z := by
    intro x y z
    rw [hle, hle, hle]
    exact fun hxy hyz => hless.not_less_trans hyz hxy
  have htotal : ∀ x y, notLess less x y || notLess less y x := by
    intro x y
    rw [Bool.or_eq_true, hle, hle, ← not_and_or]
    exact fun h => hless.irrefl y (hless.trans y x y h.1 h.2)
  obtain ⟨L', nodes', hL', h', hre, hsorted⟩ := h.listSort htrans htotal hn
  exact ⟨L', nodes', hL', h', hre.perm, hsorted.imp (hle _ _).mp, hre.stable⟩

theorem listSort_stable_descending :
    ∃ L' nodes', Links.listSort (fun x y => decide (y < x)) 3
        ⟨fun x => x - 1, fun x => if x < 4 then x + 1 else 0⟩ 1 4 = some L' ∧
      L'.Linked 1 4 nodes' ∧ nodes'.Perm [2, 3] ∧
      nodes'.Pairwise (fun x y => ¬ decide (x < y)) ∧
      ∀ c, nodes'.filter (fun x => !decide (c < x) && !decide (x < c)) =
        [2, 3].filter fun x => !decide (c < x) && !decide (x < c) := by
  refine Linked.listSort_stable ⟨by simp, ?_, ?_⟩ ⟨?_, rfl, rfl, by decide, by decide⟩ (by decide)
  · intro x y z hxy hyz
    simp only [decide_eq_true_eq] at hxy hyz ⊢
    omega
  · intro x y z hxy hyz
    simp only [decide_eq_true_eq] at hxy hyz ⊢
    omega
  · simp [Follows]

end Links

end CS162.WordCount
