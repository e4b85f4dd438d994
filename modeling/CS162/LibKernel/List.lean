import CS162.Lib.Mem

/-!
# Doubly linked lists

The functions of `lib/kernel/list.c` that the kernel heap uses, on the words in memory: an
element has its `prev` in the first word and its `next` in the second.  A failed assertion has
no result.  `Linked m l nodes` says that the list at `l` has the elements at the addresses
`nodes`, in this order.
-/

namespace CS162.LibKernel

open List Mem

def prev (m : Mem) (elem : ℕ) : ℕ :=
  m.word elem

def next (m : Mem) (elem : ℕ) : ℕ :=
  m.word (elem + 4)

def setPrev (m : Mem) (elem v : ℕ) : Mem :=
  m.setWord elem v

def setNext (m : Mem) (elem v : ℕ) : Mem :=
  m.setWord (elem + 4) v

def tailElem (l : ℕ) : ℕ :=
  l + 8

def isInterior (m : Mem) (elem : ℕ) : Prop :=
  elem ≠ 0 ∧ prev m elem ≠ 0 ∧ next m elem ≠ 0

def isTail (m : Mem) (elem : ℕ) : Prop :=
  elem ≠ 0 ∧ prev m elem ≠ 0 ∧ next m elem = 0

instance (m : Mem) (elem : ℕ) : Decidable (isInterior m elem) :=
  inferInstanceAs (Decidable (_ ∧ _))

instance (m : Mem) (elem : ℕ) : Decidable (isTail m elem) :=
  inferInstanceAs (Decidable (_ ∧ _))

def listInit (l : ℕ) (m : Mem) : Mem :=
  let m := setPrev m l 0
  let m := setNext m l (tailElem l)
  let m := setPrev m (tailElem l) l
  setNext m (tailElem l) 0

def listBegin (l : ℕ) (m : Mem) : ℕ :=
  next m l

def listEmpty (l : ℕ) (m : Mem) : Prop :=
  listBegin l m = tailElem l

instance (l : ℕ) (m : Mem) : Decidable (listEmpty l m) :=
  inferInstanceAs (Decidable (_ = _))

def listInsert (before elem : ℕ) (m : Mem) : Option Mem :=
  if (isInterior m before ∨ isTail m before) ∧ elem ≠ 0 then
    let m := setPrev m elem (prev m before)
    let m := setNext m elem before
    let m := setNext m (prev m before) elem
    some (setPrev m before elem)
  else
    none

def listPushFront (l elem : ℕ) (m : Mem) : Option Mem :=
  listInsert (listBegin l m) elem m

def listPushBack (l elem : ℕ) (m : Mem) : Option Mem :=
  listInsert (tailElem l) elem m

/-- `list_remove`, without the element it returns. -/
def listRemove (elem : ℕ) (m : Mem) : Option Mem :=
  if isInterior m elem then
    let m := setNext m (prev m elem) (next m elem)
    some (setPrev m (next m elem) (prev m elem))
  else
    none

def listPopFront (l : ℕ) (m : Mem) : Option (ℕ × Mem) :=
  if listEmpty l m then none
  else (listRemove (listBegin l m) m).map fun m' => (listBegin l m, m')

def Link (m : Mem) (x y : ℕ) : Prop :=
  next m x = y ∧ prev m y = x

def Apart (x y : ℕ) : Prop :=
  x + 8 ≤ y ∨ y + 8 ≤ x

def InElems (l : List ℕ) (a : ℕ) : Prop :=
  ∃ x ∈ l, x ≤ a ∧ a < x + 8

theorem isChain_imp {α : Type*} {R S : α → α → Prop} {l : List α} (h : l.IsChain R)
    (H : ∀ a b, a ∈ l.dropLast → b ∈ l.tail → R a b → S a b) : l.IsChain S := by
  induction h with
  | nil => exact .nil
  | singleton a => exact .singleton a
  | @cons_cons a b l hab hl ih =>
    refine .cons_cons (H a b mem_cons_self mem_cons_self hab) (ih fun x y hx hy => ?_)
    exact H x y (mem_cons_of_mem _ hx) (mem_cons_of_mem _ hy)

variable {m m' : Mem} {l e p b x y v : ℕ} {A B nodes : List ℕ}

theorem Apart.symm (h : Apart x y) : Apart y x :=
  Or.symm h

theorem next_setNext (hv : v < 2 ^ 32) : next (setNext m x v) x = v :=
  word_setWord m _ hv

theorem prev_setPrev (hv : v < 2 ^ 32) : prev (setPrev m x v) x = v :=
  word_setWord m _ hv

theorem next_setNext_of_apart (h : Apart x y) : next (setNext m y v) x = next m x :=
  word_setWord_of_apart (by unfold Apart at h; omega)

theorem prev_setPrev_of_apart (h : Apart x y) : prev (setPrev m y v) x = prev m x :=
  word_setWord_of_apart (by unfold Apart at h; omega)

theorem prev_setNext (h : x = y ∨ Apart x y) : prev (setNext m y v) x = prev m x :=
  word_setWord_of_apart (by unfold Apart at h; omega)

theorem next_setPrev (h : x = y ∨ Apart x y) : next (setPrev m y v) x = next m x :=
  word_setWord_of_apart (by unfold Apart at h; omega)

theorem same_setNext {P : ℕ → Prop} (h : ∀ a, P a → ¬ (x ≤ a ∧ a < x + 8)) :
    Mem.Same P m (setNext m x v) :=
  same_setWord fun a ha ha' hP => h a hP ⟨by omega, by omega⟩

theorem same_setPrev {P : ℕ → Prop} (h : ∀ a, P a → ¬ (x ≤ a ∧ a < x + 8)) :
    Mem.Same P m (setPrev m x v) :=
  same_setWord fun a ha ha' hP => h a hP ⟨by omega, by omega⟩

theorem listInsert_eq (hlink : Link m p b) (hpb : Apart p b) (hep : Apart e p) (heb : Apart e b)
    (hp : p < 2 ^ 32) (hb : b < 2 ^ 32) (he : e < 2 ^ 32) (hp0 : p ≠ 0) (hb0 : b ≠ 0)
    (he0 : e ≠ 0) :
    ∃ m', listInsert b e m = some m' ∧ Link m' p e ∧ Link m' e b ∧
      (∀ x, Apart x p → Apart x e → x = b ∨ Apart x b → next m' x = next m x) ∧
      (∀ x, Apart x b → Apart x e → x = p ∨ Apart x p → prev m' x = prev m x) ∧
      Mem.Same (fun a => ¬ InElems [p, e, b] a) m m' := by
  obtain ⟨-, hprev⟩ := hlink
  have hok : (isInterior m b ∨ isTail m b) ∧ e ≠ 0 := by
    refine ⟨?_, he0⟩
    unfold isInterior isTail
    rw [hprev]
    by_cases hnext : next m b = 0
    · exact .inr ⟨hb0, hp0, hnext⟩
    · exact .inl ⟨hb0, hp0, hnext⟩
  refine ⟨_, if_pos hok, ?_⟩
  -- the second read of `before->prev` finds `p` again
  rw [hprev, prev_setNext (.inr heb.symm), prev_setPrev_of_apart heb.symm, hprev]
  refine ⟨⟨?_, ?_⟩, ⟨?_, ?_⟩, fun x hxp hxe hxb => ?_, fun x hxb hxe hxp => ?_, ?_⟩
  · rw [next_setPrev (.inr hpb), next_setNext he]
  · rw [prev_setPrev_of_apart heb, prev_setNext (.inr hep), prev_setNext (.inl rfl),
      prev_setPrev hp]
  · rw [next_setPrev (.inr heb), next_setNext_of_apart hep, next_setNext hb]
  · exact prev_setPrev he
  · rw [next_setPrev hxb, next_setNext_of_apart hxp, next_setNext_of_apart hxe,
      next_setPrev (.inr hxe)]
  · rw [prev_setPrev_of_apart hxb, prev_setNext hxp, prev_setNext (.inr hxe),
      prev_setPrev_of_apart hxe]
  · have hout : ∀ x ∈ [p, e, b], ∀ a, ¬ InElems [p, e, b] a → ¬ (x ≤ a ∧ a < x + 8) :=
      fun x hx a ha hin => ha ⟨x, hx, hin⟩
    exact (((same_setPrev (hout e (by simp))).trans (same_setNext (hout e (by simp)))).trans
      (same_setNext (hout p (by simp)))).trans (same_setPrev (hout b (by simp)))

theorem listRemove_eq (hlink : Link m p e) (hlink' : Link m e b) (hpb : Apart p b) (hep : Apart e p)
    (hp : p < 2 ^ 32) (hb : b < 2 ^ 32) (hp0 : p ≠ 0) (hb0 : b ≠ 0) (he0 : e ≠ 0) :
    ∃ m', listRemove e m = some m' ∧ Link m' p b ∧
      (∀ x, Apart x p → x = b ∨ Apart x b → next m' x = next m x) ∧
      (∀ x, Apart x b → x = p ∨ Apart x p → prev m' x = prev m x) ∧
      Mem.Same (fun a => ¬ InElems [p, b] a) m m' := by
  obtain ⟨-, hprev⟩ := hlink
  obtain ⟨hnext, -⟩ := hlink'
  have hok : isInterior m e := by
    refine ⟨he0, ?_, ?_⟩
    · rwa [hprev]
    · rwa [hnext]
  refine ⟨_, if_pos hok, ?_⟩
  -- the links of the element itself are still there after the first write
  rw [hprev, hnext, next_setNext_of_apart hep, hnext, prev_setNext (.inr hep), hprev]
  refine ⟨⟨?_, ?_⟩, fun x hxp hxb => ?_, fun x hxb hxp => ?_, ?_⟩
  · rw [next_setPrev (.inr hpb), next_setNext hb]
  · exact prev_setPrev hp
  · rw [next_setPrev hxb, next_setNext_of_apart hxp]
  · rw [prev_setPrev_of_apart hxb, prev_setNext hxp]
  · have hout : ∀ x ∈ [p, b], ∀ a, ¬ InElems [p, b] a → ¬ (x ≤ a ∧ a < x + 8) :=
      fun x hx a ha hin => ha ⟨x, hx, hin⟩
    exact (same_setNext (hout p (by simp))).trans (same_setPrev (hout b (by simp)))

theorem apart_sides (h : (A ++ p :: b :: B).Pairwise Apart) :
    (∀ x ∈ A, Apart x p) ∧ (∀ x ∈ A ++ [p], Apart x b ∧ (x = p ∨ Apart x p)) ∧
      (∀ x ∈ b :: B, Apart x p ∧ (x = b ∨ Apart x b)) ∧ ∀ x ∈ B, Apart x b := by
  obtain ⟨-, hright, hcross⟩ := pairwise_append.mp h
  obtain ⟨hp, hright⟩ := pairwise_cons.mp hright
  obtain ⟨hb, -⟩ := pairwise_cons.mp hright
  refine ⟨fun x hx => hcross x hx p (by simp), fun x hx => ?_, fun x hx => ?_,
    fun x hx => (hb x hx).symm⟩
  · rcases mem_append.mp hx with hx | hx
    · exact ⟨hcross x hx b (by simp), .inr (hcross x hx p (by simp))⟩
    · obtain rfl := mem_singleton.mp hx
      exact ⟨hp b (by simp), .inl rfl⟩
  · refine ⟨(hp x hx).symm, ?_⟩
    rcases mem_cons.mp hx with rfl | hx
    · exact .inl rfl
    · exact .inr (hb x hx).symm

theorem links_sides (hleft : (A ++ [p]).IsChain (Link m)) (hright : (b :: B).IsChain (Link m))
    (hnext : ∀ x ∈ A, next m' x = next m x) (hprev : ∀ x ∈ A ++ [p], prev m' x = prev m x)
    (hnext' : ∀ x ∈ b :: B, next m' x = next m x) (hprev' : ∀ x ∈ B, prev m' x = prev m x) :
    (A ++ [p]).IsChain (Link m') ∧ (b :: B).IsChain (Link m') := by
  constructor
  · refine isChain_imp hleft fun x y hx hy hxy => ?_
    rw [dropLast_concat] at hx
    exact ⟨(hnext x hx).trans hxy.1, (hprev y (mem_of_mem_tail hy)).trans hxy.2⟩
  · refine isChain_imp hright fun x y hx hy hxy => ?_
    exact ⟨(hnext' x (dropLast_subset _ hx)).trans hxy.1, (hprev' y hy).trans hxy.2⟩

/-- The elements of the list at `l`, with its head and its tail. -/
def elems (l : ℕ) (nodes : List ℕ) : List ℕ :=
  l :: nodes ++ [tailElem l]

/-- The list at `l` has the elements `nodes`. -/
structure Linked (m : Mem) (l : ℕ) (nodes : List ℕ) : Prop where
  links : (elems l nodes).IsChain (Link m)
  head : prev m l = 0
  tail : next m (tailElem l) = 0
  apart : (elems l nodes).Pairwise Apart
  pos : ∀ x ∈ elems l nodes, x ≠ 0
  bound : ∀ x ∈ elems l nodes, x + 8 ≤ 2 ^ 32

theorem elems_eq_append (xs ys : List ℕ) :
    elems l (xs ++ ys) = (l :: xs) ++ (ys ++ [tailElem l]) := by
  unfold elems
  rw [← cons_append, append_assoc]

theorem exists_elems_eq (l : ℕ) (xs ys : List ℕ) :
    ∃ A p b B, l :: xs = A ++ [p] ∧ ys ++ [tailElem l] = b :: B ∧
      elems l (xs ++ ys) = A ++ p :: b :: B := by
  obtain ⟨b, B, hB⟩ := exists_cons_of_ne_nil
    (append_ne_nil_of_right_ne_nil ys (cons_ne_nil (tailElem l) []))
  refine ⟨(l :: xs).dropLast, (l :: xs).getLast (cons_ne_nil l xs), b, B, ?_, hB, ?_⟩
  · exact (dropLast_append_getLast _).symm
  · have hlast := dropLast_append_getLast (cons_ne_nil l xs)
    rw [elems_eq_append, hB, append_cons _ (getLast _ _), hlast]

namespace Linked

theorem listBegin_eq (h : Linked m l nodes) :
    listBegin l m = (nodes ++ [tailElem l]).head (by simp) := by
  have hlinks := h.links
  unfold elems at hlinks
  rw [cons_append, isChain_cons] at hlinks
  exact (hlinks.1 _ (head?_eq_some_head _)).1

theorem listEmpty_iff (h : Linked m l nodes) : listEmpty l m ↔ nodes = [] := by
  unfold listEmpty
  rw [h.listBegin_eq]
  cases nodes with
  | nil => simp
  | cons x nodes =>
    have hap := (pairwise_append.mp h.apart).2.2 x (by simp) (tailElem l) (by simp)
    simp only [cons_append, head_cons, reduceCtorEq, iff_false]
    rintro rfl
    unfold Apart at hap
    omega

theorem insert {xs ys : List ℕ} (h : Linked m l (xs ++ ys))
    (hap : ∀ x ∈ elems l (xs ++ ys), Apart e x) (he : e + 8 ≤ 2 ^ 32) (he0 : e ≠ 0) :
    ∃ m', listInsert ((ys ++ [tailElem l]).head (by simp)) e m = some m' ∧
      Linked m' l (xs ++ e :: ys) ∧
      Mem.Same (fun a => ¬ InElems (elems l (xs ++ e :: ys)) a) m m' := by
  obtain ⟨A, p, b, B, hA, hB, hall⟩ := exists_elems_eq l xs ys
  have hnew : elems l (xs ++ e :: ys) = A ++ p :: e :: b :: B := by
    rw [elems_eq_append, hA, cons_append, hB, append_assoc]
    rfl
  obtain ⟨hlinks, hhead, htail, hapart, hpos, hbound⟩ := h
  rw [hall] at hlinks hap hapart hpos hbound
  rw [isChain_append_cons_cons] at hlinks
  obtain ⟨hleft, hlink, hright⟩ := hlinks
  obtain ⟨hAp, hleftAp, hrightAp, hBb⟩ := apart_sides hapart
  have hp : p ∈ A ++ p :: b :: B := by simp
  have hb : b ∈ A ++ p :: b :: B := by simp
  have hpbound := hbound p hp
  have hbbound := hbound b hb
  obtain ⟨m', hinsert, hpe, heb, hnext, hprev, hsame⟩ := listInsert_eq hlink
    (hrightAp b (by simp)).1.symm (hap p hp) (hap b hb) (by omega) (by omega) (by omega) (hpos p hp)
    (hpos b hb) he0
  have hleftMem : ∀ x ∈ A ++ [p], x ∈ A ++ p :: b :: B := fun x hx => by
    rw [append_cons]
    exact mem_append_left _ hx
  have hprevLeft : ∀ x ∈ A ++ [p], prev m' x = prev m x := fun x hx =>
    hprev x (hleftAp x hx).1 (hap x (hleftMem x hx)).symm (hleftAp x hx).2
  have hnextRight : ∀ x ∈ b :: B, next m' x = next m x := fun x hx =>
    hnext x (hrightAp x hx).1 (hap x (by simp [hx])).symm (hrightAp x hx).2
  obtain ⟨hleft', hright'⟩ := links_sides hleft hright
    (fun x hx => hnext x (hAp x hx) (hap x (by simp [hx])).symm (.inr (hleftAp x (by simp [hx])).1))
    hprevLeft hnextRight (fun x hx => hprev x (hBb x hx) (hap x (by simp [hx])).symm
    (.inr (hrightAp x (by simp [hx])).1))
  have hperm : (A ++ p :: e :: b :: B).Perm (e :: (A ++ p :: b :: B)) := by
    rw [append_cons, append_cons A p (b :: B)]
    exact perm_middle
  have hmem : ∀ x ∈ A ++ p :: e :: b :: B, x = e ∨ x ∈ A ++ p :: b :: B := fun x hx =>
    mem_cons.mp (hperm.mem_iff.mp hx)
  have hl : l ∈ A ++ [p] := hA ▸ mem_cons_self
  have ht : tailElem l ∈ b :: B := hB ▸ mem_append_right _ (mem_singleton_self _)
  refine ⟨m', by simp only [hB, head_cons, hinsert], ⟨?_, ?_, ?_, ?_, ?_, ?_⟩, ?_⟩
  · rw [hnew, isChain_append_cons_cons, isChain_cons_cons]
    exact ⟨hleft', hpe, heb, hright'⟩
  · exact (hprevLeft l hl).trans hhead
  · exact (hnextRight _ ht).trans htail
  · rw [hnew, hperm.pairwise_iff Apart.symm, pairwise_cons]
    exact ⟨hap, hapart⟩
  · rw [hnew]
    intro x hx
    rcases hmem x hx with rfl | hx
    · exact he0
    · exact hpos x hx
  · rw [hnew]
    intro x hx
    rcases hmem x hx with rfl | hx
    · exact he
    · exact hbound x hx
  · rw [hnew]
    refine hsame.mono fun a ha hin => ha ?_
    obtain ⟨x, hx, hxa⟩ := hin
    simp only [mem_cons, not_mem_nil, or_false] at hx
    exact ⟨x, by simp only [mem_append, mem_cons]; tauto, hxa⟩

theorem remove {xs ys : List ℕ} (h : Linked m l (xs ++ e :: ys)) :
    ∃ m', listRemove e m = some m' ∧ Linked m' l (xs ++ ys) ∧
      Mem.Same (fun a => ¬ InElems (elems l (xs ++ ys)) a) m m' := by
  obtain ⟨A, p, b, B, hA, hB, hall⟩ := exists_elems_eq l xs ys
  have hold : elems l (xs ++ e :: ys) = A ++ p :: e :: b :: B := by
    rw [elems_eq_append, hA, cons_append, hB, append_assoc]
    rfl
  obtain ⟨hlinks, hhead, htail, hapart, hpos, hbound⟩ := h
  rw [hold] at hlinks hapart hpos hbound
  rw [isChain_append_cons_cons, isChain_cons_cons] at hlinks
  obtain ⟨hleft, hpe, heb, hright⟩ := hlinks
  have hperm : (A ++ p :: e :: b :: B).Perm (e :: (A ++ p :: b :: B)) := by
    rw [append_cons, append_cons A p (b :: B)]
    exact perm_middle
  rw [hperm.pairwise_iff Apart.symm, pairwise_cons] at hapart
  obtain ⟨hap, hapart⟩ := hapart
  have hmem : ∀ x ∈ A ++ p :: b :: B, x ∈ A ++ p :: e :: b :: B := fun x hx =>
    hperm.mem_iff.mpr (mem_cons_of_mem e hx)
  obtain ⟨hAp, hleftAp, hrightAp, hBb⟩ := apart_sides hapart
  have hp : p ∈ A ++ p :: b :: B := by simp
  have hb : b ∈ A ++ p :: b :: B := by simp
  have hpbound := hbound p (hmem p hp)
  have hbbound := hbound b (hmem b hb)
  obtain ⟨m', hremove, hpb, hnext, hprev, hsame⟩ := listRemove_eq hpe heb
    (hrightAp b (by simp)).1.symm (hap p hp) (by omega) (by omega) (hpos p (hmem p hp))
    (hpos b (hmem b hb)) (hpos e (by simp))
  have hprevLeft : ∀ x ∈ A ++ [p], prev m' x = prev m x := fun x hx =>
    hprev x (hleftAp x hx).1 (hleftAp x hx).2
  have hnextRight : ∀ x ∈ b :: B, next m' x = next m x := fun x hx =>
    hnext x (hrightAp x hx).1 (hrightAp x hx).2
  obtain ⟨hleft', hright'⟩ := links_sides hleft hright
    (fun x hx => hnext x (hAp x hx) (.inr (hleftAp x (by simp [hx])).1)) hprevLeft hnextRight
    (fun x hx => hprev x (hBb x hx) (.inr (hrightAp x (by simp [hx])).1))
  have hl : l ∈ A ++ [p] := hA ▸ mem_cons_self
  have ht : tailElem l ∈ b :: B := hB ▸ mem_append_right _ (mem_singleton_self _)
  refine ⟨m', hremove, ⟨?_, (hprevLeft l hl).trans hhead, (hnextRight _ ht).trans htail,
    hall ▸ hapart, ?_, ?_⟩, ?_⟩
  · rw [hall, isChain_append_cons_cons]
    exact ⟨hleft', hpb, hright'⟩
  · rw [hall]
    exact fun x hx => hpos x (hmem x hx)
  · rw [hall]
    exact fun x hx => hbound x (hmem x hx)
  · rw [hall]
    refine hsame.mono fun a ha hin => ha ?_
    obtain ⟨x, hx, hxa⟩ := hin
    simp only [mem_cons, not_mem_nil, or_false] at hx
    exact ⟨x, by simp only [mem_append, mem_cons]; tauto, hxa⟩

theorem pushFront (h : Linked m l nodes) (hap : ∀ x ∈ elems l nodes, Apart e x)
    (he : e + 8 ≤ 2 ^ 32) (he0 : e ≠ 0) :
    ∃ m', listPushFront l e m = some m' ∧ Linked m' l (e :: nodes) ∧
      Mem.Same (fun a => ¬ InElems (elems l (e :: nodes)) a) m m' := by
  unfold listPushFront
  rw [h.listBegin_eq]
  rw [← nil_append nodes] at h hap
  exact h.insert hap he he0

theorem pushBack (h : Linked m l nodes) (hap : ∀ x ∈ elems l nodes, Apart e x)
    (he : e + 8 ≤ 2 ^ 32) (he0 : e ≠ 0) :
    ∃ m', listPushBack l e m = some m' ∧ Linked m' l (nodes ++ [e]) ∧
      Mem.Same (fun a => ¬ InElems (elems l (nodes ++ [e])) a) m m' := by
  rw [← append_nil nodes] at h hap
  exact h.insert hap he he0

theorem popFront (h : Linked m l (e :: nodes)) :
    ∃ m', listPopFront l m = some (e, m') ∧ Linked m' l nodes ∧
      Mem.Same (fun a => ¬ InElems (elems l nodes) a) m m' := by
  obtain ⟨m', hremove, hlinked, hsame⟩ := @remove _ _ _ [] nodes h
  have hempty : ¬ listEmpty l m := fun hempty => cons_ne_nil e nodes (h.listEmpty_iff.mp hempty)
  refine ⟨m', ?_, hlinked, hsame⟩
  rw [listPopFront, if_neg hempty, h.listBegin_eq]
  change (listRemove e m).map (fun m' => (e, m')) = _
  rw [hremove]
  rfl

theorem nodup (h : Linked m l nodes) : nodes.Nodup := by
  have hap : nodes.Pairwise Apart := h.apart.sublist <|
    (sublist_append_left nodes [tailElem l]).trans (sublist_cons_self ..)
  exact hap.imp fun hxy heq => by
    unfold Apart at hxy
    omega

theorem erase (h : Linked m l nodes) (he : e ∈ nodes) :
    ∃ m', listRemove e m = some m' ∧ Linked m' l (nodes.erase e) ∧
      Mem.Same (fun a => ¬ InElems (elems l nodes) a) m m' := by
  obtain ⟨xs, ys, hnodes, hnot⟩ : ∃ xs ys, nodes = xs ++ e :: ys ∧ e ∉ xs := by
    obtain ⟨xs, ys, rfl⟩ := append_of_mem he
    refine ⟨xs, ys, rfl, fun hmem => ?_⟩
    exact (nodup_append.mp h.nodup).2.2 e hmem e mem_cons_self rfl
  subst hnodes
  obtain ⟨m', hremove, hlinked, hsame⟩ := h.remove
  refine ⟨m', hremove, ?_, hsame.mono fun a ha hin => ha ?_⟩
  · rwa [erase_append_right _ hnot, erase_cons_head]
  · obtain ⟨x, hx, hxa⟩ := hin
    refine ⟨x, ?_, hxa⟩
    simp only [elems, cons_append, mem_cons, mem_append] at hx ⊢
    tauto

theorem congr (h : Linked m l nodes) (hsame : Mem.Same (InElems (elems l nodes)) m m') :
    Linked m' l nodes := by
  have hprev : ∀ x ∈ elems l nodes, prev m' x = prev m x := fun x hx =>
    hsame.word fun a ha ha' => ⟨x, hx, ha, by omega⟩
  have hnext : ∀ x ∈ elems l nodes, next m' x = next m x := fun x hx =>
    hsame.word fun a ha ha' => ⟨x, hx, by omega, by omega⟩
  refine ⟨?_, ?_, ?_, h.apart, h.pos, h.bound⟩
  · exact h.links.imp_of_mem_imp fun x y hx hy hxy =>
      ⟨(hnext x hx).trans hxy.1, (hprev y hy).trans hxy.2⟩
  · exact (hprev l mem_cons_self).trans h.head
  · exact (hnext _ (by simp [elems])).trans h.tail

end Linked

theorem linked_listInit (m : Mem) (hl : l ≠ 0) (hbound : l + 16 ≤ 2 ^ 32) :
    Linked (listInit l m) l [] ∧ Mem.Same (fun a => ¬ InElems (elems l []) a) m (listInit l m) := by
  have hap : Apart l (tailElem l) := .inl le_rfl
  have ht : tailElem l + 8 ≤ 2 ^ 32 := hbound
  have hmem : ∀ x ∈ elems l [], x = l ∨ x = tailElem l := fun x hx => by simpa [elems] using hx
  refine ⟨⟨?_, ?_, ?_, ?_, ?_, ?_⟩, ?_⟩
  · refine isChain_pair.mpr ⟨?_, ?_⟩
    · rw [listInit, next_setNext_of_apart hap, next_setPrev (.inr hap), next_setNext (by omega)]
    · rw [listInit, prev_setNext (.inl rfl), prev_setPrev (by omega)]
  · rw [listInit, prev_setNext (.inr hap), prev_setPrev_of_apart hap, prev_setNext (.inl rfl),
      prev_setPrev (by omega)]
  · rw [listInit, next_setNext (by omega)]
  · exact pairwise_pair.mpr hap
  · intro x hx
    rcases hmem x hx with rfl | rfl
    · exact hl
    · unfold tailElem
      omega
  · intro x hx
    rcases hmem x hx with rfl | rfl <;> omega
  · have hout : ∀ x ∈ elems l [], ∀ a, ¬ InElems (elems l []) a → ¬ (x ≤ a ∧ a < x + 8) :=
      fun x hx a ha hin => ha ⟨x, hx, hin⟩
    exact (((same_setPrev (hout l (by simp [elems]))).trans
      (same_setNext (hout l (by simp [elems])))).trans
      (same_setPrev (hout _ (by simp [elems])))).trans (same_setNext (hout _ (by simp [elems])))

end CS162.LibKernel
