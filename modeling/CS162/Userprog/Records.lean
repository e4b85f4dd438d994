import CS162.Lib.Slots
import CS162.Userprog.Process

/-!
# The records of children

`Sound σ` says how the records, the lists of children and the processes hang together; all steps
keep it.  `Attached σ` says that every process that has not exited still has its record.  Only
`free_child_list` can break that.
-/

namespace CS162

open List Function Slots

namespace Userprog

variable {σ σ' : Processes} {e : ProcStep} {p q c pid r : ℕ}
  {proc proc' child child' procq : Proc} {pn : Pnode} {k : Pnode → Outcome}

/-- The process is in `process_wait` for the child `c`. -/
def Proc.Awaits (proc : Proc) (c : ℕ) : Prop :=
  (∃ b, proc.phase = .waiting c b) ∨ proc.phase = .reaping c

/-- `child_list` holds the children that were created and not waited for, until the
process frees them. -/
structure Proc.Consistent (proc : Proc) : Prop where
  awaits : ∀ c, proc.Awaits c → c ∈ proc.childList
  listed : proc.phase ≠ .freeing → proc.phase ≠ .exited →
    ∀ c, c ∈ proc.childList ↔ c ∈ proc.born ∧ c ∉ proc.waited

/-- The record of the child `c` of `p` agrees with the child and with what `p` does. -/
structure Agrees (p : ℕ) (proc : Proc) (c : ℕ) (pn : Pnode) (child : Proc) : Prop where
  status : pn.exitStatus = child.recorded
  value : pn.value = if child.phase = .exited ∧ proc.phase ≠ .reaping c then 1 else 0
  waiters : pn.waiters = if proc.phase = .waiting c true then [p] else []
  reaping : proc.phase = .reaping c → child.phase = .exited
  blocked : proc.phase = .waiting c true → child.phase ≠ .exited

/-- The entry `c` in the `child_list` of `p`. -/
def Entry (σ : Processes) (p : ℕ) (proc : Proc) (c : ℕ) : Prop :=
  p < c ∧ ∃ pn child, σ.records c = some pn ∧ σ.procs c = some child ∧ child.pn = some c ∧
    Agrees p proc c pn child

/-- The processes and the records hang together. -/
structure Sound (σ : Processes) : Prop where
  fresh : ∀ c, σ.nextTid ≤ c → σ.procs c = none
  own : ∀ c proc r, σ.procs c = some proc → proc.pn = some r → r = c
  nodup : ∀ p proc, σ.procs p = some proc → proc.childList.Nodup
  owner : ∀ p q proc proc' c, σ.procs p = some proc → σ.procs q = some proc' →
    c ∈ proc.childList → c ∈ proc'.childList → p = q
  consistent : ∀ p proc, σ.procs p = some proc → proc.Consistent
  known : ∀ p proc c, σ.procs p = some proc → c ∈ proc.waited → c < σ.nextTid
  live : ∀ c pn, σ.records c = some pn → ∃ p proc, σ.procs p = some proc ∧ c ∈ proc.childList
  entry : ∀ p proc c, σ.procs p = some proc → c ∈ proc.childList → Entry σ p proc c

/-- The process has exited, was not given a record, or still has it. -/
def Keeps (σ : Processes) (c : ℕ) : Prop :=
  ∀ proc, σ.procs c = some proc → proc.pn = some c → proc.phase ≠ .exited →
    σ.records c ≠ none

/-- Every process that has not exited and was given a record still has it. -/
def Attached (σ : Processes) : Prop :=
  ∀ c, Keeps σ c

theorem Sound.lt (h : Sound σ) (hp : σ.procs p = some proc) : p < σ.nextTid := by
  by_contra hle
  rw [h.fresh p (Nat.le_of_not_lt hle)] at hp
  cases hp

theorem Sound.lt_of_listed (h : Sound σ) (hp : σ.procs p = some proc)
    (hc : c ∈ proc.childList) : c < σ.nextTid := by
  obtain ⟨-, pn, child, -, hchild, -⟩ := h.entry p proc c hp hc
  exact h.lt hchild

theorem Entry.congr (h : Entry σ p proc c) (hrecord : σ'.records c = σ.records c)
    (hchild : ∀ child, σ.procs c = some child → ∃ child', σ'.procs c = some child' ∧
      child'.pn = child.pn ∧ child'.recorded = child.recorded ∧
      (child'.phase = .exited ↔ child.phase = .exited))
    (hreap : proc'.phase = .reaping c ↔ proc.phase = .reaping c)
    (hblock : proc'.phase = .waiting c true ↔ proc.phase = .waiting c true) :
    Entry σ' p proc' c := by
  obtain ⟨hlt, pn, child, hr, hc, hown, hagree⟩ := h
  obtain ⟨child', hc', hpn, hrecorded, hexited⟩ := hchild child hc
  refine ⟨hlt, pn, child', hrecord.trans hr, hc', hpn.trans hown, ?_, ?_, ?_, ?_, ?_⟩
  · rw [hrecorded]
    exact hagree.status
  · rw [hagree.value]
    simp only [hexited, ne_eq, hreap]
  · rw [hagree.waiters]
    simp only [hblock]
  · rw [hreap, hexited]
    exact hagree.reaping
  · rw [hblock, ne_eq, hexited]
    exact hagree.blocked

theorem Sound.of_entries (h : Sound σ) (hnext : σ'.nextTid = σ.nextTid)
    (hnone : ∀ q, σ.procs q = none → σ'.procs q = none)
    (hprocs : ∀ q proc', σ'.procs q = some proc' → ∃ proc, σ.procs q = some proc ∧
    proc'.pn = proc.pn ∧ proc'.childList.Sublist proc.childList ∧ proc'.Consistent ∧
    ∀ c ∈ proc'.waited, c ∈ proc.waited ∨ c ∈ proc.childList)
    (hlive : ∀ c pn, σ'.records c = some pn → ∃ p proc, σ'.procs p = some proc ∧ c ∈ proc.childList)
    (hentry : ∀ p proc c, σ'.procs p = some proc → c ∈ proc.childList → Entry σ' p proc c) :
    Sound σ' := by
  refine ⟨fun c hc => hnone c (h.fresh c (hnext ▸ hc)), fun c proc' r hc hr => ?_,
    fun p proc' hp => ?_, fun p q proc1 proc2 c hp hq hc1 hc2 => ?_, fun p proc' hp => ?_,
    fun p proc' c hp hc => ?_, hlive, hentry⟩
  · obtain ⟨proc, hc', hpn, -⟩ := hprocs c proc' hc
    exact h.own c proc r hc' (hpn ▸ hr)
  · obtain ⟨proc, hp', -, hsub, -⟩ := hprocs p proc' hp
    exact (h.nodup p proc hp').sublist hsub
  · obtain ⟨proc, hp', -, hsub, -⟩ := hprocs p proc1 hp
    obtain ⟨proc', hq', -, hsub', -⟩ := hprocs q proc2 hq
    exact h.owner p q proc proc' c hp' hq' (hsub.subset hc1) (hsub'.subset hc2)
  · obtain ⟨proc, -, -, -, hcons, -⟩ := hprocs p proc' hp
    exact hcons
  · obtain ⟨proc, hp', -, -, -, hwaited⟩ := hprocs p proc' hp
    rw [hnext]
    rcases hwaited c hc with hc | hc
    · exact h.known p proc c hp' hc
    · exact h.lt_of_listed hp' hc

section

variable (h : Sound σ) (hp : σ.procs p = some proc)

include h hp

theorem Sound.change (hprocs : σ'.procs = update σ.procs p (some proc'))
    (hnext : σ'.nextTid = σ.nextTid) (hpn : proc'.pn = proc.pn)
    (hsub : proc'.childList.Sublist proc.childList) (hcons : proc'.Consistent)
    (hwaited : ∀ c ∈ proc'.waited, c ∈ proc.waited ∨ c ∈ proc.childList)
    (hrecords : ∀ c pn, σ'.records c = some pn →
      (∃ pn', σ.records c = some pn') ∧ (c ∈ proc.childList → c ∈ proc'.childList))
    (hentry : ∀ q procq c, σ'.procs q = some procq → c ∈ procq.childList → Entry σ' q procq c) :
    Sound σ' := by
  have hself : σ'.procs p = some proc' := by rw [hprocs, update_self]
  have hother : ∀ q, q ≠ p → σ'.procs q = σ.procs q := fun q hq => by
    rw [hprocs, update_of_ne hq]
  refine h.of_entries hnext (fun q hq => ?_) (fun q procq hq => ?_) (fun c pn hc => ?_) hentry
  · have hne : q ≠ p := by
      rintro rfl
      rw [hp] at hq
      cases hq
    rw [hother q hne, hq]
  · rcases of_update_some (hprocs ▸ hq) with ⟨rfl, rfl⟩ | ⟨-, hq⟩
    · exact ⟨proc, hp, hpn, hsub, hcons, hwaited⟩
    · exact ⟨procq, hq, rfl, List.Sublist.refl _, h.consistent q procq hq, fun c hc => .inl hc⟩
  · obtain ⟨⟨pn', hc'⟩, hkeep⟩ := hrecords c pn hc
    obtain ⟨q, procq, hq, hlisted⟩ := h.live c pn' hc'
    by_cases hqp : q = p
    · subst hqp
      rw [hp] at hq
      cases hq
      exact ⟨q, proc', hself, hkeep hlisted⟩
    · exact ⟨q, procq, (hother q hqp).trans hq, hlisted⟩

theorem Sound.entry_change (hprocs : σ'.procs = update σ.procs p (some proc'))
    (hsame : c = p → proc'.pn = proc.pn ∧ proc'.recorded = proc.recorded ∧
    (proc'.phase = .exited ↔ proc.phase = .exited)) (hsub : proc'.childList.Sublist proc.childList)
    (hq : σ'.procs q = some procq) (hc : c ∈ procq.childList) (hrecord : σ'.records c = σ.records c)
    (hreap : q = p → (proc'.phase = .reaping c ↔ proc.phase = .reaping c))
    (hblock : q = p → (proc'.phase = .waiting c true ↔ proc.phase = .waiting c true)) :
    Entry σ' q procq c := by
  have hself : σ'.procs p = some proc' := by rw [hprocs, update_self]
  have hother : ∀ q, q ≠ p → σ'.procs q = σ.procs q := fun q hq => by
    rw [hprocs, update_of_ne hq]
  have hchild : ∀ child, σ.procs c = some child → ∃ child', σ'.procs c = some child' ∧
      child'.pn = child.pn ∧ child'.recorded = child.recorded ∧
      (child'.phase = .exited ↔ child.phase = .exited) := by
    intro child hchild
    by_cases hcp : c = p
    · subst hcp
      rw [hp] at hchild
      cases hchild
      exact ⟨proc', hself, hsame rfl⟩
    · exact ⟨child, (hother c hcp).trans hchild, rfl, rfl, Iff.rfl⟩
  rcases of_update_some (hprocs ▸ hq) with ⟨rfl, rfl⟩ | ⟨-, hq⟩
  · exact (h.entry q proc c hp (hsub.subset hc)).congr hrecord hchild (hreap rfl) (hblock rfl)
  · exact (h.entry q procq c hq hc).congr hrecord hchild Iff.rfl Iff.rfl

theorem Sound.rephase (hpn : proc'.pn = proc.pn) (hlist : proc'.childList = proc.childList)
    (hwaited : proc'.waited = proc.waited) (hrecorded : proc'.recorded = proc.recorded)
    (hcons : proc'.Consistent) (hexited : proc'.phase = .exited ↔ proc.phase = .exited)
    (hreap : ∀ c, proc'.phase = .reaping c ↔ proc.phase = .reaping c)
    (hblock : ∀ c, proc'.phase = .waiting c true ↔ proc.phase = .waiting c true) :
    Sound (σ.set p proc') := by
  have hsub : proc'.childList.Sublist proc.childList := hlist ▸ List.Sublist.refl _
  refine h.change hp rfl rfl hpn hsub hcons (fun c hc => .inl (hwaited ▸ hc))
    (fun c pn hc => ⟨⟨pn, hc⟩, fun hm => hlist ▸ hm⟩) fun q procq c hq hc => ?_
  exact h.entry_change hp rfl (fun _ => ⟨hpn, hrecorded, hexited⟩) hsub hq hc rfl
    (fun _ => hreap c) fun _ => hblock c

theorem Sound.found (hphase : proc.phase = .running) (hpid : pid ∈ proc.childList) :
    Sound (σ.set p { proc with phase := .waiting pid false }) := by
  have hlisted := (h.consistent p proc hp).listed
  refine h.rephase hp rfl rfl rfl rfl ⟨fun c hc => ?_, fun _ _ => ?_⟩ ?_ (fun c => ?_) fun c => ?_
  · rcases hc with ⟨b, hb⟩ | hb
    · cases hb
      exact hpid
    · cases hb
  · exact hlisted (by rw [hphase]; decide) (by rw [hphase]; decide)
  · simp [hphase]
  · simp [hphase]
  · simp [hphase]

theorem Sound.notFound {r : ℤ × ℤ} : Sound (σ.set p { proc with returned := some r }) :=
  h.rephase hp rfl rfl rfl rfl ⟨(h.consistent p proc hp).awaits, (h.consistent p proc hp).listed⟩
    Iff.rfl (fun _ => Iff.rfl) fun _ => Iff.rfl

theorem Sound.exit (hphase : proc.phase = .running ∨ proc.phase = .leaving) :
    Sound (σ.set p { proc with phase := .freeing }) := by
  refine h.rephase hp rfl rfl rfl rfl ⟨fun c hc => ?_, fun hne => absurd rfl hne⟩ ?_ (fun c => ?_)
    fun c => ?_
  · rcases hc with ⟨b, hb⟩ | hb <;> cases hb
  · rcases hphase with hphase | hphase <;> simp [hphase]
  · rcases hphase with hphase | hphase <;> simp [hphase]
  · rcases hphase with hphase | hphase <;> simp [hphase]

end

theorem Sound.owner_change (h : Sound σ) (hp : σ.procs p = some proc)
    (hprocs : σ'.procs = update σ.procs p (some proc')) (hq : σ'.procs q = some procq)
    (hc : c ∈ procq.childList) (hpc : c ∈ proc.childList) : q = p ∧ procq = proc' := by
  rcases of_update_some (hprocs ▸ hq) with ⟨rfl, rfl⟩ | ⟨hqp, hq⟩
  · exact ⟨rfl, rfl⟩
  · exact absurd (h.owner q p procq proc c hq hp hc hpc) hqp

theorem Proc.Awaits.ne (h : proc.Awaits pid) (hc : c ≠ pid) :
    proc.phase ≠ .reaping c ∧ proc.phase ≠ .waiting c true := by
  rcases h with ⟨b, hb⟩ | hb
  · rw [hb]
    exact ⟨nofun, fun heq => hc (Phase.waiting.inj heq).1.symm⟩
  · rw [hb]
    exact ⟨fun heq => hc (Phase.reaping.inj heq).symm, nofun⟩

theorem Proc.Awaits.phase_ne (h : proc.Awaits pid) :
    proc.phase ≠ .freeing ∧ proc.phase ≠ .exited := by
  rcases h with ⟨b, hb⟩ | hb <;> rw [hb] <;> exact ⟨nofun, nofun⟩

theorem Proc.Awaits.eq (h : proc.Awaits pid) (h' : proc.Awaits c) : c = pid := by
  rcases h with ⟨b, hb⟩ | hb <;> rcases h' with ⟨b', hb'⟩ | hb' <;> rw [hb] at hb' <;>
    cases hb' <;> rfl

section

variable (h : Sound σ) (hp : σ.procs p = some proc)

include h hp

theorem Sound.rewait {pn' : Pnode} {phase : Phase} (hold : proc.Awaits pid)
    (hr : σ.records pid = some pn) (hnew : Proc.Awaits { proc with phase := phase } pid)
    (hagree : ∀ child, Agrees p proc pid pn child →
      Agrees p { proc with phase := phase } pid pn' child) :
    Sound ((σ.set p { proc with phase := phase }).setRecord pid (some pn')) := by
  have hcons := h.consistent p proc hp
  have hpid := hcons.awaits pid hold
  have hprocs : ((σ.set p { proc with phase := phase }).setRecord pid (some pn')).procs =
      update σ.procs p (some { proc with phase := phase }) := rfl
  refine h.change hp hprocs rfl rfl (List.Sublist.refl _) ⟨fun c hc => ?_, fun _ _ => ?_⟩
    (fun c hc => .inl hc) (fun c pn'' hc => ⟨?_, id⟩) fun q procq c hq hc => ?_
  · rw [hnew.eq hc]
    exact hpid
  · exact hcons.listed hold.phase_ne.1 hold.phase_ne.2
  · by_cases hcpid : c = pid
    · exact ⟨pn, hcpid ▸ hr⟩
    · exact ⟨pn'', (update_of_ne hcpid _ _).symm.trans hc⟩
  · by_cases hcpid : c = pid
    · subst hcpid
      obtain ⟨rfl, rfl⟩ := h.owner_change hp hprocs hq hc hpid
      obtain ⟨hlt, pn0, child, hr0, hchild, hown, hagree0⟩ := h.entry q proc c hp hpid
      rw [hr] at hr0
      cases hr0
      exact ⟨hlt, pn', child, update_self ..,
        (update_of_ne hlt.ne' _ _).trans hchild, hown, hagree child hagree0⟩
    · refine h.entry_change hp hprocs (fun _ => ⟨rfl, rfl, ?_⟩) (List.Sublist.refl _) hq hc
        (update_of_ne hcpid _ _) (fun _ => ?_) fun _ => ?_
      · exact iff_of_false hnew.phase_ne.2 hold.phase_ne.2
      · exact iff_of_false (hnew.ne hcpid).1 (hold.ne hcpid).1
      · exact iff_of_false (hnew.ne hcpid).2 (hold.ne hcpid).2

theorem Sound.block (hphase : proc.phase = .waiting pid false) (hr : σ.records pid = some pn)
    (hvalue : pn.value = 0) :
    Sound ((σ.set p { proc with phase := .waiting pid true }).setRecord pid
      (some { pn with waiters := pn.waiters ++ [p] })) := by
  refine h.rewait hp (.inl ⟨_, hphase⟩) hr (.inl ⟨_, rfl⟩) fun child hagree => ?_
  -- the value is zero, so the child has not exited
  have hexited : child.phase ≠ .exited := by
    intro hex
    have := hagree.value
    rw [hvalue, if_pos ⟨hex, by rw [hphase]; exact nofun⟩] at this
    cases this
  refine ⟨hagree.status, ?_, ?_, nofun, fun _ => hexited⟩
  · rw [if_neg fun hh => hexited hh.1]
    exact hvalue
  · rw [hagree.waiters, if_neg (by rw [hphase]; exact nofun), if_pos rfl]
    rfl

theorem Sound.pass (hphase : proc.phase = .waiting pid false) (hr : σ.records pid = some pn)
    (hvalue : pn.value ≠ 0) :
    Sound ((σ.set p { proc with phase := .reaping pid }).setRecord pid
      (some { pn with value := pn.value - 1 })) := by
  refine h.rewait hp (.inl ⟨_, hphase⟩) hr (.inr rfl) fun child hagree => ?_
  have hval := hagree.value
  have hexited : child.phase = .exited := by
    by_contra hex
    rw [if_neg fun hh => hex hh.1] at hval
    exact hvalue hval
  refine ⟨hagree.status, ?_, ?_, fun _ => hexited, nofun⟩
  · rw [if_pos ⟨hexited, by rw [hphase]; exact nofun⟩] at hval
    rw [if_neg fun hh => hh.2 rfl]
    rw [hval]
  · rw [hagree.waiters, if_neg (by rw [hphase]; exact nofun), if_neg nofun]

theorem Sound.unblock (hphase : proc.phase = .waiting pid true) (hr : σ.records pid = some pn) :
    Sound ((σ.set p { proc with phase := .waiting pid false }).setRecord pid
      (some { pn with waiters := [] })) := by
  refine h.rewait hp (.inl ⟨_, hphase⟩) hr (.inl ⟨_, rfl⟩) fun child hagree => ?_
  have hexited := hagree.blocked hphase
  have hvalue := hagree.value
  rw [if_neg fun hh => hexited hh.1] at hvalue
  refine ⟨hagree.status, ?_, ?_, nofun, nofun⟩
  · rw [if_neg fun hh => hexited hh.1]
    exact hvalue
  · rw [if_neg nofun]

theorem Sound.restate {pn' : Pnode} (hr : σ.records p = some pn) (hpn : proc'.pn = proc.pn)
    (hlist : proc'.childList = proc.childList) (hwaited : proc'.waited = proc.waited)
    (hcons : proc'.Consistent) (hawait : ∀ c, ¬ proc.Awaits c) (hawait' : ∀ c, ¬ proc'.Awaits c)
    (hagree : ∀ q procq, Agrees q procq p pn proc → Agrees q procq p pn' proc') :
    Sound ((σ.set p proc').setRecord p (some pn')) := by
  have hsub : proc'.childList.Sublist proc.childList := hlist ▸ List.Sublist.refl _
  refine h.change hp rfl rfl hpn hsub hcons (fun c hc => .inl (hwaited ▸ hc))
    (fun c pn'' hc => ⟨?_, fun hm => hlist ▸ hm⟩) fun q procq c hq hc => ?_
  · by_cases hcp : c = p
    · exact ⟨pn, hcp ▸ hr⟩
    · exact ⟨pn'', (update_of_ne hcp _ _).symm.trans hc⟩
  · by_cases hcp : c = p
    · subst hcp
      rcases of_update_some hq with ⟨rfl, rfl⟩ | ⟨-, hq'⟩
      · exact absurd (h.entry q proc q hp (hsub.subset hc)).1 (lt_irrefl q)
      obtain ⟨hlt, pn0, child, hr0, hchild, hown, hagree0⟩ := h.entry q procq c hq' hc
      rw [hr] at hr0
      rw [hp] at hchild
      cases hr0
      cases hchild
      exact ⟨hlt, pn', proc', update_self .., update_self .., hpn.trans hown,
        hagree q procq hagree0⟩
    · refine h.entry_change hp rfl (fun heq => absurd heq hcp) hsub hq hc
        (update_of_ne hcp _ _) (fun _ => ?_) fun _ => ?_
      · exact iff_of_false (fun heq => hawait' c (.inr heq)) fun heq => hawait c (.inr heq)
      · exact iff_of_false (fun heq => hawait' c (.inl ⟨_, heq⟩)) fun heq =>
          hawait c (.inl ⟨_, heq⟩)

end

theorem Proc.not_awaits (h : ∀ c b, proc.phase ≠ .waiting c b) (h' : ∀ c, proc.phase ≠ .reaping c)
    (c : ℕ) : ¬ proc.Awaits c := by
  rintro (⟨b, hb⟩ | hb)
  · exact h c b hb
  · exact h' c hb

section

variable (h : Sound σ) (hp : σ.procs p = some proc)

include h hp

theorem Sound.store {status : ℤ} (hphase : proc.phase = .running) (hr : σ.records p = some pn) :
    Sound ((σ.set p { proc with phase := .leaving, recorded := status }).setRecord p
      (some { pn with exitStatus := status })) := by
  have hcons := h.consistent p proc hp
  have hawait : ∀ c, ¬ proc.Awaits c :=
    Proc.not_awaits (by rw [hphase]; exact nofun) (by rw [hphase]; exact nofun)
  have hawait' : ∀ c, ¬ Proc.Awaits { proc with phase := .leaving, recorded := status } c :=
    Proc.not_awaits nofun nofun
  have hrunning : proc.phase ≠ .exited := by rw [hphase]; exact nofun
  refine h.restate hp hr rfl rfl rfl ⟨fun c hc => absurd hc (hawait' c), fun _ _ => ?_⟩ hawait
    hawait' fun q procq hagree => ⟨rfl, ?_, hagree.waiters, fun hreap => ?_, fun _ => nofun⟩
  · exact hcons.listed (by rw [hphase]; exact nofun) (by rw [hphase]; exact nofun)
  · have hvalue := hagree.value
    rw [if_neg fun hh => hrunning hh.1] at hvalue
    rw [if_neg fun hh => nomatch hh.1]
    exact hvalue
  · exact absurd (hagree.reaping hreap) hrunning

theorem Sound.remove (hc : c ∈ proc.childList) (hpn : proc'.pn = proc.pn)
    (hrecorded : proc'.recorded = proc.recorded)
    (hexited : proc'.phase = .exited ↔ proc.phase = .exited)
    (hlist : proc'.childList = proc.childList.erase c)
    (hwaited : ∀ d ∈ proc'.waited, d ∈ proc.waited ∨ d ∈ proc.childList) (hcons : proc'.Consistent)
    (hreap : ∀ d, d ≠ c → (proc'.phase = .reaping d ↔ proc.phase = .reaping d))
    (hblock : ∀ d, d ≠ c → (proc'.phase = .waiting d true ↔ proc.phase = .waiting d true)) :
    Sound ((σ.set p proc').setRecord c none) := by
  have hsub : proc'.childList.Sublist proc.childList := hlist ▸ erase_sublist
  have hnodup := h.nodup p proc hp
  have hmem : ∀ d, d ∈ proc'.childList ↔ d ≠ c ∧ d ∈ proc.childList := fun d => by
    rw [hlist, hnodup.mem_erase_iff]
  refine h.change hp rfl rfl hpn hsub hcons hwaited (fun d pn hd => ?_) fun q procq d hq hd => ?_
  · obtain ⟨hdc, hd⟩ := of_update_none hd
    exact ⟨⟨pn, hd⟩, fun hm => (hmem d).mpr ⟨hdc, hm⟩⟩
  · have hdc : d ≠ c := by
      rintro rfl
      obtain ⟨-, rfl⟩ := h.owner_change hp rfl hq hd hc
      exact ((hmem d).mp hd).1 rfl
    exact h.entry_change hp rfl (fun _ => ⟨hpn, hrecorded, hexited⟩) hsub hq hd
      (update_of_ne hdc _ _) (fun _ => hreap d hdc) fun _ => hblock d hdc

theorem Sound.reap (hphase : proc.phase = .reaping pid) :
    Sound ((σ.set p { proc with
      phase := .running
      childList := proc.childList.erase pid
      returned := some (pid, pn.exitStatus)
      waited := pid :: proc.waited }).setRecord pid none) := by
  have hcons := h.consistent p proc hp
  have hpid := hcons.awaits pid (.inr hphase)
  refine h.remove hp hpid rfl rfl (by simp [hphase]) rfl (fun d hd => ?_)
    ⟨fun d hd => ?_, fun _ _ d => ?_⟩ (fun d hd => ?_) fun d hd => ?_
  · rcases mem_cons.mp hd with rfl | hd
    · exact .inr hpid
    · exact .inl hd
  · rcases hd with ⟨b, hb⟩ | hb <;> cases hb
  · have hlisted := hcons.listed (by rw [hphase]; exact nofun) (by rw [hphase]; exact nofun) d
    rw [(h.nodup p proc hp).mem_erase_iff, hlisted, mem_cons, not_or]
    exact ⟨fun hh => ⟨hh.2.1, hh.1, hh.2.2⟩, fun hh => ⟨hh.2.1, hh.1, hh.2.2⟩⟩
  · refine iff_of_false nofun ?_
    rw [hphase]
    exact fun heq => hd (Phase.reaping.inj heq).symm
  · refine iff_of_false nofun ?_
    rw [hphase]
    exact nofun

theorem Sound.freeChild {cs : List ℕ} (hphase : proc.phase = .freeing)
    (hlist : proc.childList = c :: cs) :
    Sound ((σ.set p { proc with childList := cs }).setRecord c none) := by
  have hc : c ∈ proc.childList := by rw [hlist]; exact mem_cons_self
  refine h.remove hp hc rfl rfl Iff.rfl ?_ (fun d hd => .inl hd)
    ⟨fun d hd => ?_, fun hne => absurd hphase hne⟩ (fun _ _ => Iff.rfl) fun _ _ => Iff.rfl
  · rw [hlist, erase_cons_head]
  · rcases hd with ⟨b, hb⟩ | hb
    · exact absurd (hb.symm.trans hphase) nofun
    · exact absurd (hb.symm.trans hphase) nofun

end

theorem Sound.up_quiet (h : Sound σ) (hp : σ.procs p = some proc)
    (hphase : proc.phase = .freeing) (hr : σ.records p = some pn) (hwaiters : pn.waiters = []) :
    Sound ((σ.set p { proc with phase := .exited }).setRecord p
      (some { pn with value := pn.value + 1 })) := by
  have hawait : ∀ c, ¬ proc.Awaits c :=
    Proc.not_awaits (by rw [hphase]; exact nofun) (by rw [hphase]; exact nofun)
  have hawait' : ∀ c, ¬ Proc.Awaits { proc with phase := .exited } c :=
    Proc.not_awaits nofun nofun
  have hfreeing : proc.phase ≠ .exited := by rw [hphase]; exact nofun
  refine h.restate hp hr rfl rfl rfl ⟨fun c hc => absurd hc (hawait' c), fun _ hne => ?_⟩ hawait
    hawait' fun q procq hagree => ⟨hagree.status, ?_, hagree.waiters, fun _ => rfl, fun hb => ?_⟩
  · exact absurd rfl hne
  · have hvalue := hagree.value
    rw [if_neg fun hh => hfreeing hh.1] at hvalue
    rw [if_pos ⟨rfl, fun hreap => hfreeing (hagree.reaping hreap)⟩]
    rw [hvalue]
  · have hw := hagree.waiters
    rw [hwaiters, if_pos hb] at hw
    cases hw

theorem Sound.up (h : Sound σ) (hp : σ.procs p = some proc) (hphase : proc.phase = .freeing)
    (hr : σ.records p = some pn) :
    Sound (((σ.set p { proc with phase := .exited }).wake pn.waiters).setRecord p
      (some { pn with value := pn.value + 1, waiters := pn.waiters.tail })) := by
  obtain ⟨q, parent, hq, hlisted⟩ := h.live p pn hr
  obtain ⟨hlt, pn0, child, hr0, hchild, -, hagree⟩ := h.entry q parent p hq hlisted
  rw [hr] at hr0
  rw [hp] at hchild
  cases hr0
  cases hchild
  have hw := hagree.waiters
  by_cases hblocked : parent.phase = .waiting p true
  · -- the parent is woken first, which commutes with the end of the child
    rw [if_pos hblocked] at hw
    have hwoken := h.unblock hq hblocked hr
    have hp' : ((σ.set q { parent with phase := .waiting p false }).setRecord p
        (some { pn with waiters := [] })).procs p = some proc :=
      (update_of_ne hlt.ne' _ _).trans hp
    have hup := hwoken.up_quiet hp' hphase (update_self ..) rfl
    have hwake : (σ.set p { proc with phase := .exited }).wake pn.waiters =
        (σ.set p { proc with phase := .exited }).set q
          { parent with phase := .waiting p false } := by
      have hq' : (σ.set p { proc with phase := .exited }).procs q = some parent :=
        (update_of_ne hlt.ne _ _).trans hq
      rw [hw, Processes.wake, hq']
      dsimp only
      rw [hblocked]
    rw [hwake, hw]
    convert hup using 1
    simp only [Processes.set, Processes.setRecord, update_idem]
    rw [update_comm hlt.ne]
    rfl
  · rw [if_neg hblocked] at hw
    have hup := h.up_quiet hp hphase hr hw
    rw [hw]
    convert hup using 1
    rw [Processes.wake, tail_nil, ← hw]

def Proc.addChild (proc : Proc) (tid : ℕ) : Proc :=
  { proc with childList := proc.childList ++ [tid], born := proc.born ++ [tid] }

theorem create_procs (h : Sound σ) (hp : σ.procs p = some proc)
    (hq : (σ.create p proc).procs q = some procq) :
    (q = σ.nextTid ∧ procq = ⟨some σ.nextTid, [], .running, none, [], [], -1⟩) ∨
      (q = p ∧ procq = proc.addChild σ.nextTid) ∨
      (q < σ.nextTid ∧ q ≠ p ∧ σ.procs q = some procq) := by
  rcases of_update_some hq with ⟨rfl, rfl⟩ | ⟨-, hq⟩
  · exact .inl ⟨rfl, rfl⟩
  · rcases of_update_some hq with ⟨rfl, rfl⟩ | ⟨hqp, hq⟩
    · exact .inr (.inl ⟨rfl, rfl⟩)
    · exact .inr (.inr ⟨h.lt hq, hqp, hq⟩)

theorem create_procs_self (h : Sound σ) (hp : σ.procs p = some proc) :
    (σ.create p proc).procs p = some (proc.addChild σ.nextTid) := by
  change update _ σ.nextTid _ p = _
  rw [update_of_ne (h.lt hp).ne, update_self]
  rfl

theorem create_procs_other (h : Sound σ) (hq : σ.procs q = some procq) (hqp : q ≠ p) :
    (σ.create p proc).procs q = some procq := by
  change update _ σ.nextTid _ q = _
  rw [update_of_ne (h.lt hq).ne, update_of_ne hqp, hq]

theorem create_listed (h : Sound σ) (hp : σ.procs p = some proc)
    (hq : (σ.create p proc).procs q = some procq) (hc : c ∈ procq.childList) :
    (q = p ∧ c = σ.nextTid) ∨ (c < σ.nextTid ∧ ∃ procq', σ.procs q = some procq' ∧
      c ∈ procq'.childList ∧ procq.phase = procq'.phase) := by
  rcases create_procs h hp hq with ⟨rfl, rfl⟩ | ⟨rfl, rfl⟩ | ⟨-, -, hq'⟩
  · cases hc
  · rcases mem_append.mp hc with hc | hc
    · exact .inr ⟨h.lt_of_listed hp hc, proc, hp, hc, rfl⟩
    · exact .inl ⟨rfl, mem_singleton.mp hc⟩
  · exact .inr ⟨h.lt_of_listed hq' hc, procq, hq', hc, rfl⟩

theorem Proc.Consistent.addChild {tid : ℕ} (h : proc.Consistent) (hnew : tid ∉ proc.waited) :
    (proc.addChild tid).Consistent := by
  refine ⟨fun c hc => mem_append_left _ (h.awaits c hc), fun hf hx c => ?_⟩
  unfold Proc.addChild
  rw [mem_append, mem_append, mem_singleton, h.listed hf hx c]
  constructor
  · rintro (⟨hb, hw⟩ | rfl)
    · exact ⟨.inl hb, hw⟩
    · exact ⟨.inr rfl, hnew⟩
  · rintro ⟨hb | rfl, hw⟩
    · exact .inl ⟨hb, hw⟩
    · exact .inr rfl

theorem create_entry_self (h : Sound σ) (hp : σ.procs p = some proc)
    (hphase : proc.phase = .running) :
    Entry (σ.create p proc) p (proc.addChild σ.nextTid) σ.nextTid := by
  refine ⟨h.lt hp, ⟨-1, 0, []⟩, _, update_self .., update_self .., rfl, rfl, rfl,
    ?_, fun heq => ?_, fun _ => nofun⟩
  · have hne : (proc.addChild σ.nextTid).phase ≠ .waiting σ.nextTid true := by
      change proc.phase ≠ _
      rw [hphase]
      exact nofun
    rw [if_neg hne]
  · exact absurd (hphase.symm.trans heq) nofun

theorem Sound.create (h : Sound σ) (hp : σ.procs p = some proc)
    (hphase : proc.phase = .running) : Sound (σ.create p proc) := by
  have hself := create_procs_self h hp
  refine ⟨fun c hc => ?_, fun c procc r hc hr => ?_, fun q procq hq => ?_,
    fun q q' procq procq' c hq hq' hc hc' => ?_, fun q procq hq => ?_, fun q procq c hq hc => ?_,
    fun c pn hc => ?_, fun q procq c hq hc => ?_⟩
  · change σ.nextTid + 1 ≤ c at hc
    cases hq : (σ.create p proc).procs c with
    | none => rfl
    | some procc =>
      have hpt := h.lt hp
      rcases create_procs h hp hq with ⟨rfl, -⟩ | ⟨rfl, -⟩ | ⟨hlt, -⟩ <;> omega
  · rcases create_procs h hp hc with ⟨rfl, rfl⟩ | ⟨rfl, rfl⟩ | ⟨-, -, hc'⟩
    · exact (Option.some.inj hr).symm
    · exact h.own c proc r hp hr
    · exact h.own c procc r hc' hr
  · rcases create_procs h hp hq with ⟨rfl, rfl⟩ | ⟨rfl, rfl⟩ | ⟨-, -, hq'⟩
    · exact nodup_nil
    · refine nodup_append.mpr ⟨h.nodup q proc hp, nodup_singleton _, ?_⟩
      rintro a ha b hb rfl
      have := h.lt_of_listed hp ha
      rw [mem_singleton.mp hb] at this
      omega
    · exact h.nodup q procq hq'
  · rcases create_listed h hp hq hc with ⟨rfl, rfl⟩ | ⟨hlt, procq0, hq0, hc0, -⟩
    · rcases create_listed h hp hq' hc' with ⟨rfl, -⟩ | ⟨hlt, -⟩
      · rfl
      · omega
    · rcases create_listed h hp hq' hc' with ⟨rfl, rfl⟩ | ⟨-, procq1, hq1, hc1, -⟩
      · omega
      · exact h.owner q q' procq0 procq1 c hq0 hq1 hc0 hc1
  · rcases create_procs h hp hq with ⟨rfl, rfl⟩ | ⟨rfl, rfl⟩ | ⟨-, -, hq'⟩
    · refine ⟨fun c hc => ?_, fun _ _ c => by simp⟩
      rcases hc with ⟨b, hb⟩ | hb <;> cases hb
    · exact (h.consistent q proc hp).addChild fun hw => (h.known q proc _ hp hw).false
    · exact h.consistent q procq hq'
  · rcases create_procs h hp hq with ⟨rfl, rfl⟩ | ⟨rfl, rfl⟩ | ⟨-, -, hq'⟩
    · cases hc
    · exact Nat.lt_succ_of_lt (h.known q proc c hp hc)
    · exact Nat.lt_succ_of_lt (h.known q procq c hq' hc)
  · by_cases hct : c = σ.nextTid
    · exact ⟨p, _, hself, mem_append_right _ (by rw [hct]; exact mem_singleton_self _)⟩
    · obtain ⟨q, procq, hq, hlisted⟩ := h.live c pn ((update_of_ne hct _ _).symm.trans hc)
      by_cases hqp : q = p
      · subst hqp
        rw [hp] at hq
        cases hq
        exact ⟨q, _, hself, mem_append_left _ hlisted⟩
      · exact ⟨q, procq, create_procs_other h hq hqp, hlisted⟩
  · rcases create_listed h hp hq hc with ⟨rfl, rfl⟩ | ⟨hlt, procq0, hq0, hc0, hsame⟩
    · rw [hself] at hq
      cases hq
      exact create_entry_self h hp hphase
    · refine (h.entry q procq0 c hq0 hc0).congr (update_of_ne hlt.ne _ _)
        (fun child hchild => ?_) (by rw [hsame]) (by rw [hsame])
      by_cases hcp : c = p
      · subst hcp
        rw [hp] at hchild
        cases hchild
        exact ⟨_, hself, rfl, rfl, Iff.rfl⟩
      · exact ⟨child, create_procs_other h hchild hcp, rfl, rfl, Iff.rfl⟩

theorem Sound.step (h : Sound σ) (hs : e.step σ = some σ') : Sound σ' := by
  cases moves_of_step hs with
  | create hp hphase => exact h.create hp hphase
  | found hp hphase hpid => exact h.found hp hphase (Proc.findChildPnode_eq_some hpid).1
  | notFound hp _ _ => exact h.notFound hp
  | block hp hphase hr hvalue => exact h.block hp hphase hr hvalue
  | pass hp hphase hr hvalue => exact h.pass hp hphase hr hvalue
  | reap hp hphase _ => exact h.reap hp hphase
  | store hp hphase hpn hr =>
    obtain rfl := h.own _ _ _ hp hpn
    exact h.store hp hphase hr
  | exit hp hphase => exact h.exit hp hphase
  | freeChild hp hphase hlist => exact h.freeChild hp hphase hlist
  | up hp hphase _ hpn hr =>
    obtain rfl := h.own _ _ _ hp hpn
    exact h.up hp hphase hr

theorem boot_procs_of_ne (hp : p ≠ 1) : Processes.boot.procs p = none := by
  unfold Processes.boot
  dsimp only
  rw [update_of_ne hp]

theorem boot_procs (hp : Processes.boot.procs p = some proc) :
    p = 1 ∧ proc = ⟨none, [], .running, none, [], [], -1⟩ := by
  by_cases hp1 : p = 1
  · subst hp1
    exact ⟨rfl, (Option.some.inj hp).symm⟩
  · rw [boot_procs_of_ne hp1] at hp
    cases hp

theorem boot_sound : Sound Processes.boot := by
  refine ⟨fun c (hc : 2 ≤ c) => boot_procs_of_ne (by omega), fun c proc r hc hr => ?_,
    fun p proc hp => ?_, fun p q proc proc' c hp _ hc _ => ?_, fun p proc hp => ?_,
    fun p proc c hp hc => ?_, nofun, fun p proc c hp hc => ?_⟩
  · obtain ⟨-, rfl⟩ := boot_procs hc
    cases hr
  · obtain ⟨-, rfl⟩ := boot_procs hp
    exact nodup_nil
  · obtain ⟨-, rfl⟩ := boot_procs hp
    cases hc
  · obtain ⟨-, rfl⟩ := boot_procs hp
    refine ⟨fun c hc => ?_, fun _ _ c => by simp⟩
    rcases hc with ⟨b, hb⟩ | hb <;> cases hb
  · obtain ⟨-, rfl⟩ := boot_procs hp
    cases hc
  · obtain ⟨-, rfl⟩ := boot_procs hp
    cases hc

def Processes.phaseOf (σ : Processes) (p : ℕ) : Option Phase :=
  (σ.procs p).map Proc.phase

def Processes.firstChild (σ : Processes) (p : ℕ) : Option ℕ :=
  (σ.procs p).bind fun proc => proc.childList.head?

/-- If the step is a round of `free_child_list`, it frees the record of a child that has
exited. -/
def ProcStep.FreesExited (σ : Processes) : ProcStep → Prop
  | freeChild p => ∀ c ∈ σ.firstChild p, σ.phaseOf c = some .exited
  | _ => True

instance (σ : Processes) (e : ProcStep) : Decidable (e.FreesExited σ) :=
  match e with
  | .freeChild p => inferInstanceAs (Decidable (∀ c ∈ σ.firstChild p, σ.phaseOf c = some .exited))
  | .create _ | .wait _ _ | .down _ | .reap _ | .store _ _ | .exit _ | .up _ => isTrue trivial

theorem Attached.change (h : Attached σ) (hp : σ.procs p = some proc)
    (hprocs : σ'.procs = update σ.procs p (some proc')) (hpn : proc'.pn = proc.pn)
    (hphase : proc'.phase ≠ .exited → proc.phase ≠ .exited)
    (hrecords : ∀ c child, σ.procs c = some child → child.phase ≠ .exited →
      σ.records c ≠ none → σ'.records c ≠ none) : Attached σ' := by
  intro c child hc hown hexited
  rcases of_update_some (hprocs ▸ hc) with ⟨rfl, rfl⟩ | ⟨-, hc⟩
  · exact hrecords c proc hp (hphase hexited) (h c proc hp (hpn ▸ hown) (hphase hexited))
  · exact hrecords c child hc hexited (h c child hc hown hexited)

theorem setRecord_ne_none (hc : σ.records c ≠ none) :
    (σ.setRecord r (some pn)).records c ≠ none := by
  by_cases hcr : c = r
  · subst hcr
    rw [σ.setRecord_records_self]
    exact nofun
  · rw [σ.setRecord_records_of_ne hcr]
    exact hc

theorem setRecord_none_ne_none {last : Proc} (hr : σ.procs r = some last)
    (hlast : last.phase = .exited) (hc : σ.procs c = some child) (hexited : child.phase ≠ .exited)
    (hne : σ.records c ≠ none) : (σ.setRecord r none).records c ≠ none := by
  have hcr : c ≠ r := by
    rintro rfl
    rw [hr] at hc
    cases hc
    exact hexited hlast
  rw [σ.setRecord_records_of_ne hcr]
  exact hne

theorem Attached.create (hs : Sound σ) (h : Attached σ) (hp : σ.procs p = some proc) :
    Attached (σ.create p proc) := by
  intro c child hc hown hexited
  by_cases hct : c = σ.nextTid
  · subst hct
    change update σ.records σ.nextTid _ σ.nextTid ≠ none
    rw [update_self]
    exact nofun
  · change update σ.records σ.nextTid _ c ≠ none
    rw [update_of_ne hct]
    rcases create_procs hs hp hc with ⟨rfl, -⟩ | ⟨rfl, rfl⟩ | ⟨-, -, hc'⟩
    · exact absurd rfl hct
    · exact h c proc hp hown hexited
    · exact h c child hc' hown hexited

theorem Attached.wake (h : Attached σ) (ws : List ℕ) : Attached (σ.wake ws) := by
  rcases σ.wake_cases ws with heq | ⟨w, proc, pid, b, hw, hphase, heq⟩
  · rw [heq]
    exact h
  · rw [heq]
    refine h.change hw rfl rfl (fun _ => ?_) fun _ _ _ _ => id
    rw [hphase]
    exact nofun

theorem Attached.step (hs : Sound σ) (h : Attached σ) (hfree : e.FreesExited σ)
    (hstep : e.step σ = some σ') : Attached σ' := by
  cases moves_of_step hstep with
  | create hp _ => exact Attached.create hs h hp
  | found hp hphase _ =>
    refine h.change hp rfl rfl (fun _ => ?_) fun _ _ _ _ => id
    rw [hphase]
    exact nofun
  | notFound hp _ _ => exact h.change hp rfl rfl id fun _ _ _ _ => id
  | block hp hphase _ _ | pass hp hphase _ _ =>
    refine h.change hp rfl rfl (fun _ => ?_) fun _ _ _ _ => setRecord_ne_none
    rw [hphase]
    exact nofun
  | @reap p pid proc pn hp hphase hr =>
    obtain ⟨hlt, pn', child, -, hchild, -, hagree⟩ :=
      hs.entry p proc pid hp ((hs.consistent p proc hp).awaits pid (.inr hphase))
    refine h.change hp rfl rfl (fun _ => ?_) fun c procc hc hexited =>
      setRecord_none_ne_none hchild (hagree.reaping hphase) hc hexited
    rw [hphase]
    exact nofun
  | store hp hphase _ _ =>
    refine h.change hp rfl rfl (fun _ => ?_) fun _ _ _ _ => setRecord_ne_none
    rw [hphase]
    exact nofun
  | exit hp hphase =>
    refine h.change hp rfl rfl (fun _ => ?_) fun _ _ _ _ => id
    rcases hphase with hphase | hphase <;> rw [hphase] <;> exact nofun
  | @freeChild p c cs proc hp hphase hlist =>
    have hfirst : σ.firstChild p = some c := by rw [Processes.firstChild, hp]; simp [hlist]
    obtain ⟨child, hchild, hexited⟩ := Option.map_eq_some_iff.mp (hfree c hfirst)
    exact h.change hp rfl rfl id fun d procd hd hne =>
      setRecord_none_ne_none hchild hexited hd hne
  | @up p r proc pn hp hphase _ _ _ =>
    have hend : Attached (σ.set p { proc with phase := .exited }) :=
      h.change hp rfl rfl (fun hne => absurd rfl hne) fun _ _ _ _ => id
    intro c child hc hown hexited
    exact setRecord_ne_none (hend.wake pn.waiters c child hc hown hexited)

theorem Sound.walk_eq (h : Sound σ) (hp : σ.procs p = some proc) (k : Outcome) :
    σ.walk proc k = k := by
  refine if_pos fun r hr => ?_
  obtain ⟨-, pn, child, hrecord, -⟩ := h.entry p proc r hp hr
  rw [hrecord]
  exact nofun

theorem use_ne_misuse (hr : σ.records r ≠ none) (hk : ∀ pn, k pn ≠ .misuse) :
    σ.use r k ≠ .misuse := by
  unfold Processes.use
  cases hrecord : σ.records r with
  | none => exact absurd hrecord hr
  | some pn => exact hk pn

theorem use_listed_ne_misuse (h : Sound σ) (hp : σ.procs p = some proc) (hc : c ∈ proc.childList)
    (hk : ∀ pn, k pn ≠ .misuse) : σ.use c k ≠ .misuse := by
  obtain ⟨-, pn, child, hrecord, -⟩ := h.entry p proc c hp hc
  exact use_ne_misuse (by rw [hrecord]; exact nofun) hk

theorem use_own_ne_misuse (h : Sound σ) (hkeeps : Keeps σ p) (hp : σ.procs p = some proc)
    (hpn : proc.pn = some r) (hphase : proc.phase ≠ .exited) (hk : ∀ pn, k pn ≠ .misuse) :
    σ.use r k ≠ .misuse := by
  obtain rfl := h.own p proc r hp hpn
  exact use_ne_misuse (hkeeps proc hp hpn hphase) hk

theorem as_ne_misuse {k : Proc → Outcome}
    (hk : ∀ proc, σ.procs p = some proc → k proc ≠ .misuse) : σ.as p k ≠ .misuse := by
  unfold Processes.as
  cases hp : σ.procs p with
  | none => exact nofun
  | some proc => exact hk proc hp

/-- The process whose own record the step uses. -/
def ProcStep.recordUser : ProcStep → Option ℕ
  | store p _ | up p => some p
  | create _ | wait _ _ | down _ | reap _ | exit _ | freeChild _ => none

theorem not_misuses (h : Sound σ) (e : ProcStep) (hkeeps : ∀ p ∈ e.recordUser, Keeps σ p) :
    ¬ e.Misuses σ := by
  cases e with
  | create p =>
    refine as_ne_misuse fun proc hp => ?_
    rw [h.walk_eq hp]
    split_ifs <;> exact nofun
  | wait p pid =>
    refine as_ne_misuse fun proc hp => ?_
    rw [h.walk_eq hp]
    split_ifs
    · split <;> exact nofun
    · exact nofun
  | down p =>
    refine as_ne_misuse fun proc hp => ?_
    split
    · next pid hphase =>
      have hpid := (h.consistent p proc hp).awaits pid (.inl ⟨_, hphase⟩)
      refine use_listed_ne_misuse h hp hpid fun pn => ?_
      split_ifs <;> exact nofun
    · exact nofun
  | reap p =>
    refine as_ne_misuse fun proc hp => ?_
    split
    · next pid hphase =>
      have hpid := (h.consistent p proc hp).awaits pid (.inr hphase)
      rw [h.walk_eq hp]
      exact use_listed_ne_misuse h hp hpid fun pn => nofun
    · exact nofun
  | store p status =>
    refine as_ne_misuse fun proc hp => ?_
    split
    · next r hpn =>
      split_ifs with hphase
      · exact use_own_ne_misuse h (hkeeps p rfl) hp hpn (by rw [hphase]; exact nofun)
          fun pn => nofun
      · exact nofun
    · exact nofun
  | exit p =>
    refine as_ne_misuse fun proc hp => ?_
    split_ifs <;> exact nofun
  | freeChild p =>
    refine as_ne_misuse fun proc hp => ?_
    split
    · next c cs hlist =>
      have hc : c ∈ proc.childList := by rw [hlist]; exact mem_cons_self
      split_ifs
      · rw [h.walk_eq hp]
        exact use_listed_ne_misuse h hp hc fun pn => nofun
      · exact nofun
    · exact nofun
  | up p =>
    refine as_ne_misuse fun proc hp => ?_
    split
    · next r hpn =>
      split_ifs with hphase
      · exact use_own_ne_misuse h (hkeeps p rfl) hp hpn (by rw [hphase.1]; exact nofun)
          fun pn => nofun
      · exact nofun
    · exact nofun

theorem boot_attached : Attached Processes.boot := by
  intro c proc hc hown
  obtain ⟨-, rfl⟩ := boot_procs hc
  cases hown

theorem run_attached {σ0 : Processes} {steps : List ProcStep} (h : Sound σ0 ∧ Attached σ0)
    (hfree : Run.Meets ProcStep.step ProcStep.FreesExited σ0 steps)
    (hr : Run.run ProcStep.step σ0 steps = some σ) : Sound σ ∧ Attached σ :=
  Run.run_invariant (I := fun σ => Sound σ ∧ Attached σ)
    (fun _ _ _ hi hp hs => ⟨hi.1.step hs, Attached.step hi.1 hi.2 hp hs⟩) h hfree hr

/-- In a run in which `free_child_list` frees only records of children that have exited, no
step of any process uses a record that was freed, or frees it again. -/
theorem run_not_misuses {steps : List ProcStep}
    (hfree : Run.Meets ProcStep.step ProcStep.FreesExited Processes.boot steps)
    (hr : Run.run ProcStep.step Processes.boot steps = some σ) (e : ProcStep) :
    ¬ e.Misuses σ := by
  obtain ⟨hs, ha⟩ := run_attached ⟨boot_sound, boot_attached⟩ hfree hr
  exact not_misuses hs e fun p _ => ha p

/-- Process 2 waits for one of its two children and exits after the other one has. -/
def orderlySteps : List ProcStep :=
  [.create 1, .create 2, .create 2, .wait 2 3, .down 2, .store 3 7, .exit 3, .up 3, .down 2,
    .reap 2, .exit 4, .up 4, .exit 2, .freeChild 2, .up 2]

theorem orderlySteps_meets :
    Run.Meets ProcStep.step ProcStep.FreesExited Processes.boot orderlySteps := by
  decide +kernel

theorem run_not_misuses_orderly :
    ∃ σ, Run.run ProcStep.step Processes.boot orderlySteps = some σ ∧
      (σ.procs 2).map Proc.returned = some (some (3, 7)) ∧ σ.records 4 = none ∧
      ¬ (ProcStep.up 4).Misuses σ :=
  ⟨_, rfl, rfl, rfl, run_not_misuses orderlySteps_meets rfl _⟩

/-- A process creates another one and exits; the semaphore that the other one ups at its
end is in a record that was freed. -/
theorem up_misuses_orphan :
    ∃ σ, Run.run ProcStep.step Processes.boot
        [.create 1, .create 2, .exit 2, .freeChild 2, .up 2, .exit 3] = some σ ∧
      (ProcStep.up 3).Misuses σ :=
  ⟨_, rfl, rfl⟩

end Userprog

end CS162
