import CS162.Tpc.MessageManager

/-!
# Where a response comes from

With `retry` and a context that is not cancelled, `sendSingleMsg` returns a response that was
received after its message was sent, or it returns because `Send` failed.
-/

namespace CS162.Tpc

open List Tpc.Action

def Control.call : Control → Option Call
  | idle => none
  | sending c => some c
  | selecting c => some c

section Log

variable {log log' : List LogEntry} {client n : ℕ} {x y : LogEntry}

theorem mem_of_mem_write (h : y ∈ log ++ [x]) (hne : y ≠ x) : y ∈ log :=
  (mem_append.mp h).resolve_right fun hmem => hne (mem_singleton.mp hmem)

/-- What the goroutine of a call owes to the log, when `client` is the stream the call sends on. -/
def Heard (log : List LogEntry) (client n : ℕ) : Receiving → Prop
  | .spawned => .sent n client ∈ log
  | .inRecv k => k = client ∧ .sent n k ∈ log
  | .holding (some reply) => ∃ k, [.sent n k, .received n k reply] <+ log
  | .holding none => True
  | .done => True

theorem Heard.mono {r : Receiving} (h : Heard log client n r) (hlog : log <+ log') :
    Heard log' client n r := by
  match r, h with
  | .spawned, h => exact hlog.subset h
  | .inRecv _, h => exact ⟨h.1, hlog.subset h.2⟩
  | .holding (some _), ⟨k, hk⟩ => exact ⟨k, hk.trans hlog⟩
  | .holding none, _ => trivial
  | .done, _ => trivial

/-- What a result owes to the log. -/
def Settled (log : List LogEntry) (c : Call) : Result → Prop
  | .received reply =>
    (∃ k, [.sent c.number k, .received c.number k reply, .returned c (.received reply)] <+ log) ∧
      .sendFailed c.number ∉ log
  | .abort => c.retry = true → .sendFailed c.number ∈ log ∨ .cancelled c.number ∈ log

theorem Settled.write {c : Call} {result : Result} (h : Settled log c result)
    (hx : x ≠ .sendFailed c.number) : Settled (log ++ [x]) c result := by
  match result, h with
  | .received reply, ⟨⟨k, hk⟩, hfail⟩ =>
    exact ⟨⟨k, hk.trans (sublist_append_left ..)⟩, fun hmem =>
      hfail (mem_of_mem_write hmem hx.symm)⟩
  | .abort, h =>
    exact fun hretry => (h hretry).imp (mem_append_left _) (mem_append_left _)

end Log

namespace Client

/-- The calls that have returned are those with a smaller number. -/
def ended (s : Client) : ℕ :=
  match s.control with
  | .idle => s.calls
  | _ => s.calls - 1

/-- The goroutines and the results of a client are in its log. -/
structure Traced (s : Client) : Prop where
  receivers_lt : ∀ r ∈ s.receivers, r.call < s.calls
  active : ∀ c, s.control.call = some c → c.number = s.ended ∧ s.ended < s.calls
  own : ∀ c, s.control.call = some c → ∀ r ∈ s.receivers, r.call = c.number →
    Heard s.log s.client c.number r.state
  returned : ∀ c result, .returned c result ∈ s.log →
    c.number < s.ended ∧ Settled s.log c result
  failed : ∀ n, .sendFailed n ∈ s.log → n < s.ended

namespace Traced

variable {s : Client} {i : ℕ} {c : Call}

theorem init : Client.init.Traced where
  receivers_lt := by simp [Client.init]
  active := by simp [Client.init, Control.call]
  own := by simp [Client.init]
  returned := by simp [Client.init]
  failed := by simp [Client.init]

section

variable (h : s.Traced)

include h

theorem call (hidle : s.control = .idle) (msg : LeaderMsg) (retry : Bool) :
    Traced { s with calls := s.calls + 1, control := .sending ⟨s.calls, msg, retry⟩ } := by
  have hended : s.ended = s.calls := by rw [ended, hidle]
  exact {
    receivers_lt := fun r hr => (h.receivers_lt r hr).trans (Nat.lt_succ_self _)
    active := by
      rintro c hc
      cases hc
      exact ⟨rfl, Nat.lt_succ_self _⟩
    own := by
      -- the call has no goroutines yet
      rintro c hc r hr hcall
      cases hc
      exact absurd hcall (h.receivers_lt r hr).ne
    returned := fun c result hmem => by
      have := h.returned c result hmem
      rwa [hended] at this
    failed := fun n hmem => by
      have := h.failed n hmem
      rwa [hended] at this }

theorem setReceiver {n : ℕ} {r : Receiving} (r' : Receiving) (hr : s.receivers[i]? = some ⟨n, r⟩)
    (hheard : Heard s.log s.client n r → Heard s.log s.client n r') :
    (s.setReceiver i ⟨n, r'⟩).Traced := by
  have hmem : (⟨n, r⟩ : Receiver) ∈ s.receivers := mem_of_getElem? hr
  exact {
    receivers_lt := fun x hx => by
      rcases mem_or_eq_of_mem_set hx with hx | rfl
      · exact h.receivers_lt x hx
      · exact h.receivers_lt ⟨n, r⟩ hmem
    active := h.active
    own := fun c hc x hx hcall => by
      rcases mem_or_eq_of_mem_set hx with hx | rfl
      · exact h.own c hc x hx hcall
      · cases hcall
        exact hheard (h.own c hc _ hmem rfl)
    returned := h.returned
    failed := h.failed }

theorem setStream (k : ℕ) (stream : Stream) : (s.setStream k stream).Traced :=
  ⟨h.receivers_lt, h.active, h.own, h.returned, h.failed⟩

theorem write {x : LogEntry} (hfail : ∀ n, x ≠ .sendFailed n)
    (hret : ∀ c result, x ≠ .returned c result) : (s.write x).Traced where
  receivers_lt := h.receivers_lt
  active := h.active
  own := fun c hc r hr hcall => (h.own c hc r hr hcall).mono (sublist_append_left ..)
  returned := fun c result hmem =>
    have hold := h.returned c result (mem_of_mem_write hmem (hret c result).symm)
    ⟨hold.1, hold.2.write (hfail _)⟩
  failed := fun n hmem => h.failed n (mem_of_mem_write hmem (hfail n).symm)

theorem setControl (control : Control) (hc : s.control.call = some c)
    (hcontrol : control.call = some c) : Traced { s with control := control } := by
  have hended : Client.ended { s with control := control } = s.ended := by
    unfold ended
    cases control <;> cases hs : s.control <;> simp_all [Control.call]
  exact {
    receivers_lt := h.receivers_lt
    active := fun c' hc' => by
      rw [hended]
      exact h.active c' (hc.trans (hcontrol.symm.trans hc'))
    own := fun c' hc' => h.own c' (hc.trans (hcontrol.symm.trans hc'))
    returned := fun c' result hmem => by
      rw [hended]
      exact h.returned c' result hmem
    failed := fun n hmem => by
      rw [hended]
      exact h.failed n hmem }

theorem ret {result : Result} (hc : s.control.call = some c)
    (hresult : Settled (s.log ++ [.returned c result]) c result) : (s.ret c result).Traced := by
  obtain ⟨hnumber, hlt⟩ := h.active c hc
  have hended : (s.ret c result).ended = s.ended + 1 := by
    have : s.ended = s.calls - 1 := by
      unfold ended
      cases hs : s.control <;> simp_all [Control.call]
    change s.calls = _
    omega
  exact {
    receivers_lt := h.receivers_lt
    active := fun c' hc' => by cases hc'
    own := fun c' hc' => by cases hc'
    returned := fun c' result' hmem => by
      rw [hended]
      rcases mem_append.mp hmem with hmem | hmem
      · obtain ⟨hlt', hsettled⟩ := h.returned c' result' hmem
        exact ⟨hlt'.trans (Nat.lt_succ_self _), hsettled.write (by simp)⟩
      · cases mem_singleton.mp hmem
        exact ⟨by omega, hresult⟩
    failed := fun n hmem => by
      rw [hended]
      exact (h.failed n (mem_of_mem_write hmem (by simp))).trans (Nat.lt_succ_self _) }

theorem sendOk (hc : s.control = .sending c) : (s.sendOk c).Traced := by
  have hcall : s.control.call = some c := by rw [hc]; rfl
  have hsent := ((h.setStream s.client ⟨s.current.unanswered ++ [⟨c.number, c.msg⟩],
    s.current.unread⟩).write (x := .sent c.number s.client) (by simp) (by simp)).setControl
    (.selecting c) hcall rfl
  obtain ⟨hnumber, hlt⟩ := h.active c hcall
  exact {
    receivers_lt := fun r hr => by
      rcases mem_append.mp hr with hr | hr
      · exact h.receivers_lt r hr
      · cases mem_singleton.mp hr
        change c.number < s.calls
        omega
    active := hsent.active
    own := fun c' hc' r hr hr' => by
      rcases mem_append.mp hr with hr | hr
      · exact hsent.own c' hc' r hr hr'
      · cases mem_singleton.mp hr
        cases hc'
        exact mem_append_right _ (mem_singleton.mpr rfl)
    returned := hsent.returned
    failed := hsent.failed }

theorem sendFail (hc : s.control = .sending c) : (s.sendFail c).Traced := by
  obtain ⟨hnumber, hlt⟩ := h.active c (by rw [hc]; rfl)
  have hended : (s.sendFail c).ended = s.calls := rfl
  exact {
    receivers_lt := h.receivers_lt
    active := fun c' hc' => by cases hc'
    own := fun c' hc' => by cases hc'
    returned := fun c' result hmem => by
      rw [hended]
      rcases mem_append.mp hmem with hmem | hmem
      · obtain ⟨hlt', hsettled⟩ := h.returned c' result (mem_of_mem_write hmem (by simp))
        refine ⟨hlt'.trans hlt, (hsettled.write ?_).write (by simp)⟩
        -- it was another call that returned
        rintro heq
        have hsame : c.number = c'.number := LogEntry.sendFailed.inj heq
        omega
      · cases mem_singleton.mp hmem
        refine ⟨by omega, fun _ => Or.inl (mem_append_left _ (mem_append_right _ ?_))⟩
        exact mem_singleton.mpr rfl
    failed := fun n hmem => by
      rw [hended]
      rcases mem_append.mp (mem_of_mem_write hmem (by simp)) with hmem | hmem
      · exact (h.failed n hmem).trans hlt
      · cases mem_singleton.mp hmem
        omega }

theorem expired (hc : s.control = .selecting c) (deadline : Bool) :
    (s.expired c deadline).Traced := by
  have hcall : s.control.call = some c := by rw [hc]; rfl
  unfold Client.expired
  split
  · exact h.setControl _ hcall rfl
  · next hagain =>
      split
      · next hdeadline =>
          refine h.ret hcall fun hretry => absurd ?_ hagain
          rw [hdeadline, hretry]
          rfl
      · refine (h.write (by simp) (by simp)).ret hcall fun _ => Or.inr ?_
        exact mem_append_left _ (mem_append_right _ (mem_singleton.mpr rfl))

theorem taken {result : Option Reply} (hc : s.control = .selecting c)
    (hr : s.receivers[i]? = some ⟨c.number, .holding result⟩) :
    ((s.setReceiver i ⟨c.number, .done⟩).taken c result).Traced := by
  have hcall : s.control.call = some c := by rw [hc]; rfl
  have hdone := h.setReceiver .done hr fun _ => trivial
  unfold Client.taken
  match result with
  | none =>
    dsimp only
    split
    · exact hdone.setControl _ hcall rfl
    · next hretry => exact hdone.ret hcall fun hretry' => absurd hretry' hretry
  | some reply =>
    obtain ⟨k, hk⟩ := h.own c hcall _ (mem_of_getElem? hr) rfl
    refine hdone.ret hcall ⟨⟨k, hk.append (Sublist.refl [LogEntry.returned c (.received reply)])⟩,
      fun hmem => ?_⟩
    have hfailed := h.failed _ (mem_of_mem_write hmem (by simp))
    exact absurd (h.active c hcall).1 hfailed.ne

theorem received {n k : ℕ} {reply : Reply} (hr : s.receivers[i]? = some ⟨n, .inRecv k⟩) :
    ((s.setReceiver i ⟨n, .holding (some reply)⟩).write (.received n k reply)).Traced := by
  have hw := h.write (x := .received n k reply) (by simp) (by simp)
  refine hw.setReceiver (.holding (some reply)) hr fun ⟨_, hsent⟩ => ⟨k, ?_⟩
  have hmem : .sent n k ∈ s.log := mem_of_mem_write hsent (by simp)
  exact (singleton_sublist.mpr hmem).append (Sublist.refl [LogEntry.received n k reply])

theorem moves {s' : Client} (hmoves : s.Moves s') : s'.Traced := by
  cases hmoves with
  | call msg retry hidle => exact h.call hidle msg retry
  | sendOk c hc => exact h.sendOk hc
  | sendFail c hc => exact h.sendFail hc
  | enter i call hr => exact h.setReceiver _ hr fun hsent => ⟨rfl, hsent⟩
  | answer k resp sent rest hk => exact h.setStream k _
  | recv i call k reply rest hr hk =>
    exact (h.setStream k _).received hr
  | recvErr i call k hr => exact h.setReceiver _ hr fun _ => trivial
  | expire c deadline hc => exact h.expired hc deadline
  | take i c result hc hr => exact h.taken hc hr

end

theorem run {t : Client} {events : List Event} (hrun : Run.run step .init events = some t) :
    t.Traced :=
  run_keeps (fun _ _ h hmoves => h.moves hmoves) init hrun

end Traced

/-- A call with `retry` whose context is not cancelled returns a response that was received after
its message was sent on the same stream, just when none of its `Send`s failed. -/
theorem returned_received_iff {s : Client} {events : List Event}
    (hrun : Run.run step .init events = some s) {c : Call} {result : Result}
    (hret : .returned c result ∈ s.log) (hretry : c.retry = true)
    (hctx : .cancelled c.number ∉ s.log) :
    (∃ k reply, result = .received reply ∧
      [.sent c.number k, .received c.number k reply, .returned c result] <+ s.log) ↔
      .sendFailed c.number ∉ s.log := by
  have hsettled := ((Traced.run hrun).returned c result hret).2
  match result, hsettled with
  | .received reply, ⟨⟨k, hk⟩, hfail⟩ => exact ⟨fun _ => hfail, fun _ => ⟨k, reply, rfl, hk⟩⟩
  | .abort, habort =>
    refine ⟨?_, fun hfail => ?_⟩
    · rintro ⟨k, reply, heq, -⟩
      cases heq
    · exact absurd (habort hretry) (not_or.mpr ⟨hfail, hctx⟩)

def voteMsg (key : Bytes) : LeaderMsg where
  type := 0
  action := prepare
  key := key
  value := []

/-- A call whose first round times out and whose second one is answered. -/
theorem returned_received_sample :
    ∃ s k reply, Run.run step .init [.call (voteMsg [1]) true, .send true, .enter 0, .expire true,
        .send true, .answer 0 ⟨commit⟩, .recv 0, .take 0] = some s ∧
      [.sent 0 k, .received 0 k reply, .returned ⟨0, voteMsg [1], true⟩ (.received reply)] <+
        s.log := by
  let events : List Event := [.call (voteMsg [1]) true, .send true, .enter 0, .expire true,
    .send true, .answer 0 ⟨commit⟩, .recv 0, .take 0]
  have hlog : (Run.run step .init events).map Client.log = some [.sent 0 0, .sent 0 0,
      .received 0 0 ⟨⟨0, voteMsg [1]⟩, ⟨commit⟩⟩,
      .returned ⟨0, voteMsg [1], true⟩ (.received ⟨⟨0, voteMsg [1]⟩, ⟨commit⟩⟩)] := by
    decide +kernel
  obtain ⟨s, hs, hlog⟩ := Option.map_eq_some_iff.mp hlog
  have hret : .returned ⟨0, voteMsg [1], true⟩
      (.received ⟨⟨0, voteMsg [1]⟩, ⟨commit⟩⟩) ∈ s.log := by
    rw [hlog]
    decide
  obtain ⟨k, reply, hreply, hsub⟩ := (returned_received_iff hs hret rfl
    (by rw [hlog]; decide)).mpr (by rw [hlog]; decide)
  cases hreply
  exact ⟨s, k, _, hs, hsub⟩

/-- `Send` fails: the client is connected again, and the call returns its own response although
`retry` is set. -/
theorem not_received_of_sendFailed :
    (Run.run step .init [.call (voteMsg [1]) true, .send false]).map
        (fun s => (s.client, s.log)) =
      some (1, [.sendFailed 0, .returned ⟨0, voteMsg [1], true⟩ .abort]) := by
  decide +kernel

end Client

end CS162.Tpc
