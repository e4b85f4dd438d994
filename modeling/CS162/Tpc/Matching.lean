import CS162.Tpc.Retry

/-!
# Which message a response answers

A goroutine that a call has left behind still waits on the stream, and so does the reply to a
message that timed out; the next call may get it.  `exposed` lists the messages whose reply a
call can get: with `retry` everything that is outstanding on its stream, without it what the
other goroutines leave.
-/

namespace CS162.Tpc

open Option Run
open List

/-- A goroutine that may take the next reply of the stream `client`. -/
def Receiver.live (client : ℕ) (r : Receiver) : Bool :=
  match r.state with
  | .spawned => true
  | .inRecv k => k = client
  | .holding _ => false
  | .done => false

namespace Client

/-- How many goroutines may take the next reply of the stream in `c.client`. -/
def live (s : Client) : ℕ :=
  s.receivers.countP (Receiver.live s.client)

/-- What is outstanding on the stream in `c.client`. -/
def outstanding (s : Client) : List Sent :=
  s.current.outstanding

/-- The messages whose reply can reach a call, when it has not started its goroutine yet
(`own = 1`) or has started it (`own = 0`). -/
def exposed (s : Client) (retry : Bool) (own : ℕ) : List Sent :=
  if retry then s.outstanding else s.outstanding.take (s.live + own)

@[simp] theorem exposed_true (s : Client) (own : ℕ) : s.exposed true own = s.outstanding := rfl

@[simp] theorem exposed_false (s : Client) (own : ℕ) :
    s.exposed false own = s.outstanding.take (s.live + own) := rfl

section Live

variable {s s' : Client} {i : ℕ} {r r' : Receiver}

theorem live_setReceiver (hr : s.receivers[i]? = some r) (r' : Receiver) :
    (s.setReceiver i r').live + (if r.live s.client then 1 else 0) =
      s.live + if r'.live s.client then 1 else 0 := by
  obtain ⟨hi, hget⟩ := List.getElem?_eq_some_iff.mp hr
  have hset : (s.setReceiver i r').live = _ := countP_set (p := Receiver.live s.client) hi
  rw [hset, hget]
  have hle : (if r.live s.client then 1 else 0) ≤ s.live := by
    split
    · next hlive => exact countP_pos_iff.mpr ⟨r, mem_of_getElem? hr, hlive⟩
    · exact Nat.zero_le _
  unfold live at *
  omega

theorem mem_exposed_of_drop {retry : Bool} {own d : ℕ} {x : Sent}
    (hout : s'.outstanding = s.outstanding.drop d) (hlive : s'.live + d ≤ s.live)
    (hx : x ∈ s'.exposed retry own) : x ∈ s.exposed retry own := by
  cases retry with
  | true =>
    rw [exposed_true, hout] at hx
    exact mem_of_mem_drop hx
  | false =>
    rw [exposed_false, hout] at hx
    have hle : s'.live + own ≤ s.live + own - d := by omega
    have hx' : x ∈ (s.outstanding.drop d).take (s.live + own - d) :=
      (take_sublist_take_left hle).subset hx
    rw [← drop_take] at hx'
    exact mem_of_mem_drop hx'

theorem mem_exposed_sendOk {retry : Bool} {c : Call} {x : Sent}
    (hx : x ∈ (s.sendOk c).exposed retry 0) : x ∈ s.exposed retry 1 ∨ x = ⟨c.number, c.msg⟩ := by
  have hout : (s.sendOk c).outstanding = s.outstanding ++ [⟨c.number, c.msg⟩] := by
    simp [outstanding, current, sendOk, setStream, Stream.outstanding]
  have hlive : (s.sendOk c).live = s.live + 1 := by
    simp [live, sendOk, setStream, countP_append, Receiver.live]
  cases retry with
  | true =>
    rw [exposed_true, hout] at hx
    exact (mem_append.mp hx).imp id mem_singleton.mp
  | false =>
    rw [exposed_false, hout, hlive, take_append] at hx
    exact (mem_append.mp hx).imp id fun h => mem_singleton.mp (mem_of_mem_take h)

end Live

/-- What a goroutine of a call for `msg` may be doing. -/
def Fits (client : ℕ) (msg : LeaderMsg) : Receiving → Prop
  | .inRecv k => k = client
  | .holding (some reply) => reply.answers.msg = msg
  | _ => True

/-- Call number `n`, which is for `msg`, can only get replies to this message. -/
structure Guarded (n : ℕ) (msg : LeaderMsg) (retry : Bool) (s : Client) : Prop where
  lt : n < s.calls
  active : ∀ c, s.control.call = some c → c.number = n → c.msg = msg ∧ c.retry = retry
  own : ∀ c, s.control.call = some c → c.number = n → ∀ r ∈ s.receivers, r.call = n →
    Fits s.client msg r.state
  sending : ∀ c, s.control = .sending c → c.number = n → ∀ x ∈ s.exposed retry 1, x.msg = msg
  selecting : ∀ c, s.control = .selecting c → c.number = n → ∀ x ∈ s.exposed retry 0, x.msg = msg
  returned : ∀ c reply, .returned c (.received reply) ∈ s.log → c.number = n →
    reply.answers.msg = msg

namespace Guarded

variable {s s' : Client} {n : ℕ} {msg : LeaderMsg} {retry : Bool} {c : Call}

theorem start (h : s.Traced) (hidle : s.control = .idle)
    (hexposed : ∀ x ∈ s.exposed retry 1, x.msg = msg) :
    Guarded s.calls msg retry
      { s with calls := s.calls + 1, control := .sending ⟨s.calls, msg, retry⟩ } where
  lt := Nat.lt_succ_self _
  active := by
    rintro c hc -
    cases hc
    exact ⟨rfl, rfl⟩
  own := fun _ _ _ r hr hcall => absurd hcall (h.receivers_lt r hr).ne
  sending := fun _ _ _ => hexposed
  selecting := fun c hc => by cases hc
  returned := fun c reply hmem hn => by
    have hlt := (h.returned c _ hmem).1
    rw [ended, hidle] at hlt
    exact absurd hn hlt.ne

section

variable (h : Guarded n msg retry s)

include h

theorem keep {d : ℕ} (hcalls : s'.calls = s.calls) (hcontrol : s'.control = s.control)
    (hown : ∀ c, s.control.call = some c → c.number = n → ∀ r ∈ s'.receivers, r.call = n →
      Fits s'.client msg r.state) (hout : s'.outstanding = s.outstanding.drop d)
    (hlive : s'.live + d ≤ s.live)
    (hlog : ∀ c result, .returned c result ∈ s'.log → .returned c result ∈ s.log) :
    Guarded n msg retry s' where
  lt := hcalls ▸ h.lt
  active := hcontrol ▸ h.active
  own := by rwa [hcontrol]
  sending := fun c hc hn x hx =>
    h.sending c (hcontrol ▸ hc) hn x (mem_exposed_of_drop hout hlive hx)
  selecting := fun c hc hn x hx =>
    h.selecting c (hcontrol ▸ hc) hn x (mem_exposed_of_drop hout hlive hx)
  returned := fun c reply hmem => h.returned c reply (hlog c _ hmem)

theorem of_idle (hcalls : s'.calls = s.calls) (hidle : s'.control = .idle)
    (hlog : ∀ c reply, .returned c (.received reply) ∈ s'.log →
      c.number = n → .returned c (.received reply) ∈ s.log ∨ reply.answers.msg = msg) :
    Guarded n msg retry s' where
  lt := hcalls ▸ h.lt
  active := fun c hc => by rw [hidle] at hc; cases hc
  own := fun c hc => by rw [hidle] at hc; cases hc
  sending := fun c hc => by rw [hidle] at hc; cases hc
  selecting := fun c hc => by rw [hidle] at hc; cases hc
  returned := fun c reply hmem hn =>
    (hlog c reply hmem hn).elim (fun hmem => h.returned c reply hmem hn) id

theorem ret {result : Result}
    (hresult : ∀ reply, result = .received reply → c.number = n → reply.answers.msg = msg) :
    Guarded n msg retry (s.ret c result) :=
  h.of_idle rfl rfl fun c' reply hmem hn => by
    rcases mem_append.mp hmem with hmem | hmem
    · exact Or.inl hmem
    · cases mem_singleton.mp hmem
      exact Or.inr (hresult reply rfl hn)

theorem again (hc : s.control = .selecting c) (hretry : c.retry = true) :
    Guarded n msg retry { s with control := .sending c } where
  lt := h.lt
  active := fun c' hc' => h.active c' (by rw [hc]; exact hc')
  own := fun c' hc' => h.own c' (by rw [hc]; exact hc')
  sending := fun c' hc' hn x hx => by
    cases hc'
    have hexposed := h.selecting c hc hn x
    have hretry' := (h.active c (by rw [hc]; rfl) hn).2
    rw [← hretry', hretry] at hexposed hx
    exact hexposed hx
  selecting := fun c' hc' => by cases hc'
  returned := h.returned

theorem sendOk (hc : s.control = .sending c) :
    Guarded n msg retry (s.sendOk c) where
  lt := h.lt
  active := fun c' hc' => h.active c' (by rw [hc]; exact hc')
  own := fun c' hc' hn r hr hcall => by
    rcases mem_append.mp hr with hr | hr
    · exact h.own c' (by rw [hc]; exact hc') hn r hr hcall
    · cases mem_singleton.mp hr
      trivial
  sending := fun c' hc' => by cases hc'
  selecting := fun c' hc' hn x hx => by
    cases hc'
    rcases mem_exposed_sendOk hx with hx | rfl
    · exact h.sending c hc hn x hx
    · exact (h.active c (by rw [hc]; rfl) hn).1
  returned := fun c' reply hmem => h.returned c' reply (mem_of_mem_write hmem (by simp))

end

theorem setReceiver {i call : ℕ} {r : Receiving} (r' : Receiving) (h : Guarded n msg retry s)
    (hr : s.receivers[i]? = some ⟨call, r⟩) (hfits : Fits s.client msg r → Fits s.client msg r')
    (hlive : Receiver.live s.client ⟨call, r'⟩ → Receiver.live s.client ⟨call, r⟩) :
    Guarded n msg retry (s.setReceiver i ⟨call, r'⟩) := by
  have hcount := live_setReceiver hr ⟨call, r'⟩
  refine h.keep (d := 0) rfl rfl (fun c hc hn x hx hcall => ?_) rfl ?_ fun _ _ hmem => hmem
  · rcases mem_or_eq_of_mem_set hx with hx | rfl
    · exact h.own c hc hn x hx hcall
    · exact hfits (h.own c hc hn _ (mem_of_getElem? hr) hcall)
  · split at hcount <;> split at hcount <;> first | omega | (exfalso; tauto)

variable (h : Guarded n msg retry s)

include h

theorem answer {k : ℕ} {sent : Sent} {rest : List Sent}
    (hk : (s.streams k).unanswered = sent :: rest) (resp : Response) :
    Guarded n msg retry (s.setStream k ⟨rest, (s.streams k).unread ++ [⟨sent, resp⟩]⟩) := by
  refine h.keep (d := 0) rfl rfl h.own ?_ le_rfl fun _ _ hmem => hmem
  by_cases heq : s.client = k
  · subst heq
    simp [outstanding, current, Client.setStream, Stream.outstanding, hk]
  · simp [outstanding, current, Client.setStream, Function.update_of_ne heq]

theorem next_msg {reply : Reply} {rest : List Reply} {r : Receiver}
    (hc : s.control.call = some c) (hn : c.number = n) (hk : s.current.unread = reply :: rest)
    (hr : r ∈ s.receivers) (hlive : r.live s.client) : reply.answers.msg = msg := by
  have hout : s.outstanding =
      reply.answers :: (rest.map Reply.answers ++ s.current.unanswered) := by
    rw [outstanding, Stream.outstanding, hk]
    rfl
  have hpos : 0 < s.live := countP_pos_iff.mpr ⟨r, hr, hlive⟩
  have hmem : ∀ own, reply.answers ∈ s.exposed retry own := fun own => by
    obtain ⟨m, hm⟩ : ∃ m, s.live + own = m + 1 := ⟨s.live + own - 1, by omega⟩
    cases retry with
    | true => rw [exposed_true, hout]; exact mem_cons_self ..
    | false => rw [exposed_false, hout, hm, take_succ_cons]; exact mem_cons_self ..
  cases hcontrol : s.control with
  | idle => rw [hcontrol] at hc; cases hc
  | sending c' =>
    rw [hcontrol] at hc
    cases hc
    exact h.sending c hcontrol hn _ (hmem 1)
  | selecting c' =>
    rw [hcontrol] at hc
    cases hc
    exact h.selecting c hcontrol hn _ (hmem 0)

theorem recv {i call k : ℕ} {reply : Reply} {rest : List Reply}
    (hr : s.receivers[i]? = some ⟨call, .inRecv k⟩) (hk : (s.streams k).unread = reply :: rest) :
    Guarded n msg retry (((s.setStream k ⟨(s.streams k).unanswered, rest⟩).setReceiver i
      ⟨call, .holding (some reply)⟩).write (.received call k reply)) := by
  have hmem := mem_of_getElem? hr
  have hlive := live_setReceiver hr ⟨call, .holding (some reply)⟩
  have hlog : ∀ c result, .returned c result ∈ s.log ++ [.received call k reply] →
      .returned c result ∈ s.log := fun c result hmem => mem_of_mem_write hmem (by simp)
  have hown : ∀ c, s.control.call = some c → c.number = n →
      ∀ r ∈ s.receivers.set i ⟨call, .holding (some reply)⟩, r.call = n →
        Fits s.client msg r.state := fun c hc hn x hx hcall => by
    rcases mem_or_eq_of_mem_set hx with hx | rfl
    · exact h.own c hc hn x hx hcall
    · cases (h.own c hc hn _ hmem hcall : k = s.client)
      exact h.next_msg hc hn hk hmem (by simp [Receiver.live])
  by_cases heq : s.client = k
  · subst heq
    refine h.keep (d := 1) rfl rfl hown ?_ ?_ hlog
    · simp [outstanding, current, Client.setStream, Client.setReceiver, Client.write,
        Stream.outstanding, hk]
    · rw [if_pos (by simp [Receiver.live]), if_neg (by simp [Receiver.live])] at hlive
      exact hlive.le
  · refine h.keep (d := 0) rfl rfl hown ?_ ?_ hlog
    · simp [outstanding, current, Client.setStream, Client.setReceiver, Client.write,
        Function.update_of_ne heq]
    · rw [if_neg (by simpa [Receiver.live] using Ne.symm heq),
        if_neg (by simp [Receiver.live])] at hlive
      exact hlive.le

theorem moves (hmoves : s.Moves s') : Guarded n msg retry s' := by
  cases hmoves with
  | call msg' retry' hidle =>
    have hne : ∀ c, (Control.sending ⟨s.calls, msg', retry'⟩).call = some c → c.number ≠ n := by
      rintro c hc
      cases hc
      exact h.lt.ne'
    exact {
      lt := h.lt.trans (Nat.lt_succ_self _)
      active := fun c hc hn => absurd hn (hne c hc)
      own := fun c hc hn => absurd hn (hne c hc)
      sending := fun c hc hn => absurd hn (hne c (congrArg Control.call hc))
      selecting := fun c hc => by cases hc
      returned := h.returned }
  | sendOk c hc => exact h.sendOk hc
  | sendFail c hc =>
    exact h.of_idle rfl rfl fun c' reply hmem _ =>
      Or.inl (mem_of_mem_write (mem_of_mem_write hmem (by simp)) (by simp))
  | enter i call hr => exact h.setReceiver _ hr (fun _ => rfl) fun _ => rfl
  | answer k resp sent rest hk => exact h.answer hk resp
  | recv i call k reply rest hr hk => exact h.recv hr hk
  | recvErr i call k hr => exact h.setReceiver _ hr (fun _ => trivial) (by simp [Receiver.live])
  | expire c deadline hc =>
    unfold Client.expired
    split
    · next hagain => exact h.again hc (Bool.and_eq_true_iff.mp hagain).2
    · split
      · exact h.ret fun _ heq => by cases heq
      · exact h.of_idle rfl rfl fun c' reply hmem _ =>
          Or.inl (mem_of_mem_write (mem_of_mem_write hmem (by simp)) (by simp))
  | take i c result hc hr =>
    have hdone := h.setReceiver .done hr (fun _ => trivial) (by simp [Receiver.live])
    match result with
    | none =>
      unfold Client.taken
      dsimp only
      split
      · next hretry => exact hdone.again hc hretry
      · exact hdone.ret fun _ heq => by cases heq
    | some reply =>
      refine hdone.ret fun reply' heq hn => ?_
      cases heq
      exact h.own c (by rw [hc]; rfl) hn _ (mem_of_getElem? hr) hn

end Guarded

section Reach

variable {s : Client} {c : Call} {reply : Reply} {rest : List Reply} {j : ℕ}

theorem exists_recv_of_inRecv {i call : ℕ} (hr : s.receivers[i]? = some ⟨call, .inRecv s.client⟩)
    (hk : s.current.unread = reply :: rest) :
    ∃ t, s.step (.recv i) = some t ∧ t.control = s.control ∧ t.current.unread = rest ∧
      t.receivers = s.receivers.set i ⟨call, .holding (some reply)⟩ ∧ t.client = s.client := by
  refine ⟨((s.setStream s.client ⟨s.current.unanswered, rest⟩).setReceiver i
    ⟨call, .holding (some reply)⟩).write (.received call s.client reply), ?_, rfl, ?_, rfl, rfl⟩
  · rw [step, hr]
    dsimp only
    rw [show (s.streams s.client).unread = _ from hk]
    rfl
  · simp [current, Client.setStream, Client.setReceiver, Client.write]

theorem exists_recv {i : ℕ} {r : Receiver} (hr : s.receivers[i]? = some r)
    (hlive : r.live s.client) (hk : s.current.unread = reply :: rest) :
    ∃ events t, run step s events = some t ∧ t.control = s.control ∧ t.current.unread = rest ∧
      t.receivers = s.receivers.set i ⟨r.call, .holding (some reply)⟩ ∧ t.client = s.client := by
  obtain ⟨call, state⟩ := r
  obtain ⟨hi, -⟩ := List.getElem?_eq_some_iff.mp hr
  match state, hlive with
  | .spawned, _ =>
    -- it has to call `Recv` first
    have henter : s.step (.enter i) = some (s.setReceiver i ⟨call, .inRecv s.client⟩) := by
      rw [step, hr]
    obtain ⟨t, hstep, hcontrol, hunread, hset, hclient⟩ :=
      exists_recv_of_inRecv (s := s.setReceiver i ⟨call, .inRecv s.client⟩)
        (getElem?_set_self hi) hk
    refine ⟨[.enter i, .recv i], t, ?_, hcontrol, hunread, ?_, hclient⟩
    · rw [run_cons, henter, bind_some, run_cons, hstep]
      rfl
    · rw [hset]
      exact set_set ..
  | .inRecv k, hlive =>
    obtain rfl : k = s.client := by simpa [Receiver.live] using hlive
    obtain ⟨t, hstep, hrest⟩ := exists_recv_of_inRecv hr hk
    exact ⟨[.recv i], t, by rw [run_cons, hstep]; rfl, hrest⟩

theorem exists_other {r : Receiver} (hr : s.receivers[j]? = some r) (hr' : r.live s.client)
    (hlive : 2 ≤ s.live) : ∃ i r', i ≠ j ∧ s.receivers[i]? = some r' ∧ r'.live s.client := by
  have hcount := live_setReceiver hr ⟨r.call, .done⟩
  rw [if_pos hr', if_neg (by simp [Receiver.live])] at hcount
  have hpos : 0 < (s.setReceiver j ⟨r.call, .done⟩).live := by omega
  obtain ⟨r', hmem, hlive'⟩ := countP_pos_iff.mp hpos
  obtain ⟨i, hi⟩ := mem_iff_getElem?.mp hmem
  obtain ⟨hj, -⟩ := List.getElem?_eq_some_iff.mp hr
  have hne : i ≠ j := by
    rintro rfl
    rw [show (s.setReceiver i ⟨r.call, .done⟩).receivers[i]? = _ from getElem?_set_self hj] at hi
    cases hi
    simp [Receiver.live] at hlive'
  refine ⟨i, r', hne, ?_, hlive'⟩
  rw [← hi]
  exact (getElem?_set_ne hne.symm).symm

theorem exists_returned {first : List Reply} (hc : s.control = .selecting c)
    (hj : s.receivers[j]? = some ⟨c.number, .spawned⟩)
    (hk : s.current.unread = first ++ reply :: rest) (hlive : first.length < s.live) :
    ∃ events t, run step s events = some t ∧ .returned c (.received reply) ∈ t.log := by
  have hj' : Receiver.live s.client ⟨c.number, .spawned⟩ := rfl
  induction first generalizing s with
  | nil =>
    obtain ⟨events, t, hrun, hcontrol, -, hrecv, -⟩ := exists_recv hj hj' hk
    obtain ⟨hlt, -⟩ := List.getElem?_eq_some_iff.mp hj
    have hget : t.receivers[j]? = some ⟨c.number, .holding (some reply)⟩ := by
      rw [hrecv, getElem?_set_self hlt]
    refine ⟨events ++ [.take j], (t.setReceiver j ⟨c.number, .done⟩).ret c (.received reply), ?_,
      mem_append_right _ (mem_singleton.mpr rfl)⟩
    rw [run_append hrun, run_cons, step, hcontrol, hc, hget]
    dsimp only
    rw [if_pos rfl]
    rfl
  | cons x first ih =>
    rw [length_cons] at hlive
    obtain ⟨i, r, hne, hi, hir⟩ := exists_other hj hj' (by omega)
    obtain ⟨events, t, hrun, hcontrol, hunread, hrecv, hclient⟩ := exists_recv hi hir hk
    have hcount := live_setReceiver hi ⟨r.call, .holding (some x)⟩
    rw [if_pos hir, if_neg (by simp [Receiver.live])] at hcount
    have hlive' : t.live = (s.setReceiver i ⟨r.call, .holding (some x)⟩).live := by
      unfold live
      rw [hrecv, hclient]
      rfl
    obtain ⟨events', t', hrun', hmem⟩ := ih (hcontrol.trans hc)
      (by rw [hrecv, getElem?_set_ne hne, hj]) hunread (by omega) rfl
    exact ⟨events ++ events', t', by rw [run_append hrun, hrun'], hmem⟩

theorem exists_answered (s : Client) :
    ∃ events t, run step s events = some t ∧ t.control = s.control ∧ t.receivers = s.receivers ∧
      t.live = s.live ∧ t.current.unread.map Reply.answers = s.outstanding := by
  generalize hk : s.current.unanswered = sents
  induction sents generalizing s with
  | nil => exact ⟨[], s, rfl, rfl, rfl, rfl, by simp [outstanding, Stream.outstanding, hk]⟩
  | cons sent sents ih =>
    have hstep : s.step (.answer s.client ⟨0⟩) = some (s.setStream s.client
        ⟨sents, s.current.unread ++ [⟨sent, ⟨0⟩⟩]⟩) := by
      rw [step, show (s.streams s.client).unanswered = _ from hk]
      rfl
    obtain ⟨events, t, hrun, hcontrol, hreceivers, hlive, hunread⟩ := ih (s.setStream s.client
      ⟨sents, s.current.unread ++ [⟨sent, ⟨0⟩⟩]⟩) (by simp [current, Client.setStream])
    refine ⟨.answer s.client ⟨0⟩ :: events, t, ?_, hcontrol, hreceivers, hlive, ?_⟩
    · rw [run_cons, hstep, bind_some, hrun]
    · have hk' : (s.streams s.client).unanswered = sent :: sents := hk
      rw [hunread]
      simp [outstanding, current, Client.setStream, Stream.outstanding, hk']

theorem exists_resent (d : ℕ) (hc : s.control = .selecting c) (hretry : c.retry = true) :
    ∃ events t, run step s events = some t ∧ t.control = .selecting c ∧ t.live = s.live + d ∧
      (∃ rs, t.receivers = s.receivers ++ rs) ∧ ∃ xs, t.outstanding = s.outstanding ++ xs := by
  induction d with
  | zero => exact ⟨[], s, rfl, hc, rfl, ⟨[], by simp⟩, [], by simp⟩
  | succ d ih =>
    obtain ⟨events, t, hrun, hcontrol, hlive, ⟨rs, hrs⟩, xs, hxs⟩ := ih
    refine ⟨events ++ [.expire true, .send true], ({ t with control := .sending c }).sendOk c, ?_,
      rfl, ?_, ⟨rs ++ [⟨c.number, .spawned⟩], ?_⟩, xs ++ [⟨c.number, c.msg⟩], ?_⟩
    · rw [run_append hrun, run_cons, step, hcontrol]
      simp [expired, hretry, run_cons, step]
    · simp only [live] at hlive ⊢
      simp [sendOk, Client.setStream, countP_append, Receiver.live, hlive, Nat.add_assoc]
    · simp [sendOk, Client.setStream, hrs]
    · rw [← List.append_assoc, ← hxs]
      simp [outstanding, current, sendOk, Client.setStream, Stream.outstanding]

theorem exists_returned_of_outstanding {x : Sent} {first rest : List Sent}
    (hc : s.control = .selecting c) (hj : s.receivers[j]? = some ⟨c.number, .spawned⟩)
    (hout : s.outstanding = first ++ x :: rest) (hlive : first.length < s.live) :
    ∃ events t reply, run step s events = some t ∧ .returned c (.received reply) ∈ t.log ∧
      reply.answers = x := by
  obtain ⟨events, t, hrun, hcontrol, hreceivers, hlive', hunread⟩ := exists_answered s
  rw [hout] at hunread
  obtain ⟨first', rest', hk, hfirst, hrest⟩ := map_eq_append_iff.mp hunread
  obtain ⟨reply, rest', rfl, hx, -⟩ := map_eq_cons_iff.mp hrest
  have hlen : first'.length = first.length := by rw [← hfirst, length_map]
  obtain ⟨events', t', hrun', hmem⟩ := exists_returned (hcontrol.trans hc)
    (by rw [hreceivers, hj]) hk (by omega)
  exact ⟨events ++ events', t', reply, by rw [run_append hrun, hrun'], hmem, hx⟩

theorem exists_returned_of_exposed {msg : LeaderMsg} {retry : Bool} {x : Sent}
    (hidle : s.control = .idle) (hx : x ∈ s.exposed retry 1) :
    ∃ events t reply, run step s (.call msg retry :: events) = some t ∧
      .returned ⟨s.calls, msg, retry⟩ (.received reply) ∈ t.log ∧ reply.answers = x := by
  -- the call is made and its message is sent
  obtain ⟨u, hu⟩ : ∃ u, u = Client.sendOk { s with
      calls := s.calls + 1
      control := .sending ⟨s.calls, msg, retry⟩ } ⟨s.calls, msg, retry⟩ := ⟨_, rfl⟩
  have hrun : run step s [.call msg retry, .send true] = some u := by
    rw [hu, run_cons, step, hidle]
    rfl
  have hout : u.outstanding = s.outstanding ++ [⟨s.calls, msg⟩] := by
    simp [hu, outstanding, current, sendOk, Client.setStream, Stream.outstanding]
  have hlive : u.live = s.live + 1 := by
    simp [hu, live, sendOk, Client.setStream, countP_append, Receiver.live]
  have hcontrol : u.control = .selecting ⟨s.calls, msg, retry⟩ := by rw [hu]; rfl
  have hj : u.receivers[s.receivers.length]? = some ⟨s.calls, .spawned⟩ := by
    simp [hu, sendOk, Client.setStream]
  cases retry with
  | false =>
    rw [exposed_false] at hx
    obtain ⟨first, rest, htake⟩ := append_of_mem hx
    have hlen := congrArg List.length htake
    have hsplit : u.outstanding =
        first ++ x :: (rest ++ s.outstanding.drop (s.live + 1) ++ [⟨s.calls, msg⟩]) := by
      rw [hout]
      conv_lhs => rw [← take_append_drop (s.live + 1) s.outstanding, htake]
      simp
    rw [length_take, length_append, length_cons] at hlen
    obtain ⟨events, t, reply, hrun', hmem⟩ :=
      exists_returned_of_outstanding hcontrol hj hsplit (by omega)
    exact ⟨.send true :: events, t, reply, (run_append hrun).trans hrun', hmem⟩
  | true =>
    rw [exposed_true] at hx
    obtain ⟨first, rest, hsplit⟩ := append_of_mem hx
    obtain ⟨events, v, hrun', hcontrol', hlive', ⟨rs, hrs⟩, xs, hxs⟩ :=
      exists_resent first.length hcontrol rfl
    have hlt := (List.getElem?_eq_some_iff.mp hj).1
    obtain ⟨events', t, reply, hrun'', hmem⟩ := exists_returned_of_outstanding hcontrol'
      (by rw [hrs, getElem?_append_left hlt, hj])
      (by rw [hxs, hout, hsplit, append_assoc, append_assoc]; rfl) (by omega)
    refine ⟨.send true :: (events ++ events'), t, reply, ?_, hmem⟩
    exact (run_append hrun).trans ((run_append hrun').trans hrun'')

end Reach

/-- A call made in a state that a run leads to returns, however it goes on, only replies to its
own message just when everything that is exposed to it is this message. -/
theorem returned_matches_iff {s : Client} {events : List Event}
    (hrun : run step .init events = some s) (hidle : s.control = .idle) (msg : LeaderMsg)
    (retry : Bool) :
    (∀ events' t reply, run step s (.call msg retry :: events') = some t →
      .returned ⟨s.calls, msg, retry⟩ (.received reply) ∈ t.log → reply.answers.msg = msg) ↔
      ∀ x ∈ s.exposed retry 1, x.msg = msg := by
  constructor
  · intro hall x hx
    obtain ⟨events', t, reply, hrun', hmem, rfl⟩ := exists_returned_of_exposed hidle hx
    exact hall events' t reply hrun' hmem
  · intro hexposed events' t reply hrun' hmem
    rw [run_cons, step, hidle, bind_some] at hrun'
    have hguarded := run_keeps (fun _ _ h hmoves => h.moves hmoves)
      (Guarded.start (Traced.run hrun) hidle hexposed) hrun'
    exact hguarded.returned _ reply hmem rfl

/-- A message that timed out and is sent again by a second call: whichever of the two replies the
second call gets, it is a reply to the message. -/
theorem returned_matches_sample :
    ∃ s, run step .init
        [.call (voteMsg [1]) false, .send true, .enter 0, .expire true] = some s ∧
      ∀ events t reply, run step s (.call (voteMsg [1]) false :: events) = some t →
        .returned ⟨s.calls, voteMsg [1], false⟩ (.received reply) ∈ t.log →
          reply.answers.msg = voteMsg [1] := by
  have heval : (run step .init
      [.call (voteMsg [1]) false, .send true, .enter 0, .expire true]).map
        (fun s => (s.control, s.exposed false 1)) = some (.idle, [⟨0, voteMsg [1]⟩]) := by
    decide +kernel
  obtain ⟨s, hs, heq⟩ := map_eq_some_iff.mp heval
  obtain ⟨hidle, hexposed⟩ := Prod.mk.inj heq
  refine ⟨s, hs, (returned_matches_iff hs hidle (voteMsg [1]) false).mpr ?_⟩
  rw [hexposed]
  decide

/-- A message that timed out, and then another one: the goroutine of the second call takes the
reply to the first message, and the second call returns it. -/
theorem not_returned_matches_of_late_reply :
    (run step .init [.call (voteMsg [1]) false, .send true, .enter 0, .expire true,
        .call (voteMsg [2]) false, .send true, .answer 0 ⟨Action.commit⟩, .enter 1, .recv 1,
        .take 1]).map Client.log =
      some [.sent 0 0, .returned ⟨0, voteMsg [1], false⟩ .abort, .sent 1 0,
        .received 1 0 ⟨⟨0, voteMsg [1]⟩, ⟨Action.commit⟩⟩,
        .returned ⟨1, voteMsg [2], false⟩ (.received ⟨⟨0, voteMsg [1]⟩, ⟨Action.commit⟩⟩)] := by
  decide +kernel

end Client

end CS162.Tpc
