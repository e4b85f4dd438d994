import CS162.Lib.Run
import CS162.Tpc.Rpc

/-!
# Sending a message to one follower

`sendSingleMsg` of `pkg/tpc/messagemanager.go` on one `TPCWorkerClient`, with the streams to
the follower, the follower, and the goroutines that the calls have started.  An event is one
step of one of these parties, so a run is an interleaving.  The log says what was sent,
received and returned.
-/

namespace CS162.Tpc

/-- A message that was sent, with the number of the call that sent it. -/
structure Sent where
  call : ℕ
  msg : LeaderMsg
  deriving DecidableEq

/-- A response of the follower, with the message it answers. -/
structure Reply where
  answers : Sent
  resp : Response
  deriving DecidableEq

/-- A stream: what the follower has not answered yet, and what it has answered but nobody has
received. -/
structure Stream where
  unanswered : List Sent
  unread : List Reply
  deriving DecidableEq

/-- What a call will get a reply to on this stream, the next one first. -/
def Stream.outstanding (k : Stream) : List Sent :=
  k.unread.map Reply.answers ++ k.unanswered

/-- The goroutine of a call: before it looks at `c.client`, in `Recv` on a stream, waiting to put
what `Recv` returned into `responses` (`none` for an error), or done. -/
inductive Receiving where
  | spawned
  | inRecv (stream : ℕ)
  | holding (result : Option Reply)
  | done
  deriving DecidableEq

/-- A goroutine that a call has started, with the number of the call, whose channel it writes to. -/
structure Receiver where
  call : ℕ
  state : Receiving
  deriving DecidableEq

structure Call where
  number : ℕ
  msg : LeaderMsg
  retry : Bool
  deriving DecidableEq

/-- Where the calling goroutine is: between calls, at the head of the loop or in the `select`. -/
inductive Control where
  | idle
  | sending (call : Call)
  | selecting (call : Call)
  deriving DecidableEq

/-- What a call returns: the response it makes itself or one that was received. -/
inductive Result where
  | abort
  | received (reply : Reply)
  deriving DecidableEq

def Result.response : Result → Response
  | abort => ⟨Action.abort⟩
  | received reply => reply.resp

inductive LogEntry where
  | sent (call stream : ℕ)
  | sendFailed (call : ℕ)
  | received (call stream : ℕ) (reply : Reply)
  | cancelled (call : ℕ)
  | returned (call : Call) (result : Result)
  deriving DecidableEq

/-- A `TPCWorkerClient` and what it runs against.  `client` is the stream in `c.client`; streams
with larger numbers have not been opened yet. -/
structure Client where
  streams : ℕ → Stream
  client : ℕ
  receivers : List Receiver
  calls : ℕ
  control : Control
  log : List LogEntry

def Client.init : Client where
  streams := fun _ => ⟨[], []⟩
  client := 0
  receivers := []
  calls := 0
  control := .idle
  log := []

/-- An event: a call, what `Send` returns, a goroutine that calls `Recv`, an answer of the
follower, a `Recv` that returns a reply or an error, the end of the context of a round (by its
deadline or because it was cancelled), and a goroutine whose result the `select` takes. -/
inductive Event where
  | call (msg : LeaderMsg) (retry : Bool)
  | send (ok : Bool)
  | enter (i : ℕ)
  | answer (stream : ℕ) (resp : Response)
  | recv (i : ℕ)
  | recvErr (i : ℕ)
  | expire (deadline : Bool)
  | take (i : ℕ)

namespace Client

def current (s : Client) : Stream :=
  s.streams s.client

def setStream (s : Client) (k : ℕ) (stream : Stream) : Client :=
  { s with streams := Function.update s.streams k stream }

def setReceiver (s : Client) (i : ℕ) (r : Receiver) : Client :=
  { s with receivers := s.receivers.set i r }

def write (s : Client) (e : LogEntry) : Client :=
  { s with log := s.log ++ [e] }

def ret (s : Client) (c : Call) (result : Result) : Client :=
  { s with control := .idle, log := s.log ++ [.returned c result] }

/-- The head of the loop when `Send` fails. -/
def sendFail (s : Client) (c : Call) : Client :=
  ({ s with client := if c.retry then s.client + 1 else s.client }.write (.sendFailed c.number)).ret
    c .abort

/-- The head of the loop when `Send` succeeds, to the `select`. -/
def sendOk (s : Client) (c : Call) : Client :=
  { s.setStream s.client ⟨s.current.unanswered ++ [⟨c.number, c.msg⟩], s.current.unread⟩ with
    receivers := s.receivers ++ [⟨c.number, .spawned⟩]
    control := .selecting c
    log := s.log ++ [.sent c.number s.client] }

/-- The case of the `select` in which the context is done. -/
def expired (s : Client) (c : Call) (deadline : Bool) : Client :=
  if deadline && c.retry then { s with control := .sending c }
  else if deadline then s.ret c .abort
  else (s.write (.cancelled c.number)).ret c .abort

/-- The case of the `select` in which a goroutine has a result. -/
def taken (s : Client) (c : Call) : Option Reply → Client
  | none => if c.retry then { s with control := .sending c } else s.ret c .abort
  | some reply => s.ret c (.received reply)

def step (s : Client) : Event → Option Client
  | .call msg retry =>
    match s.control with
    | .idle => some { s with calls := s.calls + 1, control := .sending ⟨s.calls, msg, retry⟩ }
    | _ => none
  | .send ok =>
    match s.control with
    | .sending c => some (if ok then s.sendOk c else s.sendFail c)
    | _ => none
  | .enter i =>
    match s.receivers[i]? with
    | some ⟨call, .spawned⟩ => some (s.setReceiver i ⟨call, .inRecv s.client⟩)
    | _ => none
  | .answer k resp =>
    match (s.streams k).unanswered with
    | sent :: rest => some (s.setStream k ⟨rest, (s.streams k).unread ++ [⟨sent, resp⟩]⟩)
    | [] => none
  | .recv i =>
    match s.receivers[i]? with
    | some ⟨call, .inRecv k⟩ =>
      match (s.streams k).unread with
      | reply :: rest =>
        some (((s.setStream k ⟨(s.streams k).unanswered, rest⟩).setReceiver i
          ⟨call, .holding (some reply)⟩).write (.received call k reply))
      | [] => none
    | _ => none
  | .recvErr i =>
    match s.receivers[i]? with
    | some ⟨call, .inRecv _⟩ => some (s.setReceiver i ⟨call, .holding none⟩)
    | _ => none
  | .expire deadline =>
    match s.control with
    | .selecting c => some (s.expired c deadline)
    | _ => none
  | .take i =>
    match s.control, s.receivers[i]? with
    | .selecting c, some ⟨call, .holding result⟩ =>
      if call = c.number then some ((s.setReceiver i ⟨call, .done⟩).taken c result) else none
    | _, _ => none

/-- The ways in which a client goes on. -/
inductive Moves (s : Client) : Client → Prop where
  | call (msg : LeaderMsg) (retry : Bool) (hidle : s.control = .idle) :
      Moves s { s with calls := s.calls + 1, control := .sending ⟨s.calls, msg, retry⟩ }
  | sendOk (c : Call) (hc : s.control = .sending c) : Moves s (s.sendOk c)
  | sendFail (c : Call) (hc : s.control = .sending c) : Moves s (s.sendFail c)
  | enter (i call : ℕ) (hr : s.receivers[i]? = some ⟨call, .spawned⟩) :
      Moves s (s.setReceiver i ⟨call, .inRecv s.client⟩)
  | answer (k : ℕ) (resp : Response) (sent : Sent) (rest : List Sent)
      (hk : (s.streams k).unanswered = sent :: rest) :
      Moves s (s.setStream k ⟨rest, (s.streams k).unread ++ [⟨sent, resp⟩]⟩)
  | recv (i call k : ℕ) (reply : Reply) (rest : List Reply)
      (hr : s.receivers[i]? = some ⟨call, .inRecv k⟩)
      (hk : (s.streams k).unread = reply :: rest) :
      Moves s (((s.setStream k ⟨(s.streams k).unanswered, rest⟩).setReceiver i
        ⟨call, .holding (some reply)⟩).write (.received call k reply))
  | recvErr (i call k : ℕ) (hr : s.receivers[i]? = some ⟨call, .inRecv k⟩) :
      Moves s (s.setReceiver i ⟨call, .holding none⟩)
  | expire (c : Call) (deadline : Bool) (hc : s.control = .selecting c) :
      Moves s (s.expired c deadline)
  | take (i : ℕ) (c : Call) (result : Option Reply) (hc : s.control = .selecting c)
      (hr : s.receivers[i]? = some ⟨c.number, .holding result⟩) :
      Moves s ((s.setReceiver i ⟨c.number, .done⟩).taken c result)

theorem moves_of_step {s s' : Client} {e : Event} (h : s.step e = some s') : s.Moves s' := by
  cases e with
  | call msg retry =>
    simp only [step] at h
    split at h
    · next hc =>
        cases h
        exact .call msg retry hc
    · cases h
  | send ok =>
    simp only [step] at h
    split at h
    · next c hc =>
        cases h
        cases ok
        · exact .sendFail c hc
        · exact .sendOk c hc
    · cases h
  | enter i =>
    simp only [step] at h
    split at h
    · next call hr =>
        cases h
        exact .enter i call hr
    · cases h
  | answer k resp =>
    simp only [step] at h
    split at h
    · next sent rest hk =>
        cases h
        exact .answer k resp sent rest hk
    · cases h
  | recv i =>
    simp only [step] at h
    split at h
    · next call k hr =>
        split at h
        · next reply rest hk =>
            cases h
            exact .recv i call k reply rest hr hk
        · cases h
    · cases h
  | recvErr i =>
    simp only [step] at h
    split at h
    · next call k hr =>
        cases h
        exact .recvErr i call k hr
    · cases h
  | expire deadline =>
    simp only [step] at h
    split at h
    · next c hc =>
        cases h
        exact .expire c deadline hc
    · cases h
  | take i =>
    simp only [step] at h
    split at h
    · next c call result hc hr =>
        obtain ⟨rfl, hs'⟩ := Option.ite_none_right_eq_some.mp h
        cases hs'
        exact .take i c result hc hr
    · cases h

theorem run_keeps {I : Client → Prop} (hkeep : ∀ s s', I s → s.Moves s' → I s') {s t : Client}
    {events : List Event} (hs : I s) (hrun : Run.run step s events = some t) : I t :=
  Run.run_invariant' (fun s _ s' h hstep => hkeep s s' h (moves_of_step hstep)) hs hrun

end Client

end CS162.Tpc
