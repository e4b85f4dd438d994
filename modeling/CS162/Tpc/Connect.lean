import CS162.Lib.Run
import CS162.Tpc.Rpc

/-!
# Connecting to the followers

`NewMessageManager` starts a goroutine for each follower, which puts its stream into one
channel; the function takes the streams out in the order they came in and gives the `i`-th one
the name of the `i`-th follower.  A run is an interleaving of these steps.
-/

namespace CS162.Tpc

open List Option

structure TPCMsgClient where
  openedTo : Bytes
  deriving DecidableEq

/-- `newTPCMsgClient`, which tries until it has a stream. -/
def newTPCMsgClient (hostname : Bytes) : TPCMsgClient where
  openedTo := hostname

structure TPCWorkerClient where
  client : TPCMsgClient
  hostname : Bytes
  deriving DecidableEq

namespace Connect

/-- `NewMessageManager` while it runs: how many goroutines it has started, which of them have
finished, in this order, what is in `clientCh`, and `clients` as far as it is filled. -/
structure State where
  started : ℕ
  finished : List ℕ
  clientCh : List TPCMsgClient
  clients : List TPCWorkerClient
  deriving DecidableEq

/-- A step: the next round of the first loop, the end of a goroutine, or the next round of the
second loop. -/
inductive Event where
  | spawn
  | finish (i : ℕ)
  | collect

def init : State where
  started := 0
  finished := []
  clientCh := []
  clients := []

/-- The steps of `NewMessageManager`.  The channel has room for all streams, so a goroutine never
waits to put its stream there. -/
def step (hostnames : List Bytes) (s : State) : Event → Option State
  | .spawn =>
    if s.started < hostnames.length then some { s with started := s.started + 1 } else none
  | .finish i =>
    if i < s.started ∧ i ∉ s.finished then
      hostnames[i]?.map fun hn =>
        { s with finished := s.finished ++ [i], clientCh := s.clientCh ++ [newTPCMsgClient hn] }
    else none
  | .collect =>
    if s.started = hostnames.length then
      match s.clientCh, hostnames[s.clients.length]? with
      | client :: rest, some hostname =>
        some { s with clientCh := rest, clients := s.clients ++ [⟨client, hostname⟩] }
      | _, _ => none
    else none

def Complete (hostnames : List Bytes) (s : State) : Prop :=
  s.clients.length = hostnames.length

/-- Every stream has the name of the follower it was opened to. -/
def Paired (s : State) : Prop :=
  ∀ c ∈ s.clients, c.client.openedTo = c.hostname

instance (s : State) : Decidable (Paired s) :=
  inferInstanceAs (Decidable (∀ _ ∈ _, _))

/-- The goroutines finish in an order in which the host names are those of the list. -/
def InOrder (hostnames : List Bytes) (finished : List ℕ) : Prop :=
  finished.map (fun i => hostnames[i]?) = hostnames.map some

instance (hostnames : List Bytes) (finished : List ℕ) : Decidable (InOrder hostnames finished) :=
  inferInstanceAs (Decidable (_ = _))

section Collected

variable {hostnames : List Bytes} {s s' : State}

/-- The streams that were taken out and those that are in the channel are those of the goroutines
that have finished, in their order, and names are given in the order of the list. -/
structure Collected (hostnames : List Bytes) (s : State) : Prop where
  streams : (s.clients.map fun c => some c.client.openedTo) ++
    s.clientCh.map (fun c => some c.openedTo) = s.finished.map fun i => hostnames[i]?
  names : s.clients.map TPCWorkerClient.hostname = hostnames.take s.clients.length
  nodup : s.finished.Nodup
  lt : ∀ i ∈ s.finished, i < s.started
  started : s.started ≤ hostnames.length

theorem collected_init (hostnames : List Bytes) : Collected hostnames init where
  streams := rfl
  names := by simp [init]
  nodup := nodup_nil
  lt := by simp [init]
  started := Nat.zero_le _

theorem Collected.finish {i : ℕ} {hn : Bytes} (h : Collected hostnames s)
    (hlt : i < s.started) (hnew : i ∉ s.finished) (hi : hostnames[i]? = some hn) :
    Collected hostnames
      { s with finished := s.finished ++ [i], clientCh := s.clientCh ++ [newTPCMsgClient hn] } where
  streams := by
    rw [map_append, map_append, ← append_assoc, h.streams]
    simp [newTPCMsgClient, hi]
  names := h.names
  nodup := nodup_append.mpr ⟨h.nodup, pairwise_singleton .., by
    rintro a ha b hb rfl
    exact hnew (mem_singleton.mp hb ▸ ha)⟩
  lt := by
    intro j hj
    rcases mem_append.mp hj with hj | hj
    · exact h.lt j hj
    · exact mem_singleton.mp hj ▸ hlt
  started := h.started

theorem Collected.collect {client : TPCMsgClient} {rest : List TPCMsgClient} {hostname : Bytes}
    (h : Collected hostnames s) (hch : s.clientCh = client :: rest)
    (hname : hostnames[s.clients.length]? = some hostname) :
    Collected hostnames
      { s with clientCh := rest, clients := s.clients ++ [⟨client, hostname⟩] } where
  streams := by
    rw [← h.streams, hch]
    simp
  names := by
    rw [map_append, h.names, length_append]
    exact (take_add_one.trans (by rw [hname]; rfl)).symm
  nodup := h.nodup
  lt := h.lt
  started := h.started

theorem Collected.step {e : Event} (h : Collected hostnames s)
    (hstep : step hostnames s e = some s') : Collected hostnames s' := by
  cases e with
  | spawn =>
    obtain ⟨hlt, hs'⟩ := ite_none_right_eq_some.mp hstep
    cases hs'
    exact ⟨h.streams, h.names, h.nodup, fun i hi => (h.lt i hi).trans (Nat.lt_succ_self _), hlt⟩
  | finish i =>
    obtain ⟨⟨hlt, hnew⟩, hstep⟩ := ite_none_right_eq_some.mp hstep
    obtain ⟨hn, hi, rfl⟩ := map_eq_some_iff.mp hstep
    exact h.finish hlt hnew hi
  | collect =>
    obtain ⟨-, hstep⟩ := ite_none_right_eq_some.mp hstep
    split at hstep
    · next hch hname =>
        cases hstep
        exact h.collect hch hname
    · cases hstep

theorem Collected.run {events : List Event} (hrun : Run.run (Connect.step hostnames) init events =
    some s) : Collected hostnames s :=
  Run.run_invariant' (fun _ _ _ h hstep => h.step hstep) (collected_init hostnames) hrun

theorem Collected.clientCh_eq_nil (h : Collected hostnames s) (hc : Complete hostnames s) :
    s.clientCh = [] := by
  have hsub : s.finished.Subperm (range hostnames.length) :=
    subperm_of_subset h.nodup fun i hi => mem_range.mpr ((h.lt i hi).trans_le h.started)
  have hle := List.Subperm.length_le hsub
  have hlen := congrArg List.length h.streams
  rw [length_append, length_map, length_map, length_map, hc] at hlen
  rw [length_range] at hle
  exact length_eq_zero_iff.mp (by omega)

/-- The streams have the right names just when the goroutines finish in an order in which the host
names are those of the list. -/
theorem paired_iff_inOrder {events : List Event}
    (hrun : Run.run (Connect.step hostnames) init events = some s) (hc : Complete hostnames s) :
    Paired s ↔ InOrder hostnames s.finished := by
  have h := Collected.run hrun
  have hstreams := h.streams
  have hnames := h.names
  rw [h.clientCh_eq_nil hc, map_nil, append_nil] at hstreams
  rw [hc, take_length] at hnames
  unfold InOrder Paired
  rw [← hstreams]
  conv_rhs => rw [← hnames, List.map_map]
  rw [map_inj_left]
  exact forall₂_congr fun c _ => (some_inj).symm

end Collected

/-- Two followers that answer in the order of the list. -/
theorem paired_of_inOrder_sample :
    ∃ s, Run.run (step [[1], [2]]) init
        [.spawn, .finish 0, .spawn, .finish 1, .collect, .collect] = some s ∧
      Complete [[1], [2]] s ∧ Paired s := by
  have hrun : Run.run (step [[1], [2]]) init
      [.spawn, .finish 0, .spawn, .finish 1, .collect, .collect] =
        some ⟨2, [0, 1], [], [⟨⟨[1]⟩, [1]⟩, ⟨⟨[2]⟩, [2]⟩]⟩ := by
    decide
  have hc : Complete [[1], [2]] ⟨2, [0, 1], [], [⟨⟨[1]⟩, [1]⟩, ⟨⟨[2]⟩, [2]⟩]⟩ := by
    rw [Complete]
    rfl
  exact ⟨_, hrun, hc, (paired_iff_inOrder hrun hc).mpr (by decide)⟩

/-- Two followers of which the second one answers first: their streams are swapped. -/
theorem not_paired_of_swapped :
    (Run.run (step [[1], [2]]) init
        [.spawn, .spawn, .finish 1, .finish 0, .collect, .collect]).map State.clients =
      some [⟨newTPCMsgClient [2], [1]⟩, ⟨newTPCMsgClient [1], [2]⟩] := by
  decide

end Connect

end CS162.Tpc
