import CS162.Http.Request

/-!
# Sending files and relaying

The loops of `serve_file` and `handle_proxy_request` in `httpserver.c` around `write`. What
`write` returns is given by a list, one result for each call; a loop that is not through when
the list is used up is still waiting.
-/

namespace CS162.Http

open List

/-- A call of `write` with a part of the buffer, and what it returns; `none` is -1. -/
structure WriteCall where
  offset : ℕ
  count : ℕ
  result : Option ℕ

/-- The inner loop on a buffer of `nread` bytes: its calls, and the results that are left when
it is through. -/
def serveLoop (nread : ℕ) : ℕ → List (Option ℕ) → List WriteCall × Option (List (Option ℕ))
  | _, [] => ([], none)
  | nwrite, r :: rs =>
    let call : WriteCall := ⟨nwrite, (2 ^ 64 + nread - nwrite) % 2 ^ 64, r⟩
    let fdwrite := r.getD (2 ^ 64 - 1)
    if fdwrite = 0 then ([call], some rs)
    else
      let (calls, rest) := serveLoop nread ((nwrite + fdwrite) % 2 ^ 64) rs
      (call :: calls, rest)

/-- What `fread` puts into the buffer of 1024 bytes, call by call until it returns 0. -/
def freads : ℕ → List UInt8 → List (List UInt8)
  | 0, _ => []
  | fuel + 1, file => if file = [] then [] else file.take 1024 :: freads fuel (file.drop 1024)

/-- One round of the outer loop: the bytes just read, the calls, and whether the inner loop is
through. -/
structure Round where
  buffer : List UInt8
  calls : List WriteCall
  ended : Bool

def serveRounds : List (List UInt8) → List (Option ℕ) → List Round
  | [], _ => []
  | b :: bs, rs =>
    match serveLoop b.length 0 rs with
    | (calls, none) => [⟨b, calls, false⟩]
    | (calls, some rs) => ⟨b, calls, true⟩ :: serveRounds bs rs

def serveFile (file : List UInt8) (results : List (Option ℕ)) : List Round :=
  serveRounds (freads file.length file) results

def WriteCall.accepted (buffer : List UInt8) (c : WriteCall) : List UInt8 :=
  (buffer.drop c.offset).take (c.result.getD 0)

/-- The bytes that the socket accepts in these rounds, as long as there is no error. -/
def accepted (log : List Round) : List UInt8 :=
  ((log.flatMap fun r => r.calls.map fun c => (r.buffer, c)).takeWhile
    fun x => x.2.result.isSome).flatMap fun x => x.2.accepted x.1

/-- The rounds of a file that has been sent to the end. -/
def Complete (file : List UInt8) (log : List Round) : Prop :=
  log.map Round.buffer = freads file.length file ∧ ∀ r ∈ log, r.ended

/-- No call fails or returns 0 early. -/
def Smooth (log : List Round) : Prop :=
  ∀ r ∈ log, ∀ c ∈ r.calls, ∃ n, c.result = some n ∧ (n = 0 → c.count = 0)

/-- What sending a file has to meet. -/
structure Survives (file : List UInt8) (log : List Round) : Prop where
  inside : ∀ r ∈ log, ∀ c ∈ r.calls, c.offset + c.count ≤ r.buffer.length
  in_order : accepted log <+: file
  whole : Smooth log → Complete file log → accepted log = file
  stops : ∀ r ∈ log, ∀ c ∈ r.calls, c.result = none → r.calls.getLast? = some c ∧ r.ended

/-- `write` accepts at most what it is given. -/
def Valid (log : List Round) : Prop :=
  ∀ r ∈ log, ∀ c ∈ r.calls, ∀ n ∈ c.result, n ≤ c.count

/-- A call that succeeds, and accepts at most what it is given. -/
def WriteCall.Ok (c : WriteCall) : Prop :=
  ∃ n, c.result = some n ∧ n ≤ c.count

/-- A call that returns 0 while bytes of the buffer are left. -/
def WriteCall.Early (c : WriteCall) : Prop :=
  c.result = some 0 ∧ c.count ≠ 0

/-- No call fails, and after one that returns 0 early no byte is accepted any more. -/
def Steady (log : List Round) : Prop :=
  (∀ r ∈ log, ∀ c ∈ r.calls, c.result ≠ none) ∧
    (log.flatMap Round.calls).Pairwise fun c c' => c.Early → c'.result = some 0

variable {b : List UInt8} {bs : List (List UInt8)} {nread nwrite fuel : ℕ} {r : Round}
  {rs rest : List (Option ℕ)} {calls : List WriteCall} {c : WriteCall} {file : List UInt8}

theorem serveLoop_cons (o : Option ℕ) :
    serveLoop nread nwrite (o :: rs) =
      let call : WriteCall := ⟨nwrite, (2 ^ 64 + nread - nwrite) % 2 ^ 64, o⟩
      if o.getD (2 ^ 64 - 1) = 0 then ([call], some rs)
      else
        let next := serveLoop nread ((nwrite + o.getD (2 ^ 64 - 1)) % 2 ^ 64) rs
        (call :: next.1, next.2) :=
  rfl

/-- The loop ends with a call that returns 0, and with no other. -/
theorem serveLoop_last (h : serveLoop nread nwrite rs = (calls, some rest))
    (hc : calls.getLast? = some c) : c.result = some 0 := by
  induction rs generalizing nwrite calls with
  | nil => cases h
  | cons o rs ih =>
    rw [serveLoop_cons] at h
    dsimp only at h
    split_ifs at h with hzero
    · cases h
      cases hc
      cases o with
      | none => cases hzero
      | some n => exact congrArg some hzero
    · obtain ⟨rfl, hrest⟩ := Prod.mk.inj h
      cases htl : (serveLoop nread ((nwrite + o.getD (2 ^ 64 - 1)) % 2 ^ 64) rs).1 with
      | nil =>
        cases rs with
        | nil => cases hrest
        | cons o' rs =>
          rw [serveLoop_cons] at htl
          dsimp only at htl
          split_ifs at htl
      | cons c' calls =>
        rw [htl, getLast?_cons_cons] at hc
        exact ih (Prod.ext htl hrest) hc

/-- A loop in which no call fails sends what is left of the buffer or stops early, in at most one
call for each byte and one more. -/
theorem serveLoop_ok (rs : List (Option ℕ)) (hb : b.length ≤ 1024) (hle : nwrite ≤ b.length)
    (hok : ∀ c ∈ (serveLoop b.length nwrite rs).1, c.Ok) :
    (∀ c ∈ (serveLoop b.length nwrite rs).1, c.offset + c.count ≤ b.length) ∧
      (serveLoop b.length nwrite rs).1.flatMap (·.accepted b) <+: b.drop nwrite ∧
      match (serveLoop b.length nwrite rs).2 with
      | none => rs.length ≤ b.length - nwrite
      | some rest => ((serveLoop b.length nwrite rs).1.flatMap (·.accepted b) = b.drop nwrite ∨
          ∃ c ∈ (serveLoop b.length nwrite rs).1, c.Early) ∧
        rs.length ≤ rest.length + (b.length - nwrite) + 1 := by
  induction rs generalizing nwrite with
  | nil => exact ⟨nofun, nil_prefix, Nat.zero_le _⟩
  | cons o rs ih =>
    have hcount : (2 ^ 64 + b.length - nwrite) % 2 ^ 64 = b.length - nwrite := by omega
    rw [serveLoop_cons, hcount] at hok ⊢
    dsimp only at hok ⊢
    have hhead : WriteCall.Ok ⟨nwrite, b.length - nwrite, o⟩ := by
      split_ifs at hok <;> exact hok _ mem_cons_self
    obtain ⟨n, rfl, hn⟩ := hhead
    dsimp only at hn
    rw [Option.getD_some] at hok ⊢
    split_ifs at hok ⊢ with h₀
    · subst h₀
      simp only [mem_singleton, forall_eq, exists_eq_left, flatMap_cons, flatMap_nil, append_nil,
        WriteCall.accepted, WriteCall.Early, Option.getD_some, take_zero, length_cons]
      refine ⟨by omega, nil_prefix, ?_, by omega⟩
      by_cases hleft : b.length - nwrite = 0
      · exact .inl (drop_eq_nil_of_le (by omega)).symm
      · exact .inr ⟨trivial, hleft⟩
    · rw [Nat.mod_eq_of_lt (by omega)] at hok ⊢
      obtain ⟨hin, hpre, hrest⟩ := ih (by omega : nwrite + n ≤ b.length)
        fun c hc => hok c (mem_cons_of_mem _ hc)
      have hsplit : b.drop nwrite = (b.drop nwrite).take n ++ b.drop (nwrite + n) := by
        rw [← drop_drop, take_append_drop]
      rw [flatMap_cons, WriteCall.accepted, Option.getD_some]
      dsimp only
      refine ⟨?_, ?_, ?_⟩
      · rintro c (_ | ⟨_, hc⟩)
        · dsimp only
          omega
        · exact hin c hc
      · have := (prefix_append_right_inj ((b.drop nwrite).take n)).mpr hpre
        rwa [← hsplit] at this
      · rw [length_cons]
        cases hnext : (serveLoop b.length (nwrite + n) rs).2 with
        | none =>
          rw [hnext] at hrest
          dsimp only at hrest ⊢
          omega
        | some rest =>
          rw [hnext] at hrest
          obtain ⟨hall | ⟨c, hc, hearly⟩, hlen⟩ := hrest
          · refine ⟨.inl ?_, by omega⟩
            rw [hall, ← hsplit]
          · exact ⟨.inr ⟨c, mem_cons_of_mem _ hc, hearly⟩, by omega⟩

theorem freads_spec {file : List UInt8} (h : file.length ≤ fuel) :
    (freads fuel file).flatten = file ∧ ∀ b ∈ freads fuel file, b ≠ [] ∧ b.length ≤ 1024 := by
  induction fuel generalizing file with
  | zero => exact ⟨(eq_nil_of_length_eq_zero (Nat.le_zero.mp h)).symm, nofun⟩
  | succ fuel ih =>
    rw [freads]
    split_ifs with hnil
    · exact ⟨hnil.symm, nofun⟩
    · have hpos := length_pos_iff.mpr hnil
      obtain ⟨hall, hbs⟩ := ih (show (file.drop 1024).length ≤ fuel by rw [length_drop]; omega)
      refine ⟨by rw [flatten_cons, hall, take_append_drop], ?_⟩
      rintro b (_ | ⟨_, hb⟩)
      · exact ⟨by simp [hnil], length_take_le _ _⟩
      · exact hbs b hb

/-- The last call of a round that is through has returned 0. -/
theorem serveRounds_last (hr : r ∈ serveRounds bs rs) (hend : r.ended)
    (hc : r.calls.getLast? = some c) : c.result = some 0 := by
  induction bs generalizing rs with
  | nil => cases hr
  | cons b bs ih =>
    rw [serveRounds] at hr
    rcases hloop : serveLoop b.length 0 rs with ⟨calls, _ | rest⟩
    · rw [hloop] at hr
      obtain rfl := mem_singleton.mp hr
      cases hend
    · rw [hloop] at hr
      rcases mem_cons.mp hr with rfl | hr
      · exact serveLoop_last hloop hc
      · exact ih hr

/-- The bytes accepted in all calls. -/
def sent (log : List Round) : List UInt8 :=
  log.flatMap fun r => r.calls.flatMap (·.accepted r.buffer)

theorem sent_eq_nil {log : List Round} (h : ∀ r ∈ log, ∀ c ∈ r.calls, c.result = some 0) :
    sent log = [] := by
  simp only [sent, flatMap_eq_nil_iff]
  intro r hr c hc
  rw [WriteCall.accepted, h r hr c hc]
  rfl

theorem serveRounds_ok (rs : List (Option ℕ)) (hbs : ∀ b ∈ bs, b ≠ [] ∧ b.length ≤ 1024)
    (hok : ∀ r ∈ serveRounds bs rs, ∀ c ∈ r.calls, c.Ok) :
    (∀ r ∈ serveRounds bs rs, ∀ c ∈ r.calls, c.offset + c.count ≤ r.buffer.length) ∧
      (Steady (serveRounds bs rs) → sent (serveRounds bs rs) <+: bs.flatten) ∧
      ((∀ r ∈ serveRounds bs rs, ∀ c ∈ r.calls, ¬ c.Early) →
        (serveRounds bs rs).map Round.buffer = bs → (∀ r ∈ serveRounds bs rs, r.ended) →
        sent (serveRounds bs rs) = bs.flatten) ∧
      (2 * bs.flatten.length ≤ rs.length →
        (serveRounds bs rs).map Round.buffer = bs ∧ ∀ r ∈ serveRounds bs rs, r.ended) := by
  induction bs generalizing rs with
  | nil => exact ⟨nofun, fun _ => nil_prefix, fun _ _ _ => rfl, fun _ => ⟨rfl, nofun⟩⟩
  | cons b bs ih =>
    obtain ⟨hne, hlen⟩ := hbs b mem_cons_self
    have hpos := length_pos_iff.mpr hne
    rw [serveRounds] at hok ⊢
    rw [flatten_cons, length_append]
    have hloop := serveLoop_ok rs hlen (Nat.zero_le _)
    rcases hserve : serveLoop b.length 0 rs with ⟨calls, _ | rest⟩ <;>
      rw [hserve] at hok hloop <;> dsimp only at hok hloop ⊢
    · obtain ⟨hin, hpre, hfew⟩ := hloop (hok _ mem_cons_self)
      refine ⟨fun r hr => ?_, fun _ => ?_, fun _ _ hend => ?_, fun hmany => by omega⟩
      · obtain rfl := mem_singleton.mp hr
        exact hin
      · rw [sent, flatMap_singleton]
        exact hpre.trans (prefix_append b _)
      · cases hend _ mem_cons_self
    · obtain ⟨hin, hpre, hall, hfew⟩ := hloop (hok _ mem_cons_self)
      obtain ⟨hin', hpre', hwhole, hdone⟩ := ih rest
        (fun b hb => hbs b (mem_cons_of_mem _ hb)) fun r hr => hok r (mem_cons_of_mem _ hr)
      rw [drop_zero] at hall hpre
      rw [sent, flatMap_cons]
      refine ⟨?_, fun hsteady => ?_, fun hnone hmap hend => ?_, fun hmany => ?_⟩
      · rintro r (_ | ⟨_, hr⟩)
        · exact hin
        · exact hin' r hr
      · obtain ⟨hfails, hpair⟩ := hsteady
        rw [flatMap_cons, pairwise_append] at hpair
        obtain hall | ⟨c, hc, hearly⟩ := hall
        · rw [hall]
          refine (prefix_append_right_inj b).mpr (hpre' ⟨fun r hr => ?_, hpair.2.1⟩)
          exact hfails r (mem_cons_of_mem _ hr)
        · -- the rest of the buffer is skipped, and nothing is accepted behind it
          have hnil : sent (serveRounds bs rest) = [] := sent_eq_nil fun r hr c' hc' =>
            hpair.2.2 c hc c' (mem_flatMap.mpr ⟨r, hr, hc'⟩) hearly
          rw [sent] at hnil
          rw [hnil, append_nil]
          exact hpre.trans (prefix_append b _)
      · obtain hall | ⟨c, hc, hearly⟩ := hall
        · rw [hall]
          exact congrArg (b ++ ·) (hwhole (fun r hr => hnone r (mem_cons_of_mem _ hr))
            (cons_eq_cons.mp hmap).2 fun r hr => hend r (mem_cons_of_mem _ hr))
        · exact absurd hearly (hnone _ mem_cons_self c hc)
      · obtain ⟨hmap, hend⟩ := hdone (by omega)
        refine ⟨by rw [map_cons, hmap], ?_⟩
        rintro r (_ | ⟨_, hr⟩)
        · rfl
        · exact hend r hr

theorem accepted_eq_sent {log : List Round} (h : ∀ r ∈ log, ∀ c ∈ r.calls, c.Ok) :
    accepted log = sent log := by
  rw [accepted, takeWhile_eq_self_iff.mpr, flatMap_assoc, sent]
  · simp only [flatMap_map]
  · intro x hx
    obtain ⟨r, hr, hx⟩ := mem_flatMap.mp hx
    obtain ⟨c, hc, rfl⟩ := mem_map.mp hx
    obtain ⟨n, hn, -⟩ := h r hr c hc
    rw [hn]
    rfl

/-- Where no call fails and no byte is accepted after a call that has returned 0 early, the file is
sent as it should be, and to its end if `write` returns often enough.  An error is a large number
to the loop, which goes on. -/
theorem serveFile_survives (file : List UInt8) (results : List (Option ℕ))
    (hvalid : Valid (serveFile file results)) :
    (Steady (serveFile file results) → Survives file (serveFile file results) ∧
      (2 * file.length ≤ results.length → Complete file (serveFile file results))) ∧
    ((∃ r ∈ serveFile file results, ∃ c ∈ r.calls, c.result = none) →
      ¬ Survives file (serveFile file results)) := by
  obtain ⟨hall, hbs⟩ := freads_spec (le_refl file.length)
  constructor
  · intro hsteady
    have hok : ∀ r ∈ serveFile file results, ∀ c ∈ r.calls, c.Ok := fun r hr c hc => by
      obtain ⟨n, hn⟩ := Option.ne_none_iff_exists'.mp (hsteady.1 r hr c hc)
      exact ⟨n, hn, hvalid r hr c hc n hn⟩
    obtain ⟨hin, hpre, hwhole, hdone⟩ := serveRounds_ok results hbs hok
    rw [hall] at hpre hwhole hdone
    refine ⟨⟨hin, ?_, fun hsmooth hc => ?_, fun r hr c hc hnone => ?_⟩, hdone⟩
    · exact accepted_eq_sent hok ▸ hpre hsteady
    · refine (accepted_eq_sent hok).trans (hwhole (fun r hr c hc hearly => ?_) hc.1 hc.2)
      obtain ⟨n, hn, hzero⟩ := hsmooth r hr c hc
      exact hearly.2 (hzero (Option.some.inj (hn.symm.trans hearly.1)))
    · exact absurd hnone (hsteady.1 r hr c hc)
  · rintro ⟨r, hr, c, hc, hnone⟩ hs
    obtain ⟨hlast, hend⟩ := hs.stops r hr c hc hnone
    have := serveRounds_last hr hend hlast
    rw [hnone] at this
    cases this

/-- Three bytes in two writes; and a file of which nothing is accepted. -/
theorem serveFile_survives_short :
    Survives [1, 2, 3] (serveFile [1, 2, 3] [some 2, some 1, some 0]) ∧
      Survives [7] (serveFile [7] [some 0]) := by
  have hlog : serveFile [1, 2, 3] [some 2, some 1, some 0] =
      [⟨[1, 2, 3], [⟨0, 3, some 2⟩, ⟨2, 1, some 1⟩, ⟨3, 0, some 0⟩], true⟩] := rfl
  have hlog' : serveFile [7] [some 0] = [⟨[7], [⟨0, 1, some 0⟩], true⟩] := rfl
  refine ⟨((serveFile_survives _ _ ?_).1 ?_).1, ((serveFile_survives _ _ ?_).1 ?_).1⟩
  · simp [Valid, hlog]
  · simp [Steady, WriteCall.Early, hlog]
  · simp [Valid, hlog']
  · simp [Steady, WriteCall.Early, hlog']

/-- After an error the loop passes two bytes, of which the first lies in front of the buffer. -/
theorem serveFile_not_survives :
    serveFile [7] [none, some 2, some 0] =
      [⟨[7], [⟨0, 1, none⟩, ⟨2 ^ 64 - 1, 2, some 2⟩, ⟨1, 0, some 0⟩], true⟩] ∧
      ¬ Survives [7] (serveFile [7] [none, some 2, some 0]) := by
  have hlog : serveFile [7] [none, some 2, some 0] =
      [⟨[7], [⟨0, 1, none⟩, ⟨2 ^ 64 - 1, 2, some 2⟩, ⟨1, 0, some 0⟩], true⟩] := rfl
  refine ⟨hlog, fun h => ?_⟩
  have := h.inside
  simp [hlog] at this

/-- `stream_request`: method, space, path and `" HTTP/1.0\r\n\r\n"`. -/
def streamRequest (q : HttpRequest) : List UInt8 :=
  q.method ++ 0x20 :: q.path ++
    [0x20, 0x48, 0x54, 0x54, 0x50, 0x2f, 0x31, 0x2e, 0x30, 0x0d, 0x0a, 0x0d, 0x0a]

/-- The loop that writes a buffer: what the socket accepts.  Each call starts at the first byte. -/
def relayLoop (buffer : List UInt8) : ℕ → List ℕ → List UInt8
  | _, [] => []
  | left, nwrite :: rs =>
    if nwrite = 0 then []
    else (buffer.take left).take nwrite ++ relayLoop buffer (left - nwrite) rs

/-- `handle_proxy_request` once it is connected: the bytes for the target and for the client.
`reads` has the bytes of each `read` with the results of the calls of `write` for them, and `last`
is the result of the call at the end; `garbage` is in the buffer before the first `read`. -/
def handleProxyRequest (bytes : List UInt8) (writes : List ℕ) (reads : List (List UInt8 × List ℕ))
    (garbage : UInt8) (last : ℕ) : Option (List UInt8 × List UInt8) :=
  match httpRequestParse bytes with
  | some (some request) =>
    let requestline := streamRequest request
    some (relayLoop (requestline ++ [0]) (requestline.length + 1) writes,
      reads.flatMap (fun x => relayLoop x.1 x.1.length x.2) ++
        [if reads = [] then garbage else 0].take last)
  | _ => none

/-- Results of a loop without errors: each call takes some bytes, until none is left. -/
def Drains (left : ℕ) (writes : List ℕ) : Prop :=
  ∃ rs, writes = rs ++ [0] ∧ (∀ r ∈ rs, 0 < r) ∧ rs.sum = left

theorem length_relayLoop {left : ℕ} {writes : List ℕ} (hle : left ≤ b.length)
    (h : Drains left writes) : (relayLoop b left writes).length = left := by
  obtain ⟨rs, rfl, hpos, hsum⟩ := h
  induction rs generalizing left with
  | nil => exact hsum
  | cons r rs ih =>
    rw [sum_cons] at hsum
    have hr : r ≠ 0 := (hpos r mem_cons_self).ne'
    rw [cons_append, relayLoop, if_neg hr, length_append, length_take, length_take,
      ih (by omega) (fun r hr => hpos r (mem_cons_of_mem _ hr)) (by omega)]
    omega

theorem relayLoop_once (b : List UInt8) : relayLoop b b.length [b.length, 0] = b := by
  cases b with
  | nil => rfl
  | cons c b => simp [relayLoop]

/-- A terminator goes out with the request and another one after the response, so neither is ever
relayed unchanged; with them, both are when no write is short. -/
theorem handleProxyRequest_adds (bytes : List UInt8) (q : HttpRequest) (writes : List ℕ)
    (reads : List (List UInt8 × List ℕ)) (garbage : UInt8)
    (hparse : httpRequestParse bytes = some (some q))
    (hwrites : Drains ((streamRequest q).length + 1) writes)
    (hreads : ∀ x ∈ reads, Drains x.1.length x.2) :
    ∃ toTarget toClient,
      handleProxyRequest bytes writes reads garbage 1 = some (toTarget, toClient) ∧
      toTarget.length = (streamRequest q).length + 1 ∧ toTarget ≠ streamRequest q ∧
      toClient.length = (reads.flatMap Prod.fst).length + 1 ∧
      toClient ≠ reads.flatMap Prod.fst ∧
      (writes = [(streamRequest q).length + 1, 0] → toTarget = streamRequest q ++ [0]) ∧
      ((∀ x ∈ reads, x.2 = [x.1.length, 0]) →
        toClient = reads.flatMap Prod.fst ++ [if reads = [] then garbage else 0]) := by
  have htarget : (relayLoop (streamRequest q ++ [0]) ((streamRequest q).length + 1) writes).length =
      (streamRequest q).length + 1 := length_relayLoop (by simp) hwrites
  have hclient : (reads.flatMap fun x => relayLoop x.1 x.1.length x.2).length =
      (reads.flatMap Prod.fst).length := by
    rw [length_flatMap, length_flatMap]
    exact congrArg List.sum (map_congr_left fun x hx => length_relayLoop le_rfl (hreads x hx))
  refine ⟨_, _, by rw [handleProxyRequest, hparse], htarget, fun heq => ?_, ?_, fun heq => ?_,
    fun honce => ?_, fun honce => ?_⟩
  · rw [heq] at htarget
    omega
  · rw [length_append, hclient]
    rfl
  · have := congrArg length heq
    rw [length_append, hclient] at this
    simp at this
  · have := relayLoop_once (streamRequest q ++ [0])
    rwa [length_append, length_singleton, ← honce] at this
  · refine congrArg (· ++ _) ?_
    rw [flatMap_def, flatMap_def]
    refine congrArg flatten (map_congr_left fun x hx => ?_)
    rw [honce x hx, relayLoop_once]

theorem handleProxyRequest_adds_sample :
    ∃ toTarget toClient, handleProxyRequest [0x47, 0x20, 0x2f, 0x0a] [3, 14, 0]
        [([1, 2], [1, 1, 0])] 9 1 = some (toTarget, toClient) ∧
      toTarget.length = 17 ∧ toClient.length = 3 := by
  obtain ⟨t, c, h, ht, -, hc, -⟩ := handleProxyRequest_adds [0x47, 0x20, 0x2f, 0x0a]
    ⟨[0x47], [0x2f]⟩ [3, 14, 0] [([1, 2], [1, 1, 0])] 9 (by decide +kernel)
    ⟨[3, 14], rfl, by decide, rfl⟩ (by
      rintro x (_ | ⟨_, ⟨⟩⟩)
      exact ⟨[1, 1], rfl, by decide, rfl⟩)
  exact ⟨t, c, h, ht, hc⟩

/-- Two bytes of a response that are sent one by one: the first one twice, and a zero. -/
theorem handleProxyRequest_repeats :
    (handleProxyRequest [0x47, 0x20, 0x2f, 0x0a] [17, 0] [([1, 2], [1, 1, 0])] 9 1).map Prod.snd =
      some [1, 1, 0] := by
  decide +kernel

end CS162.Http
