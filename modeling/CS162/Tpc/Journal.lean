import CS162.Lib.Run
import CS162.Tpc.Strings

/-!
# The journal

`pkg/journal/journal.go`: a journal is a list in memory and a line for each entry in a file.
`NewFileJournal` reads the file with a `bufio.Scanner`, which gives up on a line that does not
fit into its buffer.  In the run model `appended` says what has been appended since the
journal was last empty.
-/

namespace CS162.Tpc

open List Option Tpc.Action

/-- The entries of `Action_name` and `Action_value`. -/
def actionNames : List (Action × Bytes) :=
  [(prepare, ascii ['P', 'R', 'E', 'P', 'A', 'R', 'E']),
    (abort, ascii ['A', 'B', 'O', 'R', 'T']),
    (commit, ascii ['C', 'O', 'M', 'M', 'I', 'T']), (ack, ascii ['A', 'C', 'K'])]

def actionName (a : Action) : Option Bytes :=
  (actionNames.find? fun p => p.1 = a).map Prod.snd

/-- `Action_value`, which is 0 for a name it does not have. -/
def actionValue (name : Bytes) : Action :=
  ((actionNames.find? fun p => p.2 = name).map Prod.fst).getD 0

def actionString (a : Action) : Bytes :=
  (actionName a).getD (itoa a.toInt)

namespace Journal

structure Entry where
  key : Bytes
  value : Bytes
  action : Action
  deriving DecidableEq

def line (e : Entry) : Bytes :=
  e.key ++ space :: (e.value ++ space :: actionString e.action)

/-- What `Append` writes for an entry. -/
def toWrite (e : Entry) : Bytes :=
  line e ++ [newline]

def maxScanTokenSize : ℕ :=
  64 * 1024

def dropCR (token : Bytes) : Bytes :=
  if token.getLast? = some carriageReturn then token.dropLast else token

/-- A successful `Scan` on what has not been read yet: the token and the rest.  There is no line
when a buffer of the maximal size is full and has no newline. -/
def scan (data : Bytes) : Option (Bytes × Bytes) :=
  let token := data.takeWhile (· ≠ newline)
  if token.length < maxScanTokenSize ∧ token.length < data.length then
    some (dropCR token, data.drop (token.length + 1))
  else if data.length < maxScanTokenSize then some (dropCR data, [])
  else none

/-- The errors of `NewFileJournal`: an entry that does not have 3 fields, and `bufio.ErrTooLong`. -/
inductive Err where
  | fields (found : List Bytes)
  | tooLong
  deriving DecidableEq

def parse (token : Bytes) : Except Err Entry :=
  match fields token with
  | [key, value, name] => .ok ⟨key, value, actionValue name⟩
  | found => .error (.fields found)

/-- The loop of `NewFileJournal`; a round reads a byte at least. -/
def scanLoop : ℕ → Bytes → Except Err (List Entry)
  | _, [] => .ok []
  | 0, _ => .ok []
  | fuel + 1, data =>
    match scan data with
    | none => .error .tooLong
    | some (token, rest) => do
        let e ← parse token
        let es ← scanLoop fuel rest
        return e :: es

/-- `FileJournal`: the position in the file, and the entries that follow `start`. -/
structure FileJournal where
  size : ℕ
  offset : ℕ
  entries : List Entry
  deriving DecidableEq

/-- `NewFileJournal` on a file. -/
def newFileJournal (file : Bytes) : Except Err FileJournal := do
  let es ← scanLoop file.length file
  return ⟨es.length, file.length, es⟩

/-- A write at a position of a file. -/
def writeAt (file : Bytes) (offset : ℕ) (bytes : Bytes) : Bytes :=
  file.take offset ++ List.replicate (offset - file.length) 0 ++ bytes ++
    file.drop (offset + bytes.length)

def empty (_ : Bytes) (_ : FileJournal) : Bytes × FileJournal :=
  ([], ⟨0, 0, []⟩)

/-- `Append` when it returns nil. -/
def append (file : Bytes) (j : FileJournal) (e : Entry) : Bytes × FileJournal :=
  (writeAt file j.offset (toWrite e),
    ⟨j.size + 1, j.offset + (toWrite e).length, j.entries ++ [e]⟩)

/-- `EntryIterator`: what follows `cur`. -/
structure EntryIterator where
  rest : List Entry

def newIterator (j : FileJournal) : EntryIterator :=
  ⟨j.entries⟩

/-- `Next`; there is an entry just when `HasNext`. -/
def EntryIterator.next (it : EntryIterator) : Option (Entry × EntryIterator) :=
  match it.rest with
  | [] => none
  | e :: rest => some (e, ⟨rest⟩)

/-- What an iterator yields before `Next` fails, at most `n` entries. -/
def EntryIterator.yields : ℕ → EntryIterator → List Entry
  | 0, _ => []
  | n + 1, it =>
    match it.next with
    | none => []
    | some (e, it) => e :: it.yields n

structure State where
  file : Bytes
  journal : FileJournal
  appended : List Entry

inductive Event where
  | append (e : Entry)
  | empty
  | reopen

def init : State where
  file := []
  journal := ⟨0, 0, []⟩
  appended := []

/-- A step; there is no journal to go on with when `NewFileJournal` fails. -/
def step (s : State) : Event → Option State
  | .append e =>
    let (file, journal) := append s.file s.journal e
    some ⟨file, journal, s.appended ++ [e]⟩
  | .empty =>
    let (file, journal) := empty s.file s.journal
    some ⟨file, journal, []⟩
  | .reopen =>
    match newFileJournal s.file with
    | .ok journal => some ⟨s.file, journal, s.appended⟩
    | .error _ => none

/-- Opening the file gives a journal that yields these entries. -/
def OpensTo (file : Bytes) (es : List Entry) : Prop :=
  ∃ j, newFileJournal file = .ok j ∧ ∀ n, j.size ≤ n → (newIterator j).yields n = es

/-- An entry that can be read back: key and value are not empty and have no white space, the
action has a name, and the line fits into the buffer of the scanner. -/
structure Good (e : Entry) : Prop where
  key_ne : e.key ≠ []
  key_solid : Solid e.key
  value_ne : e.value ≠ []
  value_solid : Solid e.value
  named : (actionName e.action).isSome
  short : (toWrite e).length ≤ maxScanTokenSize

section Actions

theorem itoa_bytes {n : ℤ} {b : UInt8} (hb : b ∈ itoa n) : 0x20 < b ∧ b < 0x3a := by
  have hchars : ∀ c ∈ (if n < 0 then '-' :: Nat.toDigits 10 n.natAbs
      else Nat.toDigits 10 n.natAbs), 0x20 < c.toNat ∧ c.toNat < 0x3a := by
    intro c hc
    have hdigit : ∀ c ∈ Nat.toDigits 10 n.natAbs, 0x20 < c.toNat ∧ c.toNat < 0x3a := by
      intro c hc
      have h := Nat.isDigit_of_mem_toDigits (by decide) (by decide) hc
      simp only [Char.isDigit, Bool.and_eq_true, decide_eq_true_eq] at h
      have h1 : 48 ≤ c.toNat := h.1
      have h2 : c.toNat ≤ 57 := h.2
      omega
    split at hc
    · rcases mem_cons.mp hc with rfl | hc
      · decide
      · exact hdigit c hc
    · exact hdigit c hc
  obtain ⟨c, hc, rfl⟩ := List.mem_map.mp hb
  obtain ⟨h1, h2⟩ := hchars c hc
  rw [UInt8.lt_iff_toNat_lt, UInt8.lt_iff_toNat_lt, UInt8.toNat_ofNat_of_lt' (by
    change c.toNat < 256
    omega)]
  exact ⟨h1, h2⟩

theorem itoa_ne_nil (n : ℤ) : itoa n ≠ [] := by
  unfold itoa ascii
  split <;> simp

theorem actionName_eq_some {a : Action} {name : Bytes} :
    actionName a = some name → (a, name) ∈ actionNames := by
  intro h
  obtain ⟨⟨a', name'⟩, hfind, rfl⟩ := map_eq_some_iff.mp h
  have hfound := find?_some hfind
  have ha : a' = a := of_decide_eq_true hfound
  exact ha ▸ mem_of_find?_eq_some hfind

theorem actionString_cases (a : Action) :
    (a, actionString a) ∈ actionNames ∨ actionName a = none ∧ actionString a = itoa a.toInt := by
  cases h : actionName a with
  | none => exact Or.inr ⟨rfl, by rw [actionString, h, getD_none]⟩
  | some name =>
    rw [actionString, h, getD_some]
    exact Or.inl (actionName_eq_some h)

theorem actionString_bytes {a : Action} {b : UInt8} (hb : b ∈ actionString a) :
    0x20 < b ∧ b < 0x7f := by
  rcases actionString_cases a with h | ⟨-, h⟩
  · have hall : ∀ p ∈ actionNames, ∀ b ∈ p.2, 0x20 < b ∧ b < 0x7f := by decide +kernel
    exact hall _ h b hb
  · obtain ⟨h1, h2⟩ := itoa_bytes (h ▸ hb)
    exact ⟨h1, UInt8.lt_trans h2 (by decide)⟩

theorem actionString_ne_nil (a : Action) : actionString a ≠ [] := by
  rcases actionString_cases a with h | ⟨-, h⟩
  · have hall : ∀ p ∈ actionNames, p.2 ≠ [] := by decide
    exact hall _ h
  · exact h ▸ itoa_ne_nil _

theorem actionValue_actionString (a : Action) :
    actionValue (actionString a) = a ↔ (actionName a).isSome := by
  rcases actionString_cases a with h | ⟨hnone, h⟩
  · have hall : ∀ p ∈ actionNames, actionValue p.2 = p.1 ∧ (actionName p.1).isSome := by decide
    exact iff_of_true (hall _ h).1 (hall _ h).2
  · -- a number is not a name, and 0 has one
    have hletter : ∀ p ∈ actionNames, ∃ b ∈ p.2, ¬ b < 0x3a := by decide
    have hfind : actionNames.find? (fun p => p.2 = itoa a.toInt) = none := by
      refine find?_eq_none.mpr fun p hp heq => ?_
      obtain ⟨b, hb, hlt⟩ := hletter p hp
      exact hlt (itoa_bytes (of_decide_eq_true heq ▸ hb)).2
    rw [h, actionValue, hfind, hnone]
    refine iff_of_false (fun hzero => ?_) Bool.false_ne_true
    rw [← (hzero : 0 = a)] at hnone
    revert hnone
    decide

end Actions

section Lines

variable {e : Entry} {rest token : Bytes}

theorem fields_line (e : Entry) :
    fields (line e) = fields e.key ++ (fields e.value ++ [actionString e.action]) := by
  have haction : fields (actionString e.action) = [actionString e.action] :=
    fields_of_solid (actionString_ne_nil _) (solid_of_printable fun _ => actionString_bytes)
  rw [line, fields_append_space, fields_append_space, haction]

theorem dropCR_line (e : Entry) : dropCR (line e) = line e := by
  have hlast : (line e).getLast? = (actionString e.action).getLast? := by
    rw [line, getLast?_append_of_ne_nil _ (cons_ne_nil _ _), getLast?_cons,
      getLast?_append_of_ne_nil _ (cons_ne_nil _ _), getLast?_cons,
      getLast?_eq_some_getLast (actionString_ne_nil _)]
    rfl
  unfold dropCR
  rw [hlast, if_neg]
  intro h
  exact absurd (actionString_bytes (mem_of_getLast? h)).1 (by decide)

theorem newline_not_mem_line (hkey : newline ∉ e.key) (hvalue : newline ∉ e.value) :
    newline ∉ line e := by
  have haction : newline ∉ actionString e.action := fun hmem =>
    absurd (actionString_bytes hmem).1 (by decide)
  have hspace : newline ≠ space := by decide
  simp [line, hkey, hvalue, haction, hspace]

theorem takeWhile_toWrite (h : newline ∉ line e) :
    (toWrite e ++ rest).takeWhile (· ≠ newline) = line e := by
  rw [toWrite, append_assoc, takeWhile_append_of_pos fun b hb => ?_]
  · simp
  · exact decide_eq_true fun heq => h (heq ▸ hb)

theorem scan_toWrite (h : newline ∉ line e) (hshort : (toWrite e).length ≤ maxScanTokenSize) :
    scan (toWrite e ++ rest) = some (line e, rest) := by
  have hlen : (toWrite e).length = (line e).length + 1 := by rw [toWrite, length_append]; rfl
  have hdrop : (toWrite e ++ rest).drop ((line e).length + 1) = rest := by
    rw [← hlen, drop_left]
  unfold scan
  rw [takeWhile_toWrite h]
  rw [if_pos ⟨by omega, by rw [length_append]; omega⟩, dropCR_line, hdrop]

theorem Good.newline_not_mem (h : Good e) : newline ∉ line e :=
  newline_not_mem_line (h.key_solid.not_mem (by decide) (by decide))
    (h.value_solid.not_mem (by decide) (by decide))

theorem Good.parse_line (h : Good e) : parse (line e) = .ok e := by
  unfold parse
  rw [fields_line, fields_of_solid h.key_ne h.key_solid, fields_of_solid h.value_ne h.value_solid]
  dsimp only [cons_append, nil_append]
  rw [(actionValue_actionString _).mpr h.named]

theorem parse_eq_ok (h : parse token = .ok e) :
    ∃ name, fields token = [e.key, e.value, name] ∧ actionValue name = e.action := by
  unfold parse at h
  split at h
  · next key value name hfields =>
      cases h
      exact ⟨name, hfields, rfl⟩
  · cases h

theorem good_of_parse_line (h : parse (line e) = .ok e)
    (hshort : (toWrite e).length ≤ maxScanTokenSize) : Good e := by
  obtain ⟨name, hfields, hvalue⟩ := parse_eq_ok h
  have hkey_ne : e.key ≠ [] := ne_nil_of_mem_fields (s := line e) (by simp [hfields])
  have hvalue_ne : e.value ≠ [] := ne_nil_of_mem_fields (s := line e) (by simp [hfields])
  rw [fields_line, ← append_assoc] at hfields
  obtain ⟨hboth, hname⟩ : fields e.key ++ fields e.value = [e.key, e.value] ∧
      [actionString e.action] = [name] :=
    append_inj' (hfields.trans (by rfl : _ = [e.key, e.value] ++ [name])) rfl
  -- the fields of key and value have as many bytes as key and value
  have hlen := congrArg (fun fs => fs.flatten.length) hboth
  have hle := fields_length_le e.key
  have hle' := fields_length_le e.value
  simp only [flatten_append, length_append, flatten_cons, flatten_nil, append_nil] at hlen
  rw [← singleton_inj.mp hname] at hvalue
  exact ⟨hkey_ne, solid_of_length (by omega), hvalue_ne, solid_of_length (by omega),
    (actionValue_actionString _).mp hvalue, hshort⟩

theorem mem_of_mem_dropCR {b : UInt8} (h : b ∈ dropCR token) : b ∈ token := by
  unfold dropCR at h
  split at h
  · exact dropLast_subset _ h
  · exact h

theorem good_of_scan {rest' : Bytes} (hscan : scan (toWrite e ++ rest) = some (token, rest'))
    (hparse : parse token = .ok e) : Good e ∧ rest' = rest := by
  obtain ⟨name, hfields, -⟩ := parse_eq_ok hparse
  have hlen : (toWrite e).length = (line e).length + 1 := by rw [toWrite, length_append]; rfl
  have hmem : newline ∈ toWrite e ++ rest :=
    mem_append_left _ (mem_append_right _ (mem_singleton.mpr rfl))
  have hlt : ((toWrite e ++ rest).takeWhile (· ≠ newline)).length < (toWrite e ++ rest).length := by
    refine lt_of_le_of_ne (List.takeWhile_prefix _).length_le fun heq => ?_
    have hall := takeWhile_eq_self_iff.mp ((List.takeWhile_prefix _).eq_of_length heq)
    exact of_decide_eq_true (hall newline hmem) rfl
  unfold scan at hscan
  dsimp only at hscan
  split at hscan
  · next hfits =>
      cases hscan
      have hfree : ∀ f ∈ fields (dropCR ((toWrite e ++ rest).takeWhile (· ≠ newline))),
          newline ∉ f := fun f hf hb => by
        have hb' := mem_of_mem_dropCR (mem_of_mem_fields hf hb)
        simpa using mem_takeWhile_imp hb'
      rw [hfields] at hfree
      have hline : newline ∉ line e := newline_not_mem_line (hfree _ (by simp)) (hfree _ (by simp))
      rw [takeWhile_toWrite hline] at hparse hfits ⊢
      rw [dropCR_line] at hparse
      refine ⟨good_of_parse_line hparse (by omega), ?_⟩
      rw [← hlen, drop_left]
  · next hlong =>
      split at hscan
      · next hshort => exact absurd ⟨by omega, hlt⟩ hlong
      · cases hscan

end Lines

theorem scanLoop_eq_ok_iff {es : List Entry} {fuel : ℕ}
    (hfuel : (es.map toWrite).flatten.length ≤ fuel) :
    scanLoop fuel (es.map toWrite).flatten = .ok es ↔ ∀ e ∈ es, Good e := by
  induction es generalizing fuel with
  | nil => simp [scanLoop]
  | cons e es ih =>
    rw [map_cons, flatten_cons] at hfuel ⊢
    have hpos : 0 < (toWrite e).length := by simp [toWrite]
    rw [length_append] at hfuel
    obtain ⟨fuel, rfl⟩ : ∃ n, fuel = n + 1 := ⟨fuel - 1, by omega⟩
    have hne : toWrite e ++ (es.map toWrite).flatten ≠ [] := by simp [toWrite]
    rw [scanLoop, forall_mem_cons]
    · constructor
      · intro hok
        split at hok
        · cases hok
        · next token rest hscan =>
            cases hparse : parse token with
            | error err => rw [hparse] at hok; cases hok
            | ok e' =>
              cases hloop : scanLoop fuel rest with
              | error err => rw [hparse, hloop] at hok; cases hok
              | ok es' =>
                rw [hparse, hloop] at hok
                cases hok
                obtain ⟨hgood, rfl⟩ := good_of_scan hscan hparse
                exact ⟨hgood, (ih (by omega)).mp hloop⟩
      · rintro ⟨hgood, hrest⟩
        rw [scan_toWrite hgood.newline_not_mem hgood.short]
        dsimp only
        rw [hgood.parse_line, (ih (by omega)).mpr hrest]
        rfl
    · exact hne


theorem newFileJournal_eq_ok_iff {file : Bytes} {j : FileJournal} :
    newFileJournal file = .ok j ↔ scanLoop file.length file = .ok j.entries ∧
      j.size = j.entries.length ∧ j.offset = file.length := by
  unfold newFileJournal
  obtain ⟨size, offset, entries⟩ := j
  cases hloop : scanLoop file.length file with
  | error err => exact iff_of_false (fun h => by cases h) fun h => by cases h.1
  | ok es =>
    constructor
    · intro h
      cases h
      exact ⟨rfl, rfl, rfl⟩
    · rintro ⟨h, hsize, hoffset⟩
      dsimp only at h hsize hoffset
      cases h
      subst hsize hoffset
      rfl

theorem EntryIterator.yields_eq {n : ℕ} {it : EntryIterator} (h : it.rest.length ≤ n) :
    it.yields n = it.rest := by
  obtain ⟨es⟩ := it
  induction es generalizing n with
  | nil => cases n <;> rfl
  | cons e es ih =>
    obtain ⟨n, rfl⟩ : ∃ k, n = k + 1 := ⟨n - 1, by simp only [length_cons] at h; omega⟩
    rw [yields]
    exact congrArg (e :: ·) (ih (Nat.le_of_succ_le_succ h))

theorem opensTo_iff {file : Bytes} {es : List Entry} :
    OpensTo file es ↔ scanLoop file.length file = .ok es := by
  constructor
  · rintro ⟨j, hj, hyields⟩
    obtain ⟨hloop, hsize, -⟩ := newFileJournal_eq_ok_iff.mp hj
    rw [hloop, ← hyields j.size le_rfl, EntryIterator.yields_eq hsize.ge]
    rfl
  · intro hloop
    exact ⟨⟨es.length, file.length, es⟩, newFileJournal_eq_ok_iff.mpr ⟨hloop, rfl, rfl⟩,
      fun n hn => EntryIterator.yields_eq hn⟩

/-- The file has a line for each entry that was appended, and the next one goes to its end. -/
structure Written (s : State) : Prop where
  file : s.file = (s.appended.map toWrite).flatten
  offset : s.journal.offset = s.file.length

theorem Written.step {s s' : State} {event : Event} (h : Written s)
    (hstep : step s event = some s') : Written s' := by
  cases event with
  | append e =>
    cases hstep
    have hfile : writeAt s.file s.journal.offset (toWrite e) = s.file ++ toWrite e := by
      rw [writeAt, h.offset, take_length, Nat.sub_self, drop_eq_nil_of_le (by omega)]
      simp
    refine ⟨?_, ?_⟩
    · rw [hfile, h.file]
      simp
    · rw [hfile, h.offset, length_append]
  | empty =>
    cases hstep
    exact ⟨rfl, rfl⟩
  | reopen =>
    rw [Journal.step] at hstep
    split at hstep
    · next j hj =>
        cases hstep
        exact ⟨h.file, (newFileJournal_eq_ok_iff.mp hj).2.2⟩
    · cases hstep

/-- Opening the journal again yields what was appended since it was last empty just when all these
entries are good. -/
theorem opensTo_appended_iff {s : State} {events : List Event}
    (hrun : Run.run step init events = some s) :
    OpensTo s.file s.appended ↔ ∀ e ∈ s.appended, Good e := by
  have hwritten : Written s :=
    Run.run_invariant' (fun _ _ _ h hstep => h.step hstep) ⟨rfl, rfl⟩ hrun
  rw [opensTo_iff, hwritten.file]
  exact scanLoop_eq_ok_iff le_rfl

/-- An entry that survives. -/
theorem opensTo_appended_sample :
    ∃ s, Run.run step init [.append ⟨[0x61], [0x62], commit⟩, .reopen,
        .append ⟨[0x63], [0x64], abort⟩] = some s ∧
      s.appended = [⟨[0x61], [0x62], commit⟩, ⟨[0x63], [0x64], abort⟩] ∧
      OpensTo s.file s.appended := by
  have heval : (Run.run step init [.append ⟨[0x61], [0x62], commit⟩, .reopen,
      .append ⟨[0x63], [0x64], abort⟩]).map State.appended =
        some [⟨[0x61], [0x62], commit⟩, ⟨[0x63], [0x64], abort⟩] := by
    decide +kernel
  obtain ⟨s, hs, happended⟩ := map_eq_some_iff.mp heval
  refine ⟨s, hs, happended, (opensTo_appended_iff hs).mpr ?_⟩
  rw [happended]
  rintro e he
  rcases mem_cons.mp he with rfl | he
  · exact ⟨by decide, by decide, by decide, by decide, by decide, by decide⟩
  · cases mem_singleton.mp he
    exact ⟨by decide, by decide, by decide, by decide, by decide, by decide⟩

/-- A value with a space: the journal cannot be opened again.  A key that holds a whole line and a
newline: it is opened with two entries instead of one.  An action without a name: it is opened with
another action. -/
theorem not_opensTo_appended :
    (Run.run step init [.append ⟨[0x61], [0x62, 0x20, 0x63], commit⟩]).map
        (fun s => newFileJournal s.file) =
      some (.error (.fields [[0x61], [0x62], [0x63], actionString commit])) ∧
    (Run.run step init
        [.append ⟨[0x61, 0x20, 0x62, 0x20, 0x63, 0x0a, 0x64], [0x65], ack⟩]).map
        (fun s => newFileJournal s.file) =
      some (.ok ⟨2, 14, [⟨[0x61], [0x62], prepare⟩, ⟨[0x64], [0x65], ack⟩]⟩) ∧
    (Run.run step init [.append ⟨[0x61], [0x62], 7⟩]).map (fun s => newFileJournal s.file) =
      some (.ok ⟨1, 6, [⟨[0x61], [0x62], prepare⟩]⟩) := by
  decide +kernel

end Journal

end CS162.Tpc
