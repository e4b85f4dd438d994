import CS162.Lib.Run
import CS162.Tpc.Files

/-!
# The key-value store

`pkg/kvstore/kvstore.go`: a store keeps its entries in a map and writes each of them to a file of
its directory.  A new store is filled from the files below the directory, each under its own name.
So the map has keys and the directory has paths, and the two agree for keys that are names.
-/

namespace CS162.Tpc.KVStore

open Option Function List

/-- The callback of `filepath.Walk` for a file; for a directory it does nothing. -/
def visit (path : Bytes) (cache : Bytes → Option Bytes) (entry : Bytes × Bytes) :
    Bytes → Option Bytes :=
  if entry.1 = path then cache else update cache entry.1 (some entry.2)

def load (path : Bytes) (d : Dir) : Bytes → Option Bytes :=
  d.walk.foldl (visit path) fun _ => none

structure World where
  root : Dir
  cache : Bytes → Option Bytes

/-- `Put` over any `WriteFile` an operating system may have: what it leaves of the files, and
whether it returns nil. -/
def putOver (writeFile : Bytes → List Bytes → Dir → Dir × Bool) (cwd : List Bytes) (path : Bytes)
    (w : World) (key value : Bytes) : World × Bool :=
  if key = [] then (w, false)
  else
    let cache := update w.cache key (some value)
    let written := writeFile value ((pathJoin path key).resolve cwd) w.root
    (⟨written.1, cache⟩, written.2)

section Store

variable (cwd : List Bytes) (path : Bytes)

def home : List Bytes :=
  (Path.parse path).resolve cwd

/-- `NewFSKVStore`; `MkdirAll` fails for an empty path. -/
def newFSKVStore (root : Dir) : Option World :=
  if path = [] then none
  else (Dir.mkdirAll (home cwd path) root).bind fun root =>
    (Dir.find (home cwd path) root).map fun d => ⟨root, load path d⟩

/-- `Get`; there is no value just when it returns an error. -/
def get (w : World) (key : Bytes) : Option Bytes :=
  w.cache key

/-- `Put` where a file is written or the call fails and changes none. -/
def put : World → Bytes → Bytes → World × Bool :=
  putOver (fun value p d => (Dir.write value p d).elim (d, false) (·, true)) cwd path

def step (w : World) (entry : Bytes × Bytes) : Option World :=
  match put cwd path w entry.1 entry.2 with
  | (w, true) => some w
  | (_, false) => none

/-- A store that is opened now answers as the live one. -/
def Agrees (w : World) : Prop :=
  ∃ w', newFSKVStore cwd path w.root = some w' ∧ ∀ key, get w' key = get w key

/-- The last file of a name in the part of the walk below a directory that comes after the place
of this name in the directory. -/
def shadow (d : Dir) (key : Bytes) : Option Bytes :=
  lastOf key (Dir.after key d).walk

end Store

section Open

variable {cwd : List Bytes} {path : Bytes} {root : Dir} {w : World}

theorem load_eq (path : Bytes) (d : Dir) (key : Bytes) :
    load path d key = if key = path then none else lastOf key d.walk := by
  have hfold : ∀ (entries : List (Bytes × Bytes)) (cache : Bytes → Option Bytes),
      entries.foldl (visit path) cache key =
        if key = path then cache key else (lastOf key entries).or (cache key) := by
    intro entries
    induction entries with
    | nil => intro cache; simp [lastOf]
    | cons entry entries ih =>
      intro cache
      obtain ⟨n, v⟩ := entry
      rw [foldl_cons, ih, visit, lastOf]
      by_cases hpath : key = path
      · by_cases hn : n = path
        · simp [hpath, hn]
        · simp [hpath, hn, update_of_ne (Ne.symm hn)]
      · by_cases hn : n = path
        · subst hn
          simp [hpath, Ne.symm hpath]
        · by_cases hk : n = key
          · simp [hpath, hk]
          · simp [hpath, hn, hk, update_of_ne (Ne.symm hk)]
  rw [load, hfold]
  simp

theorem newFSKVStore_eq_some (h : newFSKVStore cwd path root = some w) :
    path ≠ [] ∧ Dir.mkdirAll (home cwd path) root = some w.root ∧
      ∃ d, Dir.find (home cwd path) w.root = some d ∧ w.cache = load path d := by
  unfold newFSKVStore at h
  split at h
  · cases h
  · next hpath =>
      obtain ⟨root', hroot', h⟩ := bind_eq_some_iff.mp h
      obtain ⟨d, hd, rfl⟩ := map_eq_some_iff.mp h
      exact ⟨hpath, hroot', d, hd, rfl⟩

theorem newFSKVStore_of_find {d : Dir} (hpath : path ≠ [])
    (hd : Dir.find (home cwd path) root = some d) :
    newFSKVStore cwd path root = some ⟨root, load path d⟩ := by
  rw [newFSKVStore, if_neg hpath, Dir.mkdirAll_of_find hd, bind_some, hd, map_some]

end Open

section Puts

variable {cwd : List Bytes} {path v : Bytes} {w w' : World} {entries : List (Bytes × Bytes)}

theorem step_eq_some {k : Bytes} (h : step cwd path w (k, v) = some w') :
    k ≠ [] ∧ Dir.write v ((pathJoin path k).resolve cwd) w.root = some w'.root ∧
      w'.cache = update w.cache k (some v) := by
  unfold step put putOver at h
  by_cases hk : k = []
  · rw [if_pos hk] at h
    cases h
  · rw [if_neg hk] at h
    dsimp only at h
    cases hw : Dir.write v ((pathJoin path k).resolve cwd) w.root with
    | none => rw [hw] at h; cases h
    | some root =>
      rw [hw] at h
      cases h
      exact ⟨hk, rfl, rfl⟩

theorem run_cache (h : Run.run (step cwd path) w entries = some w') (key : Bytes) :
    w'.cache key = (lastOf key entries).or (w.cache key) := by
  induction entries generalizing w with
  | nil =>
    cases h
    rfl
  | cons entry entries ih =>
    obtain ⟨k, v⟩ := entry
    obtain ⟨u, hu, h⟩ := Run.run_cons_eq_some.mp h
    rw [ih h, (step_eq_some hu).2.2, lastOf, Option.or_assoc]
    by_cases hk : k = key
    · simp [hk]
    · simp [hk, update_of_ne (Ne.symm hk)]

theorem slash_not_mem_home (path : Bytes) (hcwd : ∀ n ∈ cwd, slash ∉ n) :
    ∀ n ∈ home cwd path, slash ∉ n := by
  refine slash_not_mem_foldl_enter ?_ fun c => slash_not_mem_of_mem_components
  split
  · exact fun n hn => absurd hn not_mem_nil
  · exact hcwd

theorem run_named (hpath : path ≠ []) (hcwd : ∀ n ∈ cwd, slash ∉ n) (hw : w.root.Named)
    (h : Run.run (step cwd path) w entries = some w') : w'.root.Named := by
  refine Run.run_invariant' (I := fun s => s.root.Named) (fun s entry s' hs hstep => ?_) hw h
  refine hs.write ?_ (step_eq_some hstep).2.1
  rw [resolve_pathJoin cwd hpath]
  exact slash_not_mem_foldl_enter (slash_not_mem_home path hcwd) fun c =>
    slash_not_mem_of_mem_components

theorem step_of_plain {k : Bytes} {d : Dir} (hpath : path ≠ [])
    (hd : Dir.find (home cwd path) w.root = some d) (hk : slash ∉ k)
    (h : step cwd path w (k, v) = some w') :
    ∃ d', Dir.put k v d = some d' ∧ Dir.find (home cwd path) w'.root = some d' := by
  obtain ⟨hne, hwrite, -⟩ := step_eq_some h
  rw [resolve_pathJoin cwd hpath, components_of_not_mem hne hk, foldl_cons, foldl_nil,
    show (Path.parse path).resolve cwd = home cwd path from rfl] at hwrite
  -- `.` and `..` are directories
  have hnone := Dir.find_of_write hwrite
  have hdot : k ≠ dot := by
    rintro rfl
    rw [enter, if_pos rfl, hd] at hnone
    cases hnone
  have hdotDot : k ≠ dotDot := by
    rintro rfl
    obtain ⟨e, he⟩ := Dir.find_dropLast hd
    rw [enter, if_neg hdot, if_pos rfl, he] at hnone
    cases hnone
  rw [enter_of_ne hdot hdotDot] at hwrite
  obtain ⟨e, d', hfind, hput, hfind'⟩ := Dir.write_eq_some hwrite
  cases hfind.symm.trans hd
  exact ⟨d', hput, hfind'⟩

theorem run_of_plain {d : Dir} (hpath : path ≠ []) (hd : Dir.find (home cwd path) w.root = some d)
    (hplain : ∀ entry ∈ entries, slash ∉ entry.1)
    (h : Run.run (step cwd path) w entries = some w') :
    ∃ d', Dir.find (home cwd path) w'.root = some d' ∧ ∀ key, lastOf key d'.walk =
      (lastOf key entries).elim (lastOf key d.walk) fun v => (shadow d key).or (some v) := by
  induction entries generalizing w d with
  | nil =>
    cases h
    exact ⟨d, hd, fun _ => rfl⟩
  | cons entry entries ih =>
    obtain ⟨k, v⟩ := entry
    obtain ⟨u, hu, h⟩ := Run.run_cons_eq_some.mp h
    obtain ⟨hk, hplain⟩ := forall_mem_cons.mp hplain
    obtain ⟨d₁, hput, hd1⟩ := step_of_plain hpath hd hk hu
    obtain ⟨d', hd', hlast⟩ := ih hd1 hplain h
    refine ⟨d', hd', fun key => ?_⟩
    have hshadow : shadow d₁ key = shadow d key := Dir.lastOf_after_put hput
    rw [hlast, hshadow, lastOf]
    cases lastOf key entries with
    | some v' => rfl
    | none =>
      by_cases heq : k = key
      · subst heq
        simpa [shadow] using Dir.lastOf_walk_put hput
      · simpa [heq] using Dir.lastOf_walk_put_of_ne (Ne.symm heq) hput

theorem mem_of_lastOf {key : Bytes} (h : lastOf key entries = some v) : (key, v) ∈ entries := by
  induction entries with
  | nil => cases h
  | cons entry entries ih =>
    obtain ⟨n, c⟩ := entry
    rcases or_eq_some_iff.mp h with h | ⟨-, h⟩
    · exact mem_cons_of_mem _ (ih h)
    · obtain ⟨rfl, hc⟩ := ite_none_right_eq_some.mp h
      cases hc
      exact mem_cons_self ..

theorem lastOf_isSome {key : Bytes} (h : (key, v) ∈ entries) : (lastOf key entries).isSome := by
  induction entries with
  | nil => exact absurd h not_mem_nil
  | cons entry entries ih =>
    obtain ⟨n, c⟩ := entry
    rw [lastOf, isSome_or, Bool.or_eq_true]
    rcases mem_cons.mp h with h | h
    · cases h
      exact Or.inr (by simp)
    · exact Or.inl (ih h)

/-- After any run of `Put`s that return nil, a store that is opened on the directory answers as
the live one just when every key is without a slash and not the path of the store, and what the
walk finds under the key after its file has the value that was put last. -/
theorem agrees_iff {root d : Dir} (hroot : root.Named) (hcwd : ∀ n ∈ cwd, slash ∉ n)
    (hopen : newFSKVStore cwd path root = some w)
    (hd : Dir.find (home cwd path) w.root = some d)
    (hrun : Run.run (step cwd path) w entries = some w') :
    Agrees cwd path w' ↔ ∀ key v, lastOf key entries = some v →
      slash ∉ key ∧ key ≠ path ∧ ∀ c, shadow d key = some c → c = v := by
  obtain ⟨hpath, hmkdir, e, he, hcache⟩ := newFSKVStore_eq_some hopen
  cases hd.symm.trans he
  have hplain : (∀ key v, lastOf key entries = some v → slash ∉ key) →
      ∀ entry ∈ entries, slash ∉ entry.1 := fun h entry hentry => by
    obtain ⟨v, hv⟩ := isSome_iff_exists.mp (lastOf_isSome hentry)
    exact h entry.1 v hv
  constructor
  · rintro ⟨w'', hopen', hget⟩
    obtain ⟨-, hmkdir', d'', hd'', hcache'⟩ := newFSKVStore_eq_some hopen'
    -- the value that was put last is that of a file below the directory
    have hlast : ∀ key v, lastOf key entries = some v →
        key ≠ path ∧ lastOf key d''.walk = some v := fun key v hv => by
      have hvalue := hget key
      rw [get, get, hcache', load_eq, run_cache hrun, hv, some_or] at hvalue
      split at hvalue
      · cases hvalue
      · next hne => exact ⟨hne, hvalue⟩
    have hnamed : d''.Named := by
      have hhome := slash_not_mem_home path hcwd
      exact ((run_named hpath hcwd (hroot.mkdirAll hhome hmkdir) hrun).mkdirAll hhome
        hmkdir').find hd''
    have hslash : ∀ key v, lastOf key entries = some v → slash ∉ key := fun key v hv =>
      hnamed.walk (mem_of_lastOf (hlast key v hv).2)
    obtain ⟨d', hd', hwalk⟩ := run_of_plain hpath hd (hplain hslash) hrun
    rw [Dir.mkdirAll_of_find hd'] at hmkdir'
    rw [← some_inj.mp hmkdir', hd'] at hd''
    cases hd''
    intro key v hv
    refine ⟨hslash key v hv, (hlast key v hv).1, fun c hc => ?_⟩
    have hvalue := (hlast key v hv).2
    rw [hwalk, hv, hc] at hvalue
    exact some_inj.mp hvalue
  · intro h
    obtain ⟨d', hd', hwalk⟩ := run_of_plain hpath hd (hplain fun key v hv => (h key v hv).1) hrun
    refine ⟨_, newFSKVStore_of_find hpath hd', fun key => ?_⟩
    change load path d' key = w'.cache key
    rw [load_eq, run_cache hrun, hwalk, hcache, load_eq]
    cases hv : lastOf key entries with
    | none => split <;> rfl
    | some v =>
      obtain ⟨-, hne, hshadow⟩ := h key v hv
      rw [if_neg hne, elim_some, some_or]
      cases hc : shadow d key with
      | none => rfl
      | some c => rw [hshadow c hc]; rfl

/-- A store in `/s`, and the key `k` put twice. -/
theorem agrees_sample :
    ∃ w w', newFSKVStore [] [0x2f, 0x73] .nil = some w ∧
      Run.run (step [] [0x2f, 0x73]) w [([0x6b], [0x31]), ([0x6b], [0x32])] = some w' ∧
      Agrees [] [0x2f, 0x73] w' := by
  have heval : ((newFSKVStore [] [0x2f, 0x73] .nil).bind fun w =>
      (Run.run (step [] [0x2f, 0x73]) w [([0x6b], [0x31]), ([0x6b], [0x32])]).map fun w' =>
        (w.root, w'.root)) =
      some (.dir [0x73] .nil .nil, .dir [0x73] (.file [0x6b] [0x32] .nil) .nil) := by
    decide +kernel
  obtain ⟨w, hopen, heval⟩ := bind_eq_some_iff.mp heval
  obtain ⟨w', hrun, heq⟩ := map_eq_some_iff.mp heval
  have hd : Dir.find (home [] [0x2f, 0x73]) w.root = some .nil := by
    rw [(Prod.mk.inj heq).1]
    decide +kernel
  refine ⟨w, w', hopen, hrun, (agrees_iff (by decide) (by decide) hopen hd hrun).mpr ?_⟩
  intro key v hv
  cases hkey : decide (key = [0x6b]) with
  | true =>
    cases of_decide_eq_true hkey
    cases hv
    exact ⟨by decide, by decide, fun c hc => by cases hc⟩
  | false =>
    have hne : ¬ [0x6b] = key := fun heq => of_decide_eq_false hkey heq.symm
    simp [lastOf, hne] at hv

/-- The key `./k` has the file of the key `k`: the new store has its value for `k` and nothing for
`./k`.  A store at the path `k` does not read its file `k`. -/
theorem not_agrees_of_alias :
    (((newFSKVStore [] [0x2f, 0x73] .nil).bind fun w =>
      Run.run (step [] [0x2f, 0x73]) w [([0x6b], [0x31]), ([0x2e, 0x2f, 0x6b], [0x32])]).map
        fun w => (([[0x6b], [0x2e, 0x2f, 0x6b]].map (get w)),
          (newFSKVStore [] [0x2f, 0x73] w.root).map fun w' =>
            [[0x6b], [0x2e, 0x2f, 0x6b]].map (get w'))) =
      some ([some [0x31], some [0x32]], some [some [0x32], none]) ∧
    (((newFSKVStore [] [0x6b] .nil).bind fun w =>
      Run.run (step [] [0x6b]) w [([0x6b], [0x31])]).map fun w => (get w [0x6b],
        (newFSKVStore [] [0x6b] w.root).map fun w' => get w' [0x6b])) =
      some (some [0x31], some none) := by
  decide +kernel

end Puts

section Failure

/-- The map has been changed when the file is written, so that `Get` sees a call that fails, as
any other, unless there was nothing to change. -/
theorem failed_put_invisible_iff (writeFile : Bytes → List Bytes → Dir → Dir × Bool)
    (cwd : List Bytes) (path : Bytes) (w : World) (key value : Bytes) :
    (∀ k, get (putOver writeFile cwd path w key value).1 k = get w k) ↔
      key = [] ∨ get w key = some value := by
  unfold putOver
  by_cases hkey : key = []
  · simp [hkey]
  · rw [if_neg hkey]
    simp only [get, hkey, false_or]
    constructor
    · intro h
      rw [← h key, update_self]
    · intro h k
      rw [← h, update_eq_self]

/-- The directory of the key `a/b` does not exist: `Put` fails and `Get` has the value. -/
theorem failed_put_visible :
    ((newFSKVStore [] [0x2f, 0x73] .nil).map fun w =>
      let r := put [] [0x2f, 0x73] w [0x61, 0x2f, 0x62] [0x31]
      (r.2, get w [0x61, 0x2f, 0x62], get r.1 [0x61, 0x2f, 0x62])) =
      some (false, none, some [0x31]) := by
  decide +kernel

end Failure

end CS162.Tpc.KVStore
