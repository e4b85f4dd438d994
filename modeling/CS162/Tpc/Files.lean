import CS162.Tpc.Strings

/-!
# Paths and directories

What the key-value store uses of Go's `path` and of the operating system.  A directory is the
list of its entries in the order of their names, which is the order of `filepath.Walk`, and
there are no links.
-/

namespace CS162.Tpc

open List Option Split

def slash : UInt8 := 0x2f

def dot : Bytes := [0x2e]

def dotDot : Bytes := [0x2e, 0x2e]

def components (s : Bytes) : List Bytes :=
  split (· = slash) s

structure Path where
  rooted : Bool
  comps : List Bytes
  deriving DecidableEq

def Path.parse (s : Bytes) : Path where
  rooted := s.head? = some slash
  comps := components s

/-- The round of `path.Clean` for one component; `out` is what it has kept so far. -/
def cleanStep (rooted : Bool) (out : List Bytes) (c : Bytes) : List Bytes :=
  if c = dot then out
  else if c = dotDot then
    if out = [] ∨ out.getLast? = some dotDot then if rooted then out else out ++ [dotDot]
    else out.dropLast
  else out ++ [c]

def Path.clean (p : Path) : Path where
  rooted := p.rooted
  comps := p.comps.foldl (cleanStep p.rooted) []

/-- `path.Join` of two strings that are not empty. -/
def pathJoin (dir key : Bytes) : Path :=
  (Path.parse (dir ++ slash :: key)).clean

/-- Where a component leads to. -/
def enter (at_ : List Bytes) (c : Bytes) : List Bytes :=
  if c = dot then at_ else if c = dotDot then at_.dropLast else at_ ++ [c]

/-- Where a path leads to from the working directory. -/
def Path.resolve (cwd : List Bytes) (p : Path) : List Bytes :=
  p.comps.foldl enter (if p.rooted then [] else cwd)

/-- A directory: its entries in the order of their names. -/
inductive Dir where
  | nil
  | file (name contents : Bytes) (rest : Dir)
  | dir (name : Bytes) (sub rest : Dir)
  deriving DecidableEq

namespace Dir

/-- The files that `filepath.Walk` visits, with their names and contents. -/
def walk : Dir → List (Bytes × Bytes)
  | nil => []
  | file name contents rest => (name, contents) :: walk rest
  | dir _ sub rest => walk sub ++ walk rest

def find : List Bytes → Dir → Option Dir
  | [], d => some d
  | _ :: _, nil => none
  | n :: path, file name _ rest => if n = name then none else find (n :: path) rest
  | n :: path, dir name sub rest => if n = name then find path sub else find (n :: path) rest

/-- A change of the directory that a path leads to. -/
def update (f : Dir → Option Dir) : List Bytes → Dir → Option Dir
  | [], d => f d
  | _ :: _, nil => none
  | n :: path, file name old rest =>
    if n = name then none else (update f (n :: path) rest).map (file name old)
  | n :: path, dir name sub rest =>
    if n = name then (update f path sub).map fun sub => dir name sub rest
    else (update f (n :: path) rest).map (dir name sub)

/-- A file of a directory is made or truncated and written. -/
def put (n contents : Bytes) : Dir → Option Dir
  | nil => some (file n contents nil)
  | file name old rest =>
    if n = name then some (file n contents rest)
    else if n < name then some (file n contents (file name old rest))
    else (put n contents rest).map (file name old)
  | dir name sub rest =>
    if n = name then none
    else if n < name then some (file n contents (dir name sub rest))
    else (put n contents rest).map (dir name sub)

/-- `ioutil.WriteFile`: the directory has to be there, and the file must not be a directory. -/
def write (contents : Bytes) (path : List Bytes) (d : Dir) : Option Dir :=
  if (find path d).isSome then none
  else path.getLast?.bind fun n => update (put n contents) path.dropLast d

/-- A directory with nothing but the directories of a path. -/
def chain : List Bytes → Dir
  | [] => nil
  | n :: path => dir n (chain path) nil

/-- The directories of a path are made as far as they are not there. -/
def mkdirs : List Bytes → Dir → Option Dir
  | [], d => some d
  | n :: path, nil => some (dir n (chain path) nil)
  | n :: path, file name old rest =>
    if n = name then none
    else if n < name then some (dir n (chain path) (file name old rest))
    else (mkdirs (n :: path) rest).map (file name old)
  | n :: path, dir name sub rest =>
    if n = name then (mkdirs path sub).map fun sub => dir name sub rest
    else if n < name then some (dir n (chain path) (dir name sub rest))
    else (mkdirs (n :: path) rest).map (dir name sub)

def mkdirAll (path : List Bytes) (d : Dir) : Option Dir :=
  if (find path d).isSome then some d else mkdirs path d

/-- The entries that come after the place of a name. -/
def after (n : Bytes) : Dir → Dir
  | nil => nil
  | file name contents rest =>
    if n = name then rest else if n < name then file name contents rest else after n rest
  | dir name sub rest =>
    if n = name then rest else if n < name then dir name sub rest else after n rest

/-- No name has a slash. -/
def Named : Dir → Prop
  | nil => True
  | file name _ rest => slash ∉ name ∧ Named rest
  | dir name sub rest => slash ∉ name ∧ Named sub ∧ Named rest

def decidableNamed : (d : Dir) → Decidable (Named d)
  | nil => isTrue trivial
  | file _ _ rest =>
    have := decidableNamed rest
    inferInstanceAs (Decidable (_ ∧ _))
  | dir _ sub rest =>
    have := decidableNamed sub
    have := decidableNamed rest
    inferInstanceAs (Decidable (_ ∧ _ ∧ _))

instance (d : Dir) : Decidable (Named d) :=
  decidableNamed d

end Dir

/-- The last value that a list of names and values has for a name. -/
def lastOf (k : Bytes) : List (Bytes × Bytes) → Option Bytes
  | [] => none
  | (n, v) :: rest => (lastOf k rest).or (if n = k then some v else none)

theorem lastOf_append (k : Bytes) (xs ys : List (Bytes × Bytes)) :
    lastOf k (xs ++ ys) = (lastOf k ys).or (lastOf k xs) := by
  induction xs with
  | nil => simp [lastOf]
  | cons x xs ih =>
    obtain ⟨n, v⟩ := x
    rw [cons_append, lastOf, ih, lastOf, Option.or_assoc]

section Components

variable {s : Bytes}

theorem components_append_slash (s t : Bytes) :
    components (s ++ slash :: t) = components s ++ components t := by
  refine split_append_sep ?_ s t
  decide

theorem components_of_not_mem (hne : s ≠ []) (h : slash ∉ s) : components s = [s] :=
  split_of_forall hne fun _ hb => decide_eq_false fun heq => h (heq ▸ hb)

theorem slash_not_mem_of_mem_components {c : Bytes} (hc : c ∈ components s) : slash ∉ c := by
  intro hmem
  have hsep := not_of_mem_split hc hmem
  exact of_decide_eq_false hsep rfl

end Components

section Resolve

variable {cwd : List Bytes}

theorem enter_of_ne {at_ : List Bytes} {c : Bytes} (h : c ≠ dot) (h' : c ≠ dotDot) :
    enter at_ c = at_ ++ [c] := by
  rw [enter, if_neg h, if_neg h']

/-- What `path.Clean` has kept: no `.`, and no `..` in a path from the root. -/
def Cleaned (rooted : Bool) (out : List Bytes) : Prop :=
  dot ∉ out ∧ (rooted = true → dotDot ∉ out)

theorem Cleaned.cleanStep {rooted : Bool} {out : List Bytes} (h : Cleaned rooted out) (c : Bytes) :
    Cleaned rooted (cleanStep rooted out c) := by
  have hpush : ∀ x, x ≠ dot → (rooted = true → x ≠ dotDot) → Cleaned rooted (out ++ [x]) :=
    fun x hx hx' => ⟨by simp [h.1, hx.symm], fun hr => by simp [h.2 hr, (hx' hr).symm]⟩
  unfold Tpc.cleanStep
  split_ifs with hdot hdd hend hrooted
  · exact h
  · exact h
  · exact hpush dotDot (by decide) fun hr => absurd hr hrooted
  · exact ⟨fun hmem => h.1 (dropLast_subset _ hmem), fun hr hmem => h.2 hr (dropLast_subset _ hmem)⟩
  · exact hpush c hdot fun _ => hdd

theorem foldl_enter_cleanStep {rooted : Bool} {start out : List Bytes}
    (hstart : rooted = true → start = []) (h : Cleaned rooted out) (c : Bytes) :
    (cleanStep rooted out c).foldl enter start = enter (out.foldl enter start) c := by
  unfold cleanStep
  split_ifs with hdot hdd hend hrooted
  · rw [hdot, enter, if_pos rfl]
  · -- `..` at the root
    have hnil : out = [] := hend.resolve_right fun hlast =>
      h.2 hrooted (mem_of_getLast? hlast)
    rw [hnil, foldl_nil, hstart hrooted, hdd]
    rfl
  · rw [foldl_append, hdd]
    rfl
  · -- `..` after a name
    obtain ⟨hne, hlast⟩ := not_or.mp hend
    obtain ⟨pre, x, rfl⟩ := eq_nil_or_concat' out |>.resolve_left hne
    have hx : x ≠ dotDot := fun heq => hlast (by rw [heq, getLast?_concat])
    have hx' : x ≠ dot := fun heq => h.1 (by simp [heq])
    rw [dropLast_concat, foldl_append, foldl_cons, foldl_nil, enter_of_ne hx' hx, hdd]
    exact (dropLast_concat ..).symm
  · rw [foldl_append]
    rfl

theorem Path.resolve_clean (cwd : List Bytes) (p : Path) : p.clean.resolve cwd = p.resolve cwd := by
  have hfold : ∀ (cs : List Bytes) (out : List Bytes), Cleaned p.rooted out →
      (cs.foldl (cleanStep p.rooted) out).foldl enter (if p.rooted then [] else cwd) =
        cs.foldl enter (out.foldl enter (if p.rooted then [] else cwd)) := by
    intro cs
    induction cs with
    | nil => exact fun _ _ => rfl
    | cons c cs ih =>
      intro out h
      have hstart : p.rooted = true → (if p.rooted then [] else cwd) = [] := fun hr => if_pos hr
      rw [foldl_cons, ih _ (h.cleanStep c), foldl_enter_cleanStep hstart h]
      rfl
  exact hfold p.comps [] ⟨not_mem_nil, fun _ => not_mem_nil⟩

theorem resolve_pathJoin {dir : Bytes} (cwd : List Bytes) (hdir : dir ≠ []) (key : Bytes) :
    (pathJoin dir key).resolve cwd =
      (components key).foldl enter ((Path.parse dir).resolve cwd) := by
  have hhead : (dir ++ slash :: key).head? = dir.head? := by
    cases dir with
    | nil => exact absurd rfl hdir
    | cons b dir => rfl
  rw [pathJoin, Path.resolve_clean, Path.resolve, Path.parse, Path.resolve, Path.parse, hhead,
    components_append_slash, foldl_append]

end Resolve

theorem slash_not_mem_foldl_enter {at_ cs : List Bytes} (hat : ∀ n ∈ at_, slash ∉ n)
    (hcs : ∀ c ∈ cs, slash ∉ c) : ∀ n ∈ cs.foldl enter at_, slash ∉ n := by
  induction cs generalizing at_ with
  | nil => exact hat
  | cons c cs ih =>
    obtain ⟨hc, hcs⟩ := forall_mem_cons.mp hcs
    refine ih ?_ hcs
    unfold enter
    split_ifs
    · exact hat
    · exact fun n hn => hat n (dropLast_subset _ hn)
    · intro n hn
      rcases mem_append.mp hn with hn | hn
      · exact hat n hn
      · exact mem_singleton.mp hn ▸ hc

namespace Dir

section Find

variable {f : Dir → Option Dir} {contents n : Bytes} {path : List Bytes} {d d' e : Dir}

@[simp] theorem find_nil (d : Dir) : find [] d = some d := by
  cases d <;> rfl

theorem find_append (path path' : List Bytes) (d : Dir) :
    find (path ++ path') d = (find path d).bind (find path') := by
  fun_induction find path d with
  | case1 d => rfl
  | case2 => rfl
  | case3 => simp [find]
  | case4 n path name _ rest hne ih => simpa [find, hne] using ih
  | case5 path name sub rest ih => simpa [find] using ih
  | case6 n path name sub rest hne ih => simpa [find, hne] using ih

theorem find_dropLast (h : find path d = some e) : ∃ e', find path.dropLast d = some e' := by
  rcases eq_nil_or_concat' path with rfl | ⟨pre, n, rfl⟩
  · exact ⟨e, h⟩
  · rw [find_append] at h
    obtain ⟨e', he', -⟩ := bind_eq_some_iff.mp h
    exact ⟨e', by rwa [dropLast_concat]⟩

theorem update_eq_some (h : update f path d = some d') :
    ∃ e e', find path d = some e ∧ f e = some e' ∧ find path d' = some e' := by
  fun_induction update f path d generalizing d' with
  | case1 d => exact ⟨d, d', find_nil d, h, find_nil d'⟩
  | case2 => cases h
  | case3 => cases h
  | case4 n path name old rest hne ih =>
    obtain ⟨r, hr, rfl⟩ := map_eq_some_iff.mp h
    simpa [find, hne] using ih hr
  | case5 path name sub rest ih =>
    obtain ⟨r, hr, rfl⟩ := map_eq_some_iff.mp h
    simpa [find] using ih hr
  | case6 n path name sub rest hne ih =>
    obtain ⟨r, hr, rfl⟩ := map_eq_some_iff.mp h
    simpa [find, hne] using ih hr

theorem find_of_write (h : write contents path d = some d') : find path d = none := by
  unfold write at h
  split at h
  · cases h
  · next hfind => exact not_isSome_iff_eq_none.mp hfind

theorem write_eq_some (h : write contents (path ++ [n]) d = some d') :
    ∃ e e', find path d = some e ∧ put n contents e = some e' ∧ find path d' = some e' := by
  unfold write at h
  split at h
  · cases h
  · rw [getLast?_concat, dropLast_concat, bind_some] at h
    exact update_eq_some h

theorem mkdirAll_of_find (h : find path d = some e) : mkdirAll path d = some d := by
  rw [mkdirAll, h]
  rfl

end Find

section Names

variable {f : Dir → Option Dir} {contents n v : Bytes} {path : List Bytes} {d d' e : Dir}

theorem Named.walk (hd : d.Named) (h : (n, v) ∈ d.walk) : slash ∉ n := by
  induction d with
  | nil => exact absurd h not_mem_nil
  | file name contents rest ih =>
    rcases mem_cons.mp h with h | h
    · exact (Prod.mk.inj h).1 ▸ hd.1
    · exact ih hd.2 h
  | dir name sub rest ihs ihr =>
    rcases mem_append.mp h with h | h
    · exact ihs hd.2.1 h
    · exact ihr hd.2.2 h

theorem Named.find (hd : d.Named) (h : Dir.find path d = some e) : e.Named := by
  fun_induction Dir.find path d with
  | case1 d =>
    cases h
    exact hd
  | case2 => cases h
  | case3 => cases h
  | case4 n path name _ rest hne ih => exact ih hd.2 h
  | case5 path name sub rest ih => exact ih hd.2.1 h
  | case6 n path name sub rest hne ih => exact ih hd.2.2 h

theorem Named.put (hd : d.Named) (hn : slash ∉ n) (h : Dir.put n contents d = some d') :
    d'.Named := by
  fun_induction Dir.put n contents d generalizing d' with
  | case1 =>
    cases h
    exact ⟨hn, trivial⟩
  | case2 old rest =>
    cases h
    exact hd
  | case3 name old rest hne hlt =>
    cases h
    exact ⟨hn, hd⟩
  | case4 name old rest hne hlt ih =>
    obtain ⟨r, hr, rfl⟩ := map_eq_some_iff.mp h
    exact ⟨hd.1, ih hd.2 hr⟩
  | case5 => cases h
  | case6 name sub rest hne hlt =>
    cases h
    exact ⟨hn, hd⟩
  | case7 name sub rest hne hlt ih =>
    obtain ⟨r, hr, rfl⟩ := map_eq_some_iff.mp h
    exact ⟨hd.1, hd.2.1, ih hd.2.2 hr⟩

theorem Named.update (hd : d.Named) (hf : ∀ e e', e.Named → f e = some e' → e'.Named)
    (h : Dir.update f path d = some d') : d'.Named := by
  fun_induction Dir.update f path d generalizing d' with
  | case1 d => exact hf d d' hd h
  | case2 => cases h
  | case3 => cases h
  | case4 n path name old rest hne ih =>
    obtain ⟨r, hr, rfl⟩ := map_eq_some_iff.mp h
    exact ⟨hd.1, ih hd.2 hr⟩
  | case5 path name sub rest ih =>
    obtain ⟨r, hr, rfl⟩ := map_eq_some_iff.mp h
    exact ⟨hd.1, ih hd.2.1 hr, hd.2.2⟩
  | case6 n path name sub rest hne ih =>
    obtain ⟨r, hr, rfl⟩ := map_eq_some_iff.mp h
    exact ⟨hd.1, hd.2.1, ih hd.2.2 hr⟩

theorem Named.write (hd : d.Named) (hpath : ∀ n ∈ path, slash ∉ n)
    (hw : Dir.write contents path d = some d') : d'.Named := by
  unfold Dir.write at hw
  split at hw
  · cases hw
  · obtain ⟨n, hn, hw⟩ := bind_eq_some_iff.mp hw
    exact hd.update (fun e e' he hput => he.put (hpath n (mem_of_getLast? hn)) hput) hw

theorem named_chain (hpath : ∀ n ∈ path, slash ∉ n) : (chain path).Named := by
  induction path with
  | nil => trivial
  | cons n path ih =>
    obtain ⟨hn, hpath⟩ := forall_mem_cons.mp hpath
    exact ⟨hn, ih hpath, trivial⟩

theorem Named.mkdirs (hd : d.Named) (hpath : ∀ n ∈ path, slash ∉ n)
    (h : Dir.mkdirs path d = some d') : d'.Named := by
  fun_induction Dir.mkdirs path d generalizing d' with
  | case1 d =>
    cases h
    exact hd
  | case2 n path =>
    cases h
    obtain ⟨hn, hpath⟩ := forall_mem_cons.mp hpath
    exact ⟨hn, named_chain hpath, trivial⟩
  | case3 => cases h
  | case4 n path name old rest hne hlt =>
    cases h
    obtain ⟨hn, hpath⟩ := forall_mem_cons.mp hpath
    exact ⟨hn, named_chain hpath, hd⟩
  | case5 n path name old rest hne hlt ih =>
    obtain ⟨r, hr, rfl⟩ := map_eq_some_iff.mp h
    exact ⟨hd.1, ih hd.2 hpath hr⟩
  | case6 path name sub rest ih =>
    obtain ⟨r, hr, rfl⟩ := map_eq_some_iff.mp h
    exact ⟨hd.1, ih hd.2.1 (forall_mem_cons.mp hpath).2 hr, hd.2.2⟩
  | case7 n path name sub rest hne hlt =>
    cases h
    obtain ⟨hn, hpath⟩ := forall_mem_cons.mp hpath
    exact ⟨hn, named_chain hpath, hd⟩
  | case8 n path name sub rest hne hlt ih =>
    obtain ⟨r, hr, rfl⟩ := map_eq_some_iff.mp h
    exact ⟨hd.1, hd.2.1, ih hd.2.2 hpath hr⟩

theorem Named.mkdirAll (hd : d.Named) (hpath : ∀ n ∈ path, slash ∉ n)
    (h : Dir.mkdirAll path d = some d') : d'.Named := by
  unfold Dir.mkdirAll at h
  split at h
  · cases h
    exact hd
  · exact hd.mkdirs hpath h

end Names

section Walk

variable {k n v : Bytes} {d d' : Dir}

theorem lastOf_walk_put (h : put n v d = some d') :
    lastOf n d'.walk = (lastOf n (after n d).walk).or (some v) := by
  fun_induction put n v d generalizing d' with
  | case1 =>
    cases h
    simp [walk, after, lastOf]
  | case2 old rest =>
    cases h
    simp [walk, after, lastOf]
  | case3 name old rest hne hlt =>
    cases h
    simp [walk, after, lastOf, hne, hlt]
  | case4 name old rest hne hlt ih =>
    obtain ⟨r, hr, rfl⟩ := map_eq_some_iff.mp h
    simp [walk, after, lastOf, hne, hlt, Ne.symm hne, ih hr]
  | case5 => cases h
  | case6 name sub rest hne hlt =>
    cases h
    simp [walk, after, lastOf, hne, hlt]
  | case7 name sub rest hne hlt ih =>
    obtain ⟨r, hr, rfl⟩ := map_eq_some_iff.mp h
    simp [walk, after, lastOf_append, hne, hlt, ih hr]

theorem lastOf_walk_put_of_ne (hne : k ≠ n) (h : put n v d = some d') :
    lastOf k d'.walk = lastOf k d.walk := by
  fun_induction put n v d generalizing d' with
  | case1 =>
    cases h
    simp [walk, lastOf, hne.symm]
  | case2 old rest =>
    cases h
    simp [walk, lastOf, hne.symm]
  | case3 name old rest hne' hlt =>
    cases h
    simp [walk, lastOf, hne.symm]
  | case4 name old rest hne' hlt ih =>
    obtain ⟨r, hr, rfl⟩ := map_eq_some_iff.mp h
    simp [walk, lastOf, ih hr]
  | case5 => cases h
  | case6 name sub rest hne' hlt =>
    cases h
    simp [walk, lastOf, hne.symm]
  | case7 name sub rest hne' hlt ih =>
    obtain ⟨r, hr, rfl⟩ := map_eq_some_iff.mp h
    simp [walk, lastOf_append, ih hr]

theorem lastOf_after_put (h : put n v d = some d') :
    lastOf k (after k d').walk = lastOf k (after k d).walk := by
  fun_induction put n v d generalizing d' with
  | case1 =>
    cases h
    by_cases hk : k = n
    · simp [after, hk]
    · by_cases hlt : k < n <;> simp [after, walk, lastOf, hk, hlt, Ne.symm hk]
  | case2 old rest =>
    cases h
    by_cases hk : k = n
    · simp [after, hk]
    · by_cases hlt : k < n <;> simp [after, walk, lastOf, hk, hlt, Ne.symm hk]
  | case3 name old rest hne hlt =>
    cases h
    by_cases hk : k = n
    · simp [after, hk, hne, hlt]
    · by_cases hlt' : k < n
      · have hname : k ≠ name := fun heq => List.lt_asymm hlt (heq ▸ hlt')
        simp [after, walk, lastOf, hk, hlt', Ne.symm hk, hname, List.lt_trans hlt' hlt]
      · simp [after, hk, hlt']
  | case4 name old rest hne hlt ih =>
    obtain ⟨r, hr, rfl⟩ := map_eq_some_iff.mp h
    by_cases hk : k = name
    · simp [after, hk, lastOf_walk_put_of_ne (Ne.symm hne) hr]
    · by_cases hlt' : k < name
      · have hkn : k ≠ n := fun heq => hlt (heq ▸ hlt')
        simp [after, walk, lastOf, hk, hlt', lastOf_walk_put_of_ne hkn hr]
      · simp [after, hk, hlt', ih hr]
  | case5 => cases h
  | case6 name sub rest hne hlt =>
    cases h
    by_cases hk : k = n
    · simp [after, hk, hne, hlt]
    · by_cases hlt' : k < n
      · have hname : k ≠ name := fun heq => List.lt_asymm hlt (heq ▸ hlt')
        simp [after, walk, lastOf, hk, hlt', Ne.symm hk, hname, List.lt_trans hlt' hlt]
      · simp [after, hk, hlt']
  | case7 name sub rest hne hlt ih =>
    obtain ⟨r, hr, rfl⟩ := map_eq_some_iff.mp h
    by_cases hk : k = name
    · simp [after, hk, lastOf_walk_put_of_ne (Ne.symm hne) hr]
    · by_cases hlt' : k < name
      · have hkn : k ≠ n := fun heq => hlt (heq ▸ hlt')
        simp [after, walk, lastOf_append, hk, hlt', lastOf_walk_put_of_ne hkn hr]
      · simp [after, hk, hlt', ih hr]

end Walk

end Dir

end CS162.Tpc
