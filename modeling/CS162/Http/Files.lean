import CS162.Http.Request

/-!
# Which files the server opens

`handle_files_request` of `httpserver.c` up to the answer it chooses, and the paths that it,
`serve_file` and `serve_directory` then look up.
-/

namespace CS162.Http

open List

/-- What `stat` finds. -/
inductive FileKind where
  | regular
  | directory
  | other
  deriving DecidableEq

inductive Answer where
  | status (code : ℕ)
  | file (path : List UInt8)
  | directory (path : List UInt8)
  | silent
  deriving DecidableEq

def dotdot : List UInt8 :=
  [0x2e, 0x2e]

/-- `handle_files_request`.  A path that is neither a file nor a directory gets no answer. -/
def handleFilesRequest (stat : List UInt8 → Option FileKind) (bytes : List UInt8) :
    Option Answer :=
  (httpRequestParse bytes).map fun request =>
    match request with
    | none => .status 400
    | some request =>
      if request.path.head? ≠ some 0x2f then .status 400
      else if dotdot <:+: request.path then .status 403
      else
        let path := 0x2e :: 0x2f :: request.path
        match stat path with
        | none => .status 404
        | some .regular => .file path
        | some .directory => .directory path
        | some .other => .silent

/-- `"index.html"`. -/
def indexHtml : List UInt8 :=
  [0x69, 0x6e, 0x64, 0x65, 0x78, 0x2e, 0x68, 0x74, 0x6d, 0x6c]

/-- The paths that are opened.  `serve_directory` puts no slash in front of the name.  That a name
may not fit in `filepath[1024]`, and the links not in `filelist[10240]`, is left out. -/
def Answer.opened (entries : List (List UInt8)) : Answer → List (List UInt8)
  | file path => [path]
  | directory path => path :: if indexHtml ∈ entries then [path ++ indexHtml] else []
  | _ => []

/-- One component of a path, from a directory so many levels below the first one. -/
def climb (depth : ℕ) (component : List UInt8) : Option ℕ :=
  if component = [] ∨ component = [0x2e] then some depth
  else if component = dotdot then if depth = 0 then none else some (depth - 1)
  else some (depth + 1)

/-- The path does not leave the directory it starts in, at any component. -/
def Inside (path : List UInt8) : Prop :=
  ((path.splitOnP (· == 0x2f)).foldlM climb 0).isSome

instance (path : List UInt8) : Decidable (Inside path) :=
  inferInstanceAs (Decidable (_ = true))

variable {path : List UInt8} {cs : List (List UInt8)}

theorem splitOnP_infix {α : Type*} (p : α → Bool) (l : List α) :
    ∃ c cs, l.splitOnP p = c :: cs ∧ c <+: l ∧ ∀ c ∈ cs, c <:+: l := by
  induction l with
  | nil => exact ⟨[], [], splitOnP_nil .., prefix_rfl, by simp⟩
  | cons a l ih =>
    obtain ⟨c, cs, heq, hc, hcs⟩ := ih
    rw [splitOnP_cons_eq_if_modifyHead, heq]
    split_ifs
    · refine ⟨[], c :: cs, rfl, nil_prefix, fun d hd => ?_⟩
      rcases mem_cons.mp hd with rfl | hd
      · exact infix_cons hc.isInfix
      · exact infix_cons (hcs d hd)
    · exact ⟨a :: c, cs, rfl, cons_prefix_cons.mpr ⟨rfl, hc⟩, fun d hd => infix_cons (hcs d hd)⟩

theorem foldlM_climb (h : dotdot ∉ cs) (depth : ℕ) : (cs.foldlM climb depth).isSome := by
  induction cs generalizing depth with
  | nil => rfl
  | cons c cs ih =>
    obtain ⟨hc, hcs⟩ := not_or.mp (mem_cons.not.mp h)
    have hclimb : ∃ d, climb depth c = some d := by
      unfold climb
      split_ifs with h1 h2
      · exact ⟨_, rfl⟩
      · exact absurd h2.symm hc
      · exact absurd h2.symm hc
      · exact ⟨_, rfl⟩
    obtain ⟨d, hd⟩ := hclimb
    rw [foldlM_cons, hd]
    exact ih hcs d

/-- A string without two dots in a row. -/
def Plain (path : List UInt8) : Prop :=
  path.IsChain fun a b => ¬ (a = 0x2e ∧ b = 0x2e)

theorem plain_iff : Plain path ↔ ¬ dotdot <:+: path := by
  unfold Plain
  rw [isChain_iff_forall_rel_of_append_cons_cons]
  constructor
  · rintro h ⟨s, t, rfl⟩
    exact h (append_assoc s dotdot t) ⟨rfl, rfl⟩
  · rintro h a b s t rfl ⟨rfl, rfl⟩
    exact h ⟨s, t, append_assoc s dotdot t⟩

theorem Plain.inside (h : Plain path) : Inside path := by
  have hno := plain_iff.mp h
  obtain ⟨c, cs, heq, hc, hcs⟩ := splitOnP_infix (· == 0x2f) path
  rw [Inside, heq]
  refine foldlM_climb (fun hmem => ?_) 0
  rcases mem_cons.mp hmem with rfl | hmem
  · exact hno hc.isInfix
  · exact hno (hcs _ hmem)

theorem Plain.append {u v : List UInt8} (hu : Plain u) (hv : Plain v)
    (hne : u.getLast? ≠ some 0x2e ∨ v.head? ≠ some 0x2e) : Plain (u ++ v) := by
  refine isChain_append.mpr ⟨hu, hv, fun a ha b hb hab => ?_⟩
  rw [hab.1] at ha
  rw [hab.2] at hb
  exact hne.elim (absurd ha) (absurd hb)

/-- Whatever a client sends and whatever files there are, the server opens no path that
leaves its directory. -/
theorem handleFilesRequest_inside (stat : List UInt8 → Option FileKind) (bytes : List UInt8)
    (answer : Answer) (h : handleFilesRequest stat bytes = some answer)
    (entries : List (List UInt8)) (hpath : path ∈ answer.opened entries) : Inside path := by
  obtain ⟨request, -, rfl⟩ := Option.map_eq_some_iff.mp h
  cases request with
  | none => cases hpath
  | some q =>
    dsimp only at hpath
    split_ifs at hpath with hslash hno
    · cases hpath
    · cases hpath
    · have hplain : Plain (0x2e :: 0x2f :: q.path) :=
        Plain.append (u := [0x2e, 0x2f]) (plain_iff.mpr (by decide)) (plain_iff.mpr hno)
          (.inl (by decide))
      cases hstat : stat (0x2e :: 0x2f :: q.path) with
      | none =>
        rw [hstat] at hpath
        cases hpath
      | some kind =>
        rw [hstat] at hpath
        cases kind with
        | regular =>
          rw [mem_singleton.mp hpath]
          exact hplain.inside
        | directory =>
          rcases mem_cons.mp hpath with rfl | hpath
          · exact hplain.inside
          · rw [(mem_ite_nil_right.mp hpath |>.2 |> mem_singleton.mp)]
            exact (hplain.append (plain_iff.mpr (by decide)) (.inr (by decide))).inside
        | other => cases hpath

/-- `GET /a` for a directory with an `index.html`, which is looked for as `.//aindex.html`. -/
theorem handleFilesRequest_inside_directory :
    Inside (0x2e :: 0x2f :: 0x2f :: 0x61 :: indexHtml) :=
  handleFilesRequest_inside (fun _ => some .directory)
    [0x47, 0x45, 0x54, 0x20, 0x2f, 0x61, 0x0a] (.directory [0x2e, 0x2f, 0x2f, 0x61]) (by decide)
    [indexHtml] (by decide)

end CS162.Http
