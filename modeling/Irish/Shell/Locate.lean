import Irish.Library.PathWalk
import Irish.Shell.Frecency

/-!
# Finding commands

`executor_resolve_path` of `src/executor.c`, which finds the file that is run for a name, and
`locate_builtin` of `src/locate.c`, which prints the files that may be meant. Both look in the
working directory and then in the directories of `PATH`, with paths that are put together in
different ways: `locate` makes those of relative directories absolute by the path that `getcwd`
reports.

The two searches take the same places in the same order, with a path of their own for each
(`places`). The first file that `locate` prints is the one that is run exactly if both paths of the
first place at which one of them is executable lead to the same file (`Settled`, `predicts_iff`),
with one exception: a directory of `PATH` that is named once more behind it, by its absolute path.
If the path that `getcwd` reports leads to the working directory, or if `PATH` has no relative
directory, this is so (`settled_of_leads`). `getcwd` reports a path even if the process may not
search a directory on the way; then a file in a relative directory of `PATH` is run, and `locate`
does not find it (`runs_unlocated`).

What the process finds under a path is a `FileTree`. The two `is_executable` are one function.
Allocation succeeds.
-/

set_option autoImplicit false

namespace Irish.Shell

open Library

/-! ### The two searches -/

/-- What the searches read: the files with the result of `access(path, X_OK)`, the working directory
and its path, and the value of `PATH`. -/
structure SearchSystem (N : Type*) where
  files : FileTree N
  executable : N → Bool
  cwd : N
  getcwd : Option (CString (pathMax - 1))
  pathEnv : Option (List Byte)

/-- The tokens that repeated calls of `strtok_r` return. -/
def strtokAll (delim : Byte) (s : List Byte) : List (List Byte) :=
  (s.splitOnP (· = delim)).filter (· ≠ [])

def joinPath (dir name : List Byte) : List Byte :=
  if dir.getLast? = some 47 then dir ++ name else dir ++ 47 :: name

/-- `snprintf(candidate, sizeof(candidate), ...)` in `locate_builtin`. -/
def intoCandidate (text : List Byte) : List Byte := text.take (pathMax * 2 - 1)

/-- The path that `locate_builtin` makes for a directory of `PATH`. -/
def locateJoin (cwd dir name : List Byte) : List Byte :=
  if dir.head? = some 47 then dir ++ 47 :: name else cwd ++ 47 :: (dir ++ 47 :: name)

namespace SearchSystem

variable {N : Type*} (sys : SearchSystem N)

/-- The directories of `PATH`. -/
def dirs : List (List Byte) := sys.pathEnv.elim [] (strtokAll 58)

/-- `is_executable`. -/
def isExecutable (path : List Byte) : Bool :=
  if pathMax ≤ path.length then false
  else match sys.files.resolve sys.cwd path with
    | none => false
    | some n => !sys.files.isDir n && sys.executable n

/-- The loop of `executor_resolve_path` over the directories of `PATH`. -/
def searchPath (name : List Byte) : Option (List Byte) :=
  (sys.dirs.map (joinPath · name)).find? sys.isExecutable

def executorResolvePath (name : List Byte) : Option (List Byte) :=
  if name.head? = some 37 then sys.searchPath name.tail
  else if 47 ∈ name then if sys.isExecutable name then some name else none
  else
    match sys.getcwd with
    | none => sys.searchPath name
    | some cwd =>
      if sys.isExecutable (joinPath cwd.text name) then some (joinPath cwd.text name)
      else sys.searchPath name

/-- The texts of the candidates of `locate_builtin` for one argument. -/
def candidates (cwd name : List Byte) : List (List Byte) :=
  (cwd ++ 47 :: name) :: sys.dirs.map (locateJoin cwd · name)

/-- The paths that `locate_builtin` prints for one argument. -/
def locatePaths (cwd name : List Byte) : List (List Byte) :=
  ((sys.candidates cwd name).map intoCandidate).filter sys.isExecutable

/-- What `locate_builtin` prints for one argument. -/
def locateArg (cwd name : List Byte) : List Byte :=
  if sys.locatePaths cwd name = [] then
    literal "locate: command not found (" ++ name ++ literal ")\n"
  else (sys.locatePaths cwd name).flatMap (· ++ [Byte.newline])

/-- `locate_builtin`, for the arguments behind the name of the command: the value returned and what
is printed. -/
def locateBuiltin (args : List (List Byte)) : ℤ × List Byte :=
  if args = [] then (1, literal "locate: invalid syntax\n")
  else match sys.getcwd with
    | none => (1, [])
    | some cwd => (0, args.flatMap (sys.locateArg cwd.text))

/-! ### What `locate` predicts -/

/-- The places that are searched: the working directory and the directories of `PATH`, with the path
that each of the two searches makes for it. -/
def places (cwd name : List Byte) : List (List Byte × List Byte) :=
  (joinPath cwd name, cwd ++ 47 :: name) ::
    sys.dirs.map fun dir ↦ (joinPath dir name, locateJoin cwd dir name)

/-- What has to hold of the first place with an executable path. The path that `locate` makes is
executable, and the other one leads to the same file; or the other one is not executable, and the
first one that is has the text of the path that `locate` makes. -/
structure Settles (cwd name p q : List Byte) : Prop where
  located : sys.isExecutable q = true
  same : sys.isExecutable p = true → sys.files.resolve sys.cwd p = sys.files.resolve sys.cwd q
  twin : sys.isExecutable p = false →
    ∃ pq, (sys.places cwd name).find? (sys.isExecutable ·.1) = some pq ∧ collapse pq.1 = collapse q

/-- The first place at which one of the two paths is executable settles both searches. -/
def Settled (cwd name : List Byte) : Prop :=
  ∀ p q, (sys.places cwd name).find? (fun pq ↦ sys.isExecutable pq.1 || sys.isExecutable pq.2) =
    some (p, q) → sys.Settles cwd name p q

/-- `locate` prints a path if and only if a file is run for the name, and the first path it prints
is that of this file. -/
structure Predicts (cwd name : List Byte) : Prop where
  found_iff : sys.locatePaths cwd name ≠ [] ↔ sys.executorResolvePath name ≠ none
  text : ∀ p r, (sys.locatePaths cwd name).head? = some p → sys.executorResolvePath name = some r →
    collapse (absolute cwd r) = collapse p
  file : ∀ p r, (sys.locatePaths cwd name).head? = some p → sys.executorResolvePath name = some r →
    sys.files.resolve sys.cwd r = sys.files.resolve sys.cwd p

end SearchSystem

/-! ### The two ways to join -/

variable {delim : Byte} {s token dir : List Byte} {α : Type*} {test weaker : α → Bool} {l : List α}
  {x : α}

theorem mem_strtokAll (h : token ∈ strtokAll delim s) : token ≠ [] := by
  simpa using (List.mem_filter.mp h).2

theorem head?_joinPath (hdir : dir ≠ []) (name : List Byte) :
    (joinPath dir name).head? = dir.head? := by
  obtain ⟨c, rest, rfl⟩ := List.exists_cons_of_ne_nil hdir
  unfold joinPath
  split_ifs <;> rfl

/-- `join_path` leaves out the slash that would be the second one. -/
theorem collapse_joinPath (front dir name : List Byte) :
    collapse (front ++ joinPath dir name) = collapse (front ++ (dir ++ 47 :: name)) := by
  unfold joinPath
  split_ifs with hlast
  · obtain ⟨init, rfl⟩ := List.getLast?_eq_some_iff.mp hlast
    simp only [List.append_assoc, List.singleton_append]
    rw [← List.append_assoc, ← List.append_assoc, collapse_append_slash_slash]
  · rfl

theorem length_joinPath_le (dir name : List Byte) :
    (joinPath dir name).length ≤ (dir ++ 47 :: name).length := by
  unfold joinPath
  split_ifs
  · simp only [List.length_append, List.length_cons]
    omega
  · exact le_rfl

section Joins

variable {N : Type*} {sys : SearchSystem N} {cwd name p q : List Byte}

/-- The paths that the two searches make for a place: they have the same text up to slashes and the
path of the working directory. -/
structure SamePlace (cwd p q : List Byte) : Prop where
  text : collapse (absolute cwd p) = collapse q
  nonempty : p ≠ []
  length_le : p.length ≤ q.length
  short : q.length < pathMax

theorem isExecutable_congr (hfile : sys.files.resolve sys.cwd p = sys.files.resolve sys.cwd q)
    (hp : p.length < pathMax) (hq : q.length < pathMax) :
    sys.isExecutable p = sys.isExecutable q := by
  rw [SearchSystem.isExecutable, SearchSystem.isExecutable, hfile, if_neg (by omega),
    if_neg (by omega)]

/-- The path of the working directory has to lead there for a relative path only. -/
theorem SamePlace.file (hcwd : cwd.head? = some 47) {p q : List Byte} (h : SamePlace cwd p q)
    (hleads : p.head? = some 47 ∨ sys.files.resolve sys.cwd cwd = some sys.cwd) :
    sys.files.resolve sys.cwd p = sys.files.resolve sys.cwd q := by
  have habsolute : sys.files.resolve sys.cwd (absolute cwd p) = sys.files.resolve sys.cwd p := by
    rcases hleads with hslash | hleads
    · rw [absolute, if_pos hslash]
    · exact sys.files.resolve_absolute hcwd hleads h.nonempty
  rw [← habsolute, sys.files.resolve_congr h.text]

/-- The paths for the working directory. -/
theorem samePlace_cwd (hcwd : cwd.head? = some 47) (hshort : (cwd ++ 47 :: name).length < pathMax) :
    SamePlace cwd (joinPath cwd name) (cwd ++ 47 :: name) := by
  have hne : cwd ≠ [] := by
    rintro rfl
    cases hcwd
  have hhead : (joinPath cwd name).head? = some 47 := (head?_joinPath hne name).trans hcwd
  refine ⟨?_, ?_, length_joinPath_le _ _, hshort⟩
  · rw [absolute, if_pos hhead]
    exact collapse_joinPath [] cwd name
  · intro hnil
    rw [hnil] at hhead
    cases hhead

/-- The paths for a directory of `PATH`. -/
theorem samePlace_dir (hdir : dir ≠ []) (hshort : (locateJoin cwd dir name).length < pathMax) :
    SamePlace cwd (joinPath dir name) (locateJoin cwd dir name) := by
  have hhead := head?_joinPath hdir name
  refine ⟨?_, ?_, ?_, hshort⟩
  · rw [absolute, hhead, locateJoin]
    split_ifs
    · exact collapse_joinPath [] dir name
    · have hfront := collapse_joinPath (cwd ++ [47]) dir name
      rwa [List.append_assoc, List.append_assoc, List.singleton_append, List.singleton_append]
        at hfront
  · intro hnil
    rw [hnil] at hhead
    exact hdir (List.head?_eq_none_iff.mp hhead.symm)
  · have hlength := length_joinPath_le dir name
    rw [locateJoin]
    split_ifs
    · exact hlength
    · simp only [List.length_append, List.length_cons] at hlength ⊢
      omega

/-! ### The first file found -/

theorem executorResolvePath_eq {cwd : CString (pathMax - 1)} (hgetcwd : sys.getcwd = some cwd)
    (hslash : 47 ∉ name) (hpercent : name.head? ≠ some 37) :
    sys.executorResolvePath name =
      ((sys.places cwd.text name).find? (sys.isExecutable ·.1)).map Prod.fst := by
  have hdirs : (sys.dirs.map fun dir ↦ (joinPath dir name, locateJoin cwd.text dir name)).map
      Prod.fst = sys.dirs.map (joinPath · name) := by
    rw [List.map_map]
    rfl
  have hfind : ((sys.places cwd.text name).find? (sys.isExecutable ·.1)).map Prod.fst =
      ((sys.places cwd.text name).map Prod.fst).find? sys.isExecutable := by
    rw [List.find?_map]
    rfl
  rw [hfind, SearchSystem.executorResolvePath, if_neg hpercent, if_neg hslash, hgetcwd,
    SearchSystem.places, List.map_cons, hdirs, List.find?_cons, SearchSystem.searchPath]
  cases htest : sys.isExecutable (joinPath cwd.text name) <;> simp [htest]

theorem head?_locatePaths (hshort : ∀ p ∈ sys.candidates cwd name, p.length < pathMax) :
    (sys.locatePaths cwd name).head? =
      ((sys.places cwd name).find? (sys.isExecutable ·.2)).map Prod.snd := by
  have hfits : (sys.candidates cwd name).map intoCandidate = sys.candidates cwd name := by
    conv_rhs => rw [← List.map_id (sys.candidates cwd name)]
    refine List.map_congr_left fun p hp ↦ List.take_of_length_le ?_
    have hlt := hshort p hp
    omega
  have hsnd : (sys.places cwd name).map Prod.snd = sys.candidates cwd name := by
    simp only [SearchSystem.places, SearchSystem.candidates, List.map_cons, List.map_map]
    rfl
  rw [SearchSystem.locatePaths, hfits, List.head?_filter, ← hsnd, List.find?_map]
  rfl

theorem samePlace_of_mem (hcwd : cwd.head? = some 47)
    (hshort : ∀ p ∈ sys.candidates cwd name, p.length < pathMax) :
    ∀ pq ∈ sys.places cwd name, SamePlace cwd pq.1 pq.2 := by
  rw [SearchSystem.candidates, List.forall_mem_cons, List.forall_mem_map] at hshort
  rw [SearchSystem.places, List.forall_mem_cons, List.forall_mem_map]
  refine ⟨samePlace_cwd hcwd hshort.1, fun dir hdir ↦ samePlace_dir ?_ (hshort.2 dir hdir)⟩
  unfold SearchSystem.dirs at hdir
  cases hpath : sys.pathEnv with
  | none =>
    rw [hpath] at hdir
    cases hdir
  | some =>
    rw [hpath] at hdir
    exact mem_strtokAll hdir

/-- A path that leads to the working directory settles every search, and so does a `PATH` without
relative directories. -/
theorem settled_of_leads (hcwd : cwd.head? = some 47)
    (hshort : ∀ p ∈ sys.candidates cwd name, p.length < pathMax)
    (hleads : (∀ dir ∈ sys.dirs, dir.head? = some 47) ∨
      sys.files.resolve sys.cwd cwd = some sys.cwd) : sys.Settled cwd name := by
  intro p q hfirst
  have hmem := List.mem_of_find?_eq_some hfirst
  have hplace := samePlace_of_mem hcwd hshort _ hmem
  have hfile : sys.files.resolve sys.cwd p = sys.files.resolve sys.cwd q := by
    refine hplace.file hcwd (hleads.imp_left fun hdirs ↦ ?_)
    rcases List.mem_cons.mp hmem with heq | hmem
    · obtain ⟨rfl, -⟩ := Prod.mk.inj heq
      exact (head?_joinPath (by rintro rfl; cases hcwd) name).trans hcwd
    · obtain ⟨dir, hdir, heq⟩ := List.mem_map.mp hmem
      obtain ⟨rfl, -⟩ := Prod.mk.inj heq
      exact (head?_joinPath (by rintro rfl; cases hdirs _ hdir) name).trans (hdirs dir hdir)
  have htests := isExecutable_congr hfile (hplace.length_le.trans_lt hplace.short) hplace.short
  have heither := List.find?_some hfirst
  rw [htests, Bool.or_self] at heither
  refine ⟨heither, fun _ ↦ hfile, fun hno ↦ ?_⟩
  rw [htests, heither] at hno
  cases hno

end Joins

/-- A search ends where a search with a weaker test does, if the test holds there. -/
theorem find?_of_weaker (hweaker : ∀ y, test y = true → weaker y = true)
    (h : l.find? weaker = some x) (hx : test x = true) : l.find? test = some x := by
  obtain ⟨-, before, after, hl, hbefore⟩ := List.find?_eq_some_iff_append.mp h
  refine List.find?_eq_some_iff_append.mpr ⟨hx, before, after, hl, fun y hy ↦ ?_⟩
  have hnot := hbefore y hy
  cases htest : test y with
  | false => rfl
  | true => simp [hweaker y htest] at hnot

section Prediction

variable {N : Type*} {sys : SearchSystem N} {cwd name p q r : List Byte}
  {run shown : Option (List Byte × List Byte)}

/-- The place that is run and the first one that is shown have the same text and the same file. -/
structure Agrees (sys : SearchSystem N) (cwd : List Byte)
    (run shown : Option (List Byte × List Byte)) : Prop where
  found_iff : shown = none ↔ run = none
  same : ∀ r pq, run = some r → shown = some pq → collapse (absolute cwd r.1) = collapse pq.2 ∧
    sys.files.resolve sys.cwd r.1 = sys.files.resolve sys.cwd pq.2

/-- The prediction in terms of the places that the two searches find. -/
theorem predicts_iff_agrees (hrun : sys.executorResolvePath name = run.map Prod.fst)
    (hshown : (sys.locatePaths cwd name).head? = shown.map Prod.snd) :
    sys.Predicts cwd name ↔ Agrees sys cwd run shown := by
  have hnone : (sys.locatePaths cwd name ≠ [] ↔ sys.executorResolvePath name ≠ none) ↔
      (shown = none ↔ run = none) := by
    rw [ne_eq, ne_eq, not_iff_not, ← List.head?_eq_none_iff, hshown, hrun,
      Option.map_eq_none_iff, Option.map_eq_none_iff]
  constructor
  · intro hpredicts
    refine ⟨hnone.mp hpredicts.found_iff, fun r pq hr hpq ↦ ?_⟩
    rw [hpq, Option.map_some] at hshown
    rw [hr, Option.map_some] at hrun
    exact ⟨hpredicts.text _ _ hshown hrun, hpredicts.file _ _ hshown hrun⟩
  · intro hagrees
    have hboth (p r) (hp : (sys.locatePaths cwd name).head? = some p)
        (hr : sys.executorResolvePath name = some r) :
        collapse (absolute cwd r) = collapse p ∧
          sys.files.resolve sys.cwd r = sys.files.resolve sys.cwd p := by
      rw [hshown, Option.map_eq_some_iff] at hp
      rw [hrun, Option.map_eq_some_iff] at hr
      obtain ⟨pq, hpq, rfl⟩ := hp
      obtain ⟨r, hr, rfl⟩ := hr
      exact hagrees.same r pq hr hpq
    exact ⟨hnone.mpr hagrees.found_iff, fun p r hp hr ↦ (hboth p r hp hr).1,
      fun p r hp hr ↦ (hboth p r hp hr).2⟩

/-- `locate` does not find the file that is run, and no other one has its text. -/
theorem not_agrees (hpq : SamePlace cwd p q) (hq : sys.isExecutable q = false)
    (hshown : ∀ pq, shown = some pq → sys.isExecutable pq.2 = true ∧ pq.2.length < pathMax) :
    ¬ Agrees sys cwd (some (p, q)) shown := by
  intro h
  cases shown with
  | none => exact Option.some_ne_none _ (h.found_iff.mp rfl)
  | some pq =>
    obtain ⟨hexecutable, hlength⟩ := hshown pq rfl
    have htext := (h.same _ _ rfl rfl).1
    rw [hpq.text] at htext
    rw [← isExecutable_congr (sys.files.resolve_congr htext sys.cwd) hpq.short hlength, hq]
      at hexecutable
    cases hexecutable

theorem agrees_self_iff (hpq : SamePlace cwd p q) :
    Agrees sys cwd (some (p, q)) (some (p, q)) ↔
      sys.files.resolve sys.cwd p = sys.files.resolve sys.cwd q := by
  refine ⟨fun h ↦ (h.same _ _ rfl rfl).2, fun hfile ↦ ⟨by simp, ?_⟩⟩
  rintro _ _ ⟨⟩ ⟨⟩
  exact ⟨hpq.text, hfile⟩

/-- Where only the path of a place that `locate` makes is executable, a file with its text is run
under an absolute path. -/
theorem collapse_eq_of_unequal (hcwd : cwd.head? = some 47) (hpq : SamePlace cwd p q)
    (hp : sys.isExecutable p = false) (hq : sys.isExecutable q = true)
    (hr : sys.isExecutable r = true) (hshort : r.length < pathMax)
    (htext : collapse (absolute cwd r) = collapse q) : collapse r = collapse q := by
  have hlt := hpq.length_le.trans_lt hpq.short
  by_cases hslash : r.head? = some 47
  · rwa [absolute, if_pos hslash] at htext
  · have hrelative : p.head? ≠ some 47 := by
      intro habsolute
      have hfile : sys.files.resolve sys.cwd p = sys.files.resolve sys.cwd q :=
        hpq.file hcwd (.inl habsolute)
      rw [isExecutable_congr hfile hlt hpq.short, hq] at hp
      cases hp
    rw [← hpq.text, absolute, if_neg hslash, absolute, if_neg hrelative,
      collapse_append_slash cwd hslash, collapse_append_slash cwd hrelative] at htext
    have hfile := sys.files.resolve_congr (List.append_cancel_left htext) sys.cwd
    rw [isExecutable_congr hfile hshort hlt, hp] at hr
    cases hr

theorem agrees_iff_twin (hcwd : cwd.head? = some 47) (hpq : SamePlace cwd p q)
    (hp : sys.isExecutable p = false) (hq : sys.isExecutable q = true)
    (hrun : ∀ r, run = some r → sys.isExecutable r.1 = true ∧ r.1.length < pathMax) :
    Agrees sys cwd run (some (p, q)) ↔ ∃ r, run = some r ∧ collapse r.1 = collapse q := by
  constructor
  · intro h
    cases run with
    | none => exact absurd (h.found_iff.mpr rfl) (Option.some_ne_none _)
    | some r =>
      obtain ⟨hexecutable, hlength⟩ := hrun r rfl
      have htext := (h.same _ _ rfl rfl).1
      exact ⟨r, rfl, collapse_eq_of_unequal hcwd hpq hp hq hexecutable hlength htext⟩
  · rintro ⟨r, rfl, htext⟩
    have hhead : r.1.head? = some 47 := by
      rw [← head?_collapse, htext, ← hpq.text, head?_collapse, head?_absolute hcwd]
    refine ⟨by simp, ?_⟩
    rintro _ _ ⟨⟩ ⟨⟩
    rw [absolute, if_pos hhead]
    exact ⟨htext, sys.files.resolve_congr htext sys.cwd⟩

/-- `locate` predicts what is run exactly if the first place with an executable path settles both
searches. -/
theorem predicts_iff {cwd : CString (pathMax - 1)} (hgetcwd : sys.getcwd = some cwd)
    (hcwd : cwd.text.head? = some 47) (hslash : 47 ∉ name) (hpercent : name.head? ≠ some 37)
    (hshort : ∀ p ∈ sys.candidates cwd.text name, p.length < 4096) :
    sys.Predicts cwd.text name ↔ sys.Settled cwd.text name := by
  rw [predicts_iff_agrees (executorResolvePath_eq hgetcwd hslash hpercent)
    (head?_locatePaths hshort)]
  have hplace := samePlace_of_mem hcwd hshort
  have hrun (r) (hr : (sys.places cwd.text name).find? (sys.isExecutable ·.1) = some r) :
      sys.isExecutable r.1 = true ∧ r.1.length < pathMax := by
    have hr' := hplace r (List.mem_of_find?_eq_some hr)
    have htest := List.find?_some hr
    exact ⟨htest, hr'.length_le.trans_lt hr'.short⟩
  have hshown (pq) (hpq : (sys.places cwd.text name).find? (sys.isExecutable ·.2) = some pq) :
      sys.isExecutable pq.2 = true ∧ pq.2.length < pathMax := by
    have htest := List.find?_some hpq
    exact ⟨htest, (hplace pq (List.mem_of_find?_eq_some hpq)).short⟩
  cases hfirst : (sys.places cwd.text name).find?
      fun pq ↦ sys.isExecutable pq.1 || sys.isExecutable pq.2 with
  | none =>
    have hnone : ∀ pq ∈ sys.places cwd.text name,
        sys.isExecutable pq.1 = false ∧ sys.isExecutable pq.2 = false := by
      simpa using hfirst
    have hunshown : (sys.places cwd.text name).find? (sys.isExecutable ·.2) = none :=
      List.find?_eq_none.mpr fun pq hpq ↦ by simp [(hnone pq hpq).2]
    have hunrun : (sys.places cwd.text name).find? (sys.isExecutable ·.1) = none :=
      List.find?_eq_none.mpr fun pq hpq ↦ by simp [(hnone pq hpq).1]
    rw [hunshown, hunrun]
    refine iff_of_true ⟨Iff.rfl, nofun⟩ fun p q hpq ↦ ?_
    cases hfirst.symm.trans hpq
  | some pq =>
    obtain ⟨p, q⟩ := pq
    have hpq := hplace _ (List.mem_of_find?_eq_some hfirst)
    have hsettled : sys.Settled cwd.text name ↔ sys.Settles cwd.text name p q := by
      refine ⟨fun h ↦ h p q hfirst, fun h p' q' hfirst' ↦ ?_⟩
      obtain ⟨rfl, rfl⟩ := Prod.mk.inj (Option.some.inj (hfirst.symm.trans hfirst'))
      exact h
    have hrunFirst (hp : sys.isExecutable p = true) :
        (sys.places cwd.text name).find? (sys.isExecutable ·.1) = some (p, q) :=
      find?_of_weaker (by simp +contextual) hfirst hp
    have hshownFirst (hq : sys.isExecutable q = true) :
        (sys.places cwd.text name).find? (sys.isExecutable ·.2) = some (p, q) :=
      find?_of_weaker (by simp +contextual) hfirst hq
    rw [hsettled]
    cases hq : sys.isExecutable q with
    | false =>
      have hp : sys.isExecutable p = true := by simpa [hq] using List.find?_some hfirst
      rw [hrunFirst hp]
      refine iff_of_false (not_agrees hpq hq hshown) fun h ↦ ?_
      exact Bool.false_ne_true (hq.symm.trans h.located)
    | true =>
      rw [hshownFirst hq]
      cases hp : sys.isExecutable p with
      | true =>
        rw [hrunFirst hp, agrees_self_iff hpq]
        refine ⟨fun hfile ↦ ⟨hq, fun _ ↦ hfile, fun hno ↦ ?_⟩, fun h ↦ h.same hp⟩
        exact absurd (hp.symm.trans hno) Bool.true_eq_false.mp
      | false =>
        rw [agrees_iff_twin hcwd hpq hp hq hrun]
        refine ⟨fun htwin ↦ ⟨hq, fun hyes ↦ ?_, fun _ ↦ htwin⟩, fun h ↦ h.twin hp⟩
        exact absurd (hyes.symm.trans hp) Bool.true_eq_false.mp

end Prediction

/-! ### A directory that may not be searched -/

/-- `/a/b/bin/foo`. -/
inductive FooNode
  | root | a | b | bin | foo
deriving DecidableEq

/-- The tree of `/a/b/bin/foo`; `searchable` says whether the process may search `/a`. -/
def fooTree (searchable : Bool) : FileTree FooNode where
  root := .root
  isDir n := n ≠ .foo
  lookup
    | .root, name => if name = literal "a" then some .a else none
    | .a, name => if searchable ∧ name = literal "b" then some .b else none
    | .b, name => if name = literal "bin" then some .bin else none
    | .bin, name => if name = literal "foo" then some .foo else none
    | .foo, _ => none
  isDir_root := rfl
  isDir_of_lookup n name m h := by
    cases n with
    | foo => cases h
    | root | a | b | bin => rfl

/-- The working directory is `/a/b`, and `PATH` is `bin/:/bin`. -/
def fooSystem (searchable : Bool) : SearchSystem FooNode where
  files := fooTree searchable
  executable n := n = .foo
  cwd := .b
  getcwd := some (CString.ofBytes _ (literal "/a/b"))
  pathEnv := some (literal "bin/:/bin")

theorem predicts_foo :
    (fooSystem true).Predicts (literal "/a/b") (literal "foo") ∧
      (fooSystem true).executorResolvePath (literal "foo") = some (literal "bin/foo") ∧
      (fooSystem true).locateBuiltin [literal "foo"] = (0, literal "/a/b/bin//foo\n") := by
  refine ⟨?_, by decide +kernel, by decide +kernel⟩
  have hcwd : (CString.ofBytes (pathMax - 1) (literal "/a/b")).text = literal "/a/b" := by
    decide +kernel
  have hshort : ∀ p ∈ (fooSystem true).candidates (literal "/a/b") (literal "foo"),
      p.length < 4096 := by decide +kernel
  have hleads : (fooSystem true).files.resolve (fooSystem true).cwd (literal "/a/b") =
      some (fooSystem true).cwd := by decide +kernel
  have hpredicts := @predicts_iff _ (fooSystem true) (literal "foo")
    (CString.ofBytes _ (literal "/a/b")) rfl (by decide +kernel) (by decide +kernel)
    (by decide +kernel) (by rwa [hcwd])
  rw [hcwd] at hpredicts
  exact hpredicts.mpr (settled_of_leads (by decide) hshort (.inr hleads))

/-- `getcwd` succeeds and all candidates are short; `bin/foo` is run, and `locate` finds nothing. -/
theorem runs_unlocated :
    (fooSystem false).getcwd = some (CString.ofBytes _ (literal "/a/b")) ∧
      (∀ p ∈ (fooSystem false).candidates (literal "/a/b") (literal "foo"), p.length < 4096) ∧
      (fooSystem false).executorResolvePath (literal "foo") = some (literal "bin/foo") ∧
      (fooSystem false).locateBuiltin [literal "foo"] =
        (0, literal "locate: command not found (foo)\n") ∧
      ¬ (fooSystem false).Predicts (literal "/a/b") (literal "foo") := by
  have hruns :
      (fooSystem false).executorResolvePath (literal "foo") = some (literal "bin/foo") := by
    decide +kernel
  have hnone : (fooSystem false).locatePaths (literal "/a/b") (literal "foo") = [] := by
    decide +kernel
  refine ⟨rfl, by decide +kernel, hruns, by decide +kernel, fun h ↦ h.found_iff.mpr ?_ hnone⟩
  rw [hruns]
  exact Option.some_ne_none _

end Irish.Shell
