import Mathlib.Data.List.Basic

/-!
# Path names

A path name as a process resolves it: component by component from the root or from the working
directory. Empty components stand for the directory they stand in, so that a path with a slash at
its end leads to a directory or nowhere, and slashes may be repeated (`resolve_collapse`). A path
that is put behind the name of a directory is resolved from that directory, if the name leads there
(`resolve_absolute`); it may not, for a name that the process is not permitted to follow.
-/

set_option autoImplicit false

namespace Irish.Library

/-- The files as a process finds them. `lookup n name` is what the name leads to in `n`: nothing
unless `n` is a directory that the process may search and that has such an entry, and the end of the
chain for a symbolic link. The names `.` and `..` are like any other. -/
structure FileTree (N : Type*) where
  root : N
  isDir : N → Bool
  lookup : N → List UInt8 → Option N
  isDir_root : isDir root = true
  isDir_of_lookup : ∀ n name m, lookup n name = some m → isDir n = true

/-- The parts of a path between slashes. -/
def components (path : List UInt8) : List (List UInt8) := path.splitOnP (· = 47)

/-- A path with one slash for each sequence of slashes. -/
def collapse : List UInt8 → List UInt8
  | [] => []
  | c :: rest => if c = 47 ∧ rest.head? = some 47 then collapse rest else c :: collapse rest

/-- The path `path` in a directory that has the path `dir`. -/
def absolute (dir path : List UInt8) : List UInt8 :=
  if path.head? = some 47 then path else dir ++ 47 :: path

/-! ### Components -/

theorem components_ne_nil (path : List UInt8) : components path ≠ [] := List.splitOnP_ne_nil _ _

theorem components_slash (path : List UInt8) : components (47 :: path) = [] :: components path := by
  rw [components, List.splitOnP_cons_eq_if_modifyHead, if_pos (by decide), components]

variable {c : UInt8} {name path dir : List UInt8}

theorem components_cons (hc : c ≠ 47) (path : List UInt8) :
    components (c :: path) = (components path).modifyHead (c :: ·) := by
  rw [components, List.splitOnP_cons_eq_if_modifyHead, if_neg (by simpa using hc), components]

theorem components_join (dir path : List UInt8) :
    components (dir ++ 47 :: path) = components dir ++ components path :=
  List.splitOnP_append_cons dir path (by decide)

theorem components_of_notMem (h : 47 ∉ name) : components name = [name] := by
  induction name with
  | nil => rfl
  | cons _ _ ih =>
    rw [components_cons (List.ne_of_not_mem_cons h).symm, ih (List.not_mem_of_not_mem_cons h)]
    rfl

theorem collapse_slash_slash (path : List UInt8) :
    collapse (47 :: 47 :: path) = collapse (47 :: path) := by
  rw [collapse, if_pos ⟨rfl, rfl⟩]

theorem head?_collapse (path : List UInt8) : (collapse path).head? = path.head? := by
  induction path with
  | nil => rfl
  | cons _ _ ih =>
    rw [collapse]
    split_ifs with h
    · rw [ih, h.1, h.2]
      rfl
    · rfl

/-- A slash that is put behind a slash, with anything in front. -/
theorem collapse_append_slash_slash (front path : List UInt8) :
    collapse (front ++ 47 :: 47 :: path) = collapse (front ++ 47 :: path) := by
  induction front with
  | nil => exact collapse_slash_slash path
  | cons _ front ih =>
    have hhead : (front ++ 47 :: 47 :: path).head? = (front ++ 47 :: path).head? := by
      cases front with
      | nil => rfl
      | cons b front => rfl
    rw [List.cons_append, List.cons_append, collapse, collapse, hhead, ih]

/-- What is behind a slash is collapsed on its own, unless it begins with one. -/
theorem collapse_append_slash (front : List UInt8) (hpath : path.head? ≠ some 47) :
    collapse (front ++ 47 :: path) = collapse (front ++ [47]) ++ collapse path := by
  induction front with
  | nil =>
    rw [List.nil_append, collapse, if_neg fun h ↦ hpath h.2]
    rfl
  | cons _ front ih =>
    have hhead : (front ++ 47 :: path).head? = (front ++ [47]).head? := by
      cases front with
      | nil => rfl
      | cons b front => rfl
    rw [List.cons_append, List.cons_append, collapse, collapse, hhead, ih]
    split_ifs <;> rfl

theorem head?_absolute (hdir : dir.head? = some 47) (path : List UInt8) :
    (absolute dir path).head? = some 47 := by
  unfold absolute
  split_ifs with hslash
  · exact hslash
  · rw [List.head?_append, hdir]
    rfl

namespace FileTree

variable {N : Type*} (t : FileTree N) {n m cwd : N} {names : List (List UInt8)} {path' : List UInt8}

/-- One component. -/
def enter (n : N) (name : List UInt8) : Option N :=
  if name = [] then if t.isDir n then some n else none else t.lookup n name

def walk : N → List (List UInt8) → Option N
  | n, [] => some n
  | n, name :: rest => (t.enter n name).bind (walk · rest)

/-- What a path leads to for a process whose working directory is `cwd`. -/
def resolve (cwd : N) (path : List UInt8) : Option N :=
  if path = [] then none
  else if path.head? = some 47 then t.walk t.root (components path)
  else t.walk cwd (components path)

/-! ### Walking -/

theorem isDir_of_enter (h : t.enter n name = some m) : t.isDir n = true := by
  unfold enter at h
  split_ifs at h with hname hdir
  · exact hdir
  · exact t.isDir_of_lookup n name m h

theorem walk_append (n : N) (front back : List (List UInt8)) :
    t.walk n (front ++ back) = (t.walk n front).bind (t.walk · back) := by
  induction front generalizing n with
  | nil => rfl
  | cons _ _ ih =>
    rw [List.cons_append, walk, walk, Option.bind_assoc]
    exact congrArg (Option.bind _) (funext ih)

/-- An empty component in front of others changes nothing. -/
theorem walk_nil_cons (n : N) (hne : names ≠ []) : t.walk n ([] :: names) = t.walk n names := by
  have hstay : t.walk n ([] :: names) = if t.isDir n then t.walk n names else none := by
    rw [walk, enter, if_pos rfl]
    split_ifs <;> rfl
  rw [hstay]
  split_ifs with hdir
  · rfl
  · obtain ⟨name, rest, rfl⟩ := List.exists_cons_of_ne_nil hne
    cases henter : t.enter n name with
    | none => rw [walk, henter, Option.bind_none]
    | some => exact absurd (t.isDir_of_enter henter) hdir

/-- Repeated slashes, with the first component apart. -/
theorem walk_components_collapse (path : List UInt8) :
    (components (collapse path)).head? = (components path).head? ∧
      ∀ n, t.walk n (components (collapse path)).tail = t.walk n (components path).tail := by
  induction path with
  | nil => exact ⟨rfl, fun _ ↦ rfl⟩
  | cons c rest ih =>
    obtain ⟨hhead, htail⟩ := ih
    rw [collapse]
    split_ifs with h
    · obtain ⟨rfl, hslash⟩ := h
      obtain ⟨more, rfl⟩ := List.head?_eq_some_iff.mp hslash
      rw [components_slash (47 :: more)]
      rw [components_slash] at hhead htail ⊢
      refine ⟨hhead, fun n ↦ ?_⟩
      rw [htail, List.tail_cons, List.tail_cons, t.walk_nil_cons n (components_ne_nil more)]
    · by_cases hc : c = 47
      · rw [hc, components_slash, components_slash]
        refine ⟨rfl, fun n ↦ ?_⟩
        -- The components agree in their head and, from every node, behind it.
        obtain ⟨name, tail, hpath⟩ := List.exists_cons_of_ne_nil (components_ne_nil rest)
        obtain ⟨name', tail', hpath'⟩ :=
          List.exists_cons_of_ne_nil (components_ne_nil (collapse rest))
        rw [hpath, hpath'] at hhead htail
        cases hhead
        rw [List.tail_cons, List.tail_cons, hpath, hpath', walk, walk]
        exact congrArg (Option.bind _) (funext htail)
      · rw [components_cons hc, components_cons hc, List.head?_modifyHead, List.head?_modifyHead,
          hhead, List.tail_modifyHead, List.tail_modifyHead]
        exact ⟨rfl, htail⟩

theorem walk_collapse (n : N) (path : List UInt8) :
    t.walk n (components (collapse path)) = t.walk n (components path) := by
  obtain ⟨hhead, htail⟩ := t.walk_components_collapse path
  obtain ⟨name, tail, hpath⟩ := List.exists_cons_of_ne_nil (components_ne_nil path)
  obtain ⟨name', tail', hpath'⟩ := List.exists_cons_of_ne_nil (components_ne_nil (collapse path))
  rw [hpath, hpath'] at hhead htail ⊢
  cases hhead
  rw [walk, walk]
  exact congrArg (Option.bind _) (funext htail)

/-- Slashes may be repeated. -/
theorem resolve_collapse (cwd : N) (path : List UInt8) :
    t.resolve cwd (collapse path) = t.resolve cwd path := by
  have hnil : collapse path = [] ↔ path = [] := by
    rw [← List.head?_eq_none_iff, head?_collapse, List.head?_eq_none_iff]
  simp only [resolve, hnil, head?_collapse, walk_collapse]

theorem resolve_congr (h : collapse path = collapse path') (cwd : N) :
    t.resolve cwd path = t.resolve cwd path' := by
  rw [← resolve_collapse, h, resolve_collapse]

/-- A name behind a path. -/
theorem resolve_concat (cwd : N) (hpath : path ≠ []) (hname : name ≠ []) (hslash : 47 ∉ name) :
    t.resolve cwd (path ++ 47 :: name) = (t.resolve cwd path).bind (t.lookup · name) := by
  have hhead : (path ++ 47 :: name).head? = path.head? := by
    rw [List.head?_append_of_ne_nil _ hpath]
  have hstep (n : N) : t.walk n [name] = t.lookup n name := by
    rw [walk, enter, if_neg hname]
    exact Option.bind_fun_some _
  rw [resolve, if_neg (List.append_ne_nil_of_left_ne_nil hpath _), hhead, components_join,
    components_of_notMem hslash, walk_append, walk_append, resolve, if_neg hpath]
  simp only [hstep]
  split_ifs <;> rfl

/-- A path behind the name of the working directory, if that name leads there. -/
theorem resolve_absolute (hdir : dir.head? = some 47) (hleads : t.resolve cwd dir = some cwd)
    (hpath : path ≠ []) : t.resolve cwd (absolute dir path) = t.resolve cwd path := by
  unfold absolute
  split_ifs with hslash
  · rfl
  · have hne : dir ≠ [] := by
      rintro rfl
      cases hdir
    have hhead : (dir ++ 47 :: path).head? = some 47 := by
      have habsolute := head?_absolute hdir path
      rwa [absolute, if_neg hslash] at habsolute
    have hwalk : t.walk t.root (components dir) = some cwd := by
      rwa [resolve, if_neg hne, if_pos hdir] at hleads
    rw [resolve, if_neg (List.append_ne_nil_of_left_ne_nil hne _), if_pos hhead, components_join,
      walk_append, hwalk, resolve, if_neg hpath, if_neg hslash]
    rfl

end FileTree

end Irish.Library
