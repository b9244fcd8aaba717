import Irish.Library.PathWalk
import Irish.Library.Sorting
import Irish.Library.TreeOrder
import Irish.Shell.Frecency

/-!
# The `reveal` builtin

`src/reveal.c`. `print_directory` reads the names of a directory, sorts them, asks `stat` for each
of them whether it is a directory, and with `-t` calls itself for those that are. It is given the
directory as a path; the recursion is bounded by fuel here, and enough fuel gives the result.

In a finite tree in which all directories are readable, the recursion ends, and the listing is
complete and in the order of the tree exactly if `stat` finds the visible directories below the
target: if their parents may be searched and their paths are shorter than `PATH_MAX`
(`revealBuiltin_complete`). If `stat` fails, a directory is printed like a file and not listed, in a
directory that may be read but not searched, and for a path that fits the buffers of `2 * PATH_MAX`
bytes but is not shorter than `PATH_MAX` (`directory_as_file`). Such a listing has fewer slashes
than a complete one, which is how the two are told apart (`Renders`).

Allocation and the writes succeed. The stack is as large as the recursion needs.
-/

set_option autoImplicit false

namespace Irish.Shell

open Library

/-! ### Files -/

/-- A name in a directory. -/
@[ext]
structure FileName where
  bytes : List Byte
  nonempty : bytes ≠ []
  nulFree : 0 ∉ bytes
  slashFree : 47 ∉ bytes
deriving DecidableEq

namespace FileName

/-- `is_hidden`. -/
def isHidden (name : FileName) : Bool := name.bytes.head? = some 46

/-- The names `.` and `..`. -/
def isSpecial (name : FileName) : Bool := name.bytes = literal "." ∨ name.bytes = literal ".."

end FileName

/-- `cmp_names`. -/
def cmpNames (a b : FileName) : ℤ := strcmp a.bytes b.bytes

/-- Directories with their entries, and what the process may do: `readdir` has the names of a
directory that it may read, in the order in which they are returned. -/
structure FileSystem (N : Type*) where
  root : N
  isDir : N → Bool
  entry : N → List Byte → Option N
  searchable : N → Bool
  readdir : N → Option (List FileName)
  isDir_root : isDir root = true
  isDir_of_entry : ∀ n name m, entry n name = some m → isDir n = true
  special : ∀ n, isDir n = true → (entry n (literal ".")).isSome ∧ (entry n (literal "..")).isSome
  nodup_readdir : ∀ n names, readdir n = some names → names.Nodup
  mem_readdir : ∀ n names, readdir n = some names →
    ∀ name, name ∈ names ↔ (entry n name.bytes).isSome

/-- The files as the process finds them. -/
def FileSystem.tree {N : Type*} (fs : FileSystem N) : FileTree N where
  root := fs.root
  isDir := fs.isDir
  lookup n name := if fs.searchable n then fs.entry n name else none
  isDir_root := fs.isDir_root
  isDir_of_lookup n name m h := by
    split_ifs at h
    exact fs.isDir_of_entry n name m h

/-- What `reveal` reads: the files, the working directory with the result of `getcwd`, and the
results of `hop_home` and `hop_previous`. -/
structure RevealSystem (N : Type*) where
  fs : FileSystem N
  cwd : N
  getcwd : Option (CString (pathMax * 2 - 1))
  hopHome : CString (pathMax - 1)
  hopPrevious : CString (pathMax - 1)

/-- A string that is written to a buffer of `PATH_MAX * 2` bytes. -/
def intoBuffer (text : List Byte) : List Byte := text.take (pathMax * 2 - 1)

namespace RevealSystem

variable {N : Type*} (sys : RevealSystem N)

/-- `stat`. -/
def stat (path : List Byte) : Option N :=
  if pathMax ≤ path.length then none else sys.fs.tree.resolve sys.cwd path

/-- `opendir` and the names that `readdir` returns. -/
def opendir (path : List Byte) : Option (List FileName) :=
  (sys.stat path).bind fun n ↦ if sys.fs.isDir n then sys.fs.readdir n else none

/-- `stat(full, &st) == 0 && S_ISDIR(st.st_mode)`. -/
def statIsDir (full : List Byte) : Bool := (sys.stat full).any sys.fs.isDir

/-! ### Printing -/

/-- The loop over the sorted names. -/
def printLoop (print : FileName → Option (List Byte)) : List FileName → Option (List Byte)
  | [] => some []
  | name :: rest => do return (← print name) ++ (← printLoop print rest)

/-- The body of the loop; `recurse` is the call of `print_directory` with `recursive`. -/
def printName (showAll recursive : Bool) (recurse : List Byte → List Byte → Option (List Byte))
    (path pre : List Byte) (name : FileName) : Option (List Byte) :=
  let full := intoBuffer (path ++ 47 :: name.bytes)
  if !recursive then some (pre ++ name.bytes ++ [Byte.newline])
  else if sys.statIsDir full then
    if name.isSpecial then some (if showAll then pre ++ name.bytes ++ [Byte.newline] else [])
    else (recurse full (intoBuffer (pre ++ name.bytes ++ [47]))).map fun printed ↦
      pre ++ name.bytes ++ [47, Byte.newline] ++ printed
  else some (pre ++ name.bytes ++ [Byte.newline])

/-- `print_directory`; `none` without enough fuel. -/
def printDirectory (qsort : List FileName → List FileName) (showAll recursive : Bool) :
    ℕ → List Byte → List Byte → Option (List Byte)
  | 0, _, _ => none
  | fuel + 1, path, pre =>
    match sys.opendir path with
    | none => some []
    | some names =>
      printLoop (sys.printName showAll recursive (printDirectory qsort showAll true fuel) path pre)
        (qsort (names.filter fun name ↦ showAll || !name.isHidden))

end RevealSystem

/-! ### The arguments -/

structure RevealArgs where
  showAll : Bool
  recursive : Bool
  rawTarget : Option (List Byte)
deriving DecidableEq

/-- The letters behind the minus sign. -/
def revealFlags : List Byte → RevealArgs → Option RevealArgs
  | [], o => some o
  | c :: rest, o =>
    if c = 97 then revealFlags rest { o with showAll := true }
    else if c = 116 then revealFlags rest { o with recursive := true }
    else none

def revealArg (o : RevealArgs) (arg : List Byte) : Option RevealArgs :=
  if arg.head? = some 45 then
    if arg = [45] then
      if o.rawTarget ≠ none then none else some { o with rawTarget := some [45] }
    else revealFlags arg.tail o
  else if o.rawTarget ≠ none then none
  else some { o with rawTarget := some arg }

/-- The loop of `reveal_builtin` over the arguments; `none` for invalid syntax. -/
def revealArgs (args : List (List Byte)) : Option RevealArgs :=
  args.foldlM revealArg ⟨false, false, none⟩

section Builtin

variable {N : Type*} (sys : RevealSystem N)

/-- `target`, or what is printed before 1 is returned. -/
def revealTarget (rawTarget : Option (List Byte)) : Except (List Byte) (List Byte) :=
  let raw := rawTarget.getD (literal ".")
  if raw = literal "." then
    match sys.getcwd with
    | none => .error []
    | some cwd => .ok cwd.text
  else if raw = literal "~" then .ok sys.hopHome.text
  else if literal "~/" <+: raw then .ok (intoBuffer (sys.hopHome.text ++ 47 :: raw.drop 2))
  else if raw = literal "-" then
    if sys.hopPrevious.text = [] then .error (literal "reveal: no such directory\n")
    else .ok sys.hopPrevious.text
  else .ok (intoBuffer raw)

/-- `reveal_builtin`: the value returned and what is printed; `none` without enough fuel. -/
def revealBuiltin (qsort : List FileName → List FileName) (fuel : ℕ) (args : List (List Byte)) :
    Option (ℤ × List Byte) :=
  match revealArgs args with
  | none => some (1, literal "reveal: invalid syntax\n")
  | some o =>
    match revealTarget sys o.rawTarget with
    | .error printed => some (1, printed)
    | .ok target =>
      if sys.statIsDir target then
        (sys.printDirectory qsort o.showAll o.recursive fuel target []).map fun printed ↦
          (0, printed)
      else some (1, literal "reveal: no such directory\n")

end Builtin

/-! ### The tree below a directory -/

section Tree

variable {N : Type*} (fs : FileSystem N)

/-- The names `q` lead from `n` to `m`, downwards in the tree. -/
def FileSystem.Below : N → List FileName → N → Prop
  | n, [], m => n = m
  | n, name :: q, m => name.isSpecial = false ∧ ∃ c, fs.entry n name.bytes = some c ∧
      FileSystem.Below c q m

/-- The tree below `n` is finite: it is built up from the trees below the entries of `n`, of which
there are finitely many. -/
inductive FileSystem.FiniteBelow : N → Prop
  | intro (n : N) (h : ∀ (name : FileName) (c : N), name.isSpecial = false →
      fs.entry n name.bytes = some c → FileSystem.FiniteBelow c) : FileSystem.FiniteBelow n

/-- A height that goes down from a directory to its entries. -/
theorem finiteBelow_of_height {fs : FileSystem N} (height : N → ℕ)
    (h : ∀ n (name : FileName) c, name.isSpecial = false → fs.entry n name.bytes = some c →
      height c < height n) (n : N) : fs.FiniteBelow n := by
  induction hheight : height n using Nat.strong_induction_on generalizing n with
  | _ _ ih =>
    refine .intro n fun name c hplain hentry ↦ ih (height c) ?_ c rfl
    exact hheight ▸ h n name c hplain hentry

inductive EntryKind
  | file | directory | special
deriving DecidableEq

/-- A line of the listing. -/
@[ext]
structure Shown where
  path : List FileName
  kind : EntryKind

/-- The path relative to the target, with a slash at the end for a directory. -/
def Shown.text (e : Shown) : List Byte :=
  [47].intercalate (e.path.map FileName.bytes) ++ if e.kind = .directory then [47] else []

/-- The lines of a listing. -/
def printShown (pre : List Byte) (entries : List Shown) : List Byte :=
  entries.flatMap fun e ↦ pre ++ e.text ++ [Byte.newline]

/-- Without `-a`, no component of the path is hidden. -/
def Visible (showAll : Bool) (q : List FileName) : Prop :=
  showAll = true ∨ ∀ name ∈ q, name.isHidden = false

/-- What belongs to the listing of `n`: the visible files and directories, and with `-a` the names
`.` and `..` in `n` and in each directory below. -/
def Listed (showAll : Bool) (n : N) (q : List FileName) : EntryKind → Prop
  | .file => q ≠ [] ∧ Visible showAll q ∧ ∃ m, fs.Below n q m ∧ fs.isDir m = false
  | .directory => q ≠ [] ∧ Visible showAll q ∧ ∃ m, fs.Below n q m ∧ fs.isDir m = true
  | .special => showAll = true ∧ ∃ d name m, q = d ++ [name] ∧ name.isSpecial = true ∧
      fs.Below n d m ∧ fs.isDir m = true

/-- A complete listing in the order of the tree. -/
structure CompleteListing (showAll : Bool) (n : N) (entries : List Shown) : Prop where
  mem_iff : ∀ e : Shown, e ∈ entries ↔ Listed fs showAll n e.path e.kind
  nodup : (entries.map Shown.path).Nodup
  block : ∀ before d after, entries = before ++ d :: after →
    (∀ e ∈ before, ¬ d.path <+: e.path) ∧
    ∃ inside rest, after = inside ++ rest ∧ (∀ e ∈ inside, d.path <+: e.path) ∧
      ∀ e ∈ rest, ¬ d.path <+: e.path
  siblings : entries.Pairwise fun e f ↦ ∀ d a b, e.path = d ++ [a] → f.path = d ++ [b] →
    strcmp a.bytes b.bytes < 0

/-- `stat` finds the visible directories below `n`: each of them is in a directory that may be
searched, and its path is shorter than `PATH_MAX`. -/
def DirsFound (showAll : Bool) (n : N) (path : List Byte) : Prop :=
  ∀ q name m c, Visible showAll (q ++ [name]) → fs.Below n q m → fs.Below m [name] c →
    fs.isDir c = true → fs.searchable m = true ∧
      (path ++ (q ++ [name]).flatMap (47 :: ·.bytes)).length < pathMax

end Tree

/-! ### The order of names -/

def nameLt (a b : FileName) : Prop := cmpNames a b < 0

instance : Std.Asymm nameLt where
  asymm a b hab hba := by
    unfold nameLt cmpNames at hab hba
    rw [strcmp_swap] at hba
    omega

theorem eq_of_cmpNames_eq_zero {a b : FileName} (h : cmpNames a b = 0) : a = b :=
  FileName.ext (eq_of_strcmp_eq_zero a.nulFree b.nulFree h)

variable {names sorted q : List FileName} {kind : EntryKind} {entries : List Shown}
  {target pre : List Byte} {e : Shown} {searchable : Bool} {k : ℕ}

/-- Different names that are sorted are in order. -/
theorem pairwise_nameLt (hnodup : names.Nodup) (hsorts : Sorts cmpNames names sorted) :
    sorted.Pairwise nameLt := by
  refine (hsorts.pairwise.and (hsorts.perm.nodup_iff.mpr hnodup)).imp fun {a b} hab ↦ ?_
  exact lt_of_le_of_ne hab.1 fun hzero ↦ hab.2 (eq_of_cmpNames_eq_zero hzero)

theorem sorts_sortBy_cmpNames (names : List FileName) :
    Sorts cmpNames names (sortBy cmpNames names) := by
  have htrans (a b c : FileName) (hab : cmpNames a b ≤ 0) (hbc : cmpNames b c ≤ 0) :
      cmpNames a c ≤ 0 := strcmp_trans a.nulFree b.nulFree hab hbc
  refine sorts_sortBy htrans (fun a b ↦ ?_) names
  have hswap := strcmp_swap a.bytes b.bytes
  unfold cmpNames
  omega

/-! ### One name -/

section Blocks

variable {N : Type*} {fs : FileSystem N} {showAll : Bool} {n c : N} {name : FileName}

theorem not_below_cons_of_file (hfile : fs.isDir c = false) {m : N} :
    ¬ fs.Below c (name :: q) m := by
  rintro ⟨-, d, hentry, -⟩
  rw [fs.isDir_of_entry _ _ _ hentry] at hfile
  cases hfile

/-- A name that passes the filter. -/
def Passes (showAll : Bool) (name : FileName) : Prop := showAll = true ∨ name.isHidden = false

theorem visible_cons : Visible showAll (name :: q) ↔ Passes showAll name ∧ Visible showAll q := by
  unfold Visible Passes
  rw [List.forall_mem_cons]
  tauto

theorem below_cons_iff (hname : name.isSpecial = false) (hentry : fs.entry n name.bytes = some c)
    {m : N} : fs.Below n (name :: q) m ↔ fs.Below c q m := by
  constructor
  · rintro ⟨-, d, hd, hbelow⟩
    cases hd.symm.trans hentry
    exact hbelow
  · exact fun hbelow ↦ ⟨hname, c, hentry, hbelow⟩

theorem below_append {r : List FileName} {m d : N} (h : fs.Below n q m) (h' : fs.Below m r d) :
    fs.Below n (q ++ r) d := by
  induction q generalizing n with
  | nil =>
    obtain rfl : n = m := h
    exact h'
  | cons _ _ ih =>
    obtain ⟨hname, c, hentry, h⟩ := h
    exact ⟨hname, c, hentry, ih h⟩

/-- What is listed under `.` or `..`. -/
theorem listed_cons_special (hall : showAll = true) (hdir : fs.isDir n = true)
    (hname : name.isSpecial = true) :
    Listed fs showAll n (name :: q) kind ↔ q = [] ∧ kind = .special := by
  have hnot {q : List FileName} {m : N} : ¬ fs.Below n (name :: q) m := by
    rintro ⟨hplain, -⟩
    cases hname.symm.trans hplain
  constructor
  · cases kind with
    | file | directory => exact fun ⟨_, _, m, hbelow, _⟩ ↦ absurd hbelow hnot
    | special =>
      rintro ⟨-, d, last, m, hq, -, hbelow, -⟩
      cases d with
      | nil => exact ⟨(List.cons.inj hq).2, rfl⟩
      | cons first d =>
        rw [← (List.cons.inj hq).1] at hbelow
        exact absurd hbelow hnot
  · rintro ⟨rfl, rfl⟩
    exact ⟨hall, [], name, n, rfl, hname, rfl, hdir⟩

section Entry

variable (hpasses : Passes showAll name) (hname : name.isSpecial = false)
  (hentry : fs.entry n name.bytes = some c)
include hpasses hname hentry

/-- What is listed under the name of a file. -/
theorem listed_cons_file (hfile : fs.isDir c = false) :
    Listed fs showAll n (name :: q) kind ↔ q = [] ∧ kind = .file := by
  have hnil {q : List FileName} {m : N} (hbelow : fs.Below n (name :: q) m) : q = [] ∧ c = m := by
    rw [below_cons_iff hname hentry] at hbelow
    cases q with
    | nil => exact ⟨rfl, hbelow⟩
    | cons => exact absurd hbelow (not_below_cons_of_file hfile)
  constructor
  · cases kind with
    | file => exact fun ⟨_, _, m, hbelow, _⟩ ↦ ⟨(hnil hbelow).1, rfl⟩
    | directory =>
      rintro ⟨-, -, m, hbelow, hdir⟩
      rw [← (hnil hbelow).2, hfile] at hdir
      cases hdir
    | special =>
      rintro ⟨-, d, last, m, hq, hlast, hbelow, hdir⟩
      cases d with
      | nil =>
        rw [← (List.cons.inj hq).1, hname] at hlast
        cases hlast
      | cons first d =>
        rw [← (List.cons.inj hq).1] at hbelow
        rw [← (hnil hbelow).2, hfile] at hdir
        cases hdir
  · rintro ⟨rfl, rfl⟩
    refine ⟨List.cons_ne_nil _ _, visible_cons.mpr ⟨hpasses, .inr (by simp)⟩, c, ?_, hfile⟩
    exact (below_cons_iff hname hentry).mpr rfl

/-- What is listed under the name of a directory. -/
theorem listed_cons_dir (hdir : fs.isDir c = true) :
    Listed fs showAll n (name :: q) kind ↔
      (q = [] ∧ kind = .directory) ∨ Listed fs showAll c q kind := by
  cases kind with
  | file =>
    simp only [Listed, visible_cons, below_cons_iff hname hentry]
    constructor
    · rintro ⟨-, ⟨-, hvisible⟩, m, hbelow, hfile⟩
      refine .inr ⟨?_, hvisible, m, hbelow, hfile⟩
      rintro rfl
      rw [← show c = m from hbelow, hdir] at hfile
      cases hfile
    · rintro (⟨-, hkind⟩ | ⟨-, hvisible, hbelow⟩)
      · cases hkind
      · exact ⟨List.cons_ne_nil _ _, ⟨hpasses, hvisible⟩, hbelow⟩
  | directory =>
    simp only [Listed, visible_cons, below_cons_iff hname hentry]
    constructor
    · rintro ⟨-, ⟨-, hvisible⟩, m, hbelow, hm⟩
      by_cases hq : q = []
      · exact .inl ⟨hq, trivial⟩
      · exact .inr ⟨hq, hvisible, m, hbelow, hm⟩
    · rintro (⟨rfl, -⟩ | ⟨-, hvisible, hbelow⟩)
      · exact ⟨List.cons_ne_nil _ _, ⟨hpasses, .inr (by simp)⟩, c, rfl, hdir⟩
      · exact ⟨List.cons_ne_nil _ _, ⟨hpasses, hvisible⟩, hbelow⟩
  | special =>
    constructor
    · rintro ⟨hall, d, last, m, hq, hlast, hbelow, hm⟩
      cases d with
      | nil =>
        rw [← (List.cons.inj hq).1, hname] at hlast
        cases hlast
      | cons first d =>
        obtain ⟨rfl, rfl⟩ := List.cons.inj hq
        exact .inr ⟨hall, d, last, m, rfl, hlast, (below_cons_iff hname hentry).mp hbelow, hm⟩
    · rintro (⟨-, hkind⟩ | ⟨hall, d, last, m, rfl, hlast, hbelow, hm⟩)
      · cases hkind
      · exact ⟨hall, name :: d, last, m, rfl, hlast, (below_cons_iff hname hentry).mpr hbelow, hm⟩

end Entry

/-! ### The lines of one name, and of a directory -/

/-- The lines of a listing, as far as the order of the tree is concerned. -/
structure Lists (fs : FileSystem N) (showAll : Bool) (n : N) (entries : List Shown) : Prop where
  mem_iff : ∀ e : Shown, e ∈ entries ↔ Listed fs showAll n e.path e.kind
  sorted : (entries.map Shown.path).Pairwise (List.Lex nameLt)

/-- The lines of a listing that begin with a name. -/
structure BlockOf (fs : FileSystem N) (showAll : Bool) (n : N) (name : FileName)
    (entries : List Shown) : Prop where
  mem_iff : ∀ e : Shown, e ∈ entries ↔
    e.path.head? = some name ∧ Listed fs showAll n e.path e.kind
  sorted : (entries.map Shown.path).Pairwise (List.Lex nameLt)

/-- An entry of a directory, seen from the directory above. -/
def Shown.under (name : FileName) (e : Shown) : Shown := ⟨name :: e.path, e.kind⟩

theorem path_ne_nil_of_listed (h : Listed fs showAll n q kind) : q ≠ [] := by
  cases kind with
  | file | directory => exact h.1
  | special =>
    obtain ⟨-, d, last, m, rfl, -⟩ := h
    exact List.append_ne_nil_of_right_ne_nil _ (List.cons_ne_nil _ _)

/-- A name with one line. -/
theorem blockOf_singleton
    (h : ∀ q kind', Listed fs showAll n (name :: q) kind' ↔ q = [] ∧ kind' = kind) :
    BlockOf fs showAll n name [⟨[name], kind⟩] where
  mem_iff := by
    rintro ⟨q, kind'⟩
    rw [List.mem_singleton, Shown.mk.injEq]
    constructor
    · rintro ⟨rfl, rfl⟩
      exact ⟨rfl, (h [] kind').mpr ⟨rfl, rfl⟩⟩
    · rintro ⟨hhead, hlisted⟩
      obtain ⟨q, rfl⟩ := List.head?_eq_some_iff.mp hhead
      obtain ⟨rfl, rfl⟩ := (h q kind').mp hlisted
      exact ⟨rfl, rfl⟩
  sorted := List.pairwise_singleton _ _

theorem blockOf_dir (hpasses : Passes showAll name) (hname : name.isSpecial = false)
    (hentry : fs.entry n name.bytes = some c) (hdir : fs.isDir c = true)
    (h : Lists fs showAll c entries) :
    BlockOf fs showAll n name (⟨[name], .directory⟩ :: entries.map (Shown.under name)) where
  mem_iff := by
    rintro ⟨q, kind⟩
    rw [List.mem_cons, Shown.mk.injEq]
    constructor
    · rintro (⟨rfl, rfl⟩ | hmem)
      · exact ⟨rfl, (listed_cons_dir hpasses hname hentry hdir).mpr (.inl ⟨rfl, rfl⟩)⟩
      · obtain ⟨e, he, heq⟩ := List.mem_map.mp hmem
        obtain ⟨rfl, rfl⟩ := Shown.mk.injEq .. ▸ heq
        exact ⟨rfl, (listed_cons_dir hpasses hname hentry hdir).mpr (.inr ((h.mem_iff e).mp he))⟩
    · rintro ⟨hhead, hlisted⟩
      obtain ⟨q, rfl⟩ := List.head?_eq_some_iff.mp hhead
      rcases (listed_cons_dir hpasses hname hentry hdir).mp hlisted with ⟨rfl, rfl⟩ | hlisted
      · exact .inl ⟨rfl, rfl⟩
      · exact .inr (List.mem_map.mpr ⟨⟨q, kind⟩, (h.mem_iff ⟨q, kind⟩).mpr hlisted, rfl⟩)
  sorted := by
    rw [List.map_cons, List.pairwise_cons, List.map_map]
    constructor
    · intro p hp
      obtain ⟨e, he, rfl⟩ := List.mem_map.mp hp
      obtain ⟨first, rest, hpath⟩ :=
        List.exists_cons_of_ne_nil (path_ne_nil_of_listed ((h.mem_iff e).mp he))
      show List.Lex nameLt [name] (name :: e.path)
      rw [hpath]
      exact .cons .nil
    · have hunder : Shown.path ∘ Shown.under name = (name :: ·) ∘ Shown.path := rfl
      rw [hunder, ← List.map_map, List.pairwise_map]
      exact h.sorted.imp fun hlex ↦ .cons hlex

/-- What is listed begins with a name of the directory that passes the filter. -/
theorem exists_cons_of_listed (hread : fs.readdir n = some names) (h : Listed fs showAll n q kind) :
    ∃ name rest, q = name :: rest ∧ name ∈ names ∧ Passes showAll name := by
  have hbelow_mem {name : FileName} {rest : List FileName} {m : N}
      (hbelow : fs.Below n (name :: rest) m) : name ∈ names := by
    obtain ⟨-, c, hentry, -⟩ := hbelow
    rw [fs.mem_readdir n names hread, hentry]
    rfl
  obtain ⟨name, rest, rfl⟩ := List.exists_cons_of_ne_nil (path_ne_nil_of_listed h)
  refine ⟨name, rest, rfl, ?_⟩
  cases kind with
  | file | directory =>
    obtain ⟨-, hvisible, m, hbelow, -⟩ := h
    exact ⟨hbelow_mem hbelow, (visible_cons.mp hvisible).1⟩
  | special =>
    obtain ⟨hall, d, last, m, hq, hlast, hbelow, hdir⟩ := h
    refine ⟨?_, .inl hall⟩
    cases d with
    | nil =>
      obtain rfl : name = last := (List.cons.inj hq).1
      obtain rfl : n = m := hbelow
      obtain ⟨hdot, hdots⟩ := fs.special n hdir
      rw [fs.mem_readdir n names hread]
      rcases of_decide_eq_true hlast with h | h
      · rwa [h]
      · rwa [h]
    | cons first d =>
      rw [← (List.cons.inj hq).1] at hbelow
      exact hbelow_mem hbelow

/-- The blocks of the sorted names make up the listing. -/
theorem lists_flatMap (hread : fs.readdir n = some names)
    (hmem : ∀ name, name ∈ sorted ↔ name ∈ names ∧ Passes showAll name)
    (hsorted : sorted.Pairwise nameLt) {block : FileName → List Shown}
    (hblock : ∀ name ∈ sorted, BlockOf fs showAll n name (block name)) :
    Lists fs showAll n (sorted.flatMap block) where
  mem_iff e := by
    rw [List.mem_flatMap]
    constructor
    · rintro ⟨name, hname, he⟩
      exact (((hblock name hname).mem_iff e).mp he).2
    · intro hlisted
      obtain ⟨name, rest, hpath, hname⟩ := exists_cons_of_listed hread hlisted
      have hsortedName := (hmem name).mpr hname
      refine ⟨name, hsortedName, ((hblock name hsortedName).mem_iff e).mpr ⟨?_, hlisted⟩⟩
      rw [hpath]
      rfl
  sorted := by
    rw [List.map_flatMap, List.pairwise_flatMap]
    refine ⟨fun name hname ↦ (hblock name hname).sorted, ?_⟩
    -- Lines of different names are in the order of the names.
    refine hsorted.imp_of_mem fun {a b} ha hb hab p hp q hq ↦ ?_
    obtain ⟨e, he, rfl⟩ := List.mem_map.mp hp
    obtain ⟨f, hf, rfl⟩ := List.mem_map.mp hq
    obtain ⟨restE, hpathE⟩ := List.head?_eq_some_iff.mp (((hblock a ha).mem_iff e).mp he).1
    obtain ⟨restF, hpathF⟩ := List.head?_eq_some_iff.mp (((hblock b hb).mem_iff f).mp hf).1
    rw [hpathE, hpathF]
    exact .rel hab

theorem Lists.complete {entries : List Shown} (h : Lists fs showAll n entries) :
    CompleteListing fs showAll n entries where
  mem_iff := h.mem_iff
  nodup := by
    refine h.sorted.imp ?_
    rintro p q hlex rfl
    exact not_prefix_of_lex hlex List.prefix_rfl
  block before d after hsplit := by
    have hsorted := h.sorted
    rw [hsplit, List.map_append, List.map_cons] at hsorted
    obtain ⟨hbefore, inside, rest, hafter, hinside, hrest⟩ := exists_block_of_pairwise hsorted
    refine ⟨fun e he ↦ hbefore _ (List.mem_map_of_mem he), ?_⟩
    obtain ⟨inside, rest, rfl, rfl, rfl⟩ := List.map_eq_append_iff.mp hafter
    exact ⟨inside, rest, rfl, fun e he ↦ hinside _ (List.mem_map_of_mem he),
      fun e he ↦ hrest _ (List.mem_map_of_mem he)⟩
  siblings := by
    refine (List.pairwise_map.mp h.sorted).imp fun {e f} hlex d a b he hf ↦ ?_
    rw [he, hf] at hlex
    have hlt : nameLt a b := of_lex_append_singleton hlex
    exact hlt

end Blocks

/-! ### What is printed -/

section Print

variable {N : Type*} {sys : RevealSystem N} {showAll : Bool} {n c : N} {name : FileName}
  {path complete printed text full : List Byte} {found found' : Prop}
  {print : ℕ → FileName → Option (List Byte)} {enough : ℕ} {qsort : List FileName → List FileName}

theorem text_under (hpath : e.path ≠ []) : (e.under name).text = name.bytes ++ 47 :: e.text := by
  obtain ⟨first, rest, heq⟩ := List.exists_cons_of_ne_nil hpath
  simp only [Shown.text, Shown.under, heq, List.map_cons, List.intercalate_cons_cons,
    List.append_assoc, List.singleton_append]
  rfl

theorem printShown_under (hpaths : ∀ e ∈ entries, e.path ≠ []) :
    printShown pre (entries.map (Shown.under name)) =
      printShown (pre ++ name.bytes ++ [47]) entries := by
  unfold printShown
  rw [List.flatMap_map]
  refine List.flatMap_congr fun e he ↦ ?_
  simp [text_under (hpaths e he)]

theorem printShown_flatMap (names : List FileName) (block : FileName → List Shown) :
    printShown pre (names.flatMap block) = names.flatMap fun name ↦ printShown pre (block name) :=
  List.flatMap_assoc

theorem intoBuffer_of_lt (h : text.length < pathMax * 2) :
    intoBuffer text = text := List.take_of_length_le (by omega)

theorem resolve_of_stat (hstat : sys.stat path = some n) :
    path ≠ [] ∧ sys.fs.tree.resolve sys.cwd path = some n := by
  unfold RevealSystem.stat at hstat
  split_ifs at hstat
  refine ⟨?_, hstat⟩
  rintro rfl
  cases hstat

/-- `stat` on the path of an entry of a directory that `stat` has found. -/
theorem stat_entry (hstat : sys.stat path = some n) (name : FileName) :
    sys.stat (intoBuffer (path ++ 47 :: name.bytes)) =
      if (path ++ 47 :: name.bytes).length < pathMax ∧ sys.fs.searchable n then
        sys.fs.entry n name.bytes
      else none := by
  have hmax : pathMax = 4096 := rfl
  by_cases hshort : (path ++ 47 :: name.bytes).length < pathMax
  · obtain ⟨hne, hresolve⟩ := resolve_of_stat hstat
    rw [intoBuffer_of_lt (by omega), RevealSystem.stat, if_neg (by omega),
      FileTree.resolve_concat _ _ hne name.nonempty name.slashFree, hresolve]
    simp only [hshort, true_and]
    rfl
  · have hlong : pathMax ≤ (intoBuffer (path ++ 47 :: name.bytes)).length := by
      rw [intoBuffer, List.length_take]
      omega
    rw [RevealSystem.stat, if_pos hlong, if_neg (fun h ↦ hshort h.1)]

/-- A directory that `stat` has found under a path, and the prefix of its lines. -/
structure Reach (sys : RevealSystem N) (n : N) (path pre : List Byte) : Prop where
  stat : sys.stat path = some n
  length_le : pre.length ≤ path.length

theorem stat_eq_none (h : sys.stat full = none) : sys.statIsDir full = false := by
  rw [RevealSystem.statIsDir, h]
  rfl

/-- What `stat` has to find under a name. -/
def NameFound (fs : FileSystem N) (showAll : Bool) (n : N) (path : List Byte) (name : FileName) :
    Prop :=
  ∀ c, fs.Below n [name] c → fs.isDir c = true → fs.searchable n = true ∧
    (path ++ 47 :: name.bytes).length < pathMax ∧ DirsFound fs showAll c (path ++ 47 :: name.bytes)

theorem isDir_of_below {fs : FileSystem N} {m : N} (h : fs.Below n q m) (hm : fs.isDir m = true) :
    fs.isDir n = true := by
  cases q with
  | nil =>
    obtain rfl : n = m := h
    exact hm
  | cons =>
    obtain ⟨-, c, hentry, -⟩ := h
    exact fs.isDir_of_entry n _ c hentry

theorem dirsFound_iff {fs : FileSystem N} : DirsFound fs showAll n path ↔
    ∀ name, Passes showAll name → NameFound fs showAll n path name := by
  have hvisible {name : FileName} (hpasses : Passes showAll name) : Visible showAll [name] :=
    visible_cons.mpr ⟨hpasses, .inr (by simp)⟩
  constructor
  · intro h name hpasses c hbelow hdir
    obtain ⟨hsearch, hshort⟩ := h [] name n c (hvisible hpasses) rfl hbelow hdir
    refine ⟨hsearch, by simpa using hshort, fun q last m d hq hm hd hdirs ↦ ?_⟩
    obtain ⟨hname, c, hentry, rfl⟩ := hbelow
    have hdeep := h (name :: q) last m d (visible_cons.mpr ⟨hpasses, hq⟩)
      ((below_cons_iff hname hentry).mpr hm) hd hdirs
    simpa using hdeep
  · intro h q name m c hq hm hc hdir
    cases q with
    | nil =>
      obtain rfl : n = m := hm
      obtain ⟨hsearch, hshort, -⟩ := h name (visible_cons.mp hq).1 c hc hdir
      exact ⟨hsearch, by simpa using hshort⟩
    | cons first q =>
      obtain ⟨hfirst, d, hentry, hm⟩ := hm
      obtain ⟨hpasses, hq⟩ := visible_cons.mp hq
      have hd := isDir_of_below hm (isDir_of_below hc hdir)
      obtain ⟨-, -, hfound⟩ := h first hpasses d ⟨hfirst, d, hentry, rfl⟩ hd
      simpa using hfound q name m c hq hm hc hdir

/-! ### Counting slashes -/

/-- What is printed, against the complete lines: the same if `stat` finds the directories, and with
fewer slashes if it does not. -/
structure Renders (found : Prop) (complete printed : List Byte) : Prop where
  eq : found → printed = complete
  lt : ¬ found → printed.count 47 < complete.count 47

theorem Renders.refl (complete : List Byte) : Renders True complete complete :=
  ⟨fun _ ↦ rfl, fun h ↦ absurd trivial h⟩

theorem Renders.congr (h : Renders found complete printed) (hiff : found' ↔ found) :
    Renders found' complete printed :=
  ⟨fun hf ↦ h.eq (hiff.mp hf), fun hf ↦ h.lt (hf ∘ hiff.mpr)⟩

theorem Renders.count_le
    (h : Renders found complete printed) : printed.count 47 ≤ complete.count 47 := by
  by_cases hfound : found
  · rw [h.eq hfound]
  · exact (h.lt hfound).le

theorem Renders.append {complete' printed' : List Byte} (h : Renders found complete printed)
    (h' : Renders found' complete' printed') :
    Renders (found ∧ found') (complete ++ complete') (printed ++ printed') := by
  refine ⟨fun ⟨hf, hf'⟩ ↦ by rw [h.eq hf, h'.eq hf'], fun hnot ↦ ?_⟩
  have hle := h.count_le
  have hle' := h'.count_le
  rw [List.count_append, List.count_append]
  by_cases hf : found
  · have hlt := h'.lt fun hf' ↦ hnot ⟨hf, hf'⟩
    omega
  · have hlt := h.lt hf
    omega

theorem printLoop_renders {found : FileName → Prop} {complete : FileName → List Byte}
    (h : ∀ name ∈ names, ∃ printed, (∀ fuel, enough ≤ fuel → print fuel name = some printed) ∧
      Renders (found name) (complete name) printed) :
    ∃ printed, (∀ fuel, enough ≤ fuel →
        RevealSystem.printLoop (print fuel) names = some printed) ∧
      Renders (∀ name ∈ names, found name) (names.flatMap complete) printed := by
  induction names with
  | nil => exact ⟨[], fun _ _ ↦ rfl, (Renders.refl []).congr (by simp)⟩
  | cons _ _ ih =>
    obtain ⟨hname, hnames⟩ := List.forall_mem_cons.mp h
    obtain ⟨first, hfirst, hrenders⟩ := hname
    obtain ⟨rest, hrest, hrenders'⟩ := ih hnames
    refine ⟨first ++ rest, fun fuel hfuel ↦ ?_, ?_⟩
    · rw [RevealSystem.printLoop, hfirst fuel hfuel, hrest fuel hfuel]
      rfl
    · exact (hrenders.append hrenders').congr List.forall_mem_cons

/-- A name that is printed as it is: a special one, or a file. -/
theorem printName_of_plain (hall : name.isSpecial = true → showAll = true)
    (hplain : name.isSpecial = true ∨
      sys.statIsDir (intoBuffer (path ++ 47 :: name.bytes)) = false)
    (recurse : List Byte → List Byte → Option (List Byte)) :
    sys.printName showAll true recurse path pre name =
      some (pre ++ name.bytes ++ [Byte.newline]) := by
  unfold RevealSystem.printName
  rcases hplain with hspecial | hfile
  · simp only [hspecial, hall hspecial, Bool.not_true, Bool.false_eq_true, if_true,
      ite_self]
  · simp only [hfile, Bool.not_true, Bool.false_eq_true, if_false]

/-- A subdirectory that `stat` finds: its line, and what the call for it prints. -/
theorem printName_of_dir (h : Reach sys n path pre) (hname : name.isSpecial = false)
    (hstat : sys.stat (path ++ 47 :: name.bytes) = some c) (hdir : sys.fs.isDir c = true)
    (hshort : (path ++ 47 :: name.bytes).length < pathMax)
    (recurse : List Byte → List Byte → Option (List Byte)) :
    sys.printName showAll true recurse path pre name =
      (recurse (path ++ 47 :: name.bytes) (pre ++ name.bytes ++ [47])).map fun printed ↦
        pre ++ name.bytes ++ [47, Byte.newline] ++ printed := by
  have hisDir : sys.statIsDir (path ++ 47 :: name.bytes) = true := by
    rwa [RevealSystem.statIsDir, hstat]
  have hpath : intoBuffer (path ++ 47 :: name.bytes) = path ++ 47 :: name.bytes :=
    intoBuffer_of_lt (by omega)
  have hprefix : intoBuffer (pre ++ name.bytes ++ [47]) = pre ++ name.bytes ++ [47] := by
    refine intoBuffer_of_lt ?_
    have hle := h.length_le
    simp only [List.length_append, List.length_cons, List.length_nil] at hshort ⊢
    omega
  unfold RevealSystem.printName
  simp only [hpath, hprefix, hisDir, hname, Bool.not_true, Bool.false_eq_true, if_false, if_true]

/-! ### The recursion -/

/-- From some fuel on, the call for a directory prints the lines, as far as `stat` finds the
directories below it. -/
def Prints (sys : RevealSystem N) (qsort : List FileName → List FileName) (showAll : Bool) (n : N)
    (entries : List Shown) : Prop :=
  ∃ enough, ∀ path pre, Reach sys n path pre → ∃ printed,
    (∀ fuel, enough ≤ fuel →
      sys.printDirectory qsort showAll true fuel path pre = some printed) ∧
    Renders (DirsFound sys.fs showAll n path) (printShown pre entries) printed

/-- From some fuel on, the body of the loop prints the lines of a name, as far as `stat` finds the
directories under it. -/
def PrintsName (sys : RevealSystem N) (qsort : List FileName → List FileName) (showAll : Bool)
    (n : N) (name : FileName) (entries : List Shown) (enough : ℕ) : Prop :=
  ∀ path pre, Reach sys n path pre → ∃ printed,
    (∀ fuel, enough ≤ fuel →
      sys.printName showAll true (sys.printDirectory qsort showAll true fuel) path pre name =
        some printed) ∧
    Renders (NameFound sys.fs showAll n path name) (printShown pre entries) printed

theorem printShown_singleton (hkind : kind ≠ .directory) :
    printShown pre [⟨[name], kind⟩] = pre ++ name.bytes ++ [Byte.newline] := by
  simp [printShown, Shown.text, hkind]

/-- A name that is not that of a directory has one line. -/
theorem printsName_singleton (hkind : kind ≠ .directory)
    (hall : name.isSpecial = true → showAll = true)
    (hfile : ∀ c, sys.fs.Below n [name] c → sys.fs.isDir c = false) :
    PrintsName sys qsort showAll n name [⟨[name], kind⟩] 0 := by
  intro path pre hreach
  have hfound : NameFound sys.fs showAll n path name := by
    intro c hbelow hdir
    rw [hfile c hbelow] at hdir
    cases hdir
  refine ⟨pre ++ name.bytes ++ [Byte.newline], fun fuel _ ↦ printName_of_plain hall ?_ _, ?_⟩
  · by_cases hname : name.isSpecial = true
    · exact .inl hname
    · refine .inr ?_
      cases hentry : sys.fs.entry n name.bytes with
      | none => exact stat_eq_none (by rw [stat_entry hreach.stat, hentry, ite_self])
      | some c =>
        have hdir := hfile c ⟨by simpa using hname, c, hentry, rfl⟩
        rw [RevealSystem.statIsDir, stat_entry hreach.stat, hentry]
        split_ifs
        · exact hdir
        · rfl
  · rw [printShown_singleton hkind]
    exact (Renders.refl _).congr (iff_true_intro hfound)

/-- The line of a directory that `stat` does not find has no slash of its own. -/
theorem renders_unfound {lines : List Byte} (hfound : ¬ found) :
    Renders found (pre ++ name.bytes ++ [47, Byte.newline] ++ lines)
      (pre ++ name.bytes ++ [Byte.newline]) := by
  refine ⟨fun h ↦ absurd h hfound, fun _ ↦ ?_⟩
  have hnewline : List.count 47 [Byte.newline] = 0 := by decide
  have hslash : List.count 47 [47, Byte.newline] = 1 := by decide
  simp only [List.count_append, hnewline, hslash]
  omega

theorem printsName_dir (hname : name.isSpecial = false)
    (hentry : sys.fs.entry n name.bytes = some c) (hdir : sys.fs.isDir c = true)
    (hpaths : ∀ e ∈ entries, e.path ≠ []) (hprints : ∀ path pre, Reach sys c path pre → ∃ printed,
      (∀ fuel, enough ≤ fuel →
        sys.printDirectory qsort showAll true fuel path pre = some printed) ∧
      Renders (DirsFound sys.fs showAll c path) (printShown pre entries) printed) :
    PrintsName sys qsort showAll n name
      (⟨[name], .directory⟩ :: entries.map (Shown.under name)) enough := by
  intro path pre hreach
  have hlines : printShown pre (⟨[name], .directory⟩ :: entries.map (Shown.under name)) =
      pre ++ name.bytes ++ [47, Byte.newline] ++
        printShown (pre ++ name.bytes ++ [47]) entries := by
    rw [← printShown_under hpaths]
    simp [printShown, Shown.text]
  have hbelow : sys.fs.Below n [name] c := ⟨hname, c, hentry, rfl⟩
  have hstat := stat_entry hreach.stat name
  rw [hlines]
  by_cases hfind : (path ++ 47 :: name.bytes).length < pathMax ∧ sys.fs.searchable n = true
  · rw [if_pos hfind, hentry, intoBuffer_of_lt (by omega)] at hstat
    have hsub : Reach sys c (path ++ 47 :: name.bytes) (pre ++ name.bytes ++ [47]) := by
      refine ⟨hstat, ?_⟩
      have hle := hreach.length_le
      simp only [List.length_append, List.length_cons, List.length_nil]
      omega
    obtain ⟨printed, hprinted, hrenders⟩ := hprints _ _ hsub
    refine ⟨_, fun fuel hfuel ↦ ?_, ((Renders.refl _).append hrenders).congr ?_⟩
    · rw [printName_of_dir hreach hname hstat hdir hfind.1, hprinted fuel hfuel, Option.map_some]
    · constructor
      · exact fun h ↦ ⟨trivial, (h c hbelow hdir).2.2⟩
      · rintro ⟨-, hfound⟩ d ⟨-, d, hd, rfl⟩ -
        cases hentry.symm.trans hd
        exact ⟨hfind.2, hfind.1, hfound⟩
  · rw [if_neg hfind] at hstat
    have hall : name.isSpecial = true → showAll = true := by simp [hname]
    refine ⟨_, fun fuel _ ↦ printName_of_plain hall (.inr (stat_eq_none hstat)) _,
      renders_unfound fun h ↦ hfind ?_⟩
    obtain ⟨hsearch, hshort, -⟩ := h c hbelow hdir
    exact ⟨hshort, hsearch⟩

/-- The lines of one name, if the calls for the subdirectories print theirs. -/
theorem exists_block (hpasses : Passes showAll name) (hentry : sys.fs.entry n name.bytes = some c)
    (hsub : name.isSpecial = false → sys.fs.isDir c = true →
      ∃ entries, Lists sys.fs showAll c entries ∧ Prints sys qsort showAll c entries) :
    ∃ entries enough, BlockOf sys.fs showAll n name entries ∧
      PrintsName sys qsort showAll n name entries enough := by
  cases hname : name.isSpecial with
  | true =>
    have hhidden : name.isHidden = true := by
      rcases of_decide_eq_true hname with h | h <;> simp [FileName.isHidden, h, literal]
    have hall : showAll = true := hpasses.resolve_right (by simp [hhidden])
    have hdir := sys.fs.isDir_of_entry n _ c hentry
    refine ⟨[⟨[name], .special⟩], 0,
      blockOf_singleton fun _ _ ↦ listed_cons_special hall hdir hname,
      printsName_singleton (by decide) (fun _ ↦ hall) ?_⟩
    rintro d ⟨hplain, -⟩
    cases hname.symm.trans hplain
  | false =>
    cases hdir : sys.fs.isDir c with
    | false =>
      refine ⟨[⟨[name], .file⟩], 0,
        blockOf_singleton fun _ _ ↦ listed_cons_file hpasses hname hentry hdir,
        printsName_singleton (by decide) (by simp [hname]) ?_⟩
      rintro d ⟨-, d, hd, rfl⟩
      cases hentry.symm.trans hd
      exact hdir
    | true =>
      obtain ⟨entries, hlists, enough, hprints⟩ := hsub hname hdir
      refine ⟨_, enough, blockOf_dir hpasses hname hentry hdir hlists,
        printsName_dir hname hentry hdir (fun e he ↦ ?_) hprints⟩
      exact path_ne_nil_of_listed ((hlists.mem_iff e).mp he)

/-- A bound for finitely many bounds. -/
theorem exists_forall_le {α : Type*} (bound : α → ℕ) (l : List α) :
    ∃ enough, ∀ a ∈ l, bound a ≤ enough := by
  induction l with
  | nil => exact ⟨0, by simp⟩
  | cons a _ ih =>
    obtain ⟨enough, h⟩ := ih
    refine ⟨max (bound a) enough, List.forall_mem_cons.mpr ⟨le_max_left _ _, fun b hb ↦ ?_⟩⟩
    exact (h b hb).trans (le_max_right _ _)

/-- The listing of a finite tree, by induction on the tree. -/
theorem exists_lists (hqsort : ∀ names, Sorts cmpNames names (qsort names))
    (hfinite : sys.fs.FiniteBelow n) (hdir : sys.fs.isDir n = true)
    (hreadable : ∀ q m, sys.fs.Below n q m → sys.fs.isDir m = true → (sys.fs.readdir m).isSome) :
    ∃ entries, Lists sys.fs showAll n entries ∧ Prints sys qsort showAll n entries := by
  induction hfinite with
  | intro n _ ih =>
    obtain ⟨names, hread⟩ := Option.isSome_iff_exists.mp (hreadable [] n rfl hdir)
    let shown := names.filter fun name ↦ showAll || !name.isHidden
    have hsorts := hqsort shown
    have hmem (name) : name ∈ qsort shown ↔ name ∈ names ∧ Passes showAll name := by
      rw [hsorts.perm.mem_iff, List.mem_filter]
      simp [Passes]
    have hblocks (name) (hname : name ∈ qsort shown) : ∃ entries enough,
        BlockOf sys.fs showAll n name entries ∧
          PrintsName sys qsort showAll n name entries enough := by
      obtain ⟨hin, hpasses⟩ := (hmem name).mp hname
      obtain ⟨c, hentry⟩ := Option.isSome_iff_exists.mp
        ((sys.fs.mem_readdir n names hread name).mp hin)
      refine exists_block hpasses hentry fun hplain hsub ↦ ih name c hplain hentry hsub ?_
      exact fun q m hbelow ↦ hreadable (name :: q) m ((below_cons_iff hplain hentry).mpr hbelow)
    choose! block enough hblock hprints using hblocks
    have hsorted := pairwise_nameLt ((sys.fs.nodup_readdir n names hread).filter _) hsorts
    refine ⟨(qsort shown).flatMap block, lists_flatMap hread hmem hsorted hblock, ?_⟩
    obtain ⟨bound, hbound⟩ := exists_forall_le enough (qsort shown)
    refine ⟨bound + 1, fun path pre hreach ↦ ?_⟩
    have hopen : sys.opendir path = some names := by
      rw [RevealSystem.opendir, hreach.stat, Option.bind_some, if_pos hdir, hread]
    have hloop : ∃ printed, (∀ fuel, bound ≤ fuel → RevealSystem.printLoop
          (sys.printName showAll true (sys.printDirectory qsort showAll true fuel) path pre)
          (qsort shown) = some printed) ∧
        Renders (∀ name ∈ qsort shown, NameFound sys.fs showAll n path name)
          ((qsort shown).flatMap fun name ↦ printShown pre (block name)) printed := by
      refine printLoop_renders fun name hname ↦ ?_
      obtain ⟨printed, hprinted, hrenders⟩ := hprints name hname path pre hreach
      exact ⟨printed, fun fuel hfuel ↦ hprinted fuel ((hbound name hname).trans hfuel), hrenders⟩
    obtain ⟨printed, hprinted, hrenders⟩ := hloop
    refine ⟨printed, fun fuel hfuel ↦ ?_, ?_⟩
    · obtain ⟨fuel, rfl⟩ : ∃ k, fuel = k + 1 := ⟨fuel - 1, by omega⟩
      rw [RevealSystem.printDirectory, hopen]
      exact hprinted fuel (Nat.le_of_succ_le_succ hfuel)
    · rw [printShown_flatMap]
      refine hrenders.congr (dirsFound_iff.trans ?_)
      -- There is nothing to find under a name that is not in the directory.
      refine ⟨fun h name hname ↦ h name ((hmem name).mp hname).2, fun h name hpasses c hc ↦ ?_⟩
      obtain ⟨-, d, hentry, -⟩ := id hc
      have hin : name ∈ names := (sys.fs.mem_readdir n names hread name).mpr (by rw [hentry]; rfl)
      exact h name ((hmem name).mpr ⟨hin, hpasses⟩) c hc

/-- Two complete listings have the same lines. -/
theorem count_printShown_eq {fs : FileSystem N} {entries' : List Shown}
    (h : CompleteListing fs showAll n entries) (h' : CompleteListing fs showAll n entries') :
    (printShown [] entries).count 47 = (printShown [] entries').count 47 := by
  have hperm : entries.Perm entries' :=
    (List.perm_ext_iff_of_nodup h.nodup.of_map h'.nodup.of_map).mpr fun e ↦
      (h.mem_iff e).trans (h'.mem_iff e).symm
  exact (hperm.flatMap_right _).count_eq 47

end Print

/-! ### Directories that `stat` does not find -/

/-- `/t/sub/x`. -/
inductive SubNode
  | root | t | sub | x
deriving DecidableEq

def dotName : FileName := ⟨literal ".", by decide, by decide, by decide⟩

def dotsName : FileName := ⟨literal "..", by decide, by decide, by decide⟩

def tName : FileName := ⟨literal "t", by decide, by decide, by decide⟩

def subName : FileName := ⟨literal "sub", by decide, by decide, by decide⟩

def xName : FileName := ⟨literal "x", by decide, by decide, by decide⟩

def SubNode.height : SubNode → ℕ
  | .root => 3
  | .t => 2
  | .sub => 1
  | .x => 0

def subEntries : SubNode → List (FileName × SubNode)
  | .root => [(dotName, .root), (dotsName, .root), (tName, .t)]
  | .t => [(dotsName, .root), (subName, .sub), (dotName, .t)]
  | .sub => [(dotName, .sub), (xName, .x), (dotsName, .t)]
  | .x => []

/-- The tree of `/t/sub/x`, in which all directories are readable; `searchable` says whether the
process may search `/t`. -/
def subTree (searchable : Bool) : FileSystem SubNode where
  root := .root
  isDir n := n ≠ .x
  entry n name := ((subEntries n).find? (·.1.bytes = name)).map Prod.snd
  searchable n := n ≠ .t || searchable
  readdir n := some ((subEntries n).map Prod.fst)
  isDir_root := rfl
  isDir_of_entry n name m h := by
    cases n with
    | x => cases h
    | root | t | sub => rfl
  special n h := by
    cases n with
    | x => cases h
    | root | t | sub => decide
  nodup_readdir n names h := by
    cases h
    cases n <;> decide
  mem_readdir n names h name := by
    cases h
    rw [Option.isSome_map, List.find?_isSome, List.mem_map]
    simp only [decide_eq_true_eq, FileName.ext_iff]

/-- The working directory is `/t`. -/
def subSystem (searchable : Bool) : RevealSystem SubNode where
  fs := subTree searchable
  cwd := .t
  getcwd := some (CString.ofBytes _ (literal "/t"))
  hopHome := CString.ofBytes _ (literal "/")
  hopPrevious := CString.ofBytes _ []

section SubTree

variable {name : FileName}

theorem mem_subEntries_of_entry {n c : SubNode}
    (h : (subTree searchable).entry n name.bytes = some c) : (name, c) ∈ subEntries n := by
  obtain ⟨p, hp, rfl⟩ := Option.map_eq_some_iff.mp h
  have hname : p.1 = name := FileName.ext (by simpa using List.find?_some hp)
  exact hname ▸ List.mem_of_find?_eq_some hp

theorem entry_subTree {n c : SubNode} (hplain : name.isSpecial = false)
    (h : (subTree searchable).entry n name.bytes = some c) :
    (n = .root ∧ name = tName ∧ c = .t) ∨ (n = .t ∧ name = subName ∧ c = .sub) ∨
      (n = .sub ∧ name = xName ∧ c = .x) := by
  have hdot : name ≠ dotName := by
    rintro rfl
    exact absurd hplain (by decide)
  have hdots : name ≠ dotsName := by
    rintro rfl
    exact absurd hplain (by decide)
  have hmem := mem_subEntries_of_entry h
  cases n with
  | x => cases hmem
  | root | t | sub => simpa [subEntries, hdot, hdots] using hmem

theorem finiteBelow_subTree (n : SubNode) : (subTree searchable).FiniteBelow n := by
  refine finiteBelow_of_height SubNode.height (fun n name c hplain hentry ↦ ?_) n
  rcases entry_subTree hplain hentry with ⟨rfl, -, rfl⟩ | ⟨rfl, -, rfl⟩ | ⟨rfl, -, rfl⟩ <;> decide

/-- The paths below `/t`. -/
theorem path_of_below_t {m : SubNode} (h : (subTree searchable).Below .t q m) :
    q = [] ∨ q = [subName] ∨ q = [subName, xName] := by
  cases q with
  | nil => exact .inl rfl
  | cons name q =>
    obtain ⟨hplain, c, hentry, hbelow⟩ := h
    rcases entry_subTree hplain hentry with ⟨h, -⟩ | ⟨-, rfl, rfl⟩ | ⟨h, -⟩
    · cases h
    · cases q with
      | nil => exact .inr (.inl rfl)
      | cons name q =>
        obtain ⟨hplain, c, hentry, hbelow⟩ := hbelow
        rcases entry_subTree hplain hentry with ⟨h, -⟩ | ⟨h, -⟩ | ⟨-, rfl, rfl⟩
        · cases h
        · cases h
        · cases q with
          | nil => exact .inr (.inr rfl)
          | cons name q => exact absurd hbelow (not_below_cons_of_file rfl)
    · cases h

theorem length_of_below_t {limit : ℕ} (htarget : target.length + 6 < limit) {m : SubNode}
    (h : (subTree searchable).Below .t q m) :
    (target ++ q.flatMap (47 :: ·.bytes)).length < limit := by
  have hsub : (47 :: subName.bytes).length = 4 := rfl
  have hx : (47 :: xName.bytes).length = 2 := rfl
  rcases path_of_below_t h with rfl | rfl | rfl <;>
  simp only [List.flatMap_cons, List.flatMap_nil, List.length_append, List.length_nil, hsub, hx] <;>
  omega

end SubTree

theorem slash_mem_printShown (he : e ∈ entries) (hkind : e.kind = .directory) :
    47 ∈ printShown pre entries := by
  refine List.mem_flatMap.mpr ⟨e, he, ?_⟩
  simp [Shown.text, hkind]

/-- If `stat` does not find `sub`, it is printed like a file. -/
theorem printDirectory_subTree (hstat : (subSystem searchable).stat target = some .t)
    (hfails : (subSystem searchable).statIsDir (intoBuffer (target ++ 47 :: subName.bytes)) = false)
    (fuel : ℕ) :
    (subSystem searchable).printDirectory (sortBy cmpNames) false true (fuel + 1) target [] =
      some (literal "sub\n") := by
  have hopen : (subSystem searchable).opendir target = some [dotsName, subName, dotName] := by
    rw [RevealSystem.opendir, hstat]
    rfl
  have hsorted : (sortBy cmpNames (([dotsName, subName, dotName] : List FileName).filter
      fun name ↦ false || !name.isHidden)) = [subName] := by decide
  rw [RevealSystem.printDirectory, hopen]
  simp only [hsorted, RevealSystem.printLoop]
  rw [printName_of_plain (fun h ↦ absurd h (by decide)) (.inr hfails)]
  rfl

/-- No complete listing of `/t` is this text. -/
theorem printShown_ne_of_complete (h : CompleteListing (subTree searchable) false .t entries) :
    printShown [] entries ≠ literal "sub\n" := by
  have hlisted : Listed (subTree searchable) false .t [subName] .directory :=
    ⟨by decide, .inr (by decide), .sub, ⟨by decide, .sub, rfl, rfl⟩, rfl⟩
  intro heq
  have hslash : 47 ∈ printShown [] entries :=
    slash_mem_printShown ((h.mem_iff ⟨[subName], .directory⟩).mpr hlisted) rfl
  rw [heq] at hslash
  exact absurd hslash (by decide)

/-- `././ ... /.`, with `k` slashes. -/
def dots : ℕ → List Byte
  | 0 => [46]
  | k + 1 => 46 :: 47 :: dots k

theorem length_dots (k : ℕ) : (dots k).length = 2 * k + 1 := by
  induction k with
  | zero => rfl
  | succ _ ih =>
    rw [dots, List.length_cons, List.length_cons, ih]
    omega

theorem head?_dots (k : ℕ) : (dots k).head? = some 46 := by
  cases k with
  | zero | succ => rfl

/-- Each of them is a name of the working directory, as long as it is short enough. -/
theorem stat_dots (hk : 2 * k + 1 < 4096) : (subSystem true).stat (dots k) = some .t := by
  have hwalk : (subTree true).tree.walk .t (components (dots k)) = some .t := by
    clear hk
    induction k with
    | zero => rfl
    | succ _ ih =>
      rw [dots, components_cons (by decide), components_slash]
      exact ih
  have hne : dots k ≠ [] := by
    intro hnil
    have hhead := head?_dots k
    rw [hnil] at hhead
    cases hhead
  have hslash : (dots k).head? ≠ some 47 := by
    rw [head?_dots]
    decide
  have hmax : pathMax = 4096 := rfl
  have hshort : ¬ pathMax ≤ (dots k).length := by
    rw [length_dots]
    omega
  rwa [RevealSystem.stat, if_neg hshort, FileTree.resolve, if_neg hne, if_neg hslash]

theorem revealTarget_dots {N : Type*} (sys : RevealSystem N) (hk : 2 * k + 3 < 8192) :
    revealTarget sys (some (dots (k + 1))) = .ok (dots (k + 1)) := by
  have hdot : dots (k + 1) ≠ literal "." := fun h ↦ List.cons_ne_nil _ _ (List.cons.inj h).2
  have hhead (c : Byte) (rest : List Byte) (hc : c ≠ 46) : dots (k + 1) ≠ c :: rest :=
    fun h ↦ hc (List.cons.inj h).1.symm
  have htilde : dots (k + 1) ≠ literal "~" := hhead 126 [] (by decide)
  have hminus : dots (k + 1) ≠ literal "-" := hhead 45 [] (by decide)
  have hhome : ¬ literal "~/" <+: dots (k + 1) := by
    rintro ⟨rest, h⟩
    exact hhead 126 _ (by decide) h.symm
  have hfits : intoBuffer (dots (k + 1)) = dots (k + 1) := by
    refine intoBuffer_of_lt ?_
    have hmax : pathMax = 4096 := rfl
    rw [length_dots]
    omega
  rw [revealTarget, Option.getD_some, if_neg hdot, if_neg htilde, if_neg hhome, if_neg hminus,
    hfits]

end Irish.Shell
