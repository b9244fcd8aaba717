import Irish.Library.FormattedIO
import Irish.Library.KeyedTable
import Irish.Shell.Lexer

/-!
# The frecency database

`src/hop.c`: the table of visited directories and the file it is kept in. `saveDb` prints an entry
as a line; `loadDb` reads the file with `fgets`, cuts each line at the first carriage return or
newline, and takes it apart with `sscanf`.

The table is read back as it was written exactly when no path has a carriage return or a newline in
it (`loadDb_saveDb_iff`). The length of the buffer and the width of the path in the format are
enough for every path and all values of the counters.

`fopen` may fail in `loadDb`. What is written to the file arrives there.
-/

set_option autoImplicit false

namespace Irish.Shell

open Library

/-! ### The table -/

/-- `MAX_ENTRY`. -/
def maxEntry : ℕ := 1024

/-- `PATH_MAX`. -/
def pathMax : ℕ := 4096

@[ext]
structure Entry where
  path : CString (pathMax - 1)
  visits : UInt64
  lastVisit : Int64
deriving DecidableEq, Repr

/-- `entries` and `entry_count`. -/
@[ext]
structure Frecency where
  entries : List Entry
  bounded : entries.length ≤ maxEntry
deriving DecidableEq, Repr

namespace Frecency

def empty : Frecency := ⟨[], Nat.zero_le _⟩

/-- Store an entry at `entry_count`. -/
def push (db : Frecency) (e : Entry) (h : db.entries.length < maxEntry) : Frecency :=
  ⟨db.entries ++ [e], by simpa using h⟩

end Frecency

/-- The fields that `update_entry` writes when it finds the path. -/
def visit (now : Int64) (e : Entry) : Entry := { e with visits := e.visits + 1, lastVisit := now }

/-- The loop of `update_entry`. A table without the path is left alone. -/
def visitFirst (path : CString (pathMax - 1)) (now : Int64) : List Entry → List Entry
  | [] => []
  | e :: rest => if e.path = path then visit now e :: rest else e :: visitFirst path now rest

theorem visitFirst_eq (path : CString (pathMax - 1)) (now : Int64) (entries : List Entry) :
    visitFirst path now entries = updateFirst Entry.path path (visit now) entries := by
  induction entries with
  | nil => rfl
  | cons _ _ ih => rw [visitFirst, updateFirst, ih]

theorem length_visitFirst (path : CString (pathMax - 1)) (now : Int64) (entries : List Entry) :
    (visitFirst path now entries).length = entries.length := by
  rw [visitFirst_eq, length_updateFirst]

/-- `update_entry`, without the call of `save_db`. The paths are results of `getcwd`, so that
`strncpy` copies them whole. -/
def updateEntry (path : CString (pathMax - 1)) (now : Int64) (db : Frecency) : Frecency :=
  if ∃ e ∈ db.entries, e.path = path then
    ⟨visitFirst path now db.entries, (length_visitFirst path now _).trans_le db.bounded⟩
  else if h : db.entries.length < maxEntry then db.push ⟨path, 1, now⟩ h
  else db

/-! ### The file -/

/-- `"%lu %ld "`. -/
def printFields (e : Entry) : List Byte :=
  printUnsigned e.visits ++ Byte.space :: (printSigned e.lastVisit ++ [Byte.space])

/-- `"%lu %ld %s\n"`. -/
def printEntry (e : Entry) : List Byte := printFields e ++ e.path.text ++ [Byte.newline]

/-- What `save_db` writes. -/
def saveDb (db : Frecency) : List Byte := db.entries.flatMap printEntry

/-- A byte at which `strcspn(line, "\r\n")` does not stop. -/
def inLine (c : Byte) : Bool := c ≠ Byte.nul ∧ c ≠ Byte.carriageReturn ∧ c ≠ Byte.newline

/-- `line[strcspn(line, "\r\n")] = '\0'`. -/
def cutLine (line : List Byte) : List Byte := line.takeWhile inLine

/-- `sscanf(line, "%lu %ld %4095[^\n]", ...)`. -/
def scanEntry (line : List Byte) : Option Entry := do
  let (visits, rest) ← scanUnsigned line
  let (lastVisit, rest) ← scanSigned (skipSpace rest)
  let (path, _) ← scanSet 4095 (· ≠ Byte.newline) (skipSpace rest)
  return ⟨CString.ofBytes (pathMax - 1) path, visits, lastVisit⟩

/-- The loop of `load_db`. -/
def loadLoop : List (List Byte) → Frecency → Frecency
  | [], db => db
  | line :: rest, db =>
    if h : db.entries.length < maxEntry then
      match scanEntry (cutLine line) with
      | none => loadLoop rest db
      | some e => loadLoop rest (db.push e h)
    else db

/-- `load_db`. The file is `none` if `fopen` fails. -/
def loadDb (file : Option (List Byte)) (db : Frecency) : Frecency :=
  match file with
  | none => db
  | some bytes => loadLoop (fgetsAll (pathMax + 128) bytes) .empty

/-! ### One entry -/

/-- A path as `getcwd` returns it, apart from what holds of every string in the array. -/
def Entry.Absolute (e : Entry) : Prop := e.path.text.head? = some 47

instance (e : Entry) : Decidable e.Absolute := inferInstanceAs (Decidable (_ = _))

/-- The path has no byte at which `load_db` cuts the line. -/
def Entry.Plain (e : Entry) : Prop :=
  Byte.newline ∉ e.path.text ∧ Byte.carriageReturn ∉ e.path.text

instance (e : Entry) : Decidable e.Plain := inferInstanceAs (Decidable (_ ∧ _))

/-- What `load_db` reads of the path. -/
def Entry.readPath (e : Entry) : List Byte := e.path.text.takeWhile inLine

variable {e : Entry} {c : Byte}

theorem inLine_of_mem_printFields (hc : c ∈ printFields e) : inLine c = true := by
  have hdigit (h : isDigit c = true) : inLine c = true := by
    simp only [isDigit, inLine, Byte.nul, Byte.carriageReturn, Byte.newline, decide_eq_true_eq,
      UInt8.le_iff_toNat_le, ne_eq, ← UInt8.toNat_inj, UInt8.reduceToNat] at h ⊢
    omega
  simp only [printFields, List.mem_append, List.mem_cons, List.not_mem_nil, or_false] at hc
  rcases hc with hc | rfl | hc | rfl
  · exact hdigit (isDigit_of_mem_printNat hc)
  · decide
  · rcases of_mem_printSigned hc with h | rfl
    · exact hdigit h
    · decide
  · decide

theorem length_printFields_le (e : Entry) : (printFields e).length ≤ 42 := by
  have hvisits := length_printUnsigned_le e.visits
  have hlast := length_printSigned_le e.lastVisit
  simp only [printFields, List.length_append, List.length_cons, List.length_nil]
  omega

theorem readPath_eq_iff (e : Entry) : e.readPath = e.path.text ↔ e.Plain := by
  unfold Entry.readPath Entry.Plain
  rw [List.takeWhile_eq_self_iff]
  constructor
  · intro h
    refine ⟨fun hmem ↦ ?_, fun hmem ↦ ?_⟩
    · exact absurd (h _ hmem) (by decide)
    · exact absurd (h _ hmem) (by decide)
  · rintro ⟨hnewline, hreturn⟩ c hc
    have hnul : c ≠ 0 := fun h ↦ e.path.nulFree (h ▸ hc)
    have hn : c ≠ Byte.newline := fun h ↦ hnewline (h ▸ hc)
    have hr : c ≠ Byte.carriageReturn := fun h ↦ hreturn (h ▸ hc)
    simp [inLine, hnul, hn, hr]

theorem head?_readPath (h : e.Absolute) : e.readPath.head? = some 47 := by
  obtain ⟨rest, heq⟩ := List.head?_eq_some_iff.mp h
  rw [Entry.readPath, heq, List.takeWhile_cons_of_pos (by decide)]
  rfl

/-- `sscanf` finds the three fields again. -/
theorem scanEntry_printFields (e : Entry) (h : e.Absolute) :
    scanEntry (printFields e ++ e.readPath) =
      some ⟨CString.ofBytes (pathMax - 1) e.readPath, e.visits, e.lastVisit⟩ := by
  have hspace (rest : List Byte) : NoDigit (Byte.space :: rest) := by
    rintro c ⟨⟩
    decide
  have hhead := head?_readPath h
  have hne : e.readPath ≠ [] := by
    intro hnil
    rw [hnil] at hhead
    cases hhead
  have hshort : e.readPath.length ≤ 4095 :=
    (List.takeWhile_prefix _).length_le.trans e.path.short
  have hset : ∀ c ∈ e.readPath, decide (c ≠ Byte.newline) = true := by
    intro c hc
    have hin := List.mem_takeWhile_imp hc
    simp only [inLine, decide_eq_true_eq] at hin ⊢
    exact hin.2.2
  obtain ⟨c, more, hsigned, hc⟩ := exists_printSigned e.lastVisit
  have hskip (rest : List Byte) : skipSpace (Byte.space :: (printSigned e.lastVisit ++ rest)) =
      printSigned e.lastVisit ++ rest := by
    rw [skipSpace_space]
    exact skipSpace_of_head (by rw [hsigned]; rfl) hc
  have hpath : skipSpace (Byte.space :: e.readPath) = e.readPath := by
    rw [skipSpace_space]
    exact skipSpace_of_head hhead (by decide)
  have hline : printFields e ++ e.readPath = printUnsigned e.visits ++ Byte.space ::
      (printSigned e.lastVisit ++ Byte.space :: e.readPath) := by
    simp [printFields]
  simp only [scanEntry, hline, scanUnsigned_printUnsigned _ (hspace _), Option.bind_eq_bind,
    Option.bind_some, hskip, scanSigned_printSigned _ (hspace _), hpath,
    scanSet_of_forall hne hshort hset, Option.pure_def]

theorem cutLine_append (line : List Byte) : cutLine (line ++ [Byte.newline]) = cutLine line := by
  unfold cutLine
  rw [List.takeWhile_append]
  split_ifs with hall
  · have hline : line.takeWhile inLine = line :=
      (List.takeWhile_prefix inLine).eq_of_length hall
    simp [hline, inLine]
  · rfl

theorem cutLine_takeWhile (text : List Byte) :
    cutLine (text.takeWhile (· ≠ Byte.newline)) = cutLine text := by
  unfold cutLine
  rw [List.takeWhile_takeWhile]
  congr 1
  funext c
  simp only [inLine]
  grind

/-- The next line that `fgets` reads, for an entry with any bytes in its path. What follows is the
file behind the entry unless the path has a newline. -/
theorem fgetsAll_printEntry (e : Entry) (file : List Byte) :
    ∃ line rest, fgetsAll (pathMax + 128) (printEntry e ++ file) =
        line :: fgetsAll (pathMax + 128) rest ∧
      cutLine line = printFields e ++ e.readPath ∧
      (Byte.newline ∉ e.path.text → rest = file) := by
  obtain ⟨rest, hrest, hsame⟩ := exists_first_line Byte.newline e.path.text file
  have hfile : printEntry e ++ file = printFields e ++
      e.path.text.takeWhile (· ≠ Byte.newline) ++ Byte.newline :: rest := by
    rw [List.append_assoc, ← hrest, printEntry]
    simp
  have hpath : (e.path.text.takeWhile (· ≠ Byte.newline)).length ≤ 4095 :=
    (List.takeWhile_prefix _).length_le.trans e.path.short
  have hfields := length_printFields_le e
  have hnewline : Byte.newline ∉ printFields e ++ e.path.text.takeWhile (· ≠ Byte.newline) := by
    intro hmem
    rcases List.mem_append.mp hmem with hmem | hmem
    · exact absurd (inLine_of_mem_printFields hmem) (by decide)
    · simpa using List.mem_takeWhile_imp hmem
  refine ⟨printFields e ++ e.path.text.takeWhile (· ≠ Byte.newline) ++ [Byte.newline], rest, ?_, ?_,
    hsame⟩
  · rw [hfile]
    refine fgetsFrom_line [] rest ?_ hnewline
    simp only [List.length_nil, List.length_append, pathMax]
    omega
  · rw [cutLine_append, cutLine,
      List.takeWhile_append_of_pos fun c hc ↦ inLine_of_mem_printFields hc]
    congr 1
    exact cutLine_takeWhile e.path.text

/-! ### The round trip -/

/-- The entry that `load_db` makes of the line of an entry. -/
def Entry.reread (e : Entry) : Entry :=
  ⟨CString.ofBytes (pathMax - 1) e.readPath, e.visits, e.lastVisit⟩

theorem reread_eq_iff (e : Entry) : e.reread = e ↔ e.Plain := by
  have hnul : 0 ∉ e.readPath := fun h ↦ e.path.nulFree ((List.takeWhile_prefix _).subset h)
  have hshort : e.readPath.length ≤ pathMax - 1 :=
    (List.takeWhile_prefix _).length_le.trans e.path.short
  rw [← readPath_eq_iff, Entry.ext_iff, CString.ext_iff]
  simp only [Entry.reread, CString.text_ofBytes hnul hshort, and_self, and_true]

/-- `load_db` only adds to the table. -/
theorem exists_loadLoop (lines : List (List Byte)) (db : Frecency) :
    ∃ more, (loadLoop lines db).entries = db.entries ++ more := by
  induction lines generalizing db with
  | nil => exact ⟨[], by simp [loadLoop]⟩
  | cons line rest ih =>
    rw [loadLoop]
    split_ifs with hroom
    · split
      · exact ih db
      · rename_i e _
        obtain ⟨more, hmore⟩ := ih (db.push e hroom)
        exact ⟨e :: more, by rw [hmore]; simp [Frecency.push]⟩
    · exact ⟨[], by simp⟩

/-- The loop on the lines of some entries, when there is room for them. -/
theorem loadLoop_printEntries (entries : List Entry) (db : Frecency)
    (hroom : db.entries.length + entries.length ≤ maxEntry) (habs : ∀ e ∈ entries, e.Absolute) :
    (loadLoop (fgetsAll (pathMax + 128) (entries.flatMap printEntry)) db).entries =
      db.entries ++ entries ↔ ∀ e ∈ entries, e.Plain := by
  induction entries generalizing db with
  | nil => simp [fgetsAll, fgetsFrom, loadLoop]
  | cons e entries ih =>
    obtain ⟨line, rest, hread, hcut, hrest⟩ := fgetsAll_printEntry e (entries.flatMap printEntry)
    rw [List.length_cons] at hroom
    have hlt : db.entries.length < maxEntry := by omega
    have hstep : loadLoop (fgetsAll (pathMax + 128) ((e :: entries).flatMap printEntry)) db =
        loadLoop (fgetsAll (pathMax + 128) rest) (db.push e.reread hlt) := by
      rw [List.flatMap_cons, hread, loadLoop, dif_pos hlt, hcut,
        scanEntry_printFields e (habs e List.mem_cons_self)]
      rfl
    rw [hstep, List.forall_mem_cons]
    by_cases hplain : e.Plain
    · rw [hrest hplain.1, (reread_eq_iff e).mpr hplain]
      have hpush : (db.push e hlt).entries = db.entries ++ [e] := rfl
      have hih := ih (db.push e hlt)
        (by rw [hpush, List.length_append, List.length_singleton]; omega)
        fun x hx ↦ habs x (List.mem_cons_of_mem _ hx)
      rw [hpush, List.append_assoc, List.singleton_append] at hih
      rw [hih]
      exact ⟨fun h ↦ ⟨hplain, h⟩, fun h ↦ h.2⟩
    · -- The entry that is read has a shorter path, and it stays in the table.
      refine ⟨fun heq ↦ ?_, fun h ↦ absurd h.1 hplain⟩
      obtain ⟨more, hmore⟩ := exists_loadLoop (fgetsAll (pathMax + 128) rest)
        (db.push e.reread hlt)
      rw [hmore, Frecency.push, List.append_assoc, List.singleton_append] at heq
      have hsame : e.reread = e := (List.cons.inj (List.append_cancel_left heq)).1
      exact absurd ((reread_eq_iff e).mp hsame) hplain

/-- The round trip of the database, for every table of absolute paths, with any counters: what
`load_db` reads from the file that `save_db` wrote is the table, exactly when no path has a carriage
return or a newline in it. -/
theorem loadDb_saveDb_iff (db before : Frecency) (habs : ∀ e ∈ db.entries, e.Absolute) :
    loadDb (some (saveDb db)) before = db ↔ ∀ e ∈ db.entries, e.Plain := by
  have hloop := loadLoop_printEntries db.entries .empty (by simpa [Frecency.empty] using db.bounded)
    habs
  rw [Frecency.ext_iff, ← hloop]
  rfl

/-- Two directories, one of which has white space at both ends of its name. The counter and the time
take up the whole width. -/
def visitedDirs : Frecency :=
  ⟨[⟨CString.ofBytes _ [47, 32, 97, 9], 0xffffffffffffffff, Int64.minValue⟩,
    ⟨CString.ofBytes _ [47], 1, 1760000000⟩], by decide⟩

theorem loadDb_saveDb_visitedDirs : (∀ e ∈ visitedDirs.entries, e.Absolute) ∧
    loadDb (some (saveDb visitedDirs)) .empty = visitedDirs :=
  ⟨by decide, (loadDb_saveDb_iff visitedDirs .empty (by decide)).mpr (by decide)⟩

/-- A hop into a directory with a newline in its name, in an empty table. -/
def newlineDir : Frecency := updateEntry (CString.ofBytes _ [47, 97, 10, 98]) 1760000000 .empty

theorem loadDb_saveDb_newlineDir : (∀ e ∈ newlineDir.entries, e.Absolute) ∧
    loadDb (some (saveDb newlineDir)) .empty ≠ newlineDir := by
  decide +kernel

end Irish.Shell
