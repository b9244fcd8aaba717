import Irish.Shell.Frecency

/-!
# The `hop` builtin

`src/hop.c` without the database file, which is in `Frecency`. The file system and the clock are a
state of any type and calls on it that return anything and may change it in any way: nothing is
assumed about what other processes do between two calls.

Every argument of a `hop` makes at most one change of directory. What a sequence of commands does to
the table and to `previous_dir` is determined by the successful changes it makes
(`MovedBy`, kept by each branch and composed along a run), and the table is a table with a key in
the sense of `KeyedTable`. From this the bookkeeping of any sequence of commands follows
(`hop_bookkeeping`).

A change of directory ends in the path that `getcwd` reports behind it. That two consecutive `hop -`
lead back to the directory they started from, and not only to its path, needs that the path still
leads there.
-/

set_option autoImplicit false

namespace Irish.Shell

open Library

/-! ### The table as a table with a key -/

theorem entries_updateEntry (path : CString (pathMax - 1)) (now : Int64) (db : Frecency) :
    (updateEntry path now db).entries =
      upsert Entry.path maxEntry path (visit now) ⟨path, 1, now⟩ db.entries := by
  have hfound : (∃ e ∈ db.entries, e.path = path) ↔ path ∈ db.entries.map Entry.path :=
    List.mem_map.symm
  by_cases hmem : path ∈ db.entries.map Entry.path
  · rw [updateEntry, if_pos (hfound.mpr hmem), upsert, if_pos hmem]
    exact visitFirst_eq path now db.entries
  · rw [updateEntry, if_neg (mt hfound.mp hmem), upsert, if_neg hmem]
    split_ifs <;> rfl

theorem path_visit (now : Int64) (e : Entry) : (visit now e).path = e.path := rfl

/-! ### The calls and the state -/

/-- The calls of the system that `hop` makes. `existsDir` is `exists_dir`; `writeDb` is `fopen`,
the `fprintf`s and `fclose` of `save_db`. -/
structure HopCalls (σ : Type*) where
  getcwd : σ → Option (CString (pathMax - 1)) × σ
  chdir : List Byte → σ → Bool × σ
  existsDir : List Byte → σ → Bool × σ
  time : σ → Int64 × σ
  writeDb : List Byte → σ → σ

/-- A successful change of directory: the working directory before it, the argument of `chdir`, and
the working directory after it with the time at which `update_entry` is called. -/
structure DirChange where
  before : CString (pathMax - 1)
  target : List Byte
  after : Option (CString (pathMax - 1) × Int64)
deriving DecidableEq

/-- `changes` is not a variable of the program: it has one member for each call of `chdir` that
succeeds (`performCd_cases`). -/
structure HopState (σ : Type*) where
  shellHome : CString (pathMax - 1)
  previousDir : CString (pathMax - 1)
  db : Frecency
  world : σ
  printed : List Byte
  changes : List DirChange

variable {σ : Type*} {db : Frecency} {i : ℕ} {e : Entry} {c : DirChange}
  {path : CString (pathMax - 1)}

def HopState.puts (message : List Byte) (s : HopState σ) : HopState σ :=
  { s with printed := s.printed ++ message ++ [Byte.newline] }

section Builtin

variable (calls : HopCalls σ)

/-- `update_entry`. The clock is read, and the file written, unless the path would have to be added
to a full table. -/
def HopState.updateEntry (path : CString (pathMax - 1)) (s : HopState σ) : HopState σ :=
  if path ∈ s.db.entries.map Entry.path ∨ s.db.entries.length < maxEntry then
    let (now, w) := calls.time s.world
    let db := Shell.updateEntry path now s.db
    { s with db := db, world := calls.writeDb (saveDb db) w }
  else s

/-- `perform_cd`: whether it returns 0. -/
def performCd (target : List Byte) (s : HopState σ) : Bool × HopState σ :=
  match calls.getcwd s.world with
  | (none, w) => (false, { s with world := w })
  | (some cwd, w) =>
    match calls.chdir target w with
    | (false, w) => (false, { s with world := w })
    | (true, w) =>
      match calls.getcwd w with
      | (none, w) =>
        (true, { s with
          previousDir := cwd, world := w, changes := s.changes ++ [⟨cwd, target, none⟩] })
      | (some newCwd, w) =>
        (true, HopState.updateEntry calls newCwd { s with
          previousDir := cwd
          world := w
          changes := s.changes ++ [⟨cwd, target, some (newCwd, (calls.time w).1)⟩] })

/-- `if (perform_cd(target) != 0) puts("hop: no such directory");`. -/
def tryCd (target : List Byte) (s : HopState σ) : HopState σ :=
  match performCd calls target s with
  | (true, s) => s
  | (false, s) => s.puts (literal "hop: no such directory")

section Search

variable {Double : Type*} [Add Double] [Div Double] [IntCast Double] [LT Double]
  [DecidableLT Double]

variable (Double) in
/-- `score`, at the time `now`. -/
def score (now : Int64) (e : Entry) : Double :=
  let age : Double := ((now.toInt - e.lastVisit.toInt : ℤ) : Double) / ((3600 : ℤ) : Double)
  let age := if age < ((0 : ℤ) : Double) then ((0 : ℤ) : Double) else age
  ((e.visits.toNat : ℤ) : Double) / (((1 : ℤ) : Double) + age)

/-- The loop of `search_frecency`; `found` is the entry at `best_idx`. -/
def searchLoop (name : List Byte) : List Entry → Double → Option Entry → σ → Option Entry × σ
  | [], _, found, w => (found, w)
  | e :: rest, best, found, w =>
    if name <:+: e.path.text then
      match calls.existsDir e.path.text w with
      | (false, w) => searchLoop name rest best found w
      | (true, w) =>
        match calls.time w with
        | (now, w) =>
          if best < score Double now e then searchLoop name rest (score Double now e) (some e) w
          else searchLoop name rest best found w
    else searchLoop name rest best found w

variable (Double)

/-- `search_frecency`: the path found. -/
def searchFrecency (name : List Byte) (s : HopState σ) :
    Option (CString (pathMax - 1)) × HopState σ :=
  match searchLoop calls name s.db.entries ((-1 : ℤ) : Double) none s.world with
  | (found, w) => (found.map Entry.path, { s with world := w })

/-- The body of the loop of `hop_builtin` behind the test for `~/`. -/
def hopRest (arg : List Byte) (s : HopState σ) : HopState σ :=
  if arg = literal "." then s
  else if arg = literal ".." then tryCd calls (literal "..") s
  else if arg = literal "-" then
    if s.previousDir.text = [] then s else tryCd calls s.previousDir.text s
  else
    match calls.existsDir arg s.world with
    | (true, w) => tryCd calls arg { s with world := w }
    | (false, w) =>
      match searchFrecency calls Double arg { s with world := w } with
      | (some path, s) => tryCd calls path.text s
      | (none, s) => s.puts (literal "hop: no such directory")

/-- The body of the loop of `hop_builtin`. -/
def hopArg (arg : List Byte) (s : HopState σ) : HopState σ :=
  if arg = literal "~" then tryCd calls s.shellHome.text s
  else if literal "~/" <+: arg then
    let expanded := (s.shellHome.text ++ 47 :: arg.drop 2).take (pathMax * 2 - 1)
    match calls.existsDir expanded s.world with
    | (true, w) => tryCd calls expanded { s with world := w }
    | (false, w) => hopRest calls Double arg { s with world := w }
  else hopRest calls Double arg s

/-- `hop_builtin`, for the arguments behind the name of the command. -/
def hopBuiltin (args : List (List Byte)) (s : HopState σ) : HopState σ :=
  if args = [] then tryCd calls s.shellHome.text s
  else args.foldl (fun s arg ↦ hopArg calls Double arg s) s

/-- `hop_init`, with the contents of the file at `db_path`. -/
def hopInit (home : Option (List Byte)) (file : Option (List Byte)) (w : σ) : HopState σ :=
  match home with
  | some home => ⟨CString.ofBytes _ home, CString.ofBytes _ [], loadDb file .empty, w, [], []⟩
  | none =>
    match calls.getcwd w with
    | (some cwd, w) => ⟨cwd, CString.ofBytes _ [], loadDb file .empty, w, [], []⟩
    | (none, w) =>
      ⟨CString.ofBytes _ (literal "/"), CString.ofBytes _ [], loadDb file .empty, w, [], []⟩

/-- A sequence of `hop` commands. -/
def hopRun (commands : List (List (List Byte))) (s : HopState σ) : HopState σ :=
  commands.foldl (fun s args ↦ hopBuiltin calls Double args s) s

end Search

end Builtin

/-! ### What a change of directory does to the table -/

namespace DirChange

/-- The path in which the change ends. -/
def endPath (c : DirChange) : Option (CString (pathMax - 1)) := c.after.map Prod.fst

/-- What `update_entry` does behind the change. -/
def record (db : Frecency) (c : DirChange) : Frecency :=
  match c.after with
  | none => db
  | some (path, now) => updateEntry path now db

end DirChange

/-- The table after a sequence of changes. -/
def tableAfter (log : List DirChange) (db : Frecency) : Frecency := log.foldl DirChange.record db

/-- The number of changes that end in a path. -/
def changesTo (path : CString (pathMax - 1)) (log : List DirChange) : ℕ :=
  log.countP (·.endPath = some path)

theorem tableAfter_append (log log' : List DirChange) (db : Frecency) :
    tableAfter (log ++ log') db = tableAfter log' (tableAfter log db) :=
  List.foldl_append

theorem entries_tableAfter (log : List DirChange) (db : Frecency) :
    (tableAfter log db).entries = (log.filterMap DirChange.after).foldl
      (fun t a ↦ upsert Entry.path maxEntry a.1 (visit a.2) ⟨a.1, 1, a.2⟩ t) db.entries := by
  induction log generalizing db with
  | nil => rfl
  | cons c log ih =>
    have hstep : tableAfter (c :: log) db = tableAfter log (c.record db) := rfl
    rw [hstep, ih]
    cases hafter : c.after with
    | none => rw [List.filterMap_cons_none hafter, DirChange.record, hafter]
    | some a =>
      rw [List.filterMap_cons_some hafter, List.foldl_cons, DirChange.record, hafter,
        entries_updateEntry]

theorem nodup_tableAfter (log : List DirChange) (hnodup : (db.entries.map Entry.path).Nodup) :
    ((tableAfter log db).entries.map Entry.path).Nodup := by
  induction log generalizing db with
  | nil => exact hnodup
  | cons _ _ ih =>
    refine ih ?_
    unfold DirChange.record
    split
    · exact hnodup
    · rw [entries_updateEntry]
      exact nodup_upsert (path_visit _) rfl hnodup

theorem path_foldl_visit (times : List Int64) (e : Entry) :
    (times.foldl (fun e now ↦ visit now e) e).path = e.path := by
  induction times generalizing e with
  | nil => rfl
  | cons now _ ih => exact ih (visit now e)

theorem visits_foldl_visit (times : List Int64) (e : Entry) :
    (times.foldl (fun e now ↦ visit now e) e).visits = e.visits + UInt64.ofNat times.length := by
  induction times generalizing e with
  | nil => exact (UInt64.add_zero _).symm
  | cons _ _ ih =>
    rw [List.foldl_cons, ih, List.length_cons, Nat.add_comm, UInt64.ofNat_add, ← UInt64.add_assoc]
    rfl

/-- The times at which the changes to a path end. -/
def timesAt (path : CString (pathMax - 1)) (log : List DirChange) : List Int64 :=
  ((log.filterMap DirChange.after).filter (·.1 = path)).map Prod.snd

theorem length_timesAt (path : CString (pathMax - 1)) (log : List DirChange) :
    (timesAt path log).length = changesTo path log := by
  unfold timesAt changesTo
  rw [List.length_map, ← List.countP_eq_length_filter, List.countP_filterMap]
  refine List.countP_congr fun c _ ↦ ?_
  cases hafter : c.after with
  | none | some => simp [DirChange.endPath, hafter]

/-- An entry keeps its place and its path, and sees the changes that end in its path. -/
theorem getElem?_tableAfter (log : List DirChange) (hnodup : (db.entries.map Entry.path).Nodup)
    (h : db.entries[i]? = some e) :
    (tableAfter log db).entries[i]? =
      some ((timesAt e.path log).foldl (fun e now ↦ visit now e) e) := by
  rw [entries_tableAfter, timesAt, List.foldl_map]
  have hnew (a : CString (pathMax - 1) × Int64) : Entry.path ⟨a.1, 1, a.2⟩ = a.1 := rfl
  exact getElem?_foldl_upsert (fun a ↦ path_visit a.2) hnew hnodup h

/-! ### What the builtin does to its state -/

/-- The successful changes of directory from `s` to `s'` are `log`, and they determine the table and
`previous_dir`. -/
structure MovedBy (log : List DirChange) (s s' : HopState σ) : Prop where
  changes : s'.changes = s.changes ++ log
  db : s'.db = tableAfter log s.db
  previousDir : s'.previousDir = (log.getLast?.map DirChange.before).getD s.previousDir

namespace MovedBy

variable {log log' : List DirChange} {s s' s'' : HopState σ}

/-- Nothing changes but the output and the state of the system. -/
theorem quiet (w : σ) (printed : List Byte) (s : HopState σ) :
    MovedBy [] s { s with world := w, printed := printed } :=
  ⟨(List.append_nil _).symm, rfl, rfl⟩

theorem refl (s : HopState σ) : MovedBy [] s s := quiet s.world s.printed s

theorem trans (h : MovedBy log s s') (h' : MovedBy log' s' s'') : MovedBy (log ++ log') s s'' where
  changes := by rw [h'.changes, h.changes, List.append_assoc]
  db := by rw [h'.db, h.db, tableAfter_append]
  previousDir := by
    rw [h'.previousDir, h.previousDir, List.getLast?_append]
    cases log'.getLast? with
    | none | some => rfl

end MovedBy

section Runs

variable {calls : HopCalls σ}

theorem exists_updateEntry (path : CString (pathMax - 1)) (s : HopState σ) :
    ∃ w, HopState.updateEntry calls path s =
      { s with db := Shell.updateEntry path (calls.time s.world).1 s.db, world := w } := by
  unfold HopState.updateEntry
  by_cases hroom : path ∈ s.db.entries.map Entry.path ∨ s.db.entries.length < maxEntry
  · rw [if_pos hroom]
    exact ⟨_, rfl⟩
  · obtain ⟨hnew, hfull⟩ := not_or.mp hroom
    have hdropped : Shell.updateEntry path (calls.time s.world).1 s.db = s.db := by
      rw [Shell.updateEntry, if_neg (mt List.mem_map.mpr hnew), dif_neg hfull]
    rw [if_neg hroom, hdropped]
    exact ⟨s.world, rfl⟩

variable (calls) in
/-- `perform_cd`, the only caller of `chdir`, gets to the call, and it succeeds. -/
def ChdirSucceeds (target : List Byte) (w : σ) : Prop :=
  (calls.getcwd w).1.isSome ∧ (calls.chdir target (calls.getcwd w).2).1 = true

/-- A change is recorded if `chdir` has succeeded, and not otherwise. -/
theorem performCd_cases (target : List Byte) (s : HopState σ) :
    (¬ ChdirSucceeds calls target s.world ∧ (performCd calls target s).1 = false ∧
        MovedBy [] s (performCd calls target s).2) ∨
      (ChdirSucceeds calls target s.world ∧ (performCd calls target s).1 = true ∧
        ∃ c : DirChange, c.target = target ∧ (calls.getcwd s.world).1 = some c.before ∧
          MovedBy [c] s (performCd calls target s).2) := by
  unfold performCd ChdirSucceeds
  obtain ⟨cwd, w⟩ := calls.getcwd s.world
  cases cwd with
  | none => exact .inl ⟨by simp, rfl, .quiet w s.printed s⟩
  | some cwd =>
    simp only [Option.isSome_some, true_and]
    obtain ⟨ok, w⟩ := calls.chdir target w
    cases ok with
    | false => exact .inl ⟨Bool.false_ne_true, rfl, .quiet w s.printed s⟩
    | true =>
      simp only
      obtain ⟨newCwd, w⟩ := calls.getcwd w
      cases newCwd with
      | none => exact .inr ⟨trivial, rfl, ⟨cwd, target, none⟩, rfl, rfl, rfl, rfl, rfl⟩
      | some newCwd =>
        refine .inr ⟨trivial, rfl, ⟨cwd, target, some (newCwd, (calls.time w).1)⟩, rfl, rfl, ?_⟩
        obtain ⟨w', hupdate⟩ := @exists_updateEntry _ calls newCwd
          { s with
            previousDir := cwd
            world := w
            changes := s.changes ++ [⟨cwd, target, some (newCwd, (calls.time w).1)⟩] }
        simp only [hupdate]
        exact ⟨rfl, rfl, rfl⟩

theorem tryCd_cases (target : List Byte) (s : HopState σ) :
    MovedBy [] s (tryCd calls target s) ∨
      ∃ c : DirChange, c.target = target ∧ (calls.getcwd s.world).1 = some c.before ∧
        performCd calls target s = (true, tryCd calls target s) ∧
        MovedBy [c] s (tryCd calls target s) := by
  have hcases := @performCd_cases _ calls target s
  unfold tryCd
  generalize performCd calls target s = result at hcases ⊢
  obtain ⟨ok, s'⟩ := result
  rcases hcases with ⟨-, rfl, h⟩ | ⟨-, rfl, c, htarget, hbefore, h⟩
  · exact .inl (h.trans (.quiet s'.world _ s'))
  · exact .inr ⟨c, htarget, hbefore, rfl, h⟩

theorem exists_movedBy_tryCd (target : List Byte) (s : HopState σ) :
    ∃ log, MovedBy log s (tryCd calls target s) := by
  rcases @tryCd_cases _ calls target s with h | ⟨c, -, -, -, h⟩
  · exact ⟨[], h⟩
  · exact ⟨[c], h⟩

variable {Double α : Type*} [Add Double] [Div Double] [IntCast Double] [LT Double]
  [DecidableLT Double] {f : HopState σ → α → HopState σ}

/-- The branches of one argument: each leaves the state alone, or tries one change. -/
theorem exists_movedBy_hopRest (arg : List Byte) (s : HopState σ) :
    ∃ log, MovedBy log s (hopRest calls Double arg s) := by
  -- A change after other calls have been made.
  have hlater (target : List Byte) (w : σ) :
      ∃ log, MovedBy log s (tryCd calls target { s with world := w }) := by
    obtain ⟨log, h⟩ := @exists_movedBy_tryCd _ calls target { s with world := w }
    exact ⟨log, (MovedBy.quiet w s.printed s).trans h⟩
  unfold hopRest
  split_ifs with hdot hdots hminus hempty
  · exact ⟨[], .refl s⟩
  · exact hlater _ s.world
  · exact ⟨[], .refl s⟩
  · exact hlater _ s.world
  · obtain ⟨isDir, w⟩ := calls.existsDir arg s.world
    cases isDir with
    | true => exact hlater arg w
    | false =>
      simp only [searchFrecency]
      obtain ⟨found, w⟩ := searchLoop calls arg s.db.entries ((-1 : ℤ) : Double) none w
      cases found with
      | none => exact ⟨[], .quiet w _ s⟩
      | some e => exact hlater e.path.text w

theorem exists_movedBy_hopArg (arg : List Byte) (s : HopState σ) :
    ∃ log, MovedBy log s (hopArg calls Double arg s) := by
  unfold hopArg
  split_ifs with htilde hhome
  · exact exists_movedBy_tryCd _ s
  · simp only
    generalize (s.shellHome.text ++ 47 :: arg.drop 2).take (pathMax * 2 - 1) = expanded
    obtain ⟨isDir, w⟩ := calls.existsDir expanded s.world
    have hquiet := MovedBy.quiet w s.printed s
    cases isDir with
    | true =>
      obtain ⟨log, h⟩ := @exists_movedBy_tryCd _ calls expanded { s with world := w }
      exact ⟨log, hquiet.trans h⟩
    | false =>
      have hrest : ∃ log, MovedBy log _ (hopRest calls Double arg { s with world := w }) :=
        exists_movedBy_hopRest arg _
      obtain ⟨log, h⟩ := hrest
      exact ⟨log, hquiet.trans h⟩
  · exact exists_movedBy_hopRest arg s

/-- A loop whose body makes changes makes changes. -/
theorem exists_movedBy_foldl (hf : ∀ s a, ∃ log, MovedBy log s (f s a)) (l : List α)
    (s : HopState σ) : ∃ log, MovedBy log s (l.foldl f s) := by
  induction l generalizing s with
  | nil => exact ⟨[], .refl s⟩
  | cons a _ ih =>
    obtain ⟨log, h⟩ := hf s a
    obtain ⟨log', h'⟩ := ih (f s a)
    exact ⟨log ++ log', h.trans h'⟩

theorem exists_movedBy_hopBuiltin (args : List (List Byte)) (s : HopState σ) :
    ∃ log, MovedBy log s (hopBuiltin calls Double args s) := by
  unfold hopBuiltin
  split_ifs
  · exact exists_movedBy_tryCd _ s
  · exact exists_movedBy_foldl (fun s arg ↦ exists_movedBy_hopArg arg s) args s

theorem exists_movedBy_hopRun (commands : List (List (List Byte))) (s : HopState σ) :
    ∃ log, MovedBy log s (hopRun calls Double commands s) :=
  exists_movedBy_foldl (fun s args ↦ exists_movedBy_hopBuiltin args s) commands s

end Runs

/-! ### The bookkeeping of a run -/

/-- An entry after `n` visits to its path. -/
structure Grown (e : Entry) (n : ℕ) (e' : Entry) : Prop where
  path : e'.path = e.path
  visits : e.visits.toNat + n < 2 ^ 64 → e'.visits.toNat = e.visits.toNat + n
  same : n = 0 → e' = e

theorem grown_foldl_visit (times : List Int64) (e : Entry) :
    Grown e times.length (times.foldl (fun e now ↦ visit now e) e) where
  path := path_foldl_visit times e
  visits hbound := by
    rw [visits_foldl_visit, UInt64.toNat_add, UInt64.toNat_ofNat', Nat.add_mod_mod,
      Nat.mod_eq_of_lt hbound]
  same hzero := by
    rw [List.eq_nil_of_length_eq_zero hzero]
    rfl

theorem exists_grown (log : List DirChange) (hnodup : (db.entries.map Entry.path).Nodup)
    (h : db.entries[i]? = some e) :
    ∃ e', (tableAfter log db).entries[i]? = some e' ∧ Grown e (changesTo e.path log) e' := by
  refine ⟨_, getElem?_tableAfter log hnodup h, ?_⟩
  rw [← length_timesAt]
  exact grown_foldl_visit _ e

/-- A change to a path that is not in the table appends an entry, if there is room. -/
theorem exists_entered (hend : c.endPath = some path) (hnew : path ∉ db.entries.map Entry.path)
    (hroom : db.entries.length < maxEntry) :
    ∃ e, (c.record db).entries = db.entries ++ [e] ∧ e.path = path ∧ e.visits = 1 := by
  obtain ⟨⟨path, now⟩, hafter, rfl⟩ := Option.map_eq_some_iff.mp hend
  refine ⟨⟨path, 1, now⟩, ?_, rfl, rfl⟩
  rw [DirChange.record, hafter]
  simp only [entries_updateEntry, upsert, if_neg hnew, if_pos hroom]

section Bookkeeping

variable (calls : HopCalls σ) (Double : Type*) [Add Double] [Div Double] [IntCast Double]
  [LT Double] [DecidableLT Double]

/-- What the successful changes of directory `log` that a sequence of commands makes say about the
state behind it. The table at the time of each change is `tableAfter` the earlier ones. -/
structure Bookkeeping (commands : List (List (List Byte))) (s : HopState σ) (log : List DirChange) :
    Prop where
  changes : (hopRun calls Double commands s).changes = s.changes ++ log
  prefixes : ∀ done rest, commands = done ++ rest → ∃ log₁ log₂, log = log₁ ++ log₂ ∧
    (hopRun calls Double done s).changes = s.changes ++ log₁ ∧
    (hopRun calls Double done s).db = tableAfter log₁ s.db
  nodup : ((hopRun calls Double commands s).db.entries.map Entry.path).Nodup
  bounded : (hopRun calls Double commands s).db.entries.length ≤ 1024
  kept : ∀ (i : ℕ) (e : Entry), s.db.entries[i]? = some e →
    ∃ e', (hopRun calls Double commands s).db.entries[i]? = some e' ∧
      Grown e (changesTo e.path log) e'
  entered : ∀ log₁ c log₂ path, log = log₁ ++ c :: log₂ → c.endPath = some path →
    path ∉ (tableAfter log₁ s.db).entries.map Entry.path →
    (tableAfter log₁ s.db).entries.length < 1024 →
    ∃ e e', (tableAfter (log₁ ++ [c]) s.db).entries = (tableAfter log₁ s.db).entries ++ [e] ∧
      e.path = path ∧ e.visits = 1 ∧
      (hopRun calls Double commands s).db.entries[(tableAfter log₁ s.db).entries.length]? =
        some e' ∧
      Grown e (changesTo path log₂) e'
  previousDir : (hopRun calls Double commands s).previousDir =
    (log.getLast?.map DirChange.before).getD s.previousDir

/-- What the calls other than `chdir` leave alone. -/
structure KeepsDir {δ : Type*} (dir : σ → δ) : Prop where
  getcwd : ∀ w, dir (calls.getcwd w).2 = dir w
  time : ∀ w, dir (calls.time w).2 = dir w
  writeDb : ∀ bytes w, dir (calls.writeDb bytes w) = dir w

/-- Whenever a change to the path succeeds, it leads to `d`. -/
def LeadsTo {δ : Type*} (dir : σ → δ) (path : List Byte) (d : δ) : Prop :=
  ∀ w, (calls.chdir path w).1 = true → dir (calls.chdir path w).2 = d

variable {calls} {Double} {s s' : HopState σ} {δ : Type*} {dir : σ → δ} {target : List Byte}
  {c₁ c₂ : DirChange}

theorem exists_bookkeeping (commands : List (List (List Byte)))
    (hnodup : (s.db.entries.map Entry.path).Nodup) :
    ∃ log, Bookkeeping calls Double commands s log := by
  have hfollows : ∃ log, MovedBy log s (hopRun calls Double commands s) :=
    exists_movedBy_hopRun commands s
  obtain ⟨log, h⟩ := hfollows
  refine ⟨log, h.changes, ?_, ?_, Frecency.bounded _, ?_, ?_, h.previousDir⟩
  · rintro done rest rfl
    have hdone : ∃ log, MovedBy log s (hopRun calls Double done s) := exists_movedBy_hopRun done s
    obtain ⟨log₁, h₁⟩ := hdone
    have hrest : ∃ log, MovedBy log _ (hopRun calls Double rest (hopRun calls Double done s)) :=
      exists_movedBy_hopRun rest _
    obtain ⟨log₂, h₂⟩ := hrest
    refine ⟨log₁, log₂, ?_, h₁.changes, h₁.db⟩
    have hboth := (h₁.trans h₂).changes
    rw [hopRun, hopRun, ← List.foldl_append, ← hopRun, h.changes] at hboth
    exact List.append_cancel_left hboth
  · rw [h.db]
    exact nodup_tableAfter log hnodup
  · intro i e he
    rw [h.db]
    exact exists_grown log hnodup he
  · rintro log₁ c log₂ path rfl hend hnew hroom
    obtain ⟨e, hentries, rfl, hvisits⟩ := exists_entered hend hnew hroom
    have hstep : tableAfter (log₁ ++ [c]) s.db = c.record (tableAfter log₁ s.db) :=
      tableAfter_append log₁ [c] s.db
    rw [← hstep] at hentries
    have hlast : (tableAfter (log₁ ++ [c]) s.db).entries[(tableAfter log₁ s.db).entries.length]? =
        some e := by
      rw [hentries, List.getElem?_concat_length]
    obtain ⟨e', he', hgrown⟩ := exists_grown log₂ (nodup_tableAfter _ hnodup) hlast
    refine ⟨e, e', hentries, rfl, hvisits, ?_, hgrown⟩
    rwa [h.db, ← List.singleton_append, ← List.append_assoc, tableAfter_append _ log₂]

/-! ### Two consecutive `hop -` -/

/-- `hop -`. -/
theorem hopBuiltin_minus (s : HopState σ) :
    hopBuiltin calls Double [literal "-"] s =
      if s.previousDir.text = [] then s else tryCd calls s.previousDir.text s := by
  have hne : [literal "-"] ≠ [] := List.cons_ne_nil _ _
  have htilde : literal "-" ≠ literal "~" := by decide
  have hhome : ¬ literal "~/" <+: literal "-" := by decide
  have hdot : literal "-" ≠ literal "." := by decide
  have hdots : literal "-" ≠ literal ".." := by decide
  rw [hopBuiltin, if_neg hne, List.foldl_cons, List.foldl_nil, hopArg, if_neg htilde, if_neg hhome,
    hopRest, if_neg hdot, if_neg hdots, if_pos rfl]

variable (Double) in
theorem minus_cases (s : HopState σ) :
    MovedBy [] s (hopBuiltin calls Double [literal "-"] s) ∨
      ∃ c : DirChange, c.target = s.previousDir.text ∧
        (calls.getcwd s.world).1 = some c.before ∧
        performCd calls c.target s = (true, hopBuiltin calls Double [literal "-"] s) ∧
        MovedBy [c] s (hopBuiltin calls Double [literal "-"] s) := by
  rw [hopBuiltin_minus]
  split_ifs
  · exact .inl (.refl s)
  · rcases @tryCd_cases _ calls s.previousDir.text s with h | ⟨c, htarget, hbefore, hcd, h⟩
    · exact .inl h
    · exact .inr ⟨c, htarget, hbefore, htarget ▸ hcd, h⟩

/-- The calls behind a successful `chdir` leave the working directory alone. -/
theorem dir_performCd (hkeeps : KeepsDir calls dir) (h : performCd calls target s = (true, s')) :
    ∃ w, (calls.chdir target w).1 = true ∧ dir s'.world = dir (calls.chdir target w).2 := by
  have hupdate (path : CString (pathMax - 1)) (s : HopState σ) :
      dir (HopState.updateEntry calls path s).world = dir s.world := by
    unfold HopState.updateEntry
    split_ifs
    · exact (hkeeps.writeDb _ _).trans (hkeeps.time _)
    · rfl
  unfold performCd at h
  split at h
  · cases h
  · rename_i cwd w _
    refine ⟨w, ?_⟩
    split at h
    · cases h
    · rename_i w' hchdir
      rw [hchdir]
      refine ⟨rfl, ?_⟩
      have hcwd := hkeeps.getcwd w'
      split at h <;> rename_i hgetcwd <;> rw [hgetcwd] at hcwd <;> obtain ⟨-, rfl⟩ := Prod.mk.inj h
      · exact hcwd
      · exact (hupdate _ _).trans hcwd

/-- Two consecutive `hop -` that succeed. -/
theorem minus_minus
    (h : (hopBuiltin calls Double [literal "-"] (hopBuiltin calls Double [literal "-"] s)).changes =
      s.changes ++ [c₁, c₂]) :
    (calls.getcwd s.world).1 = some c₁.before ∧ c₂.target = c₁.before.text ∧
      performCd calls c₂.target (hopBuiltin calls Double [literal "-"] s) =
        (true, hopBuiltin calls Double [literal "-"]
          (hopBuiltin calls Double [literal "-"] s)) := by
  rcases minus_cases Double (hopBuiltin calls Double [literal "-"] s) with
    h₂ | ⟨c, htarget, -, hcd, h₂⟩ <;>
  rcases minus_cases Double s with h₁ | ⟨c', -, hbefore, -, h₁⟩ <;>
  rw [h₂.changes, h₁.changes, List.append_assoc] at h <;>
  have hlog := List.append_cancel_left h
  · simp at hlog
  · simp at hlog
  · simp at hlog
  · obtain ⟨rfl, rfl⟩ : c' = c₁ ∧ c = c₂ := by simpa using hlog
    refine ⟨hbefore, ?_, hcd⟩
    rw [htarget, h₁.previousDir]
    rfl

/-- After any sequence of `hop` commands the table has no path twice and at most 1024 entries, old
entries keep their places and count the changes to their paths, a new path is entered with one visit
while there is room, and `previous_dir` is the directory before the last change. Two consecutive
`hop -` that succeed end in the path they started from. -/
theorem hop_bookkeeping (commands : List (List (List Byte))) {s : HopState σ}
    (hnodup : (s.db.entries.map Entry.path).Nodup) :
    (∃ log, Bookkeeping calls Double commands s log) ∧
      let s' := hopRun calls Double commands s
      let back := hopRun calls Double [[literal "-"], [literal "-"]] s'
      ∀ c₁ c₂, back.changes = s'.changes ++ [c₁, c₂] →
        (calls.getcwd s'.world).1 = some c₁.before ∧ c₂.target = c₁.before.text ∧
        ∀ {δ : Type} (dir : σ → δ), KeepsDir calls dir →
          LeadsTo calls dir c₁.before.text (dir s'.world) → dir back.world = dir s'.world := by
  refine ⟨exists_bookkeeping commands hnodup, ?_⟩
  intro s' back c₁ c₂ hback
  obtain ⟨hbefore, htarget, hcd⟩ := minus_minus hback
  refine ⟨hbefore, htarget, fun dir hkeeps hleads ↦ ?_⟩
  obtain ⟨w, hok, hdir⟩ := dir_performCd hkeeps hcd
  rw [htarget] at hok hdir
  exact hdir.trans (hleads w hok)

end Bookkeeping

/-- A file system with the directories `/a` and `/b`, whose state is the working directory. -/
def twoDirs : HopCalls (CString (pathMax - 1)) where
  getcwd w := (some w, w)
  chdir path w :=
    if path = literal "/a" ∨ path = literal "/b" then (true, CString.ofBytes _ path) else (false, w)
  existsDir path w := (path = literal "/a" ∨ path = literal "/b", w)
  time w := (1760000000, w)
  writeDb _ w := w

def startInA : HopState (CString (pathMax - 1)) :=
  hopInit twoDirs (some (literal "/a")) none (CString.ofBytes _ (literal "/a"))

/-- A search without a result, a command with two arguments, and a search that finds `/b`. -/
def hopsToB : List (List (List Byte)) :=
  [[literal "b"], [literal "/b", literal "~"], [literal "b"]]

theorem bookkeeping_twoDirs :
    (∃ log, Bookkeeping twoDirs ℤ hopsToB startInA log) ∧
      (hopRun twoDirs ℤ [[literal "-"], [literal "-"]] (hopRun twoDirs ℤ hopsToB startInA)).world =
        (hopRun twoDirs ℤ hopsToB startInA).world := by
  obtain ⟨hlog, hback⟩ :=
    @hop_bookkeeping _ twoDirs ℤ _ _ _ _ _ hopsToB startInA (by decide +kernel)
  refine ⟨hlog, ?_⟩
  obtain ⟨-, -, hreturns⟩ := hback
    ⟨CString.ofBytes _ (literal "/b"), literal "/a",
      some (CString.ofBytes _ (literal "/a"), 1760000000)⟩
    ⟨CString.ofBytes _ (literal "/a"), literal "/b",
      some (CString.ofBytes _ (literal "/b"), 1760000000)⟩
    (by decide +kernel)
  have hworld : (hopRun twoDirs ℤ hopsToB startInA).world = CString.ofBytes _ (literal "/b") := by
    decide +kernel
  have hb : (CString.ofBytes (pathMax - 1) (literal "/b")).text = literal "/b" := by
    decide +kernel
  refine hreturns id ⟨fun _ ↦ rfl, fun _ ↦ rfl, fun _ _ ↦ rfl⟩ fun w _ ↦ ?_
  rw [hworld, hb]
  exact congrArg Prod.snd (if_pos (.inr rfl))

end Irish.Shell
