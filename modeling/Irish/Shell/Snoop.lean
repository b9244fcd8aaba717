import Irish.Library.KeyedTable
import Irish.Library.Sorting
import Irish.Shell.NumericArgs

/-!
# The table of `snoop`

`src/snoop.c`. The tracing process waits for stops of the traced one. An entry stop and an exit stop
of a system call look the same and are told apart by `in_syscall`; at an exit stop, and at the end
of the traced process if a call is pending, the call is added to a table of at most 1024 rows, which
is sorted and printed at the end.

As long as the registers can be read at every stop and there are at most 1024 numbers, the printed
table is exact (`snoopBuiltin_table`). The calls that are recorded are the entry stops
(`Tallied` with `entryStops`, kept by `tallied_recordSyscall` and `exists_tallied_snoopLoop`).

`qsort` is any function that sorts by `compare_stats`. The arithmetic of `double` and its conversion
`%.3f` are arguments; the counts are those of `unsigned long long`. What the calls before the loop
return, and the results of `waitpid` with the registers and the clock at that moment, are arguments
too.
-/

set_option autoImplicit false

namespace Irish.Shell

open Library

/-! ### Rows -/

structure SyscallEntry where
  nr : Int64
  name : List Byte

/-- `g_syscall_table`. -/
def syscallTable : List SyscallEntry :=
  [⟨0, literal "read"⟩, ⟨1, literal "write"⟩, ⟨35, literal "nanosleep"⟩,
    ⟨230, literal "clock_nanosleep"⟩, ⟨231, literal "exit_group"⟩]

/-- `get_syscall_name`, for a buffer of `bufSize` bytes. -/
def getSyscallName (nr : Int64) (bufSize : ℕ) : List Byte :=
  match syscallTable.find? (·.nr = nr) with
  | some e => e.name.take (bufSize - 1)
  | none => (literal "syscall_" ++ printSigned nr).take (bufSize - 1)

structure SyscallStat (Double : Type*) where
  nr : Int64
  name : List Byte
  calls : UInt64
  totalTime : Double
  firstSeenOrder : ℕ
deriving DecidableEq

/-- The length of `stats`. -/
def maxStats : ℕ := 1024

/-- `stats` and `num_stats`. -/
structure StatTable (Double : Type*) where
  rows : List (SyscallStat Double)
  bounded : rows.length ≤ maxStats

variable {Double α : Type*} {nrs : List Int64} {rows : List (SyscallStat Double)}
  {s : SyscallStat Double} {nr : Int64}

def compareStats (a b : SyscallStat Double) : ℤ :=
  if a.calls ≠ b.calls then if a.calls < b.calls then 1 else -1
  else if a.firstSeenOrder > b.firstSeenOrder then 1 else -1

/-- What `record_syscall` does to a row that it finds. -/
def countCall [Add Double] (elapsed : Double) (s : SyscallStat Double) : SyscallStat Double :=
  { s with calls := s.calls + 1, totalTime := s.totalTime + elapsed }

/-- The row that `record_syscall` stores at `idx`. -/
def newStat (nr : Int64) (elapsed : Double) (idx : ℕ) : SyscallStat Double :=
  ⟨nr, getSyscallName nr 64, 1, elapsed, idx⟩

def recordSyscall [Add Double] (nr : Int64) (elapsed : Double) (stats : StatTable Double) :
    StatTable Double where
  rows := upsert SyscallStat.nr maxStats nr (countCall elapsed)
    (newStat nr elapsed stats.rows.length) stats.rows
  bounded := length_upsert_le stats.bounded

/-! ### The loop -/

structure Timespec where
  tvSec : Int64
  tvNsec : Int64
deriving DecidableEq

/-- `elapsed`, between the readings of the clock at the entry and at the exit. -/
def elapsedTime [Add Double] [Div Double] [IntCast Double] [LT Double] [DecidableLT Double]
    (entryTime exitTime : Timespec) : Double :=
  let elapsed := ((exitTime.tvSec - entryTime.tvSec).toInt : Double) +
    ((exitTime.tvNsec - entryTime.tvNsec).toInt : Double) / ((1000000000 : ℤ) : Double)
  if elapsed < ((0 : ℤ) : Double) then ((0 : ℤ) : Double) else elapsed

/-- What `waitpid` returns. A stop comes with `orig_rax`, if `PTRACE_GETREGS` succeeds, and `now` is
what `clock_gettime` returns before the next wait. -/
inductive SnoopWait
  | interrupted
  | failed
  | exited (now : Timespec)
  | signaled (now : Timespec)
  | stopped (sig : ℕ) (origRax : Option UInt64) (now : Timespec)
  | continued
deriving DecidableEq

def sigTrap : ℕ := 5

/-- `SIGTRAP | 0x80`. -/
def syscallTrap : ℕ := sigTrap ||| 0x80

/-- The variables of the loop. `resumed` has the signal of each `PTRACE_SYSCALL` that the loop
calls. -/
structure SnoopState (Double : Type*) where
  stats : StatTable Double
  inSyscall : Bool
  curSyscallNr : Int64
  entryTime : Timespec
  resumed : List ℕ

/-- The state before the loop; `entryTime` has no value yet. -/
def snoopInit (entryTime : Timespec) : SnoopState Double :=
  ⟨⟨[], Nat.zero_le _⟩, false, -1, entryTime, []⟩

section Loop

variable [Add Double] [Div Double] [IntCast Double] [LT Double] [DecidableLT Double]

namespace SnoopState

/-- The end of a call, or of the process in a call. -/
def finishCall (now : Timespec) (s : SnoopState Double) : SnoopState Double :=
  { s with
    stats := recordSyscall s.curSyscallNr (elapsedTime s.entryTime now) s.stats
    inSyscall := false }

/-- A stop at the entry or exit of a call whose registers have been read. -/
def syscallStop (origRax : UInt64) (now : Timespec) (s : SnoopState Double) : SnoopState Double :=
  if !s.inSyscall then
    { s with inSyscall := true, curSyscallNr := origRax.toInt64, entryTime := now }
  else s.finishCall now

/-- `ptrace(PTRACE_SYSCALL, target_pid, 0, sig)`. -/
def resume (sig : ℕ) (s : SnoopState Double) : SnoopState Double :=
  { s with resumed := s.resumed ++ [sig] }

/-- The branch `WIFSTOPPED`. -/
def stop (sig : ℕ) (origRax : Option UInt64) (now : Timespec) (s : SnoopState Double) :
    SnoopState Double :=
  if sig = syscallTrap then
    match origRax with
    | some origRax => (s.syscallStop origRax now).resume 0
    | none => s.resume 0
  else if sig = sigTrap then s.resume 0
  else s.resume sig

/-- The branch `WIFEXITED(status) || WIFSIGNALED(status)`. -/
def finish (now : Timespec) (s : SnoopState Double) : SnoopState Double :=
  if s.inSyscall then s.finishCall now else s

end SnoopState

/-- The loop of `snoop_builtin`; `none` if it is still waiting after the results given. -/
def snoopLoop : List SnoopWait → SnoopState Double → Option (SnoopState Double)
  | [], _ => none
  | .interrupted :: rest, s => snoopLoop rest s
  | .failed :: _, s => some s
  | .exited now :: _, s => some (s.finish now)
  | .signaled now :: _, s => some (s.finish now)
  | .stopped sig origRax now :: rest, s => snoopLoop rest (s.stop sig origRax now)
  | .continued :: rest, s => snoopLoop rest s

/-! ### The builtin -/

/-- The text of a row; `printFixed` is `%.3f`. -/
def printStat (printFixed : Double → List Byte) (s : SyscallStat Double) : List Byte :=
  if 14 ≤ s.name.length then
    s.name ++ [Byte.space] ++ leftAlign 7 (printUnsigned s.calls) ++ printFixed s.totalTime ++
      literal "s\n"
  else
    leftAlign 14 s.name ++ leftAlign 8 (printUnsigned s.calls) ++ printFixed s.totalTime ++
      literal "s\n"

def printTable (printFixed : Double → List Byte) (rows : List (SyscallStat Double)) : List Byte :=
  literal "syscall       calls   time\n" ++ rows.flatMap (printStat printFixed)

/-- What the calls before the loop return: `access` on a directory of `/proc`,
`executor_resolve_path`, `PTRACE_ATTACH` and the `waitpid` behind it, and `fork`. -/
structure SnoopCalls where
  procExists : List Byte → Bool
  resolves : Bool
  attaches : Bool
  attachWait : Bool
  fork : Option ℕ+

/-- The part of `snoop_builtin` before the loop: `none` if the loop is reached, and otherwise what
has been printed on `stdout` when -1 is returned. -/
def startTracing (calls : SnoopCalls) : List (List Byte) → Option (List Byte)
  | [] | [_] => some (literal "snoop: invalid syntax\n")
  | _ :: option :: args =>
    if option = literal "-p" then
      match args with
      | [pid] =>
        match positiveLong pid with
        | none => some (literal "snoop: no such process\n")
        | some val =>
          if pid.head? = some 45 then some (literal "snoop: no such process\n")
          -- `target_pid` is an `int`, printed by `%ld`.
          else if !calls.procExists (literal "/proc/" ++ printSigned val.toInt32.toInt64) then
            some (literal "snoop: no such process\n")
          else if !calls.attaches then some (literal "snoop: no such process\n")
          else if !calls.attachWait then some []
          else none
      | _ => some (literal "snoop: invalid syntax\n")
    else if !calls.resolves then some (literal "snoop: command not found\n")
    else if calls.fork = none then some []
    else none

/-- `snoop_builtin`: the value returned and the text on `stdout`. -/
def snoopBuiltin (qsort : List (SyscallStat Double) → List (SyscallStat Double))
    (printFixed : Double → List Byte) (calls : SnoopCalls) (argv : List (List Byte))
    (entryTime : Timespec) (waits : List SnoopWait) : Option (ℤ × List Byte) :=
  match startTracing calls argv with
  | some printed => some (-1, printed)
  | none => (snoopLoop waits (snoopInit entryTime)).map fun s ↦
      (0, printTable printFixed (qsort s.stats.rows))

end Loop

/-! ### Entry stops -/

/-- The number at a stop for a system call. -/
def SnoopWait.syscallNr : SnoopWait → Option Int64
  | .stopped sig origRax _ => if sig = syscallTrap then origRax.map UInt64.toInt64 else none
  | _ => none

/-- The first, third, fifth element and so on. -/
def everyOther {α : Type*} : List α → List α
  | [] => []
  | [a] => [a]
  | a :: _ :: rest => a :: everyOther rest

/-- The numbers of the system calls that the process enters. Stops at the entry and at the exit of a
call alternate; a call is complete before the next one is entered. -/
def entryStops (waits : List SnoopWait) : List Int64 :=
  everyOther (waits.filterMap SnoopWait.syscallNr)

/-- A stop with registers that can be read, or a wait that is started again. -/
def SnoopWait.Goes : SnoopWait → Prop
  | .stopped _ origRax _ => origRax.isSome
  | .interrupted | .continued => True
  | .failed | .exited _ | .signaled _ => False

/-- The exit of the process or its death by a signal. -/
def SnoopWait.Ends : SnoopWait → Prop
  | .exited _ | .signaled _ => True
  | _ => False

instance : DecidablePred SnoopWait.Goes := fun w ↦ by
  cases w <;> simp only [SnoopWait.Goes] <;> infer_instance

instance : DecidablePred SnoopWait.Ends := fun w ↦ by
  cases w <;> simp only [SnoopWait.Ends] <;> infer_instance

theorem everyOther_cons (a : α) (l : List α) : everyOther (a :: l) = a :: everyOther l.tail := by
  cases l with
  | nil | cons => rfl

/-! ### One call -/

/-- The rows are those of the calls `nrs`, in the order in which they were completed. -/
structure Tallied (nrs : List Int64) (rows : List (SyscallStat Double)) : Prop where
  nodup : (rows.map SyscallStat.nr).Nodup
  mem_iff : ∀ nr, nr ∈ rows.map SyscallStat.nr ↔ nr ∈ nrs
  calls : ∀ s ∈ rows, s.calls = UInt64.ofNat (nrs.count s.nr)
  name : ∀ s ∈ rows, s.name = getSyscallName s.nr 64
  order_lt : ∀ s ∈ rows, s.firstSeenOrder < rows.length
  firstSeen : ∀ s ∈ rows, ∀ t ∈ rows, s.firstSeenOrder ≤ t.firstSeenOrder →
    nrs.idxOf s.nr ≤ nrs.idxOf t.nr

theorem tallied_nil : Tallied [] ([] : List (SyscallStat Double)) where
  nodup := List.nodup_nil
  mem_iff _ := Iff.rfl
  calls _ h := absurd h List.not_mem_nil
  name _ h := absurd h List.not_mem_nil
  order_lt _ h := absurd h List.not_mem_nil
  firstSeen _ h := absurd h List.not_mem_nil

theorem Tallied.mem_of_mem (h : Tallied nrs rows) (hs : s ∈ rows) :
    s.nr ∈ nrs := (h.mem_iff _).mp (List.mem_map_of_mem hs)

theorem Tallied.perm_dedup (h : Tallied nrs rows) : (rows.map SyscallStat.nr).Perm nrs.dedup :=
  (List.perm_ext_iff_of_nodup h.nodup nrs.nodup_dedup).mpr fun nr ↦
    (h.mem_iff nr).trans List.mem_dedup.symm

theorem Tallied.length_eq (h : Tallied nrs rows) : rows.length = nrs.dedup.length := by
  rw [← h.perm_dedup.length_eq, List.length_map]

/-- There is room for a call with a new number as long as there are not too many numbers. -/
theorem Tallied.length_lt (h : Tallied nrs rows) (hnew : nr ∉ nrs)
    (hlimit : (nrs ++ [nr]).dedup.length ≤ maxStats) : rows.length < maxStats := by
  have hperm : (nr :: nrs.dedup).Perm (nrs ++ [nr]).dedup := by
    rw [← List.dedup_cons_of_notMem hnew]
    exact (List.perm_append_singleton nr nrs).symm.dedup
  rw [← hperm.length_eq, List.length_cons, ← h.length_eq] at hlimit
  exact hlimit

theorem idxOf_concat_of_mem (hs : s.nr ∈ nrs) :
    (nrs ++ [nr]).idxOf s.nr = nrs.idxOf s.nr := List.idxOf_append_of_mem hs

/-- The first call with a number. -/
theorem Tallied.new (h : Tallied nrs rows) {nr : Int64} (hnr : nr ∉ nrs) (elapsed : Double) :
    Tallied (nrs ++ [nr]) (rows ++ [newStat nr elapsed rows.length]) where
  nodup := by
    rw [List.map_append, List.map_singleton, ← List.concat_eq_append]
    exact h.nodup.concat fun hmem ↦ hnr ((h.mem_iff nr).mp hmem)
  mem_iff k := by
    rw [List.map_append, List.mem_append, List.mem_append, h.mem_iff]
    rfl
  calls := by
    refine List.forall_mem_append.mpr ⟨fun s hs ↦ ?_, List.forall_mem_singleton.mpr ?_⟩
    · have hne : s.nr ≠ nr := fun heq ↦ hnr (heq ▸ h.mem_of_mem hs)
      rw [h.calls s hs, List.count_append, List.count_singleton,
        if_neg (by simpa using hne.symm), Nat.add_zero]
    · have hzero : (nrs ++ [nr]).count nr = 1 := by
        rw [List.count_append, List.count_eq_zero_of_not_mem hnr, List.count_singleton_self]
      exact (congrArg UInt64.ofNat hzero).symm
  name := List.forall_mem_append.mpr ⟨h.name, List.forall_mem_singleton.mpr rfl⟩
  order_lt := by
    rw [List.length_append, List.length_singleton]
    exact List.forall_mem_append.mpr ⟨fun s hs ↦ (h.order_lt s hs).trans (Nat.lt_succ_self _),
      List.forall_mem_singleton.mpr (Nat.lt_succ_self _)⟩
  firstSeen := by
    refine List.forall_mem_append.mpr ⟨fun s hs ↦ ?_, List.forall_mem_singleton.mpr ?_⟩
    · rw [idxOf_concat_of_mem (h.mem_of_mem hs)]
      refine List.forall_mem_append.mpr ⟨fun t ht ↦ ?_, List.forall_mem_singleton.mpr fun _ ↦ ?_⟩
      · rw [idxOf_concat_of_mem (h.mem_of_mem ht)]
        exact h.firstSeen s hs t ht
      · have hlast : (nrs ++ [nr]).idxOf nr = nrs.length := by
          rw [List.idxOf_append_of_notMem hnr, List.idxOf_cons_self, Nat.add_zero]
        exact (List.idxOf_le_length).trans_eq hlast.symm
    · refine List.forall_mem_append.mpr ⟨fun t ht hle ↦ ?_, List.forall_mem_singleton.mpr ?_⟩
      · exact absurd hle (Nat.not_le_of_lt (h.order_lt t ht))
      · exact fun _ ↦ le_rfl

section Record

variable [Add Double] {elapsed : Double} {stats : StatTable Double}

theorem nr_countCall (elapsed : Double) (s : SyscallStat Double) :
    (countCall elapsed s).nr = s.nr := rfl

@[simp]
theorem nr_touch (nr : Int64) (elapsed : Double) (s : SyscallStat Double) :
    (touch SyscallStat.nr nr (countCall elapsed) s).nr = s.nr :=
  apply_touch (f := countCall elapsed) (g := SyscallStat.nr) (fun _ ↦ rfl) s

@[simp]
theorem name_touch (nr : Int64) (elapsed : Double) (s : SyscallStat Double) :
    (touch SyscallStat.nr nr (countCall elapsed) s).name = s.name :=
  apply_touch (f := countCall elapsed) (g := SyscallStat.name) (fun _ ↦ rfl) s

@[simp]
theorem firstSeenOrder_touch (nr : Int64) (elapsed : Double) (s : SyscallStat Double) :
    (touch SyscallStat.nr nr (countCall elapsed) s).firstSeenOrder = s.firstSeenOrder :=
  apply_touch (f := countCall elapsed) (g := SyscallStat.firstSeenOrder) (fun _ ↦ rfl) s

theorem calls_touch (h : s.calls = UInt64.ofNat (nrs.count s.nr)) :
    (touch SyscallStat.nr nr (countCall elapsed) s).calls =
      UInt64.ofNat ((nrs ++ [nr]).count s.nr) := by
  rw [List.count_append]
  by_cases hs : s.nr = nr
  · rw [touch_of_eq hs, hs, List.count_singleton_self, UInt64.ofNat_add, ← hs, ← h]
    rfl
  · rw [touch_of_ne hs, List.count_singleton, h, if_neg (by simpa using Ne.symm hs), Nat.add_zero]

/-- One more call with a number that has a row. -/
theorem Tallied.count (h : Tallied nrs rows) {nr : Int64} (hnr : nr ∈ nrs) (elapsed : Double) :
    Tallied (nrs ++ [nr]) (rows.map (touch SyscallStat.nr nr (countCall elapsed))) where
  nodup := by
    rw [map_key_touch (nr_countCall elapsed)]
    exact h.nodup
  mem_iff k := by
    rw [map_key_touch (nr_countCall elapsed), h.mem_iff, List.mem_append, List.mem_singleton]
    exact (or_iff_left_of_imp fun hk ↦ hk ▸ hnr).symm
  calls := List.forall_mem_map.mpr fun s hs ↦ by
    rw [nr_touch]
    exact calls_touch (h.calls s hs)
  name := List.forall_mem_map.mpr fun s hs ↦ by
    rw [nr_touch, name_touch]
    exact h.name s hs
  order_lt := List.forall_mem_map.mpr fun s hs ↦ by
    rw [firstSeenOrder_touch, List.length_map]
    exact h.order_lt s hs
  firstSeen := List.forall_mem_map.mpr fun s hs ↦ List.forall_mem_map.mpr fun t ht ↦ by
    rw [firstSeenOrder_touch, firstSeenOrder_touch, nr_touch, nr_touch,
      idxOf_concat_of_mem (h.mem_of_mem hs), idxOf_concat_of_mem (h.mem_of_mem ht)]
    exact h.firstSeen s hs t ht

theorem tallied_recordSyscall (h : Tallied nrs stats.rows)
    (hlimit : (nrs ++ [nr]).dedup.length ≤ maxStats) (elapsed : Double) :
    Tallied (nrs ++ [nr]) (recordSyscall nr elapsed stats).rows := by
  have hrows : (recordSyscall nr elapsed stats).rows = _ := upsert_eq h.nodup
  rw [hrows]
  by_cases hnr : nr ∈ nrs
  · rw [if_pos (.inl ((h.mem_iff nr).mpr hnr)), List.append_nil]
    exact h.count hnr elapsed
  · have hroom := h.length_lt hnr hlimit
    have hfree : nr ∉ stats.rows.map SyscallStat.nr := mt (h.mem_iff nr).mp hnr
    rw [if_neg (not_or.mpr ⟨hfree, hroom.not_ge⟩), map_touch_of_notMem hfree]
    exact h.new hnr elapsed

end Record

/-! ### The run -/

section Run

variable [Add Double] [Div Double] [IntCast Double] [LT Double] [DecidableLT Double]
  {w last : SnoopWait} {sig : ℕ} {origRax : UInt64} {now : Timespec} {waits : List SnoopWait}

/-- The calls that are still to be recorded: the pending one and those entered later. -/
def SnoopState.callsFrom (s : SnoopState Double) (waits : List SnoopWait) : List Int64 :=
  if s.inSyscall then s.curSyscallNr :: everyOther (waits.filterMap SnoopWait.syscallNr).tail
  else entryStops waits

omit [Add Double] [Div Double] [IntCast Double] [LT Double] [DecidableLT Double] in
theorem callsFrom_cons_of_none (hw : w.syscallNr = none) (waits : List SnoopWait)
    (s : SnoopState Double) : s.callsFrom (w :: waits) = s.callsFrom waits := by
  simp only [SnoopState.callsFrom, entryStops, List.filterMap_cons_none hw]

omit [Add Double] [Div Double] [IntCast Double] [LT Double] [DecidableLT Double] in
theorem callsFrom_cons_of_some (hw : w.syscallNr = some nr) (waits : List SnoopWait)
    (s : SnoopState Double) :
    s.callsFrom (w :: waits) = if s.inSyscall then s.curSyscallNr :: entryStops waits
      else nr :: everyOther (waits.filterMap SnoopWait.syscallNr).tail := by
  simp only [SnoopState.callsFrom, entryStops, List.filterMap_cons_some hw, List.tail_cons,
    everyOther_cons]

/-- A stop for another reason changes nothing that is recorded. -/
theorem stop_of_ne (hsig : sig ≠ syscallTrap) (origRax : Option UInt64) (now : Timespec)
    (s : SnoopState Double) : ∃ sig', s.stop sig origRax now = s.resume sig' := by
  unfold SnoopState.stop
  rw [if_neg hsig]
  split_ifs
  · exact ⟨0, rfl⟩
  · exact ⟨sig, rfl⟩

theorem tallied_finish {s : SnoopState Double} (now : Timespec) (h : Tallied nrs s.stats.rows)
    (hlimit : (nrs ++ s.callsFrom []).dedup.length ≤ maxStats) :
    Tallied (nrs ++ s.callsFrom []) (s.finish now).stats.rows := by
  unfold SnoopState.finish
  unfold SnoopState.callsFrom at hlimit ⊢
  by_cases hin : s.inSyscall
  · rw [if_pos hin] at hlimit ⊢
    rw [if_pos hin]
    exact tallied_recordSyscall h hlimit _
  · rw [if_neg hin, if_neg hin]
    exact (List.append_nil nrs).symm ▸ h

/-- A stop keeps the calls recorded and those to be recorded, taken together. -/
theorem exists_tallied_stop {s : SnoopState Double} (h : Tallied nrs s.stats.rows)
    (hlimit : (nrs ++ s.callsFrom (.stopped sig (some origRax) now :: waits)).dedup.length ≤
      maxStats) :
    ∃ nrs', Tallied nrs' (s.stop sig (some origRax) now).stats.rows ∧
      nrs' ++ (s.stop sig (some origRax) now).callsFrom waits =
        nrs ++ s.callsFrom (.stopped sig (some origRax) now :: waits) := by
  by_cases hsig : sig = syscallTrap
  · have hnr : (SnoopWait.stopped sig (some origRax) now).syscallNr = some origRax.toInt64 :=
      if_pos hsig
    have hstop : s.stop sig (some origRax) now = (s.syscallStop origRax now).resume 0 :=
      if_pos hsig
    rw [callsFrom_cons_of_some hnr] at hlimit ⊢
    rw [hstop]
    by_cases hin : s.inSyscall
    · -- An exit stop: the pending call is recorded, the next stop is an entry stop.
      have hfinish : s.syscallStop origRax now = s.finishCall now := by
        simp [SnoopState.syscallStop, hin]
      rw [if_pos hin] at hlimit ⊢
      rw [hfinish]
      refine ⟨nrs ++ [s.curSyscallNr], tallied_recordSyscall h ?_ _, by
        rw [List.append_assoc]
        rfl⟩
      refine (List.Subperm.length_le ?_).trans hlimit
      refine (List.nodup_dedup _).subperm fun k hk ↦ ?_
      rw [List.mem_dedup, List.mem_append, List.mem_singleton] at hk
      rw [List.mem_dedup, List.mem_append, List.mem_cons]
      exact hk.imp_right .inl
    · -- An entry stop: its number becomes the pending call.
      have henter : s.syscallStop origRax now =
          { s with inSyscall := true, curSyscallNr := origRax.toInt64, entryTime := now } := by
        simp [SnoopState.syscallStop, hin]
      rw [if_neg hin, henter]
      exact ⟨nrs, h, rfl⟩
  · obtain ⟨sig', hstop⟩ := stop_of_ne hsig (some origRax) now s
    have hnr : (SnoopWait.stopped sig (some origRax) now).syscallNr = none := if_neg hsig
    rw [hstop, callsFrom_cons_of_none hnr]
    exact ⟨nrs, h, rfl⟩

/-- The loop records the calls that are pending or entered during the run. -/
theorem exists_tallied_snoopLoop {s : SnoopState Double} (hgoes : ∀ w ∈ waits, w.Goes)
    (hends : last.Ends) (more : List SnoopWait) (h : Tallied nrs s.stats.rows)
    (hlimit : (nrs ++ s.callsFrom waits).dedup.length ≤ maxStats) :
    ∃ s', snoopLoop (waits ++ last :: more) s = some s' ∧
      Tallied (nrs ++ s.callsFrom waits) s'.stats.rows := by
  induction waits generalizing s nrs with
  | nil =>
    cases last with
    | exited now | signaled now => exact ⟨_, rfl, tallied_finish now h hlimit⟩
    | interrupted | failed | stopped | continued => exact hends.elim
  | cons w _ ih =>
    obtain ⟨hw, hrest⟩ := List.forall_mem_cons.mp hgoes
    cases w with
    | interrupted | continued => exact ih hrest h hlimit
    | failed | exited now | signaled now => exact hw.elim
    | stopped sig origRax now =>
      obtain ⟨origRax, rfl⟩ := Option.isSome_iff_exists.mp hw
      obtain ⟨nrs', h', heq⟩ := exists_tallied_stop h hlimit
      rw [← heq] at hlimit ⊢
      exact ih hrest h' hlimit

/-- The signal with which the process is resumed after a wait; traps are not passed on. -/
def SnoopWait.passedOn : SnoopWait → Option ℕ
  | .stopped sig _ _ => some (if sig = syscallTrap ∨ sig = sigTrap then 0 else sig)
  | _ => none

theorem resumed_stop (sig : ℕ) (origRax : Option UInt64) (now : Timespec) (s : SnoopState Double) :
    (s.stop sig origRax now).resumed =
      s.resumed ++ [if sig = syscallTrap ∨ sig = sigTrap then 0 else sig] := by
  have hsyscall (origRax : UInt64) : (s.syscallStop origRax now).resumed = s.resumed := by
    unfold SnoopState.syscallStop
    split_ifs <;> rfl
  unfold SnoopState.stop
  by_cases hsig : sig = syscallTrap
  · rw [if_pos hsig, if_pos (.inl hsig)]
    cases origRax with
    | none => rfl
    | some origRax => exact congrArg (· ++ [0]) (hsyscall origRax)
  · by_cases htrap : sig = sigTrap
    · rw [if_neg hsig, if_pos htrap, if_pos (.inr htrap)]
      rfl
    · rw [if_neg hsig, if_neg htrap, if_neg (not_or.mpr ⟨hsig, htrap⟩)]
      rfl

/-- The process is resumed once after every stop, with the signal that it was stopped for. -/
theorem resumed_snoopLoop {s s' : SnoopState Double} (hgoes : ∀ w ∈ waits, w.Goes)
    (hends : last.Ends) {more : List SnoopWait}
    (h : snoopLoop (waits ++ last :: more) s = some s') :
    s'.resumed = s.resumed ++ waits.filterMap SnoopWait.passedOn := by
  induction waits generalizing s with
  | nil =>
    have hfinish (now : Timespec) : (s.finish now).resumed = s.resumed := by
      unfold SnoopState.finish
      split_ifs <;> rfl
    cases last with
    | exited now | signaled now =>
      rw [← Option.some.inj h, hfinish]
      exact (List.append_nil _).symm
    | interrupted | failed | stopped | continued => exact hends.elim
  | cons w _ ih =>
    obtain ⟨hw, hrest⟩ := List.forall_mem_cons.mp hgoes
    cases w with
    | interrupted | continued => exact ih hrest h
    | failed | exited now | signaled now => exact hw.elim
    | stopped sig origRax now =>
      rw [ih hrest h, resumed_stop, List.append_assoc]
      rfl

end Run

/-! ### Names -/

theorem name_of_mem_syscallTable :
    ∀ e ∈ syscallTable, e.name.take 63 = e.name ∧ ¬ literal "syscall_" <+: e.name := by
  decide

theorem nr_eq_of_name_eq :
    ∀ e ∈ syscallTable, ∀ e' ∈ syscallTable, e.name = e'.name → e.nr = e'.nr := by
  decide

theorem take_unknown_name (nr : Int64) :
    (literal "syscall_" ++ printSigned nr).take 63 = literal "syscall_" ++ printSigned nr := by
  refine List.take_of_length_le ?_
  have hlen := length_printSigned_le nr
  have hprefix : (literal "syscall_").length = 8 := rfl
  rw [List.length_append]
  omega

theorem getSyscallName_cases (nr : Int64) :
    (∃ e ∈ syscallTable, e.nr = nr ∧ getSyscallName nr 64 = e.name) ∨
      getSyscallName nr 64 = literal "syscall_" ++ printSigned nr := by
  unfold getSyscallName
  cases hfind : syscallTable.find? (·.nr = nr) with
  | some e =>
    have hmem := List.mem_of_find?_eq_some hfind
    have hnr : e.nr = nr := by simpa using List.find?_some hfind
    exact .inl ⟨e, hmem, hnr, (name_of_mem_syscallTable e hmem).1⟩
  | none => exact .inr (take_unknown_name nr)

/-- Different system calls have different names. -/
theorem getSyscallName_injective : Function.Injective (getSyscallName · 64) := by
  intro nr nr' hname
  simp only at hname
  rcases getSyscallName_cases nr with ⟨e, he, rfl, hnr⟩ | hnr <;>
  rcases getSyscallName_cases nr' with ⟨e', he', rfl, hnr'⟩ | hnr' <;>
  rw [hnr, hnr'] at hname
  · exact nr_eq_of_name_eq e he e' he' hname
  · exact absurd ⟨_, hname.symm⟩ (name_of_mem_syscallTable e he).2
  · exact absurd ⟨_, hname⟩ (name_of_mem_syscallTable e' he').2
  · have hscan (z : Int64) : scanSigned (printSigned z) = some (z, []) := by
      have hend : NoDigit [] := by simp [NoDigit]
      simpa using scanSigned_printSigned z hend
    have hprinted := (List.append_cancel_left hname).symm ▸ hscan nr'
    rw [hscan nr] at hprinted
    exact congrArg Prod.fst (Option.some.inj hprinted)

/-! ### Sorting -/

theorem compareStats_le_zero_iff (s t : SyscallStat Double) :
    compareStats s t ≤ 0 ↔
      t.calls < s.calls ∨ s.calls = t.calls ∧ s.firstSeenOrder ≤ t.firstSeenOrder := by
  unfold compareStats
  simp only [UInt64.lt_iff_toNat_lt, ne_eq, ← UInt64.toNat_inj]
  split_ifs <;> omega

theorem sorts_sortBy_compareStats (rows : List (SyscallStat Double)) :
    Sorts compareStats rows (sortBy compareStats rows) := by
  refine sorts_sortBy (fun a b c hab hbc ↦ ?_) (fun a b ↦ ?_) rows
  · rw [compareStats_le_zero_iff, UInt64.lt_iff_toNat_lt, ← UInt64.toNat_inj] at *
    omega
  · rw [compareStats_le_zero_iff, compareStats_le_zero_iff, UInt64.lt_iff_toNat_lt,
      UInt64.lt_iff_toNat_lt, ← UInt64.toNat_inj, ← UInt64.toNat_inj]
    omega

/-! ### The table -/

/-- One row for each number in `entries`, with the number of its calls, sorted by it; rows with the
same number of calls stand in the order in which such a call was first completed. The counts are
`unsigned long long`. -/
structure ExactTable (entries : List Int64) (rows : List (SyscallStat Double)) : Prop where
  nodup : (rows.map SyscallStat.nr).Nodup
  nodup_name : (rows.map SyscallStat.name).Nodup
  name : ∀ s ∈ rows, s.name = getSyscallName s.nr 64
  mem_iff : ∀ nr, nr ∈ rows.map SyscallStat.nr ↔ nr ∈ entries
  calls_mod : ∀ s ∈ rows, s.calls.toNat = entries.count s.nr % 2 ^ 64
  calls : entries.length < 2 ^ 64 → ∀ s ∈ rows, s.calls.toNat = entries.count s.nr
  total_mod : (rows.map fun s ↦ s.calls.toNat).sum % 2 ^ 64 = entries.length % 2 ^ 64
  total : entries.length < 2 ^ 64 → (rows.map fun s ↦ s.calls.toNat).sum = entries.length
  ordered : rows.Pairwise fun s t ↦ t.calls < s.calls ∨
    s.calls = t.calls ∧ entries.idxOf s.nr < entries.idxOf t.nr

theorem Tallied.exact (h : Tallied nrs rows) {sorted : List (SyscallStat Double)}
    (hsorts : Sorts compareStats rows sorted) : ExactTable nrs sorted := by
  have hnr := hsorts.perm.map SyscallStat.nr
  have hmem {s} (hs : s ∈ sorted) : s ∈ rows := hsorts.perm.mem_iff.mp hs
  have hnodup : (sorted.map SyscallStat.nr).Nodup := hnr.nodup_iff.mpr h.nodup
  have hname (s) (hs : s ∈ sorted) : s.name = getSyscallName s.nr 64 := h.name s (hmem hs)
  have hmod (s) (hs : s ∈ sorted) : s.calls.toNat = nrs.count s.nr % 2 ^ 64 := by
    rw [h.calls s (hmem hs), UInt64.toNat_ofNat']
  have hcalls (hshort : nrs.length < 2 ^ 64) (s) (hs : s ∈ sorted) :
      s.calls.toNat = nrs.count s.nr := by
    rw [hmod s hs, Nat.mod_eq_of_lt (List.count_le_length.trans_lt hshort)]
  have hsum : (sorted.map fun s ↦ nrs.count s.nr).sum = nrs.length := by
    have hperm := ((hnr.trans h.perm_dedup).map (nrs.count ·)).sum_eq
    rwa [List.map_map, List.sum_map_count_dedup_eq_length] at hperm
  refine ⟨hnodup, ?_, hname, fun nr ↦ hnr.mem_iff.trans (h.mem_iff nr), hmod, hcalls, ?_, ?_, ?_⟩
  · have hnames : sorted.map SyscallStat.name =
        (sorted.map SyscallStat.nr).map (getSyscallName · 64) := by
      rw [List.map_map]
      exact List.map_congr_left hname
    rw [hnames]
    exact hnodup.map getSyscallName_injective
  · rw [List.map_congr_left hmod, ← hsum, List.sum_nat_mod (sorted.map fun s ↦ nrs.count s.nr),
      List.map_map]
    rfl
  · intro hshort
    rw [List.map_congr_left (hcalls hshort), hsum]
  · have hdistinct := List.pairwise_map.mp hnodup
    refine (hsorts.pairwise.and hdistinct).imp_of_mem fun {s t} hs ht hst ↦ ?_
    refine ((compareStats_le_zero_iff s t).mp hst.1).imp_right fun ⟨heq, hle⟩ ↦ ⟨heq, ?_⟩
    refine lt_of_le_of_ne (h.firstSeen s (hmem hs) t (hmem ht) hle) fun hidx ↦ hst.2 ?_
    exact (List.idxOf_inj (h.mem_of_mem (hmem hs))).mp hidx

section Builtin

variable [Add Double] [Div Double] [IntCast Double] [LT Double] [DecidableLT Double]

/-- If the registers can be read at every stop and at most 1024 different calls are made, the traced
process's end is followed by the table of exactly its calls, and `snoop` returns 0. -/
theorem snoopBuiltin_table {qsort : List (SyscallStat Double) → List (SyscallStat Double)}
    (hqsort : ∀ rows, Sorts compareStats rows (qsort rows)) (printFixed : Double → List Byte)
    {calls : SnoopCalls} {argv : List (List Byte)} (hstart : startTracing calls argv = none)
    (entryTime : Timespec) {waits : List SnoopWait} (hgoes : ∀ w ∈ waits, w.Goes)
    {last : SnoopWait} (hends : last.Ends) (more : List SnoopWait)
    (hlimit : (entryStops waits).dedup.length ≤ 1024) :
    ∃ rows, snoopBuiltin qsort printFixed calls argv entryTime (waits ++ last :: more) =
        some (0, printTable printFixed rows) ∧
      ExactTable (entryStops waits) rows := by
  have hinit : Tallied [] (snoopInit entryTime : SnoopState Double).stats.rows := tallied_nil
  obtain ⟨s, hloop, htallied⟩ := exists_tallied_snoopLoop hgoes hends more hinit hlimit
  refine ⟨qsort s.stats.rows, ?_, htallied.exact (hqsort _)⟩
  rw [snoopBuiltin, hstart]
  simp only [hloop, Option.map_some]

/-- A process that calls `getpid` twice and `read` once and is killed in `exit_group`, with a plain
trap and a signal in between. -/
theorem snoopBuiltin_killed :
    ∃ rows, snoopBuiltin (sortBy compareStats) (fun _ : ℤ ↦ literal "0.000")
        ⟨fun _ ↦ true, true, true, true, none⟩ [literal "snoop", literal "-p", literal "7"] ⟨0, 0⟩
        ([.stopped 133 (some 39) ⟨1, 0⟩, .stopped 5 (some 39) ⟨1, 0⟩, .stopped 133 (some 7) ⟨2, 0⟩,
          .stopped 133 (some 0) ⟨3, 0⟩, .stopped 10 (some 0) ⟨3, 0⟩, .interrupted,
          .stopped 133 (some 0) ⟨4, 0⟩, .stopped 133 (some 39) ⟨5, 0⟩,
          .stopped 133 (some 39) ⟨6, 0⟩, .stopped 133 (some 231) ⟨7, 0⟩] ++
          .signaled ⟨8, 0⟩ :: []) =
        some (0, printTable (fun _ : ℤ ↦ literal "0.000") rows) ∧
      ExactTable [39, 0, 39, 231] rows :=
  snoopBuiltin_table sorts_sortBy_compareStats _ (by decide +kernel) _ (by decide) (by trivial) []
    (by decide)

end Builtin
end Irish.Shell
