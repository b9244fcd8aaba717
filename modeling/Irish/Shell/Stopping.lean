import Mathlib.Tactic.NormNum
import Irish.Library.Sweep
import Irish.Shell.PipeEnds
import Irish.Shell.WaitLoop

/-!
# A stopped job and the loop that waits for it

The shell waits for the processes of a foreground pipeline in the order in which it forked them,
helpers before their command. A stop from the terminal reaches the commands, and `waitpid` returns
for a stopped command; a helper that waits for a stopped command is not stopped itself, and the
shell goes on waiting for it (`Hangs`).

A feeder can finish without its command if its files come to an end without it and the pipe takes
all that is written (`FitsUnread`). A distributor cannot: it reads until its command has closed the
pipe. So the shell can hang exactly if a command is started that has a distributor, or a feeder
whose files do not end or do not fit or are waited for (`neverHangs_iff`). Helpers of commands that
are not started come to an end, unless a call of `read` waits for another command: the distributor
sees the end of its pipe, and with it the last reader of the feeder's pipe is gone.
-/

set_option autoImplicit false

namespace Irish.Shell

open Library

/-- A step that is not one of a command. -/
def notByCommand (e : WaitEvent) : Prop := e.byCommand = false

/-- The shell hangs: every command is stopped or has exited, and the shell waits for a helper that
does not get on as long as no command does. -/
structure Hangs {size : PipeSize} (w : Waiting size) : Prop where
  commands : ∀ p ∈ w.procs, ∀ i, p.role = .command i → p.state ≠ .running
  blocked : ∃ p, w.procs[w.next]? = some p ∧ (∃ io i, p.role = .helper io i) ∧
    p.state = .running ∧ ∀ w', RunOf waitStep notByCommand w w' →
      ∀ a, waitStep w' (.helper w.next a) = none

/-! ### Helpers that get on -/

section Progress

variable {size : PipeSize} {k i : ℕ} {w : Waiting size} {p p' : Process}

/-- A feeder can always go on unless it waits for a command, or its pipe is full and someone may
still read it. -/
theorem exists_move_feeder (hrole : p.role = .helper .input i)
    (hfree : ∀ s files c, p.left = s :: files → s.head ≠ .waits c)
    (hroom : p.pending ≠ 0 → w.Held (.helper .input i .read) →
      ∃ q, (w.fill (.helper .input i)).put p.pending = some q) :
    ∃ p' fill, HelperMove w p p' fill := by
  by_cases hpending : p.pending = 0
  · cases hleft : p.left with
    | nil => exact ⟨_, _, .finish hrole hpending hleft⟩
    | cons s files =>
      cases hhead : s.head with
      | returns r => exact ⟨_, _, .read hrole hpending hleft hhead⟩
      | waits c => exact absurd hhead (hfree s files c hleft)
  · by_cases hheld : w.Held (.helper .input i .read)
    · obtain ⟨q, hput⟩ := hroom hpending hheld
      exact ⟨_, _, .write hrole hheld hput⟩
    · exact ⟨_, _, .brokenPipe hrole (Nat.pos_of_ne_zero hpending) hheld⟩

/-- The pipe of a feeder that fits has room for what is in the buffer. -/
theorem FitsBehind.exists_put {content : SlotPipe size} (h : FitsBehind content p)
    (hpending : p.pending ≠ 0) (hpage : p.pending ≤ size.page) :
    ∃ q, content.put p.pending = some q := by
  obtain ⟨writes, -, htakes⟩ := h
  rw [Process.due, if_neg hpending] at htakes
  exact SlotPipe.exists_put_of_count (Nat.pos_of_ne_zero hpending) hpage htakes.head

/-- A distributor can go on if nobody can write to its pipe any more. -/
theorem exists_move_distributor (hrole : p.role = .helper .output i)
    (hheld : ¬ w.Held (.helper .output i .write)) : ∃ p' fill, HelperMove w p p' fill := by
  by_cases hpending : p.pending = 0
  · by_cases hempty : (w.fill (.helper .output i)).bytes = 0
    · exact ⟨_, _, .endOfFile hrole hpending hempty hheld⟩
    · exact ⟨_, _, .receive hrole hpending Nat.one_pos (by decide) (Nat.pos_of_ne_zero hempty)⟩
  · exact ⟨_, _, .copy hrole (Nat.pos_of_ne_zero hpending)⟩

theorem runOf_move {fill : Fill size} (h : HelperMove w p p' fill) (hp : w.procs[k]? = some p)
    (hstate : p.state = .running) : RunOf waitStep notByCommand w (w.put k p' fill) := by
  obtain ⟨a, ha⟩ := h.step hp hstate
  exact RunOf.single ha rfl

theorem put_put (w : Waiting size) (k : ℕ) (p p' : Process) (fill fill' : Fill size) :
    (w.put k p fill).put k p' fill' = w.put k p' fill' := by
  simp [Waiting.put]

/-- A helper that has a file open has not exited. -/
theorem Wired.running (h : Wired w) (hp : p ∈ w.procs) {io : Redirection} {j : ℕ}
    (hrole : p.role = .helper io j) {d : Description} (hholds : p.table.Holds d) :
    p.state = .running := by
  cases hstate : p.state with
  | running => rfl
  | stopped => exact absurd hstate (h.awake p hp io j hrole)
  | exited => exact absurd hholds (h.gone p hp hstate d)

/-- A distributor that nobody can write to comes to its end by itself. -/
theorem runOf_distributor (hp : w.procs[k]? = some p) (hrole : p.role = .helper .output i)
    (hstate : p.state = .running) (hheld : ¬ w.Held (.helper .output i .write)) :
    ∃ p' fill, RunOf waitStep notByCommand w (w.put k p' fill) ∧ p'.table = ⟨[]⟩ := by
  induction hn : 2 * (w.fill (.helper .output i)).bytes + (if p.pending = 0 then 0 else 1)
    using Nat.strongRecOn generalizing w p with
  | _ n ih =>
    -- After a step that leaves it running, the rest of the run is that of the smaller state.
    have hrest (q : Process) (fill : Fill size) (hmove : HelperMove w p q fill)
        (hqrole : q.role = p.role) (htable : q.table = p.table) (hqstate : q.state = .running)
        (hlt : 2 * (fill (.helper .output i)).bytes + (if q.pending = 0 then 0 else 1) < n) :
        ∃ p' fill, RunOf waitStep notByCommand w (w.put k p' fill) ∧ p'.table = ⟨[]⟩ := by
      have hheld' : ¬ (w.put k q fill).Held (.helper .output i .write) := fun h ↦
        hheld (held_of_put hp (fun d hd ↦ htable ▸ hd) h)
      obtain ⟨p', fill', hrun, hexit⟩ := ih _ hlt (getElem?_put_self hp q fill)
        (hqrole.trans hrole) hqstate hheld' rfl
      rw [put_put] at hrun
      exact ⟨p', fill', (runOf_move hmove hp hstate).trans hrun, hexit⟩
    by_cases hpending : p.pending = 0
    · by_cases hempty : (w.fill (.helper .output i)).bytes = 0
      · exact ⟨_, _, runOf_move (.endOfFile hrole hpending hempty hheld) hp hstate, rfl⟩
      · have hpos := Nat.pos_of_ne_zero hempty
        refine hrest _ _ (.receive hrole hpending Nat.one_pos (by decide) hpos) rfl rfl hstate ?_
        simp only [Waiting.refill, Function.update_self, SlotPipe.bytes_take, Nat.one_ne_zero,
          if_false]
        rw [← hn, if_pos hpending]
        omega
    · refine hrest _ _ (.copy hrole (Nat.pos_of_ne_zero hpending)) rfl rfl hstate ?_
      rw [← hn, if_neg hpending, if_pos rfl]
      omega

end Progress

/-! ### Pipelines that cannot hang -/

/-- An unread pipe takes all that the files deliver. -/
def FitsUnread (size : PipeSize) (files : List Source) : Prop :=
  ∃ writes, Delivers files writes ∧ (Mark.start size).Takes size writes

variable {size : PipeSize} {p : Process} {cmd : SingleCommand} {files : List Source} {n : ℕ}

theorem mem_roles {w : Waiting size} (hp : p ∈ w.procs) : p.role ∈ w.procs.map Process.role :=
  List.mem_map_of_mem hp

theorem not_hangs (hpage : bufSize ≤ size.page) {w : Waiting size} (hwired : Wired w)
    (hfed : Fed (Role.command · ∈ w.procs.map Process.role) w)
    (h : ∀ i, .command i ∈ w.procs.map Process.role →
      .helper .output i ∉ w.procs.map Process.role) : ¬ Hangs w := by
  rintro ⟨-, p, hp, ⟨io, i, hrole⟩, hstate, hblocked⟩
  have hmem := List.mem_of_getElem? hp
  -- A state, reached without the commands, in which the helper has a move.
  have hmoves (w' : Waiting size) (hrun : RunOf waitStep notByCommand w w')
      (hp' : w'.procs[w.next]? = some p) (hmove : ∃ p' fill, HelperMove w' p p' fill) :
      False := by
    obtain ⟨p', fill, hmove⟩ := hmove
    obtain ⟨a, ha⟩ := hmove.step hp' hstate
    rw [hblocked w' hrun a] at ha
    cases ha
  -- Without the command, nobody writes to its distributor.
  have hnobody (hnot : Role.command i ∉ w.procs.map Process.role) :
      ¬ w.Held (.helper .output i .write) := by
    rintro ⟨q, hq, hholds⟩
    have hqrole : q.role = .command i := hwired.only q hq .output i .write hholds
    exact hnot (hqrole ▸ mem_roles hq)
  cases io with
  | output =>
    have hnot : Role.command i ∉ w.procs.map Process.role := fun hstarted ↦
      h i hstarted (hrole ▸ mem_roles hmem)
    exact hmoves w (RunOf.refl w) hp (exists_move_distributor hrole (hnobody hnot))
  | input =>
    have hok := hfed p hmem i hrole
    have hfree (s files c) (hleft : p.left = s :: files) := hok.head_ne hleft c
    by_cases hstarted : Role.command i ∈ w.procs.map Process.role
    · exact hmoves w (RunOf.refl w) hp (exists_move_feeder hrole hfree fun hpending _ ↦
        (hok.fits hstarted).exists_put hpending (hok.pending_le.trans hpage))
    · -- Only the distributor can have the pipe open; once it is gone, the pipe is broken.
      have hreader (q : Process) (hq : q ∈ w.procs)
          (hholds : q.table.Holds (.helper .input i .read)) : q.role = .helper .output i :=
        (hwired.only q hq .input i .read hholds).resolve_right fun hcommand ↦
          hstarted (hcommand ▸ mem_roles hq)
      by_cases hheld : w.Held (.helper .input i .read)
      · obtain ⟨q, hq, hholds⟩ := hheld
        obtain ⟨d, hd⟩ := List.getElem?_of_mem hq
        have hqrole := hreader q hq hholds
        obtain ⟨q', fill, hrun, htable⟩ :=
          runOf_distributor hd hqrole (hwired.running hq hqrole hholds) (hnobody hstarted)
        have hne : w.next ≠ d := slot_ne hp hd (by simp [hrole, hqrole])
        refine hmoves _ hrun ((getElem?_put_ne hne q' fill).trans hp)
          (exists_move_feeder hrole hfree fun _ hheld ↦ ?_)
        obtain ⟨r, hr, hholds'⟩ := hheld
        obtain ⟨l, hl⟩ := List.getElem?_of_mem hr
        rcases getElem?_put hl with ⟨-, rfl⟩ | ⟨hne', hl⟩
        · exact absurd (htable ▸ hholds') (not_holds_nil _)
        · have hrrole := hreader r (List.mem_of_getElem? hl) hholds'
          exact absurd (hwired.roles l d r q hl hd (hrrole.trans hqrole.symm)) hne'
      · exact hmoves w (RunOf.refl w) hp
          (exists_move_feeder hrole hfree fun _ hheld' ↦ absurd hheld' hheld)

/-! ### Pipelines that can hang -/

/-- The steps of a run on which the terminal stops the commands and they do nothing themselves. -/
def OnlyStops : WaitEvent → Prop
  | .command _ a => a = .stop
  | .supply _ _ _ => False
  | _ => True

/-- A feeder cannot come to its end by itself: its files do not end, or do not fit, or a command is
waited for that has not exited. -/
structure Starved {size : PipeSize} (w : Waiting size) (i : ℕ) (p : Process) : Prop where
  unfit : ¬ FitsBehind (w.fill (.helper .input i)) p
  alive : ∀ s ∈ p.left, ∀ k c, s.get k = .waits c → w.Alive c

/-- A command holds its end of the pipe to a helper, and the helper cannot finish without it. The
shell has not waited for the helper yet. -/
structure Trapped {size : PipeSize} (io : Redirection) (i kc kh : ℕ) (w : Waiting size) :
    Prop where
  wired : Wired w
  command : ∃ p, w.procs[kc]? = some p ∧ p.role = .command i ∧
    p.table.Holds (.helper io i io.keptSide)
  helper : ∃ p, w.procs[kh]? = some p ∧ p.role = .helper io i ∧ p.state = .running ∧
    (io = .input → Starved w i p)
  next : w.next ≤ kh

section Trapped

variable {i kc kh k : ℕ} {io : Redirection} {w w' : Waiting size} {p' : Process} {fill : Fill size}
  {e : WaitEvent}

theorem Trapped.held (h : Trapped io i kc kh w) : w.Held (.helper io i io.keptSide) := by
  obtain ⟨p, hp, -, hholds⟩ := h.command
  exact ⟨p, List.mem_of_getElem? hp, hholds⟩

/-- A command that has not exited is still there after the step of a process, unless it exits. -/
theorem alive_put {c : ℕ} (h : w.Alive c) (hp : w.procs[k]? = some p) (fill : Fill size)
    (hp' : ∀ j, p.role = .command j → p'.role = p.role ∧ p'.state ≠ .exited) :
    (w.put k p' fill).Alive c := by
  obtain ⟨q, hq, hrole, hstate⟩ := h
  obtain ⟨j, hj⟩ := List.getElem?_of_mem hq
  rcases eq_or_ne j k with rfl | hjk
  · cases hj.symm.trans hp
    obtain ⟨hrole', hstate'⟩ := hp' c hrole
    exact ⟨p', List.mem_of_getElem? (getElem?_put_self hp p' fill), hrole'.trans hrole, hstate'⟩
  · exact ⟨q, List.mem_of_getElem? ((getElem?_put_ne hjk p' fill).trans hj), hrole, hstate⟩

/-- The helper does not exit. -/
theorem Trapped.running_of_move (h : Trapped io i kc kh w) (hmove : HelperMove w p p' fill)
    (hrole : p.role = .helper io i) (hstate : p.state = .running)
    (hstarved : io = .input → Starved w i p) : p'.state = .running := by
  have hheld := h.held
  cases hmove with
  | brokenPipe hrole' _ hnone =>
    obtain ⟨rfl, rfl⟩ : io = .input ∧ i = _ := by simpa using hrole.symm.trans hrole'
    exact absurd hheld hnone
  | finish hrole' hpending hleft =>
    obtain ⟨rfl, rfl⟩ : io = .input ∧ i = _ := by simpa using hrole.symm.trans hrole'
    refine absurd ⟨[], by rw [hleft]; exact .nil, ?_⟩ (hstarved rfl).unfit
    rw [Process.due, if_pos hpending, Mark.takes_nil, SlotPipe.count_mark]
    exact SlotPipe.length_le _
  | endOfFile hrole' _ _ hnone =>
    obtain ⟨rfl, rfl⟩ : io = .output ∧ i = _ := by simpa using hrole.symm.trans hrole'
    exact absurd hheld hnone
  | @read _ _ _ r | @resume _ _ _ _ r => cases r <;> exact hstate
  | _ => exact hstate

/-- The files that are left after a move of a helper have been left before. -/
theorem HelperMove.waits (h : HelperMove w p p' fill) {s : Source} (hs : s ∈ p'.left) {k c : ℕ}
    (hk : s.get k = .waits c) : ∃ s' ∈ p.left, ∃ k', s'.get k' = .waits c := by
  have hgot {s₀ : Source} {files : List Source} {r : Option ReadSize}
      (hleft : p.left = s₀ :: files) (hs : s ∈ (p.got s₀.tail files r).left) :
      ∃ s' ∈ p.left, ∃ k', s'.get k' = .waits c := by
    rw [hleft]
    cases r with
    | none => exact ⟨s, List.mem_cons_of_mem _ hs, k, hk⟩
    | some =>
      rcases List.mem_cons.mp hs with rfl | hs
      · exact ⟨s₀, List.mem_cons_self, k + 1, hk⟩
      · exact ⟨s, List.mem_cons_of_mem _ hs, k, hk⟩
  cases h with
  | read _ _ hleft | resume _ _ hleft => exact hgot hleft hs
  | _ => exact ⟨s, hs, k, hk⟩

theorem Starved.move (h : Starved w i p) (hmove : HelperMove w p p' fill)
    (hp : w.procs[k]? = some p) (hrole : p.role = .helper .input i) :
    Starved (w.put k p' fill) i p' := by
  have hwaits (s files c) (hleft : p.left = s :: files) (hhead : s.head = .waits c) : w.Alive c :=
    h.alive s (by simp [hleft]) 0 c hhead
  refine ⟨fun hfits ↦ h.unfit ((hmove.fits_iff hrole hwaits).mp hfits), fun s hs j c hj ↦ ?_⟩
  obtain ⟨s', hs', j', hj'⟩ := hmove.waits hs hj
  exact alive_put (h.alive s' hs' j' c hj') hp fill (by simp [hrole])

/-- The step of another process. -/
theorem Starved.put {k : ℕ} {q q' : Process} (h : Starved w i p) (hq : w.procs[k]? = some q)
    (hfill : fill (.helper .input i) = w.fill (.helper .input i))
    (hq' : ∀ j, q.role = .command j → q'.role = q.role ∧ q'.state ≠ .exited) :
    Starved (w.put k q' fill) i p := by
  refine ⟨?_, fun s hs j c hj ↦ alive_put (h.alive s hs j c hj) hq fill hq'⟩
  show ¬ FitsBehind (fill (.helper .input i)) p
  rw [hfill]
  exact h.unfit

theorem Trapped.step (h : Trapped io i kc kh w) {e : WaitEvent} (he : OnlyStops e)
    (hstep : waitStep w e = some w') : Trapped io i kc kh w' := by
  have hwired := h.wired.step hstep
  obtain ⟨pc, hpc, hcrole, hholds⟩ := h.command
  obtain ⟨ph, hph, hhrole, hhstate, hstarved⟩ := h.helper
  rcases waitStep_cases hstep with ⟨k, a, p, p', fill, -, hp, hstate, ⟨io', j, hrole⟩, hmove, rfl⟩ |
    ⟨k, a, p, j, r, rfl, hp, hrole, hr, rfl⟩ | ⟨j, k, r, p, p', rfl, -⟩ | ⟨p, -, hp, hstate, rfl⟩
  · have hkc : kc ≠ k := slot_ne hpc hp (by simp [hcrole, hrole])
    refine ⟨hwired, ⟨pc, (getElem?_put_ne hkc p' fill).trans hpc, hcrole, hholds⟩, ?_, h.next⟩
    rcases eq_or_ne kh k with rfl | hkh
    · cases hph.symm.trans hp
      refine ⟨p', getElem?_put_self hp p' fill, (hmove.shrinks hstate).role.trans hhrole,
        h.running_of_move hmove hhrole hstate hstarved, fun hio ↦ ?_⟩
      subst hio
      exact (hstarved rfl).move hmove hp hhrole
    · refine ⟨ph, (getElem?_put_ne hkh p' fill).trans hph, hhrole, hhstate, fun hio ↦ ?_⟩
      subst hio
      exact (hstarved rfl).put hp (hmove.fill_other h.wired hp hph hkh hhrole) (by simp [hrole])
  · obtain rfl : a = .stop := he
    obtain ⟨-, rfl⟩ := commandStep_stop hr
    have hkh : kh ≠ k := slot_ne hph hp (by simp [hhrole, hrole])
    refine ⟨hwired, ?_, ⟨ph, (getElem?_put_ne hkh _ _).trans hph, hhrole, hhstate,
      fun hio ↦ (hstarved hio).put hp rfl fun _ _ ↦ ⟨rfl, by simp⟩⟩, h.next⟩
    rcases eq_or_ne kc k with rfl | hkc
    · cases hpc.symm.trans hp
      exact ⟨_, getElem?_put_self hp _ _, hcrole, hholds⟩
    · exact ⟨pc, (getElem?_put_ne hkc _ _).trans hpc, hcrole, hholds⟩
  · exact he.elim
  · have hne : w.next ≠ kh := by
      intro heq
      cases hp.symm.trans (heq ▸ hph)
      exact hstate hhstate
    exact ⟨hwired, h.command, ⟨ph, hph, hhrole, hhstate, fun hio ↦
      ⟨(hstarved hio).unfit, (hstarved hio).alive⟩⟩, Nat.lt_of_le_of_ne h.next hne⟩

/-- How many steps a process can still take on such a run, at most. -/
def potential (fill : Fill size) (p : Process) : ℕ :=
  if p.state = .running then
    match p.role with
    | .command _ => 1
    | .helper .input i =>
      2 * (size.slots * size.page - (fill (.helper .input i)).bytes) +
        (if p.pending = 0 then 1 else 0) + p.left.length + 1
    | .helper .output i =>
      2 * (fill (.helper .output i)).bytes + (if p.pending = 0 then 0 else 1) + 1
  else 0

theorem potential_congr {fill fill' : Fill size}
    (h : ∀ io i, p.role = .helper io i → fill' (.helper io i) = fill (.helper io i)) :
    potential fill' p = potential fill p := by
  unfold potential
  cases hrole : p.role with
  | command => rfl
  | helper io =>
    cases io with
    | input => simp only [h _ _ hrole]
    | output => simp only [h _ _ hrole]

theorem HelperMove.potential_lt (h : HelperMove w p p' fill) (hstate : p.state = .running) :
    potential fill p' < potential w.fill p := by
  have hexit (hrole : ∃ io i, p.role = .helper io i) :
      potential w.fill p.exit < potential w.fill p := by
    obtain ⟨io, i, hrole⟩ := hrole
    cases io <;> simp [potential, Process.exit, hstate, hrole]
  have hgot {i : ℕ} {s : Source} {files : List Source} (r : Option ReadSize)
      (hrole : p.role = .helper .input i) (hpending : p.pending = 0)
      (hleft : p.left = s :: files) :
      potential w.fill (p.got s.tail files r) < potential w.fill p := by
    cases r with
    | none => simp [potential, Process.got, hstate, hrole, hpending, hleft]
    | some r =>
      have hr : (r : ℕ) ≠ 0 := Nat.ne_of_gt r.2.1
      simp [potential, Process.got, hstate, hrole, hpending, hleft, hr]
  cases h with
  | read hrole hpending hleft | resume hrole hpending hleft => exact hgot _ hrole hpending hleft
  | @write _ q hrole _ hput =>
    have hpos := (SlotPipe.put_eq_some hput).1
    have hbytes := SlotPipe.bytes_put hput
    have hle := q.bytes_le
    simp only [potential, hstate, hrole, if_true, Waiting.refill, Function.update_self,
      Nat.ne_of_gt hpos, if_false]
    omega
  | brokenPipe hrole | finish hrole | endOfFile hrole => exact hexit ⟨_, _, hrole⟩
  | @receive _ _ hrole hpending hpos =>
    simp only [potential, hstate, hrole, if_true, Waiting.refill, Function.update_self, hpending,
      SlotPipe.bytes_take, Nat.ne_of_gt hpos, if_false]
    omega
  | copy hrole hpending => simp [potential, hstate, hrole, Nat.ne_of_gt hpending]

def Waiting.measure (w : Waiting size) : ℕ :=
  (w.procs.length - w.next) + (w.procs.map (potential w.fill)).sum

theorem measure_put_lt (hp : w.procs[k]? = some p)
    (hrest : ∀ j q, j ≠ k → w.procs[j]? = some q → potential fill q = potential w.fill q)
    (hlt : potential fill p' < potential w.fill p) : (w.put k p' fill).measure < w.measure := by
  have hsum := sum_map_set_lt hp hrest hlt
  simp only [Waiting.measure, Waiting.put, List.length_set]
  omega

/-- OnlyStops runs come to an end. -/
theorem measure_step_lt (hwired : Wired w) (he : OnlyStops e) (hstep : waitStep w e = some w') :
    w'.measure < w.measure := by
  rcases waitStep_cases hstep with ⟨k, a, p, p', fill, -, hp, hstate, -, hmove, rfl⟩ |
    ⟨k, a, p, j, r, rfl, hp, hrole, hr, rfl⟩ | ⟨j, k, r, p, p', rfl, -⟩ | ⟨p, -, hp, -, rfl⟩
  · refine measure_put_lt hp (fun j q hjk hq ↦ potential_congr fun io i hqrole ↦ ?_)
      (hmove.potential_lt hstate)
    exact hmove.fill_other hwired hp hq hjk hqrole
  · obtain rfl : a = .stop := he
    obtain ⟨hstate, rfl⟩ := commandStep_stop hr
    exact measure_put_lt hp (fun _ _ _ _ ↦ rfl) (by simp [potential, hstate, hrole])
  · exact he.elim
  · have hlt : w.next < w.procs.length := lt_of_getElem? hp
    simp only [Waiting.measure]
    omega

theorem onlyStops_of_notByCommand (h : notByCommand e) : OnlyStops e := by
  cases e with
  | command | supply => cases h
  | helper | wait => trivial

/-- A state in which nothing happens by itself stays as it is until a command does something. -/
theorem eq_of_runOf (hstuck : ∀ e, OnlyStops e → waitStep w e = none)
    (h : RunOf waitStep notByCommand w w') : w' = w := by
  obtain ⟨l, hl, hP⟩ := h
  cases hl with
  | nil => rfl
  | @cons _ _ _ e _ hstep =>
    have honly := onlyStops_of_notByCommand (hP _ List.mem_cons_self)
    rw [hstuck e honly] at hstep
    cases hstep

/-- When nothing happens by itself any more, the shell hangs. -/
theorem Trapped.hangs (h : Trapped io i kc kh w)
    (hstuck : ∀ e, OnlyStops e → waitStep w e = none) : Hangs w := by
  have hcommands : ∀ p ∈ w.procs, ∀ j, p.role = .command j → p.state ≠ .running := by
    intro p hp j hrole hstate
    obtain ⟨k, hk⟩ := List.getElem?_of_mem hp
    have hstop := hstuck (.command k .stop) rfl
    simp [waitStep, hk, hrole, commandStep, hstate] at hstop
  obtain ⟨ph, hph, -⟩ := h.helper
  have hlt : w.next < w.procs.length :=
    Nat.lt_of_le_of_lt h.next (lt_of_getElem? hph)
  have hp : w.procs[w.next]? = some w.procs[w.next] := List.getElem?_eq_getElem hlt
  have hstate : w.procs[w.next].state = .running := by
    have hwait := hstuck .wait trivial
    simpa [waitStep, hp] using hwait
  refine ⟨hcommands, _, hp, ?_, hstate, fun w' hrun a ↦ ?_⟩
  · cases hrole : w.procs[w.next].role with
    | helper io' j => exact ⟨io', j, rfl⟩
    | command j => exact absurd hstate (hcommands _ (List.getElem_mem hlt) j hrole)
  · rw [eq_of_runOf hstuck hrun]
    exact hstuck (.helper w.next a) trivial

theorem Trapped.exists_hangs (h : Trapped io i kc kh w) :
    ∃ u, Reachable waitStep w u ∧ Hangs u := by
  obtain ⟨u, ⟨l, hl, -⟩, htrapped, hstuck⟩ :=
    exists_stuck (P := OnlyStops) Waiting.measure
      (fun s e t he hst hs ↦ ⟨Trapped.step hs he hst, measure_step_lt hs.wired he hst⟩) h
  exact ⟨u, ⟨l, hl⟩, htrapped.hangs hstuck⟩

end Trapped

/-! ### The processes that `pipes_execute` has forked -/

/-- The input files of a command. -/
def inputFiles (content : ℕ → ℕ → Source) (i : ℕ) (cmd : SingleCommand) : List Source :=
  (List.range cmd.numInputs).map (content i)

section Start

variable {content : ℕ → ℕ → Source} {cmds : List SingleCommand} {o : PipelineOutcome}
  {stdOpen : Prop} {s : Spawn} {c d : Child} {u : Table} {i : ℕ}

@[simp] theorem role_start : (Process.start content cmds c).role = c.role := by
  unfold Process.start
  split <;> rfl

theorem start_of_some (h : c.fds = some u) : (Process.start content cmds c).table = u ∧
    (Process.start content cmds c).state = .running ∧
    (Process.start content cmds c).pending = 0 := by
  unfold Process.start
  rw [h]
  exact ⟨rfl, rfl, rfl⟩

theorem start_of_none (h : c.fds = none) : (Process.start content cmds c).table = ⟨[]⟩ ∧
    (Process.start content cmds c).state = .exited := by
  unfold Process.start
  rw [h]
  exact ⟨rfl, rfl⟩

/-- A feeder starts with its files unread. -/
theorem left_start (hcmd : cmds[i]? = some cmd) (hrole : c.role = .helper .input i)
    (hfds : c.fds = some u) : (Process.start content cmds c).left = inputFiles content i cmd := by
  simp only [Process.start, hfds, hrole, hcmd, inputFiles]

theorem fits_start (hcmd : cmds[i]? = some cmd) (hrole : c.role = .helper .input i)
    (hfds : c.fds = some u) :
    FitsBehind (SlotPipe.empty : SlotPipe size) (Process.start content cmds c) ↔
      FitsUnread size (inputFiles content i cmd) := by
  simp only [FitsBehind, FitsUnread, left_start hcmd hrole hfds, Process.due,
    (start_of_some hfds).2.2, if_true, SlotPipe.mark_empty]

theorem map_role_start :
    (Waiting.start size content cmds s).procs.map Process.role = s.children.map Child.role := by
  simp [Waiting.start, Function.comp_def]

theorem mem_start (hp : p ∈ (Waiting.start size content cmds s).procs) :
    ∃ c ∈ s.children, p = Process.start content cmds c := by
  obtain ⟨c, hc, rfl⟩ := List.mem_map.mp hp
  exact ⟨c, hc, rfl⟩

theorem Staffed.wired (h : Staffed cmds o stdOpen s) :
    Wired (Waiting.start size content cmds s) := by
  refine ⟨fun j k p q hj hk heq ↦ ?_, fun p hp io j side hholds ↦ ?_, fun p hp io j hrole ↦ ?_,
    fun p hp hstate d ↦ ?_⟩
  · have hrole (l : ℕ) (r : Process) (hl : (Waiting.start size content cmds s).procs[l]? = some r) :
        (s.children.map Child.role)[l]? = some r.role := by
      have hroles : (Waiting.start size content cmds s).procs.map Process.role =
          s.children.map Child.role := map_role_start
      rw [← hroles, List.getElem?_map, hl, Option.map_some]
    have hlt : j < (s.children.map Child.role).length :=
      lt_of_getElem? (hrole j p hj)
    refine (List.getElem?_inj hlt h.roles).mp ?_
    rw [hrole j p hj, hrole k q hk, heq]
  · obtain ⟨c, hc, rfl⟩ := mem_start hp
    cases hfds : c.fds with
    | none => exact absurd ((start_of_none hfds).1 ▸ hholds) (not_holds_nil _)
    | some u =>
      rw [role_start]
      exact h.only c hc u hfds io j side ((start_of_some hfds).1 ▸ hholds)
  · obtain ⟨c, hc, rfl⟩ := mem_start hp
    cases hfds : c.fds with
    | none => simp [(start_of_none hfds).2]
    | some => simp [(start_of_some hfds).2.1]
  · obtain ⟨c, hc, rfl⟩ := mem_start hp
    cases hfds : c.fds with
    | none =>
      rw [(start_of_none hfds).1]
      exact not_holds_nil d
    | some => simp [(start_of_some hfds).2.1] at hstate

/-- A role that some child has was forked for a command. -/
theorem Staffed.forks (h : Staffed cmds o stdOpen s) {role : Role}
    (hmem : role ∈ s.children.map Child.role) (hrole : role ∈ rolesOf i) :
    ∃ cmd pid, cmds[i]? = some cmd ∧ Forks i cmd (o.command i) role pid := by
  obtain ⟨c, hc, rfl⟩ := List.mem_map.mp hmem
  obtain ⟨j, cmd, hcmd, hj, hforks⟩ := h.forked c hc
  obtain rfl := index_of_mem_rolesOf hrole hj
  exact ⟨cmd, c.pid, hcmd, hforks⟩

/-- What has to hold of a command and of the results of the calls that are made for it: if it is
started, it has no distributor, and its feeder needs no reader; if it is not, no call of `read` of
its feeder waits. -/
structure Unblocking (size : PipeSize) (content : ℕ → ℕ → Source) (i : ℕ) (cmd : SingleCommand)
    (o : CommandOutcome) : Prop where
  started : ∀ pid, Forks i cmd o (.command i) pid → cmd.numOutputs < 2 ∧
    (2 ≤ cmd.numInputs → FitsUnread size (inputFiles content i cmd))
  unstarted : (∀ pid, ¬ Forks i cmd o (.command i) pid) →
    ∀ pid, Forks i cmd o (.helper .input i) pid → ∀ s ∈ inputFiles content i cmd, NeverWaits s

theorem Staffed.no_distributor (h : Staffed cmds o stdOpen s)
    (hcond : ∀ i cmd, cmds[i]? = some cmd → Unblocking size content i cmd (o.command i))
    (hcommand : .command i ∈ s.children.map Child.role) :
    .helper .output i ∉ s.children.map Child.role := by
  intro hhelper
  obtain ⟨cmd, pid, hcmd, hforks⟩ := h.forks hcommand (i := i) (by simp [rolesOf])
  obtain ⟨cmd', pid', hcmd', hforks'⟩ := h.forks hhelper (i := i) (by simp [rolesOf])
  cases hcmd.symm.trans hcmd'
  exact absurd hforks'.2.2.2.1 (Nat.not_le_of_lt ((hcond i cmd hcmd).started pid hforks).1)

theorem Staffed.fed (h : Staffed cmds o stdOpen s)
    (hcond : ∀ i cmd, cmds[i]? = some cmd → Unblocking size content i cmd (o.command i)) :
    Fed (Role.command · ∈ s.children.map Child.role) (Waiting.start size content cmds s) := by
  intro p hp i hrole
  obtain ⟨c, hc, rfl⟩ := mem_start hp
  rw [role_start] at hrole
  obtain ⟨u, hfds⟩ := Option.ne_none_iff_exists'.mp (h.helper c hc _ _ hrole)
  obtain ⟨cmd, pid, hcmd, hforks⟩ :=
    h.forks (List.mem_map_of_mem hc) (i := i) (by simp [hrole, rolesOf])
  rw [hrole] at hforks
  refine ⟨?_, fun hstarted ↦ ?_, fun hstarted ↦ ?_⟩
  · rw [(start_of_some hfds).2.2]
    exact Nat.zero_le _
  · obtain ⟨cmd', pid', hcmd', hforks'⟩ := h.forks hstarted (i := i) (by simp [rolesOf])
    cases hcmd.symm.trans hcmd'
    have hcond' := (hcond i cmd hcmd).started pid' hforks'
    exact (fits_start hcmd hrole hfds).mpr (hcond'.2 hforks.2.2.1)
  · rw [left_start hcmd hrole hfds]
    refine (hcond i cmd hcmd).unstarted (fun pid' hforks' ↦ hstarted ?_) pid hforks
    obtain ⟨d, hd, hdrole, -⟩ := h.all i cmd hcmd _ _ hforks'
    exact hdrole ▸ List.mem_map_of_mem hd

/-- A command and its helper as they start. -/
theorem Staffed.trapped (h : Staffed cmds o stdOpen s) {io : Redirection} (hc : c ∈ s.children)
    (hcrole : c.role = .command i) (hfds : c.fds = some u)
    (hholds : u.Holds (.helper io i io.keptSide)) (hd : d ∈ s.children)
    (hdrole : d.role = .helper io i) (hstarved : io = .input →
      Starved (Waiting.start size content cmds s) i (Process.start content cmds d)) :
    ∃ kc kh, Trapped io i kc kh (Waiting.start size content cmds s) := by
  have hslot (c : Child) (hc : c ∈ s.children) :
      ∃ k, (Waiting.start size content cmds s).procs[k]? = some (Process.start content cmds c) :=
    List.getElem?_of_mem (List.mem_map_of_mem hc)
  obtain ⟨kc, hkc⟩ := hslot c hc
  obtain ⟨kh, hkh⟩ := hslot d hd
  obtain ⟨v, hv⟩ := Option.ne_none_iff_exists'.mp (h.helper d hd io i hdrole)
  refine ⟨kc, kh, h.wired, ⟨_, hkc, by rw [role_start, hcrole], ?_⟩,
    ⟨_, hkh, by rw [role_start, hdrole], (start_of_some hv).2.1, hstarved⟩, Nat.zero_le kh⟩
  rwa [(start_of_some hfds).1]

end Start

/-! ### When the shell hangs -/

/-- On no interleaving of the processes of the foreground pipeline does the shell hang. -/
def NeverHangs (size : PipeSize) (content : ℕ → ℕ → Source) (shellPgid : ℕ+)
    (cmds : List SingleCommand) (o : PipelineOutcome) (t : Table) : Prop :=
  ∀ s, pipesSpawn shellPgid cmds false o t = .inr s →
    ∀ w, Reachable waitStep (Waiting.start size content cmds s) w → ¬ Hangs w

section Hanging

variable {content : ℕ → ℕ → Source} {cmds : List SingleCommand} {o : PipelineOutcome}
  {stdOpen : Prop} {s : Spawn} {i : ℕ} {pid pid' : ℕ+}

/-- What holds of a pipeline at its start and is kept by all steps. -/
theorem Staffed.not_hangs (h : Staffed cmds o stdOpen s) (hpage : bufSize ≤ size.page)
    (hcond : ∀ i cmd, cmds[i]? = some cmd → Unblocking size content i cmd (o.command i))
    {w : Waiting size} (hw : Reachable waitStep (Waiting.start size content cmds s) w) :
    ¬ Hangs w := by
  obtain ⟨hwired, hfed, hroles⟩ := hw.invariant
    (I := fun w ↦ Wired w ∧ Fed (Role.command · ∈ s.children.map Child.role) w ∧
      w.procs.map Process.role = s.children.map Child.role)
    ⟨h.wired, h.fed hcond, map_role_start⟩ fun w e w' hstep hI ↦
      ⟨hI.1.step hstep, hI.2.1.step hI.1 hstep, (roles_step hstep).trans hI.2.2⟩
  rw [← hroles] at hfed
  refine Irish.Shell.not_hangs hpage hwired hfed fun i ↦ ?_
  rw [hroles]
  exact h.no_distributor hcond

/-- If standard input and output are open, the process of a started command has not exited. -/
theorem Staffed.alive (h : Staffed cmds o stdOpen s) (hstd : stdOpen) (hcmd : cmds[i]? = some cmd)
    (hforks : Forks i cmd (o.command i) (.command i) pid) :
    (Waiting.start size content cmds s).Alive i := by
  obtain ⟨c, hc, hcrole, -⟩ := h.all i cmd hcmd _ _ hforks
  obtain ⟨u, hu, -⟩ := h.command hstd c hc i cmd hcmd hcrole
  refine ⟨_, List.mem_map_of_mem hc, role_start.trans hcrole, ?_⟩
  simp [(start_of_some hu).2.1]

/-- If standard input and output are open, a started command whose helper cannot finish without it
makes the shell hang on some interleaving. -/
theorem Staffed.exists_hangs (h : Staffed cmds o stdOpen s) (hstd : stdOpen)
    (hcmd : cmds[i]? = some cmd) (hforks : Forks i cmd (o.command i) (.command i) pid)
    (io : Redirection) (hforks' : Forks i cmd (o.command i) (.helper io i) pid')
    (hfiles : io = .input → ¬ FitsUnread size (inputFiles content i cmd) ∧
      ∀ j k c, (content i j).get k = .waits c →
        ∃ cmd pid, cmds[c]? = some cmd ∧ Forks c cmd (o.command c) (.command c) pid) :
    ∃ w, Reachable waitStep (Waiting.start size content cmds s) w ∧ Hangs w := by
  obtain ⟨c, hc, hcrole, -⟩ := h.all i cmd hcmd _ _ hforks
  obtain ⟨d, hd, hdrole, -⟩ := h.all i cmd hcmd _ _ hforks'
  obtain ⟨u, hu, hread, hwrite⟩ := h.command hstd c hc i cmd hcmd hcrole
  have hholds : u.Holds (.helper io i io.keptSide) := by
    cases io with
    | input => exact hread hforks'.2.2.1
    | output => exact hwrite hforks'.2.2.2.1
  have hstarved (hio : io = .input) :
      Starved (Waiting.start size content cmds s) i (Process.start content cmds d) := by
    obtain ⟨hunfit, hwaits⟩ := hfiles hio
    subst hio
    obtain ⟨v, hv⟩ := Option.ne_none_iff_exists'.mp (h.helper d hd .input i hdrole)
    refine ⟨fun hfits ↦ hunfit ((fits_start hcmd hdrole hv).mp hfits), fun f hf k c hk ↦ ?_⟩
    rw [left_start hcmd hdrole hv] at hf
    obtain ⟨j, -, rfl⟩ := List.mem_map.mp hf
    obtain ⟨cmd', pid'', hcmd', hforks''⟩ := hwaits j k c hk
    exact h.alive hstd hcmd' hforks''
  obtain ⟨kc, kh, htrapped⟩ := h.trapped hc hcrole hu hholds hd hdrole hstarved
  exact htrapped.exists_hangs

end Hanging

/-- The shell hangs on no interleaving if a pipe of the pipeline cannot be opened, or if every
command that is started has at most one output file, and either at most one input file or input
files that come to an end without a command and that an unread pipe takes, and if no feeder of a
command that is not started waits for a command. If standard input and output are open and feeders
wait only for commands that are started, it can hang on every pipeline with a started command of
which this is not so. Assumes: a page has at least the size of `buf`. -/
theorem neverHangs_iff {t : Table} (ht : ∀ io i side, ¬ t.Holds (.helper io i side))
    {size : PipeSize} (hpage : 4096 ≤ size.page) (content : ℕ → ℕ → Source) (shellPgid : ℕ+)
    (cmds : List SingleCommand) (o : PipelineOutcome) :
    (((∃ k < cmds.length - 1, o.pipes k = false) ∨
        ∀ i cmd, cmds[i]? = some cmd → Unblocking size content i cmd (o.command i)) →
      NeverHangs size content shellPgid cmds o t) ∧
    (t.get 0 ≠ none → t.get 1 ≠ none → NeverHangs size content shellPgid cmds o t →
      (∃ k < cmds.length - 1, o.pipes k = false) ∨
        ∀ i cmd pid, cmds[i]? = some cmd → Forks i cmd (o.command i) (.command i) pid →
          cmd.numOutputs < 2 ∧
            (2 ≤ cmd.numInputs →
              (∀ j k c, (content i j).get k = .waits c →
                ∃ cmd pid, cmds[c]? = some cmd ∧ Forks c cmd (o.command c) (.command c) pid) →
              FitsUnread size (inputFiles content i cmd))) := by
  rcases pipesSpawn_staffed shellPgid cmds o ht with ⟨hfail, t', hspawn⟩ | ⟨hall, s, hspawn, hs⟩
  · refine ⟨fun _ s hs ↦ ?_, fun _ _ _ ↦ .inl hfail⟩
    cases hspawn.symm.trans hs
  · refine ⟨fun hcond s' hs' w hw ↦ ?_, fun hzero hone hnever ↦ .inr fun i cmd pid hcmd hforks ↦ ?_⟩
    · obtain rfl : s = s' := Sum.inr.inj (hspawn.symm.trans hs')
      rcases hcond with ⟨k, hk, hpipe⟩ | hcond
      · rw [hall k hk] at hpipe
        cases hpipe
      · exact hs.not_hangs hpage hcond hw
    · have ⟨_, hargc, hinput, houtput, _⟩ := hforks
      constructor
      · by_contra hmany
        have htwo : 2 ≤ cmd.numOutputs := Nat.le_of_not_lt hmany
        obtain ⟨pid', hpid'⟩ := Option.isSome_iff_exists.mp (houtput.2 htwo).2
        obtain ⟨w, hw, hhangs⟩ := hs.exists_hangs ⟨hzero, hone⟩ hcmd hforks .output
          ⟨rfl, hargc, hinput, htwo, houtput, hpid'⟩ (by simp)
        exact hnever s hspawn w hw hhangs
      · intro htwo hwaits
        by_contra hunfit
        obtain ⟨pid', hpid'⟩ := Option.isSome_iff_exists.mp (hinput.2 htwo).2
        obtain ⟨w, hw, hhangs⟩ := hs.exists_hangs ⟨hzero, hone⟩ hcmd hforks .input
          ⟨rfl, hargc, htwo, hinput, hpid'⟩ fun _ ↦ ⟨hunfit, hwaits⟩
        exact hnever s hspawn w hw hhangs

/-! ### Regular files -/

/-- A regular file: calls of `read` return as much as fits into `buf`, until nothing is left. -/
def regularFile (n : ℕ) : Source := fun k ↦
  if h : k * bufSize < n then
    .returns (some ⟨min bufSize (n - k * bufSize), by
      have hsize : 0 < bufSize := by decide
      omega⟩)
  else .returns none

/-- What a feeder writes for a regular file. -/
def fileWrites (n : ℕ) : List ℕ :=
  List.replicate (n / bufSize) bufSize ++ if n % bufSize = 0 then [] else [n % bufSize]

theorem fileWrites_add (n : ℕ) : fileWrites (bufSize + n) = bufSize :: fileWrites n := by
  rw [fileWrites, Nat.add_div_left n (by decide), Nat.add_mod_left, List.replicate_succ,
    List.cons_append, fileWrites]

theorem fileWrites_of_pos (hpos : 0 < n) :
    fileWrites n = min bufSize n :: fileWrites (n - bufSize) := by
  rcases Nat.lt_or_ge n bufSize with hlt | hge
  · rw [Nat.min_eq_right hlt.le, Nat.sub_eq_zero_of_le hlt.le]
    simp [fileWrites, Nat.div_eq_of_lt hlt, Nat.mod_eq_of_lt hlt, Nat.ne_of_gt hpos]
  · rw [Nat.min_eq_left hge, ← fileWrites_add, Nat.add_sub_cancel' hge]

theorem get_regularFile (n k : ℕ) : ∃ r, (regularFile n).get k = .returns r := by
  unfold Stream'.get regularFile
  split_ifs
  · exact ⟨_, rfl⟩
  · exact ⟨_, rfl⟩

theorem head_regularFile (hpos : 0 < n) :
    ∃ r : ReadSize, (r : ℕ) = min bufSize n ∧ (regularFile n).head = .returns (some r) := by
  have hlt : 0 * bufSize < n := by rwa [Nat.zero_mul]
  refine ⟨_, ?_, dif_pos hlt⟩
  show min bufSize (n - 0 * bufSize) = _
  rw [Nat.zero_mul, Nat.sub_zero]

theorem tail_regularFile (n : ℕ) : (regularFile n).tail = regularFile (n - bufSize) := by
  funext k
  show regularFile n (k + 1) = _
  have hsub : n - (k + 1) * bufSize = n - bufSize - k * bufSize := by
    rw [Nat.succ_mul]
    omega
  have hlt : (k + 1) * bufSize < n ↔ k * bufSize < n - bufSize := by
    rw [Nat.succ_mul]
    omega
  simp only [regularFile, hsub, hlt]

theorem delivers_regularFile (n : ℕ) {writes : List ℕ} (h : Delivers files writes) :
    Delivers (regularFile n :: files) (fileWrites n ++ writes) := by
  induction n using Nat.strong_induction_on with
  | _ n ih =>
    rcases Nat.eq_zero_or_pos n with rfl | hpos
    · have hnone : fileWrites 0 = [] := by simp [fileWrites]
      have hend : (regularFile 0).head = .returns none := by
        simp [Stream'.head, Stream'.get, regularFile]
      rw [hnone, List.nil_append]
      exact .fileEnd hend h
    have hsize : 0 < bufSize := by decide
    have hrest := ih (n - bufSize) (by omega)
    rw [← tail_regularFile] at hrest
    obtain ⟨r, hr, hhead⟩ := head_regularFile hpos
    rw [fileWrites_of_pos hpos, ← hr, List.cons_append]
    exact .bytes hhead hrest

theorem delivers_regularFiles (lengths : List ℕ) :
    Delivers (lengths.map regularFile) (lengths.flatMap fileWrites) := by
  induction lengths with
  | nil => exact .nil
  | cons n _ ih => exact delivers_regularFile n ih

theorem Delivers.unique {writes writes' : List ℕ} (h : Delivers files writes)
    (h' : Delivers files writes') : writes = writes' := by
  induction h generalizing writes' with
  | nil =>
    cases h'
    rfl
  | bytes hhead _ ih =>
    cases h' with
    | bytes hhead' hrest' =>
      obtain rfl := by simpa using hhead.symm.trans hhead'
      rw [ih hrest']
    | fileEnd hend => cases hhead.symm.trans hend
  | fileEnd hhead _ ih =>
    cases h' with
    | bytes hbytes => cases hhead.symm.trans hbytes
    | fileEnd _ hrest' => exact ih hrest'

/-- For regular files the condition can be computed from their lengths. -/
theorem fitsUnread_regularFiles (lengths : List ℕ) :
    FitsUnread size (lengths.map regularFile) ↔
      (Mark.start size).Takes size (lengths.flatMap fileWrites) := by
  constructor
  · rintro ⟨writes, hdelivers, htakes⟩
    rwa [hdelivers.unique (delivers_regularFiles lengths)] at htakes
  · exact fun htakes ↦ ⟨_, delivers_regularFiles lengths, htakes⟩

/-- Linux: 16 pages of 4096 bytes. -/
def linuxPipe : PipeSize := ⟨16, 4096⟩

/-- A pipe of 65536 bytes takes 16 files of 2049 bytes each, but not 17: two of them do not go into
one page. -/
example : FitsUnread linuxPipe ((List.replicate 16 2049).map regularFile) ∧
    ¬ FitsUnread linuxPipe ((List.replicate 17 2049).map regularFile) := by
  rw [fitsUnread_regularFiles, fitsUnread_regularFiles]
  decide

/-- On Linux the shell does not hang on `cat < a < b | wc` if the files have 10 bytes each, and can
hang if they have 40000. -/
theorem neverHangs_twoInputs :
    NeverHangs linuxPipe (fun _ _ ↦ regularFile 10) 1 twoInputs allSucceed standardTable ∧
    ¬ NeverHangs linuxPipe (fun _ _ ↦ regularFile 40000) 1 twoInputs allSucceed standardTable := by
  have ht : ∀ io i side, ¬ standardTable.Holds (.helper io i side) := by
    intro io i side
    simp [DescriptorTable.holds_iff_mem, standardTable]
  have hcommands : ∀ cmd ∈ twoInputs, cmd.numOutputs < 2 ∧ cmd.numInputs ≤ 2 := by decide
  refine ⟨(neverHangs_iff ht (by decide) _ 1 twoInputs allSucceed).1 (.inr ?_), fun hnever ↦ ?_⟩
  · intro i cmd hcmd
    obtain ⟨hout, hin⟩ := hcommands cmd (List.mem_of_getElem? hcmd)
    refine ⟨fun pid _ ↦ ⟨hout, fun htwo ↦ ?_⟩, fun _ pid _ s hs ↦ ?_⟩
    · rw [inputFiles, Nat.le_antisymm hin htwo]
      exact (fitsUnread_regularFiles [10, 10]).mpr (by decide)
    · obtain ⟨j, -, rfl⟩ := List.mem_map.mp hs
      intro k c hk
      obtain ⟨r, hr⟩ := get_regularFile 10 k
      cases hr.symm.trans hk
  · have hcond :=
      (neverHangs_iff ht (by decide) _ 1 twoInputs allSucceed).2 (by decide) (by decide) hnever
    rcases hcond with ⟨k, -, hpipe⟩ | hcond
    · cases hpipe
    · have hfits := (hcond 0 _ _ rfl ⟨rfl, by decide, by decide, by decide, .inr rfl, rfl⟩).2
        (by decide) fun j k c hk ↦ by
          obtain ⟨r, hr⟩ := get_regularFile 40000 k
          cases hr.symm.trans hk
      exact absurd ((fitsUnread_regularFiles [40000, 40000]).mp hfits) (by decide)

/-- `cat > a > b`. -/
def twoOutputs : List SingleCommand :=
  [⟨[some [99, 97, 116]], [], [⟨some [97], false⟩, ⟨some [98], false⟩]⟩]

/-- The distributor and the stopped command of `cat > a > b`, with nothing written yet. -/
def stoppedCat : Waiting linuxPipe where
  procs :=
    [{ role := .helper .output 0
       table := ⟨[some (.shell 0), some (.shell 1), some (.shell 2),
         some (.output 0 0 ⟨some [97], false⟩), some (.output 0 1 ⟨some [98], false⟩),
         some (.helper .output 0 .read), none]⟩
       state := .running
       pending := 0
       left := [] },
     { role := .command 0
       table := ⟨[some (.shell 0), some (.helper .output 0 .write), some (.shell 2), none, none,
         none, none]⟩
       state := .stopped
       pending := 0
       left := [] }]
  fill := fun _ ↦ .empty
  next := 0

/-- Nothing happens any more: the pipe is empty, and `cat` has it open. -/
theorem stoppedCat_stuck (e : WaitEvent) (he : OnlyStops e) : waitStep stoppedCat e = none := by
  have hheld : stoppedCat.Held (.helper .output 0 .write) := by decide
  rcases e with ⟨k, a⟩ | ⟨k, a⟩ | _ | _
  · rcases k with _ | _ | k
    · have hnone : distributorStep stoppedCat 0 stoppedCat.procs[0] a = none := by
        cases a with
        | receive =>
          refine if_neg fun hguard ↦ ?_
          exact absurd hguard.2.2.2 (Nat.not_le_of_lt hguard.2.1)
        | finish => simp [distributorStep, hheld]
        | _ => rfl
      exact congrArg (Option.map _) hnone
    · rfl
    · rfl
  · obtain rfl : a = .stop := he
    rcases k with _ | _ | k <;> rfl
  · exact he.elim
  · rfl

/-- `cat > a > b` is stopped while it waits for input. The shell waits for the distributor, and the
distributor for `cat`. -/
theorem twoOutputs_hangs : ∃ s,
    pipesSpawn 1 twoOutputs false allSucceed standardTable = .inr s ∧
    waitStep (Waiting.start linuxPipe (fun _ _ ↦ regularFile 0) twoOutputs s) (.command 1 .stop) =
      some stoppedCat ∧
    Hangs stoppedCat := by
  refine ⟨_, rfl, rfl, ?_, _, rfl, ⟨.output, 0, rfl⟩, rfl, fun w hrun a ↦ ?_⟩
  · simp [stoppedCat]
  · rw [eq_of_runOf stoppedCat_stuck hrun]
    exact stoppedCat_stuck _ trivial

end Irish.Shell
