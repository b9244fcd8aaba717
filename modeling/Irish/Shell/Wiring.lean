import Irish.Shell.HelperEnds
import Irish.Shell.PipeEnds

/-!
# What the commands of a pipeline are connected to

`redirectTarget` says what the redirections of a command come to, `stdinTarget` and `stdoutTarget`
what its stdin and its stdout should refer to: the redirections if there are any, otherwise the
pipes to its neighbours, otherwise what the shell has or, for the stdin of a background job,
`/dev/null` if it can be opened. Every command that is forked comes to run with them, and with no
other descriptor on a pipe between commands (`commands_wired`), whatever has become of the commands
before it.

The stdin and the stdout of the shell have to be open. Otherwise the ends of the pipes take their
places.
-/

set_option autoImplicit false

namespace Irish.Shell

open Library

/-! ### Redirections -/

/-- The single file, or the end of the pipe to the helper. -/
def redirectTarget (io : Redirection) (i : ℕ) : List Description → Option Description
  | [] => none
  | [file] => some file
  | _ :: _ :: _ => some (.helper io i io.keptSide)

variable {files : List Description} {cmd : SingleCommand} {t t' t'' : Table} {k i j pgid : ℕ}
  {pipeFds : List (ℕ × ℕ)} {p : Pipeline} {o : CommandOutcome} {c : Child}

theorem redirectTarget_of_two (io : Redirection) (i : ℕ) (h : 2 ≤ files.length) :
    redirectTarget io i files = some (.helper io i io.keptSide) := by
  rcases files with _ | ⟨_, _ | ⟨_, _⟩⟩
  · exact absurd h (by decide)
  · exact absurd h (by simp)
  · rfl

/-- The descriptor that a set-up returns refers to what it should. -/
theorem redirectSetup_target (io : Redirection) (message : Message) (i : ℕ) (shellPgid : ℕ+)
    {o : SetupOutcome} (t : Table) (h : SetupOk files.length o) :
    let r := redirectSetup io message i files shellPgid o t
    r.fd.bind r.table.get = redirectTarget io i files := by
  intro r
  rcases redirectSetup_cases io message i shellPgid t h (P := (· ∈ files)) fun _ hd ↦ hd with
    ⟨hnil, hr⟩ | ⟨hone, fd, t₁, hopened, hr⟩ | ⟨hcount, pid, fds, t₁, -, hopened, hr⟩
  · rw [show r = _ from hr, hnil]
    rfl
  · obtain ⟨file, rfl⟩ := List.length_eq_one_iff.mp hone
    obtain ⟨d, hget, hd⟩ := hopened.refers fd List.mem_cons_self
    rwa [show r = _ from hr, ← List.mem_singleton.mp hd]
  · obtain ⟨hfree, hkept, -, hne, -⟩ := get_helperPipe io i t₁
    rw [show r = _ from hr]
    generalize t₁.pipe (.helper io i .read) (.helper io i .write) = p at hfree hkept hne ⊢
    have hopen : io.kept p.1 ∉ fds ++ [io.given p.1] := by
      rw [List.mem_append, List.mem_singleton]
      rintro (hmem | heq)
      · exact hopened.ne_none hmem hfree
      · exact hne heq
    simp only [Option.bind_some, DescriptorTable.get_closeAll, if_neg hopen, hkept,
      redirectTarget_of_two io i hcount]

/-- What the inputs of a command come to. -/
def redirectedStdin (i : ℕ) (cmd : SingleCommand) : Option Description :=
  redirectTarget .input i (cmd.inputFiles.mapIdx fun j name ↦ .input i j name)

/-- What the outputs of a command come to. -/
def redirectedStdout (i : ℕ) (cmd : SingleCommand) : Option Description :=
  redirectTarget .output i (cmd.outputFiles.mapIdx fun j file ↦ .output i j file)

theorem bind_redirectSetupInput (i : ℕ) (shellPgid : ℕ+) {o : SetupOutcome} (t : Table)
    (h : SetupOk cmd.numInputs o) :
    let r := redirectSetupInput i cmd shellPgid o t
    r.fd.bind r.table.get = redirectedStdin i cmd :=
  redirectSetup_target .input .noSuchFile i shellPgid t (by rwa [List.length_mapIdx])

theorem bind_redirectSetupOutput (i : ℕ) (shellPgid : ℕ+) {o : SetupOutcome} (t : Table)
    (h : SetupOk cmd.numOutputs o) :
    let r := redirectSetupOutput i cmd shellPgid o t
    r.fd.bind r.table.get = redirectedStdout i cmd :=
  redirectSetup_target .output .unableToCreate i shellPgid t (by rwa [List.length_mapIdx])

/-! ### The commands -/

/-- What the stdin of a command should refer to, when `t` is the table of the shell before the
pipeline. A background job falls back to the stdin of the shell if it cannot open `/dev/null`. -/
def stdinTarget (isBg devNull : Bool) (i : ℕ) (cmd : SingleCommand) (t : Table) :
    Option Description :=
  (redirectedStdin i cmd).or
    (if i > 0 then some (.pipe (i - 1) .read)
    else if isBg ∧ devNull then some .devNull
    else t.get 0)

def stdoutTarget (numCmds i : ℕ) (cmd : SingleCommand) (t : Table) : Option Description :=
  (redirectedStdout i cmd).or (if i < numCmds - 1 then some (.pipe i .write) else t.get 1)

/-- A command runs with the right stdin and stdout, and nothing else of it is on a pipe between
commands. -/
structure CommandWired (isBg devNull : Bool) (numCmds i : ℕ) (cmd : SingleCommand) (t u : Table) :
    Prop where
  stdin : u.get 0 = stdinTarget isBg devNull i cmd t
  stdout : u.get 1 = stdoutTarget numCmds i cmd t
  others : ∀ fd, fd ≠ 0 → fd ≠ 1 → ∀ k side, u.get fd ≠ some (.pipe k side)

section Command

variable {p : Pipeline} {t t' : Table} {i : ℕ} {o : CommandOutcome}

theorem wired_commandSetup (hpipes : PipesOpen t (p.numCmds - 1) p.pipeFds t')
    (hzero : t.get 0 ≠ none) (hone : t.get 1 ≠ none) (ht : OnlyAt (fun _ _ _ ↦ False) t)
    (hi : i < p.numCmds) (hin : SetupOk cmd.numInputs o.input)
    (hout : SetupOk cmd.numOutputs o.output) :
    let input := redirectSetupInput i cmd p.shellPgid o.input t'
    let output := redirectSetupOutput i cmd p.shellPgid o.output input.table
    ∃ u, commandSetup p.isBg p.numCmds p.pipeFds i input.fd output.fd o.devNull output.table =
        some u ∧ CommandWired p.isBg o.devNull p.numCmds i cmd t u := by
  intro input output
  have hinOpened : t'.Opened input.fd.toList NotPipe input.table :=
    ((setupSpec_input i cmd p.shellPgid o.input t').ok hin).2
  have houtOpened : input.table.Opened output.fd.toList NotPipe output.table :=
    ((setupSpec_output i cmd p.shellPgid o.output input.table).ok hout).2
  have hinTarget : input.fd.bind input.table.get = redirectedStdin i cmd :=
    bind_redirectSetupInput _ _ _ hin
  have houtTarget : output.fd.bind output.table.get = redirectedStdout i cmd :=
    bind_redirectSetupOutput _ _ _ hout
  have hstd : StdOpen p t' := hpipes.stdOpen hzero hone p.shellPgid p.isBg
  -- What the shell has open is open in the child.
  have hget {fd : ℕ} {d : Description} (hfd : t'.get fd = some d) : output.table.get fd = some d :=
    houtOpened.get_some (hinOpened.get_some hfd)
  have hkeeps {fd : ℕ} (hfd : t.get fd ≠ none) : output.table.get fd = t.get fd := by
    obtain ⟨d, hd⟩ := Option.ne_none_iff_exists'.mp hfd
    rw [hd]
    exact hget (hpipes.opened.get_some hd)
  have hdevNull := get_setupDevNull p.isBg i input.fd o.devNull (t := output.table)
    (by rwa [hkeeps hzero])
  obtain ⟨u, hu, hstdin, hstdout⟩ :=
    exists_commandSetup hstd hi hinOpened houtOpened o.devNull
  refine ⟨u, hu, ?_, ?_, fun fd hfd₀ hfd₁ k side hfd ↦ ?_⟩
  · rw [hstdin, stdinTarget]
    cases hfd : input.fd with
    | some fd =>
      have hmem : fd ∈ input.fd.toList := by simp [hfd]
      obtain ⟨d, hd⟩ := Option.ne_none_iff_exists'.mp (hinOpened.ne_none hmem)
      rw [hfd] at hinTarget hdevNull
      rw [stdinFrom, hdevNull, if_neg (by simp), houtOpened.get_some hd, ← hinTarget,
        Option.bind_some, hd, Option.some_or]
    | none =>
      rw [hfd] at hinTarget hdevNull
      rw [← hinTarget, Option.bind_none, Option.none_or, stdinFrom]
      split_ifs with hpos hbg
      · obtain ⟨fds, hfds⟩ : ∃ fds, p.pipeFds[i - 1]? = some fds :=
          ⟨_, List.getElem?_eq_getElem (by rw [hpipes.length]; omega)⟩
        rw [hfds, Option.bind_some, hdevNull, if_neg (by omega)]
        exact hget (hpipes.ends _ fds hfds).1
      · have hi0 : i = 0 := Nat.eq_zero_of_not_pos hpos
        rw [hdevNull, if_pos ⟨rfl, hbg.1, rfl, hi0, hbg.2⟩]
      · rw [hdevNull, if_neg fun hcond ↦ hbg ⟨hcond.2.1, hcond.2.2.2.2⟩, hkeeps hzero]
  · rw [hstdout, stdoutTarget]
    cases hfd : output.fd with
    | some fd =>
      have hmem : fd ∈ output.fd.toList := by simp [hfd]
      obtain ⟨d, hd⟩ := Option.ne_none_iff_exists'.mp (houtOpened.ne_none hmem)
      rw [hfd] at houtTarget
      rw [stdoutFrom, ← houtTarget, Option.bind_some, hd, Option.some_or]
    | none =>
      rw [hfd] at houtTarget
      rw [← houtTarget, Option.bind_none, Option.none_or, stdoutFrom]
      split_ifs with hlt
      · obtain ⟨fds, hfds⟩ : ∃ fds, p.pipeFds[i]? = some fds :=
          ⟨_, List.getElem?_eq_getElem (by rw [hpipes.length]; omega)⟩
        rw [hfds, Option.bind_some]
        exact hget (hpipes.ends _ fds hfds).2.1
      · exact hkeeps hone
  · have howns := onlyAt_commandSetup (hpipes.held hstd.zero ht) hinOpened houtOpened hu fd k side
      hfd
    cases side with
    | read => exact hfd₀ howns.2
    | write => exact hfd₁ howns.2

end Command

theorem PipesOpen.congr (h : PipesOpen t k pipeFds t') (heq : t''.get = t'.get) :
    PipesOpen t k pipeFds t'' where
  length := h.length
  opened := ⟨h.opened.free, heq ▸ h.opened.refers, heq ▸ h.opened.same⟩
  ends := heq ▸ h.ends
  zero := heq ▸ h.zero

/-- A command is forked with its redirections set up. -/
theorem command_of_mem_forkedBy (hc : c ∈ forkedBy p o i cmd pgid t) (hrole : c.role = .command j) :
    let input := redirectSetupInput i cmd p.shellPgid o.input t
    let output := redirectSetupOutput i cmd p.shellPgid o.output input.table
    j = i ∧ SetupOk cmd.numInputs o.input ∧ SetupOk cmd.numOutputs o.output ∧ c.fds =
      commandSetup p.isBg p.numCmds p.pipeFds i input.fd output.fd o.devNull output.table := by
  have hhelper {io : Redirection} {count : ℕ} {o' : SetupOutcome} {t : Table} {r : SetupResult}
      (hspec : SetupSpec io i count p.shellPgid o' t r) (hc : c ∈ r.child.toList) : False := by
    obtain ⟨-, -, -, hrole', -⟩ := hspec.mem_child c hc
    cases hrole'.symm.trans hrole
  simp only [forkedBy, List.mem_append, List.mem_ite_nil_right, List.mem_map] at hc
  obtain ⟨⟨-, hin⟩, hc | ⟨hout, hc | ⟨-, pid, -, rfl⟩⟩⟩ := hc
  · exact (hhelper (setupSpec_input ..) hc).elim
  · exact (hhelper (setupSpec_output ..) hc).elim
  · cases hrole
    exact ⟨rfl, hin, hout, rfl⟩

/-- Every command that is forked comes to run with its stdin and its stdout connected as they should
be, and with no other descriptor on a pipe between commands. -/
theorem commands_wired (shellPgid : ℕ+) {cmds : List SingleCommand} (isBg : Bool)
    (cmdLine : Option (List Byte)) (o : PipelineOutcome) {t : Table} (jobs : JobTable)
    (hzero : t.get 0 ≠ none) (hone : t.get 1 ≠ none)
    (ht : ∀ fd k side, t.get fd ≠ some (.pipe k side)) {c : Child}
    (hc : c ∈ (pipesExecute shellPgid cmds isBg cmdLine o t jobs).children) {i : ℕ}
    (hrole : c.role = .command i) :
    ∃ cmd u, cmds[i]? = some cmd ∧ c.fds = some u ∧
      CommandWired isBg (o.command i).devNull cmds.length i cmd t u := by
  rcases pipesExecute_spawn shellPgid cmds isBg cmdLine o t jobs with
    ⟨hnone, -⟩ | ⟨pipeFds, t', s, hpipes, rfl, hchildren, -⟩
  · rw [hnone] at hc
    cases hc
  rw [hchildren] at hc
  obtain ⟨j, cmd, pgid, t'', hcmd, hget, hforked⟩ := mem_children_spawnLoop le_rfl hc
  obtain ⟨rfl, hin, hout, hfds⟩ := command_of_mem_forkedBy hforked hrole
  obtain ⟨u, hu, hwired⟩ := wired_commandSetup (p := ⟨shellPgid, isBg, cmds.length, pipeFds⟩)
    (hpipes.congr hget) hzero hone ht (lt_of_getElem? hcmd) hin hout
  exact ⟨cmd, u, hcmd, hfds.trans hu, hwired⟩

/-- `cat < a < b | wc &`: `cat` reads from its feeder and writes to the pipe, `wc` reads the pipe
and writes to the stdout of the shell. -/
theorem wired_twoInputs :
    let children := (pipesExecute 1 twoInputs true none allSucceed standardTable .empty).children
    (∃ c ∈ children, c.role = .command 0 ∧ ∃ u, c.fds = some u ∧
      u.get 0 = some (.helper .input 0 .read) ∧ u.get 1 = some (.pipe 0 .write)) ∧
    ∃ c ∈ children, c.role = .command 1 ∧ ∃ u, c.fds = some u ∧
      u.get 0 = some (.pipe 0 .read) ∧ u.get 1 = some (.shell 1) := by
  intro children
  have hwired {c : Child} (hc : c ∈ children) {i : ℕ} (hrole : c.role = .command i) :=
    commands_wired 1 true none allSucceed .empty (t := standardTable) nofun nofun
      standardTable_get hc hrole
  refine ⟨⟨_, List.mem_cons_of_mem _ List.mem_cons_self, rfl, ?_⟩,
    ⟨_, List.mem_cons_of_mem _ (List.mem_cons_of_mem _ List.mem_cons_self), rfl, ?_⟩⟩
  · obtain ⟨cmd, u, hcmd, hu, hw⟩ :=
      hwired (i := 0) (List.mem_cons_of_mem _ List.mem_cons_self) rfl
    cases hcmd
    exact ⟨u, hu, hw.stdin, hw.stdout⟩
  · obtain ⟨cmd, u, hcmd, hu, hw⟩ := hwired (i := 1)
      (List.mem_cons_of_mem _ (List.mem_cons_of_mem _ List.mem_cons_self)) rfl
    cases hcmd
    exact ⟨u, hu, hw.stdin, hw.stdout⟩

/-- `wc &` in a process that cannot open `/dev/null`: the command reads from the stdin of the
shell. -/
theorem background_reads_shell :
    let wc : SingleCommand := ⟨[some [119, 99]], [], []⟩
    let o : PipelineOutcome :=
      { allSucceed with command := fun i ↦ { allSucceed.command i with devNull := false } }
    ∃ c ∈ (pipesExecute 1 [wc] true none o standardTable .empty).children, c.role = .command 0 ∧
      redirectedStdin 0 wc = none ∧ ∃ u, c.fds = some u ∧ u.get 0 = some (.shell 0) ∧
        u.get 0 ≠ some .devNull ∧ ¬ CommandWired true true 1 0 wc standardTable u := by
  refine ⟨_, List.mem_cons_self, rfl, rfl, _, rfl, rfl, by decide, fun hwired ↦ ?_⟩
  exact absurd hwired.stdin (by decide)

end Irish.Shell
