import Irish.Library.Tables
import Irish.Shell.Executor

/-!
# Where a failing group halts the line

The groups of a line are the pieces between its `;` and `&` (`lineGroups`). `executor_run`,
`sequence_run` and `bg_run` call each other, but together they go through these groups in order
(`executorRun_eq_runGroups`) and stop at the first one that ends the shell or that fails where the
failure is looked at. `bg_run` does not look at what its groups return, so the failure of a
foreground group behind an `&` of its segment is lost, and the line goes on.
-/

set_option autoImplicit false

namespace Irish.Shell

/-! ### The groups of a line -/

/-- A group of a line: how many `;` are in front of it, the call it stands for, and whether its
segment is free of `&`. -/
structure LineGroup where
  segment : ℕ
  call : GroupCall
  alone : Bool
deriving DecidableEq, Repr

/-- The calls for the pieces of a segment: all but the last are followed by `&`. -/
def pieceCalls : List (List Token) → List GroupCall
  | [] => []
  | [last] => if last = [] then [] else [⟨last, false⟩]
  | piece :: next :: rest =>
    (if piece = [] then [] else [⟨piece, true⟩]) ++ pieceCalls (next :: rest)

variable {rest segments : List (List Token)} {segment : List Token} {n m : ℕ} {g h : LineGroup}
  {groups : List LineGroup}

theorem pieceCalls_cons (piece : List Token) (h : rest ≠ []) :
    pieceCalls (piece :: rest) =
      (if piece = [] then [] else [⟨piece, true⟩]) ++ pieceCalls rest := by
  cases rest with
  | nil => exact absurd rfl h
  | cons => rfl

/-- The groups of a segment. -/
def segmentGroups (n : ℕ) (segment : List Token) : List LineGroup :=
  (pieceCalls (segment.splitOnP (·.type = .amp))).map fun call ↦
    ⟨n, call, !segment.any (·.type = .amp)⟩

/-- The groups of the segments, numbered from `n` on. -/
def groupsFrom : ℕ → List (List Token) → List LineGroup
  | _, [] => []
  | n, segment :: segments => segmentGroups n segment ++ groupsFrom (n + 1) segments

def lineGroups (tokens : List Token) : List LineGroup :=
  groupsFrom 0 (tokens.splitOnP (·.type = .semi))

/-! ### One loop over the groups -/

theorem Outcome.exited_or_returned (outcome : Outcome) :
    outcome = .exited ∨ ∃ status, outcome = .returned status := by
  cases outcome with
  | returned status => exact .inr ⟨status, rfl⟩
  | exited => exact .inl rfl

/-- Whether the `n`-th group of the line is the last one to be executed. -/
def Stops (results : ℕ → Outcome) (n : ℕ) (g : LineGroup) : Prop :=
  results n = .exited ∨ (g.alone = true ∧ results n ≠ .returned 0)

instance (results : ℕ → Outcome) (n : ℕ) (g : LineGroup) : Decidable (Stops results n g) :=
  inferInstanceAs (Decidable (_ ∨ _))

/-- Execute groups in order up to the first one that stops the line. -/
def runGroups (results : ℕ → Outcome) : List LineGroup → List GroupCall → Outcome × List GroupCall
  | [], calls => (.returned 0, calls)
  | g :: groups, calls =>
    if Stops results calls.length g then executorExecuteGroup results g.call calls
    else runGroups results groups (calls ++ [g.call])

theorem runGroups_append (results : ℕ → Outcome) (groups rest : List LineGroup)
    (calls : List GroupCall) : runGroups results (groups ++ rest) calls =
      match runGroups results groups calls with
      | (.returned 0, calls) => runGroups results rest calls
      | (outcome, calls) => (outcome, calls) := by
  induction groups generalizing calls with
  | nil => rfl
  | cons g groups ih =>
    simp only [List.cons_append, runGroups]
    split_ifs with hstop
    · -- A group that stops the line does not return 0.
      simp only [executorExecuteGroup]
      split
      · rename_i heq
        rw [Prod.mk.injEq] at heq
        rcases hstop with hexit | ⟨-, hfail⟩
        · rw [heq.1] at hexit
          cases hexit
        · exact absurd heq.1 hfail
      · assumption
    · exact ih _

/-- One turn of the loop over the pieces of a segment: the first piece, and what is behind its
`&`. -/
theorem splitOnP_cases (sep : TokenType) (tokens : List Token) :
    (tokens.dropWhile (·.type ≠ sep) = [] ∧ tokens.takeWhile (·.type ≠ sep) = tokens ∧
      tokens.splitOnP (·.type = sep) = [tokens]) ∨
    (tokens.dropWhile (·.type ≠ sep) ≠ [] ∧ tokens.splitOnP (·.type = sep) =
      tokens.takeWhile (·.type ≠ sep) ::
        (tokens.dropWhile (·.type ≠ sep)).tail.splitOnP (·.type = sep)) := by
  have hplain : ∀ t ∈ tokens.takeWhile (·.type ≠ sep), decide (t.type = sep) = false :=
    fun t ht ↦ decide_eq_false (type_ne_of_mem_takeWhile ht)
  have happend := tokens.takeWhile_append_dropWhile (p := (·.type ≠ sep))
  rcases takeWhile_cases sep tokens with ⟨hall, -⟩ | ⟨t, ht, hcut⟩
  · left
    rw [hall] at happend hplain
    exact ⟨List.append_right_eq_self.mp happend, hall, List.splitOnP_eq_singleton hplain⟩
  · right
    constructor
    · intro hnil
      rw [hnil, List.append_nil] at happend
      rw [hnil, List.tail_nil, happend] at hcut
      simp at hcut
    · conv_lhs => rw [hcut]
      exact List.splitOnP_append_cons_of_forall_mem hplain t (decide_eq_true ht) _

/-- The groups of `bg_run` are the pieces of its segment. -/
theorem bgRun_eq_runGroups (results : ℕ → Outcome) (n : ℕ) (segment : List Token)
    (calls : List GroupCall) : bgRun results segment calls =
      runGroups results ((pieceCalls (segment.splitOnP (·.type = .amp))).map (⟨n, ·, false⟩))
        calls := by
  induction hlength : segment.length using Nat.strongRecOn generalizing segment calls with
  | ind _ ih =>
    subst hlength
    rw [bgRun]
    rcases eq_or_ne segment [] with rfl | hnil
    · rfl
    have hrest := ih _ (length_tail_dropWhile_lt (·.type ≠ .amp) hnil)
    rw [if_neg hnil]
    rcases splitOnP_cases .amp segment with ⟨hdrop, htake, hsplit⟩ | ⟨hdrop, hsplit⟩
    · simp only [hdrop, htake, hsplit, pieceCalls, if_neg hnil, executorExecuteGroup,
        List.map_cons, List.map_nil, runGroups, Stops]
      rcases (results calls.length).exited_or_returned with hexit | ⟨status, hreturned⟩
      · simp [hexit]
      · simp [hreturned, bgRun]
    · rw [hsplit, pieceCalls_cons _ (List.splitOnP_ne_nil _ _)]
      simp only [List.map_append]
      by_cases hgroup : segment.takeWhile (·.type ≠ .amp) = []
      · rw [if_pos hgroup, if_pos hgroup]
        exact hrest _ _ rfl
      · rw [if_neg hgroup, if_neg hgroup]
        simp only [executorExecuteGroup, List.map_cons, List.map_nil, List.cons_append,
          List.nil_append, runGroups, Stops, decide_eq_true hdrop]
        rcases (results calls.length).exited_or_returned with hexit | ⟨status, hreturned⟩
        · simp [hexit]
        · simpa [hreturned] using hrest _ _ rfl

/-- A segment without `;`: `executor_run` hands it to `bg_run` or executes it as one group. -/
theorem executorRun_segment (results : ℕ → Outcome) (n : ℕ) (hsemi : ∀ t ∈ segment, t.type ≠ .semi)
    (calls : List GroupCall) :
    executorRun results segment calls = runGroups results (segmentGroups n segment) calls := by
  have hany : segment.any (·.type = .semi) = false := by
    rw [List.any_eq_false]
    intro t ht
    simpa using hsemi t ht
  rw [executorRun]
  rcases eq_or_ne segment [] with rfl | hnil
  · rfl
  rw [if_neg hnil, hany]
  unfold segmentGroups
  cases hamp : segment.any (·.type = .amp) with
  | true => simpa using bgRun_eq_runGroups results n segment calls
  | false =>
    have hplain : ∀ t ∈ segment, decide (t.type = .amp) = false := by
      intro t ht
      simpa using List.any_eq_false.mp hamp t ht
    simp only [List.splitOnP_eq_singleton hplain, pieceCalls, if_neg hnil, List.map_cons,
      List.map_nil, runGroups, Stops, executorExecuteGroup]
    rcases (results calls.length).exited_or_returned with hexit | ⟨status, hreturned⟩
    · simp [hexit]
    · by_cases hzero : status = 0 <;> simp [hreturned, hzero]

theorem sequenceRun_eq_runGroups (results : ℕ → Outcome) (n : ℕ) (tokens : List Token)
    (calls : List GroupCall) : sequenceRun results tokens calls =
      runGroups results (groupsFrom n (tokens.splitOnP (·.type = .semi))) calls := by
  induction hlength : tokens.length using Nat.strongRecOn generalizing n tokens calls with
  | ind m ih =>
    subst hlength
    rw [sequenceRun]
    rcases eq_or_ne tokens [] with rfl | hnil
    · rfl
    have hrest := ih _ (length_tail_dropWhile_lt (·.type ≠ .semi) hnil) (n + 1)
    have hsemi : ∀ t ∈ tokens.takeWhile (·.type ≠ .semi), t.type ≠ .semi :=
      fun t ht ↦ type_ne_of_mem_takeWhile ht
    rw [if_neg hnil]
    rcases splitOnP_cases .semi tokens with ⟨hdrop, htake, hsplit⟩ | ⟨-, hsplit⟩
    · rw [htake] at hsemi
      simp only [hdrop, htake, hsplit, groupsFrom, if_neg hnil, List.append_nil,
        executorRun_segment results n hsemi calls]
      split
      · rename_i calls' hrun
        rw [hrun, List.tail_nil, sequenceRun, if_pos rfl]
      · rename_i hrun
        exact hrun.symm
    · rw [hsplit, groupsFrom, runGroups_append, ← executorRun_segment results n hsemi calls]
      by_cases hgroup : tokens.takeWhile (·.type ≠ .semi) = []
      · rw [if_pos hgroup, hgroup, executorRun, if_pos rfl]
        exact hrest _ _ rfl
      · rw [if_neg hgroup]
        obtain ⟨outcome, calls'⟩ := executorRun results (tokens.takeWhile (·.type ≠ .semi)) calls
        rcases outcome with ⟨(_ | _) | _⟩ | _
        · exact hrest _ _ rfl
        · rfl
        · rfl
        · rfl

/-- The three dispatchers together are one loop over the groups of the line. -/
theorem executorRun_eq_runGroups (results : ℕ → Outcome) (tokens : List Token)
    (calls : List GroupCall) :
    executorRun results tokens calls = runGroups results (lineGroups tokens) calls := by
  cases hsemi : tokens.any (·.type = .semi) with
  | true =>
    rw [executorRun, hsemi]
    rcases eq_or_ne tokens [] with rfl | hnil
    · cases hsemi
    · rw [if_neg hnil, if_pos rfl]
      exact sequenceRun_eq_runGroups results 0 tokens calls
  | false =>
    have hplain : ∀ t ∈ tokens, t.type ≠ .semi := by
      intro t ht
      simpa using List.any_eq_false.mp hsemi t ht
    rw [executorRun_segment results 0 hplain calls, lineGroups, List.splitOnP_eq_singleton,
      groupsFrom, groupsFrom, List.append_nil]
    exact fun t ht ↦ decide_eq_false (hplain t ht)

/-! ### Which groups are executed -/

/-- A foreground group is the last one of its segment. -/
def Ordered (groups : List LineGroup) : Prop :=
  groups.Pairwise fun g h ↦ g.segment ≤ h.segment ∧ (g.call.isBg = false → g.segment < h.segment)

theorem pairwise_pieceCalls (pieces : List (List Token)) :
    (pieceCalls pieces).Pairwise fun c _ ↦ c.isBg = true := by
  induction pieces with
  | nil => exact .nil
  | cons piece rest ih =>
    cases rest with
    | nil =>
      unfold pieceCalls
      split_ifs <;> simp
    | cons next rest =>
      rw [pieceCalls_cons piece (List.cons_ne_nil _ _)]
      split_ifs
      · exact ih
      · exact List.pairwise_cons.mpr ⟨fun _ _ ↦ rfl, ih⟩

theorem segment_of_mem_segmentGroups (h : g ∈ segmentGroups n segment) : g.segment = n := by
  obtain ⟨call, -, rfl⟩ := List.mem_map.mp h
  rfl

theorem le_segment_of_mem_groupsFrom (h : g ∈ groupsFrom n segments) : n ≤ g.segment := by
  induction segments generalizing n with
  | nil => cases h
  | cons _ _ ih =>
    rcases List.mem_append.mp h with h | h
    · exact Nat.le_of_eq (segment_of_mem_segmentGroups h).symm
    · exact Nat.le_of_succ_le (ih h)

theorem ordered_groupsFrom (n : ℕ) (segments : List (List Token)) :
    Ordered (groupsFrom n segments) := by
  induction segments generalizing n with
  | nil => exact .nil
  | cons segment _ ih =>
    refine List.pairwise_append.mpr ⟨?_, ih (n + 1), fun g hg h hh ↦ ?_⟩
    · refine List.pairwise_map.mpr ((pairwise_pieceCalls _).imp fun hbg ↦ ?_)
      exact ⟨le_rfl, fun hfg ↦ by simp [hbg] at hfg⟩
    · have hlt : g.segment < h.segment := by
        rw [segment_of_mem_segmentGroups hg]
        exact le_segment_of_mem_groupsFrom hh
      exact ⟨Nat.le_of_lt hlt, fun _ ↦ hlt⟩

theorem Ordered.segment_lt (hordered : Ordered groups) (hg : groups[m]? = some g)
    (hh : groups[n]? = some h) (hlt : m < n) :
    g.segment ≤ h.segment ∧ (g.call.isBg = false → g.segment < h.segment) := by
  obtain ⟨hm, rfl⟩ := List.getElem?_eq_some_iff.mp hg
  obtain ⟨hn, rfl⟩ := List.getElem?_eq_some_iff.mp hh
  exact List.pairwise_iff_getElem.mp hordered m n hm hn hlt

/-- The loop ends at the first group that stops it, with what that group returns, or it goes through
all of them. -/
theorem runGroups_cases (results : ℕ → Outcome) (groups : List LineGroup) (calls : List GroupCall) :
    (∃ k g, groups[k]? = some g ∧ Stops results (calls.length + k) g ∧
      (∀ m h, m < k → groups[m]? = some h → ¬ Stops results (calls.length + m) h) ∧
      runGroups results groups calls = (results (calls.length + k),
        calls ++ (groups.take (k + 1)).map LineGroup.call)) ∨
    ((∀ m h, groups[m]? = some h → ¬ Stops results (calls.length + m) h) ∧
      runGroups results groups calls =
        (.returned 0, calls ++ groups.map LineGroup.call)) := by
  induction groups generalizing calls with
  | nil => exact .inr ⟨by simp, by simp [runGroups]⟩
  | cons g groups ih =>
    rw [runGroups]
    by_cases hstop : Stops results calls.length g
    · rw [if_pos hstop]
      exact .inl ⟨0, g, rfl, hstop, by simp, by simp [executorExecuteGroup]⟩
    · rw [if_neg hstop]
      have hoffset (m : ℕ) : (calls ++ [g.call]).length + m = calls.length + (m + 1) := by
        rw [List.length_append, List.length_singleton]
        omega
      -- The first group is passed, so a condition on the rest is one on the whole list.
      have hshift {k : ℕ → Prop} (h : ∀ m h, k m → groups[m]? = some h →
          ¬ Stops results ((calls ++ [g.call]).length + m) h) (m : ℕ) (h' : LineGroup)
          (hk : ∀ m', m = m' + 1 → k m') (hget : (g :: groups)[m]? = some h') :
          ¬ Stops results (calls.length + m) h' := by
        cases m with
        | zero =>
          cases hget
          exact hstop
        | succ m =>
          rw [← hoffset]
          exact h m h' (hk m rfl) hget
      rcases ih (calls ++ [g.call]) with ⟨k, h, hget, hk, hbefore, hrun⟩ | ⟨hnone, hrun⟩
      · refine .inl ⟨k + 1, h, hget, hoffset k ▸ hk, fun m h' hm hget' ↦ ?_, ?_⟩
        · exact hshift (k := (· < k)) hbefore m h' (fun m' hm' ↦ by omega) hget'
        · rw [hrun, hoffset]
          simp
      · refine .inr ⟨fun m h hget ↦ ?_, ?_⟩
        · exact hshift (k := fun _ ↦ True) (fun m h _ ↦ hnone m h) m h (fun _ _ ↦ trivial) hget
        · rw [hrun]
          simp

/-! ### Halting -/

section Halting

variable (results : ℕ → Outcome) (tokens : List Token)

/-- The groups of the line are executed in order, and once a foreground group has failed, no group
of a later segment is, and the line as a whole fails. -/
def HaltsOnError : Prop :=
  (executorRun results tokens []).2 <+: (lineGroups tokens).map LineGroup.call ∧
    ∀ n g status, n < (executorRun results tokens []).2.length →
      (lineGroups tokens)[n]? = some g → g.call.isBg = false → results n = .returned status →
      status ≠ 0 →
      (∀ m h, m < (executorRun results tokens []).2.length → (lineGroups tokens)[m]? = some h →
        h.segment ≤ g.segment) ∧
      ∃ status', (executorRun results tokens []).1 = .returned status' ∧ status' ≠ 0

/-- Every foreground group that fails behind an `&` of its segment is itself behind a group that
stops the line. -/
def FailuresSeen : Prop :=
  ∀ n g status, (lineGroups tokens)[n]? = some g → g.call.isBg = false → g.alone = false →
    results n = .returned status → status ≠ 0 →
    ∃ m h, m < n ∧ (lineGroups tokens)[m]? = some h ∧ Stops results m h

variable {results tokens} {status : ℤ}

/-- A failing group behind an `&` of its segment does not stop the line. -/
theorem not_stops_of_failed (halone : g.alone = false) (hstatus : results n = .returned status) :
    ¬ Stops results n g := by
  rintro (hexit | ⟨htrue, -⟩)
  · cases hstatus.symm.trans hexit
  · cases halone.symm.trans htrue

theorem stops_of_failed (halone : g.alone = true) (hstatus : results n = .returned status)
    (hne : status ≠ 0) : Stops results n g := by
  refine .inr ⟨halone, ?_⟩
  rw [hstatus]
  simpa using hne

/-- The failure of a foreground group halts the line exactly if it is not lost in `bg_run`. -/
theorem haltsOnError_iff : HaltsOnError results tokens ↔ FailuresSeen results tokens := by
  have hordered : Ordered (lineGroups tokens) := ordered_groupsFrom 0 _
  have hcases := runGroups_cases results (lineGroups tokens) []
  simp only [List.length_nil, Nat.zero_add, List.nil_append] at hcases
  unfold HaltsOnError FailuresSeen
  rw [executorRun_eq_runGroups]
  rcases hcases with ⟨k, last, hlast, hstop, hbefore, hrun⟩ | ⟨hnone, hrun⟩
  · -- The line ends at the group `k`.
    have hlt : k < (lineGroups tokens).length := Library.lt_of_getElem? hlast
    have hlength : (((lineGroups tokens).take (k + 1)).map LineGroup.call).length = k + 1 := by
      rw [List.length_map, List.length_take]
      omega
    rw [hrun]
    dsimp only
    rw [hlength]
    constructor
    · rintro ⟨-, hhalts⟩ n g status hg hfg halone hstatus hne
      by_cases hkn : k < n
      · exact ⟨k, last, hkn, hlast, hstop⟩
      · have hnk : n ≠ k := by
          rintro rfl
          cases hg.symm.trans hlast
          exact not_stops_of_failed halone hstatus hstop
        obtain ⟨hsegments, -⟩ := hhalts n g status (by omega) hg hfg hstatus hne
        have hle := hsegments k last (Nat.lt_succ_self k) hlast
        have hgt := (hordered.segment_lt hg hlast (by omega)).2 hfg
        omega
    · intro hseen
      refine ⟨(List.take_prefix _ _).map _, fun n g status hn hg hfg hstatus hne ↦ ?_⟩
      cases halone : g.alone with
      | false =>
        obtain ⟨m, h, hm, hh, hstops⟩ := hseen n g status hg hfg halone hstatus hne
        exact absurd hstops (hbefore m h (by omega) hh)
      | true =>
        have hnk : n = k := by
          by_contra hnk
          exact hbefore n g (by omega) hg (stops_of_failed halone hstatus hne)
        subst hnk
        refine ⟨fun m h hm hh ↦ ?_, status, hstatus, hne⟩
        rcases Nat.lt_succ_iff_lt_or_eq.mp hm with hm | rfl
        · exact (hordered.segment_lt hh hg hm).1
        · cases hg.symm.trans hh
          exact le_rfl
  · -- No group stops the line.
    rw [hrun]
    constructor
    · rintro ⟨-, hhalts⟩ n g status hg hfg - hstatus hne
      have hn : n < ((lineGroups tokens).map LineGroup.call).length := by
        rw [List.length_map]
        exact Library.lt_of_getElem? hg
      obtain ⟨-, status', hzero, hnonzero⟩ := hhalts n g status hn hg hfg hstatus hne
      obtain rfl : 0 = status' := Outcome.returned.inj hzero
      exact absurd rfl hnonzero
    · intro hseen
      refine ⟨List.prefix_rfl, fun n g status hn hg hfg hstatus hne ↦ ?_⟩
      cases halone : g.alone with
      | false =>
        obtain ⟨m, h, -, hh, hstops⟩ := hseen n g status hg hfg halone hstatus hne
        exact absurd hstops (hnone m h hh)
      | true => exact absurd (stops_of_failed halone hstatus hne) (hnone n g hg)

end Halting

/-- `a & b ; c`, where `b` fails: `c` is executed all the same, and the line succeeds. -/
theorem failure_lost_in_bgRun :
    let tokens : List Token := [⟨.word, some [97]⟩, ⟨.amp, none⟩, ⟨.word, some [98]⟩, ⟨.semi, none⟩,
      ⟨.word, some [99]⟩]
    let results : ℕ → Outcome := fun n ↦ if n = 1 then .returned (-1) else .returned 0
    parserValidate tokens = true ∧
      executorRun results tokens [] = (.returned 0, [⟨[⟨.word, some [97]⟩], true⟩,
        ⟨[⟨.word, some [98]⟩], false⟩, ⟨[⟨.word, some [99]⟩], false⟩]) ∧
      ¬ HaltsOnError results tokens := by
  intro tokens results
  have hrun : executorRun results tokens [] = (.returned 0, [⟨[⟨.word, some [97]⟩], true⟩,
      ⟨[⟨.word, some [98]⟩], false⟩, ⟨[⟨.word, some [99]⟩], false⟩]) := by
    decide +kernel
  refine ⟨rfl, hrun, fun hhalts ↦ ?_⟩
  obtain ⟨-, status, hzero, hne⟩ := hhalts.2 1 ⟨0, ⟨[⟨.word, some [98]⟩], false⟩, false⟩ (-1)
    (by rw [hrun]; decide) (by decide +kernel) rfl rfl (by decide)
  rw [hrun] at hzero
  obtain rfl : 0 = status := Outcome.returned.inj hzero
  exact hne rfl

end Irish.Shell
