import Irish.Library.Blocks
import Irish.Shell.Halting

/-!
# What runs is what the line says

When no group fails, `executor_run` goes through the whole line. The groups it executes are the
blocks of tokens between the separators `;` and `&` (`Library.IsBlock`), each once and in order, and
a group is in the background exactly if an `&` follows it.

`lineGroups` splits at `;` first and then at `&`, as the dispatchers do. Read token by token, with
the current group as the only state, the two splits are one pass (`calls_lineGroups`), and this pass
visits the blocks.
-/

set_option autoImplicit false

namespace Irish.Shell

open Library

def isSeparator (t : Token) : Bool := t.type = .semi ∨ t.type = .amp

/-! ### One pass over the line -/

/-- The call for a group, if it is not empty. -/
def groupCall (group : List Token) (isBg : Bool) : List GroupCall :=
  if group = [] then [] else [⟨group, isBg⟩]

/-- The calls for the rest of a line, behind the tokens of the current group. -/
def callsFrom : List Token → List Token → List GroupCall
  | group, [] => groupCall group false
  | group, t :: rest =>
    if isSeparator t then groupCall group (t.type = .amp) ++ callsFrom [] rest
    else callsFrom (group ++ [t]) rest

/-- The calls for one segment. -/
def segmentCalls (segment : List Token) : List GroupCall :=
  pieceCalls (segment.splitOnP (·.type = .amp))

variable {segment group rest tokens first : List Token} {t : Token} {others : List (List Token)}
  {start k : ℕ} {results : ℕ → Outcome} {groups : List LineGroup}

theorem segmentCalls_of_plain (h : ∀ t ∈ segment, t.type ≠ .amp) :
    segmentCalls segment = groupCall segment false := by
  have hsplit : segment.splitOnP (·.type = .amp) = [segment] :=
    List.splitOnP_eq_singleton fun t ht ↦ decide_eq_false (h t ht)
  rw [segmentCalls, hsplit]
  rfl

/-- The first `&` of a segment ends a background group. -/
theorem segmentCalls_amp (h : ∀ u ∈ group, u.type ≠ .amp) (ht : t.type = .amp) :
    segmentCalls (group ++ t :: rest) = groupCall group true ++ segmentCalls rest := by
  have hsplit : (group ++ t :: rest).splitOnP (·.type = .amp) =
      group :: rest.splitOnP (·.type = .amp) :=
    List.splitOnP_append_cons_of_forall_mem (fun u hu ↦ decide_eq_false (h u hu)) t
      (decide_eq_true ht) rest
  rw [segmentCalls, hsplit, pieceCalls_cons group (List.splitOnP_ne_nil _ _)]
  rfl

/-- The segments of a line, of which the first has begun with `group`, in one pass. -/
theorem flatMap_segmentCalls (group : List Token) (h : ∀ u ∈ group, u.type ≠ .amp)
    (hsplit : tokens.splitOnP (·.type = .semi) = first :: others) :
    segmentCalls (group ++ first) ++ others.flatMap segmentCalls = callsFrom group tokens := by
  induction tokens generalizing group first others with
  | nil =>
    obtain ⟨rfl, rfl⟩ : first = [] ∧ others = [] := by simpa [eq_comm] using hsplit
    rw [List.append_nil, List.flatMap_nil, List.append_nil, segmentCalls_of_plain h]
    rfl
  | cons t rest ih =>
    rw [callsFrom]
    obtain ⟨first', others', hrest⟩ :=
      List.exists_cons_of_ne_nil (List.splitOnP_ne_nil (·.type = .semi) rest)
    by_cases hsemi : t.type = .semi
    · rw [List.splitOnP_cons_eq_if_modifyHead, if_pos (by simpa using hsemi), hrest] at hsplit
      cases hsplit
      have hnext := ih [] (by simp) hrest
      rw [if_pos (by simp [isSeparator, hsemi]), List.append_nil, segmentCalls_of_plain h,
        List.flatMap_cons, ← hnext]
      simp [hsemi]
    · rw [List.splitOnP_cons_eq_if_modifyHead, if_neg (by simpa using hsemi), hrest] at hsplit
      cases hsplit
      by_cases hamp : t.type = .amp
      · have hnext := ih [] (by simp) hrest
        rw [if_pos (by simp [isSeparator, hamp]), segmentCalls_amp h hamp, List.append_assoc,
          ← hnext]
        simp [hamp]
      · have hgroup : ∀ u ∈ group ++ [t], u.type ≠ .amp := by
          intro u hu
          rcases List.mem_append.mp hu with hu | hu
          · exact h u hu
          · rwa [List.mem_singleton.mp hu]
        have hnext := ih _ hgroup hrest
        rw [if_neg (by simp [isSeparator, hsemi, hamp]), ← hnext]
        simp

theorem calls_groupsFrom (n : ℕ) (segments : List (List Token)) :
    (groupsFrom n segments).map LineGroup.call = segments.flatMap segmentCalls := by
  induction segments generalizing n with
  | nil => rfl
  | cons _ _ ih =>
    rw [groupsFrom, List.map_append, ih, List.flatMap_cons]
    simp [segmentGroups, segmentCalls, Function.comp_def]

/-- The two splits of the dispatchers are one pass over the line. -/
theorem calls_lineGroups (tokens : List Token) :
    (lineGroups tokens).map LineGroup.call = callsFrom [] tokens := by
  obtain ⟨first, others, hsplit⟩ :=
    List.exists_cons_of_ne_nil (List.splitOnP_ne_nil (·.type = .semi) tokens)
  rw [lineGroups, calls_groupsFrom, hsplit, List.flatMap_cons,
    ← flatMap_segmentCalls [] (by simp) hsplit, List.nil_append]

/-! ### The blocks of the line -/

/-- The call for the tokens from `x.1` up to `x.2`: in the background if an `&` comes next. -/
def callAt (tokens : List Token) (x : ℕ × ℕ) : GroupCall :=
  ⟨(tokens.take x.2).drop x.1, tokens[x.2]?.map Token.type = some .amp⟩

/-- The current block and the call for the tokens in it. -/
theorem map_callAt_current (hk : k ≤ tokens.length) (hle : start ≤ k) :
    (if start < k then [(start, k)] else []).map (callAt tokens) =
      groupCall ((tokens.take k).drop start) (tokens[k]?.map Token.type = some .amp) := by
  have hlength : ((tokens.take k).drop start).length = k - start := by simp [hk]
  unfold groupCall
  by_cases hlt : start < k
  · have hne : (tokens.take k).drop start ≠ [] := by
      intro hnil
      rw [hnil, List.length_nil] at hlength
      omega
    rw [if_pos hlt, if_neg hne]
    rfl
  · have hnil : (tokens.take k).drop start = [] :=
      List.eq_nil_of_length_eq_zero (by omega)
    rw [if_neg hlt, if_pos hnil, List.map_nil]

theorem map_callAt_blocksFrom (hk : k ≤ tokens.length) (hle : start ≤ k)
    (hrest : rest = tokens.drop k) :
    (blocksFrom isSeparator start k rest).map (callAt tokens) =
      callsFrom ((tokens.take k).drop start) rest := by
  induction rest generalizing start k with
  | nil =>
    have hend : tokens[k]? = none :=
      List.getElem?_eq_none (List.drop_eq_nil_iff.mp hrest.symm)
    rw [blocksFrom, map_callAt_current hk hle, hend]
    simp [callsFrom]
  | cons t _ ih =>
    have hlt : k < tokens.length := by
      by_contra hge
      rw [List.drop_eq_nil_iff.mpr (by omega)] at hrest
      cases hrest
    rw [List.drop_eq_getElem_cons hlt, List.cons.injEq] at hrest
    obtain ⟨ht, hrest⟩ := hrest
    have hget : tokens[k]? = some t := by rw [ht, List.getElem?_eq_getElem hlt]
    rw [blocksFrom, callsFrom]
    by_cases hsep : isSeparator t = true
    · rw [if_pos hsep, if_pos hsep, List.map_append, map_callAt_current hk hle, hget,
        ih hlt le_rfl hrest]
      simp
    · rw [if_neg hsep, if_neg hsep, ih hlt (Nat.le_succ_of_le hle) hrest]
      congr 1
      rw [List.take_add_one, hget, Option.toList_some, List.drop_append_of_le_length]
      simp [hle, Nat.le_of_lt hlt]

/-- The groups of a line are the blocks between its separators. -/
theorem map_callAt_blocks (tokens : List Token) :
    (blocks isSeparator tokens).map (callAt tokens) = (lineGroups tokens).map LineGroup.call := by
  rw [calls_lineGroups, blocks,
    map_callAt_blocksFrom (Nat.zero_le _) (Nat.le_refl 0) List.drop_zero.symm]
  rfl

/-! ### A line on which nothing fails -/

/-- If every group that is executed returns 0, the whole line is executed. -/
theorem runGroups_of_returned
    (h : ∀ n < (runGroups results groups []).2.length, results n = .returned 0) :
    runGroups results groups [] = (.returned 0, groups.map LineGroup.call) := by
  have hcases := runGroups_cases results groups []
  simp only [List.length_nil, Nat.zero_add, List.nil_append] at hcases
  rcases hcases with ⟨k, g, hg, hstop, -, hrun⟩ | ⟨-, hrun⟩
  · have hlt : k < groups.length := lt_of_getElem? hg
    have hzero : results k = .returned 0 := by
      refine h k ?_
      rw [hrun, List.length_map, List.length_take]
      omega
    rcases hstop with hexit | ⟨-, hfail⟩
    · cases hzero.symm.trans hexit
    · exact absurd hzero hfail
  · exact hrun

/-- If every group that is executed returns 0, then `executor_run` returns 0, and the groups are the
blocks of tokens between separators: all of them, in order, in the background if an `&` follows. -/
theorem executorRun_eq_blocks {results : ℕ → Outcome} {tokens : List Token}
    (h : ∀ n < (executorRun results tokens []).2.length, results n = .returned 0) :
    ∃ runs : List (ℕ × ℕ), (∀ i j, (i, j) ∈ runs ↔ IsBlock isSeparator tokens i j) ∧
      runs.Pairwise (fun x y ↦ x.2 < y.1) ∧
      executorRun results tokens [] = (.returned 0, runs.map (callAt tokens)) := by
  refine ⟨blocks isSeparator tokens, fun i j ↦ mem_blocks, pairwise_blocks tokens, ?_⟩
  rw [executorRun_eq_runGroups] at h ⊢
  rw [runGroups_of_returned h, map_callAt_blocks]

/-- `a & b ; c &` -/
def mixedLine : List Token :=
  [⟨.word, some [97]⟩, ⟨.amp, none⟩, ⟨.word, some [98]⟩, ⟨.semi, none⟩, ⟨.word, some [99]⟩,
    ⟨.amp, none⟩]

theorem executorRun_mixedLine : parserValidate mixedLine = true ∧
    ∃ runs : List (ℕ × ℕ), (∀ i j, (i, j) ∈ runs ↔ IsBlock isSeparator mixedLine i j) ∧
      runs.Pairwise (fun x y ↦ x.2 < y.1) ∧
      executorRun (fun _ ↦ .returned 0) mixedLine [] =
        (.returned 0, runs.map (callAt mixedLine)) := by
  refine ⟨by decide, ?_⟩
  exact executorRun_eq_blocks fun _ _ ↦ rfl

end Irish.Shell
