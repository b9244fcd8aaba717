import Irish.Shell.Executor
import Irish.Shell.JobControl

/-!
# The text of a job

`executor_execute_group` builds `cmd_line`, the text under which `activities` shows a job, from the
values of the tokens of the group, in an array of 512 bytes. `buildCmdLine` makes every write to
that array a checked one, so that it returns nothing if the code writes outside of it.

A word that does not fit is passed over and the loop goes on with the next one, and the separator
is left out as long as the text is empty. The array and the copy of it in the job table are always
in order (`buildCmdLine_faithful`), but the text is that of an initial segment of the words only
under the condition `Leads`: the first word is not empty and nothing fits behind a word that did
not, or no word puts anything into the text. Behind a word of 509 bytes an argument is missing from
the middle (`argument_missing`). Without the condition a text of such words can still be that of an
initial segment by coincidence, if words have spaces in them (`NoCoincidence`).

The values are those that the lexer makes (`Token.Lexed`).
-/

set_option autoImplicit false

namespace Irish.Shell

open Library

/-! ### The array -/

/-- `sizeof(cmd_line)`. -/
def cmdLineSize : ℕ := 512

/-- `char cmd_line[512] = ""`; the number of cells in use is `cur_len`. -/
def cmdLineInit : GrowArray Byte := ⟨List.replicate cmdLineSize (some Byte.nul), 0⟩

/-- `strcpy(cmd_line + cur_len, value)` and `cur_len += vlen`. -/
def copyValue : List Byte → GrowArray Byte → Option (GrowArray Byte)
  | [], a => a.store a.used Byte.nul
  | c :: value, a => (a.storeNext c).bind (copyValue value)

/-- The body of the loop, for a token with a value. -/
def appendValue (value : List Byte) (a : GrowArray Byte) : Option (GrowArray Byte) :=
  if a.used + value.length + 2 < cmdLineSize then
    (if 0 < a.used then a.storeNext Byte.space else some a).bind (copyValue value)
  else some a

/-- The loop of `executor_execute_group` that fills `cmd_line`. -/
def cmdLineLoop : List Token → GrowArray Byte → Option (GrowArray Byte)
  | [], a => some a
  | t :: tokens, a =>
    match t.value with
    | none => cmdLineLoop tokens a
    | some value => (appendValue value a).bind (cmdLineLoop tokens)

def buildCmdLine (group : List Token) : Option (GrowArray Byte) := cmdLineLoop group cmdLineInit

/-! ### The text -/

/-- What the body of the loop makes of the text. -/
def appendWord (text word : List Byte) : List Byte :=
  if text.length + word.length + 2 < cmdLineSize then
    if text = [] then word else text ++ Byte.space :: word
  else text

/-- The array holds a text with its terminator, and there is room for one more byte. -/
structure HoldsText (a : GrowArray Byte) (text : List Byte) : Prop where
  fits : GrowArray.Fits cmdLineSize (cmdLineSize - 2) a text
  terminated : a.cells[a.used]? = some (some Byte.nul)

theorem holdsText_cmdLineInit : HoldsText cmdLineInit [] where
  fits := ⟨⟨rfl, rfl⟩, List.length_replicate, Nat.zero_le _⟩
  terminated := by decide

variable {text word first : List Byte} {words later rest : List (List Byte)} {k m j : ℕ}
  {a : GrowArray Byte} {group : List Token}

theorem copyValue_fits (value : List Byte) (h : GrowArray.Fits cmdLineSize m a text)
    (hroom : m + value.length < cmdLineSize) :
    ∃ a', copyValue value a = some a' ∧
      GrowArray.Fits cmdLineSize (m + value.length) a' (text ++ value) ∧
      a'.cells[a'.used]? = some (some Byte.nul) := by
  induction value generalizing m a text with
  | nil =>
    have hlt := h.used_lt hroom
    obtain ⟨a', hstore, hfits⟩ := h.store hroom Byte.nul
    refine ⟨a', hstore, by simpa using hfits, ?_⟩
    rw [GrowArray.store, if_pos hlt] at hstore
    cases hstore
    exact List.getElem?_set_self hlt
  | cons c _ ih =>
    rw [List.length_cons] at hroom
    obtain ⟨a', hstore, hfits⟩ := h.storeNext (by omega) c
    obtain ⟨a'', hcopy, hfits', hend⟩ := ih hfits (by omega)
    refine ⟨a'', by rw [copyValue, hstore, Option.bind_some, hcopy], ?_, hend⟩
    rw [List.append_assoc, List.singleton_append] at hfits'
    exact hfits'.mono (by rw [List.length_cons]; omega)

theorem appendValue_holds (value : List Byte) (h : HoldsText a text) :
    ∃ a', appendValue value a = some a' ∧ HoldsText a' (appendWord text value) := by
  have hused : a.used = text.length := h.fits.holds.used_eq
  have hexact : GrowArray.Fits cmdLineSize text.length a text :=
    ⟨h.fits.holds, h.fits.capacity_eq, le_rfl⟩
  unfold appendValue appendWord
  rw [hused]
  split_ifs with hfits hpos hnil hnil
  · rw [hnil] at hpos
    exact absurd hpos (Nat.lt_irrefl 0)
  · obtain ⟨a', hspace, hfits'⟩ := hexact.storeNext (by omega) Byte.space
    obtain ⟨a'', hcopy, hfits'', hend⟩ := copyValue_fits value hfits' (by omega)
    rw [List.append_assoc, List.singleton_append] at hfits''
    exact ⟨a'', by rw [hspace, Option.bind_some, hcopy], hfits''.mono (by omega), hend⟩
  · obtain ⟨a', hcopy, hfits', hend⟩ := copyValue_fits value hexact (by omega)
    subst hnil
    rw [List.nil_append] at hfits'
    exact ⟨a', hcopy, hfits'.mono (by omega), hend⟩
  · exact absurd (List.length_eq_zero_iff.mp (Nat.eq_zero_of_not_pos hpos)) hnil
  · exact ⟨a, rfl, h⟩

theorem cmdLineLoop_holds (group : List Token)
    (h : HoldsText a text) : ∃ a', cmdLineLoop group a = some a' ∧
      HoldsText a' ((group.filterMap (·.value)).foldl appendWord text) := by
  induction group generalizing a text with
  | nil => exact ⟨a, rfl, h⟩
  | cons t _ ih =>
    cases hvalue : t.value with
    | none => simpa [cmdLineLoop, hvalue] using ih h
    | some value =>
      obtain ⟨a', happend, hholds⟩ := appendValue_holds value h
      simpa [cmdLineLoop, hvalue, happend] using ih hholds

/-! ### The words -/

/-- The values of the word tokens of a group. -/
def groupWords (group : List Token) : List (List Byte) :=
  (group.filter (·.type = .word)).filterMap (·.value)

def joinWords (words : List (List Byte)) : List Byte := [Byte.space].intercalate words

theorem filterMap_value (hlexed : ∀ t ∈ group, t.Lexed) :
    group.filterMap (·.value) = groupWords group := by
  unfold groupWords
  rw [List.filterMap_filter]
  refine List.filterMap_congr fun t ht ↦ ?_
  have hword := (hlexed t ht).word_iff
  by_cases htype : t.type = .word
  · simp [htype]
  · simpa [htype] using hword.not.mp htype

theorem joinWords_concat (hne : words ≠ []) (word : List Byte) :
    joinWords (words ++ [word]) = joinWords words ++ Byte.space :: word := by
  unfold joinWords
  induction words with
  | nil => exact absurd rfl hne
  | cons _ rest ih =>
    cases rest with
    | nil => simp
    | cons second rest => simpa using ih (List.cons_ne_nil second rest)

theorem joinWords_cons_cons (first second : List Byte) (rest : List (List Byte)) :
    joinWords (first :: second :: rest) = first ++ Byte.space :: joinWords (second :: rest) := by
  simp [joinWords]

theorem joinWords_isPrefix (words more : List (List Byte)) :
    joinWords words <+: joinWords (words ++ more) := by
  induction words with
  | nil => exact List.nil_prefix
  | cons first rest ih =>
    cases rest with
    | nil =>
      cases more with
      | nil => exact List.prefix_rfl
      | cons second more =>
        have hone : joinWords [first] = first := by simp [joinWords]
        rw [List.singleton_append, joinWords_cons_cons, hone]
        exact List.prefix_append first _
    | cons second rest =>
      rw [List.cons_append, List.cons_append, joinWords_cons_cons, joinWords_cons_cons]
      exact (List.prefix_append_right_inj _).mpr ((List.prefix_cons_inj _).mpr ih)

theorem joinWords_ne_nil (hfirst : first ≠ []) (rest : List (List Byte)) :
    joinWords (first :: rest) ≠ [] := by
  unfold joinWords
  cases rest with
  | nil => simpa using hfirst
  | cons => simp

/-- The first `k` words fit one behind the other and no later one fits behind them; the first word
is not empty, since an empty one leaves no trace in the text. -/
structure HasLead (words : List (List Byte)) (k : ℕ) : Prop where
  first : words.head? ≠ some []
  fit : ∀ i word, i < k → words[i]? = some word →
    (joinWords (words.take i)).length + word.length + 2 < cmdLineSize
  rest : ∀ word ∈ words.drop k,
    cmdLineSize ≤ (joinWords (words.take k)).length + word.length + 2

/-- The word fits into an empty text and leaves something there. -/
def Starts (word : List Byte) : Bool := word ≠ [] && word.length + 2 < cmdLineSize

/-- No word leaves anything in the text, or the text is that of the first `k` words. -/
def Leads (words : List (List Byte)) : Prop :=
  (∀ word ∈ words, ¬ Starts word) ∨ ∃ k, HasLead words k

/-- The first byte of the text is not a space, and a first word that is too long by one byte has no
space in it: then the words that are left out of the text cannot be found in it. -/
structure NoCoincidence (words : List (List Byte)) : Prop where
  start : ∀ word, words.find? Starts = some word → word.head? ≠ some Byte.space
  full : ∀ word, words.head? = some word → word.length + 2 = cmdLineSize → Byte.space ∉ word

theorem foldl_appendWord_take (hfirst : words.head? ≠ some [])
    (hfit : ∀ i word, i < k → words[i]? = some word →
      (joinWords (words.take i)).length + word.length + 2 < cmdLineSize) (hj : j ≤ k) :
    (words.take j).foldl appendWord [] = joinWords (words.take j) := by
  induction j with
  | zero => rfl
  | succ j ih =>
    cases hword : words[j]? with
    | none => simpa [List.take_add_one, hword] using ih (Nat.le_of_succ_le hj)
    | some word =>
      have hlt := hfit j word hj hword
      rw [List.take_add_one, hword, Option.toList_some, List.foldl_append,
        ih (Nat.le_of_succ_le hj), List.foldl_cons, List.foldl_nil, appendWord, if_pos hlt]
      cases words with
      | nil => simp at hword
      | cons first rest =>
        cases j with
        | zero => simp [joinWords]
        | succ j =>
          have hne : first ≠ [] := by simpa using hfirst
          rw [List.take_succ_cons, if_neg (joinWords_ne_nil hne _),
            joinWords_concat (List.cons_ne_nil first _)]

theorem appendWord_isPrefix (text word : List Byte) : text <+: appendWord text word := by
  unfold appendWord
  split_ifs with hfit hnil
  · rw [hnil]
    exact List.nil_prefix
  · exact List.prefix_append text _
  · exact List.prefix_rfl

theorem foldl_appendWord_isPrefix (text : List Byte) (words : List (List Byte)) :
    text <+: words.foldl appendWord text := by
  induction words generalizing text with
  | nil => exact List.prefix_rfl
  | cons word _ ih => exact (appendWord_isPrefix text word).trans (ih _)

theorem foldl_appendWord_of_rest (h : ∀ word ∈ later, cmdLineSize ≤ text.length + word.length + 2) :
    later.foldl appendWord text = text := by
  induction later with
  | nil => rfl
  | cons _ _ ih =>
    obtain ⟨hword, hrest⟩ := List.forall_mem_cons.mp h
    rw [List.foldl_cons, appendWord, if_neg (Nat.not_lt.mpr hword), ih hrest]

/-- Behind a text that is not empty, a word that fits leaves at least its separator. -/
theorem rest_of_foldl_appendWord (htext : text ≠ []) (h : later.foldl appendWord text = text) :
    ∀ word ∈ later, cmdLineSize ≤ text.length + word.length + 2 := by
  induction later with
  | nil => exact nofun
  | cons word later ih =>
    rw [List.foldl_cons] at h
    by_cases hfit : text.length + word.length + 2 < cmdLineSize
    · have hlength := (foldl_appendWord_isPrefix (appendWord text word) later).length_le
      rw [h, appendWord, if_pos hfit, if_neg htext, List.length_append, List.length_cons] at hlength
      omega
    · rw [appendWord, if_neg hfit] at h
      exact List.forall_mem_cons.mpr ⟨Nat.not_lt.mp hfit, ih h⟩

theorem foldl_appendWord (h : HasLead words k) :
    words.foldl appendWord [] = joinWords (words.take k) := by
  conv_lhs => rw [← List.take_append_drop k words]
  rw [List.foldl_append, foldl_appendWord_take h.first h.fit (Nat.le_refl k),
    foldl_appendWord_of_rest h.rest]

theorem appendWord_nil (h : Starts word) : appendWord [] word = word := by
  have hfit : word.length + 2 < cmdLineSize := by
    simp only [Starts, Bool.and_eq_true, decide_eq_true_eq] at h
    exact h.2
  simp [appendWord, hfit]

theorem appendWord_nil_of_not (h : ¬ Starts word) : appendWord [] word = [] := by
  by_cases hfit : word.length + 2 < cmdLineSize
  · have hnil : word = [] := by
      by_contra hne
      exact h (by simpa [Starts, hne] using hfit)
    simp [appendWord, hnil]
  · simp [appendWord, hfit]

theorem foldl_appendWord_nil (h : ∀ word ∈ words, ¬ Starts word) :
    words.foldl appendWord [] = [] := by
  induction words with
  | nil => rfl
  | cons _ _ ih =>
    obtain ⟨hword, hrest⟩ := List.forall_mem_cons.mp h
    rw [List.foldl_cons, appendWord_nil_of_not hword, ih hrest]

/-- The text begins with the first word that is put into it. -/
theorem find_isPrefix_foldl
    (h : words.find? Starts = some word) : word <+: words.foldl appendWord [] := by
  induction words with
  | nil => cases h
  | cons first words ih =>
    rw [List.foldl_cons]
    by_cases hfirst : Starts first
    · rw [List.find?_cons_of_pos hfirst] at h
      obtain rfl := Option.some.inj h
      rw [appendWord_nil hfirst]
      exact foldl_appendWord_isPrefix first words
    · rw [List.find?_cons_of_neg hfirst] at h
      rw [appendWord_nil_of_not hfirst]
      exact ih h

/-- A text with no room for one more byte has a separator. -/
structure Bounded (text : List Byte) : Prop where
  length_le : text.length + 2 ≤ cmdLineSize
  space : text.length + 2 = cmdLineSize → Byte.space ∈ text

theorem bounded_appendWord (h : Bounded text) (word : List Byte) :
    Bounded (appendWord text word) := by
  unfold appendWord
  split_ifs with hfit hnil
  · subst hnil
    rw [List.length_nil] at hfit
    exact ⟨by omega, by omega⟩
  · refine ⟨?_, fun _ ↦ by simp⟩
    rw [List.length_append, List.length_cons]
    omega
  · exact h

theorem bounded_foldl_appendWord (words : List (List Byte)) :
    Bounded (words.foldl appendWord []) := by
  have hfold (text : List Byte) (h : Bounded text) : Bounded (words.foldl appendWord text) := by
    induction words generalizing text with
    | nil => exact h
    | cons word _ ih => exact ih _ (bounded_appendWord h word)
  exact hfold [] ⟨by decide, by decide⟩

/-- Where the first word is put into the text and the text is that of the first `k + 1` words, they
lead. -/
theorem hasLead_of_starts (hfirst : Starts first)
    (h : (first :: rest).foldl appendWord [] = joinWords ((first :: rest).take (k + 1))) :
    HasLead (first :: rest) (k + 1) := by
  have hbound := (bounded_foldl_appendWord (first :: rest)).length_le
  obtain ⟨hne, hshort⟩ : first ≠ [] ∧ first.length + 2 < cmdLineSize := by
    simpa [Starts] using hfirst
  have hhead : (first :: rest).head? ≠ some [] := by simpa using hne
  have hfit : ∀ i word, i < k + 1 → (first :: rest)[i]? = some word →
      (joinWords ((first :: rest).take i)).length + word.length + 2 < cmdLineSize := by
    intro i word hi hword
    cases i with
    | zero =>
      obtain rfl : first = word := by simpa using hword
      simpa [joinWords] using hshort
    | succ i =>
      have hprefix : joinWords ((first :: rest).take (i + 2)) <+:
          joinWords ((first :: rest).take (k + 1)) := by
        obtain ⟨more, hmore⟩ := List.take_prefix_take_left (l := first :: rest)
          (show i + 2 ≤ k + 1 by omega)
        rw [← hmore]
        exact joinWords_isPrefix _ more
      have hlength := hprefix.length_le
      rw [← h, List.take_add_one, hword, Option.toList_some,
        joinWords_concat (by simp), List.length_append, List.length_cons] at hlength
      omega
  refine ⟨hhead, hfit, rest_of_foldl_appendWord ?_ ?_⟩
  · rw [List.take_succ_cons]
    exact joinWords_ne_nil hne _
  · conv_rhs => rw [← h]
    conv_rhs => rw [← List.take_append_drop (k + 1) (first :: rest)]
    rw [List.foldl_append, foldl_appendWord_take hhead hfit le_rfl]

theorem leads_of_foldl (hwords : NoCoincidence words)
    (h : words.foldl appendWord [] = joinWords (words.take k)) : Leads words := by
  cases hfind : words.find? Starts with
  | none => exact .inl (by simpa using hfind)
  | some word =>
    have hstarts := List.find?_some hfind
    have hne : word ≠ [] := by
      rintro rfl
      cases hstarts
    have hprefix := find_isPrefix_foldl hfind
    rw [h] at hprefix
    have hbound := bounded_foldl_appendWord words
    rw [h] at hbound
    cases words with
    | nil => cases hfind
    | cons first rest =>
      cases k with
      | zero => exact absurd (List.prefix_nil.mp hprefix) hne
      | succ k =>
        by_cases hfirst : Starts first
        · exact .inr ⟨k + 1, hasLead_of_starts hfirst h⟩
        rw [List.take_succ_cons] at hprefix hbound
        by_cases hnil : first = []
        · -- The text of two words of which the first is empty begins with the separator.
          subst hnil
          cases htake : rest.take k with
          | nil =>
            rw [htake] at hprefix
            exact absurd (List.prefix_nil.mp hprefix) hne
          | cons second more =>
            rw [htake, joinWords_cons_cons, List.nil_append] at hprefix
            have hhead : word.head? = some Byte.space := by
              cases word with
              | nil => exact absurd rfl hne
              | cons c word => rw [(List.cons_prefix_cons.mp hprefix).1, List.head?_cons]
            exact absurd hhead (hwords.start word hfind)
        · -- A first word that does not fit is as long as the whole text.
          have hlong : cmdLineSize ≤ first.length + 2 := by
            by_contra hshort
            exact hfirst (by simpa [Starts, hnil] using hshort)
          have hall : first <+: joinWords (first :: rest.take k) := by
            simpa [joinWords] using joinWords_isPrefix [first] (rest.take k)
          have hlength := hall.length_le
          have hle := hbound.length_le
          have heq := hall.eq_of_length (by omega)
          rw [← heq] at hbound
          exact absurd (hbound.space (by omega)) (hwords.full first rfl (by omega))

theorem notMem_foldl_appendWord (hwords : ∀ word ∈ words, Byte.nul ∉ word)
    (htext : Byte.nul ∉ text) : Byte.nul ∉ words.foldl appendWord text := by
  induction words generalizing text with
  | nil => exact htext
  | cons _ _ ih =>
    obtain ⟨hword, hrest⟩ := List.forall_mem_cons.mp hwords
    refine ih hrest ?_
    unfold appendWord
    split_ifs
    · exact hword
    · have hspace : Byte.nul ≠ Byte.space := by decide
      simp [htext, hword, hspace]
    · exact htext

/-! ### The job -/

/-- `job_add` has the text in the entry that it takes. -/
def StoredBy (jobs : JobTable) (pgid : ℕ) (state : JobState) (text : List Byte) : Prop :=
  ∀ slot, (jobs.jobAdd pgid (some text) state).1 = some slot →
    ∃ job, (jobs.jobAdd pgid (some text) state).2.slots[slot]? = some job ∧ job.cmdLine = text

theorem storedBy_of_length (h : text.length ≤ 511) (jobs : JobTable) (pgid : ℕ)
    (state : JobState) : StoredBy jobs pgid state text := by
  intro slot hslot
  rcases jobAdd_cases jobs pgid (some text) state with
    ⟨heq, -⟩ | ⟨found, old, jobs', hold, -, heq, hslots, -⟩
  · rw [heq] at hslot
    cases hslot
  · rw [heq] at hslot ⊢
    cases hslot
    exact ⟨_, by rw [hslots]; exact getElem?_set_eq hold, List.take_of_length_le h⟩

/-- For every group of tokens no write is outside of `cmd_line`, the array is terminated and
`job_add` copies the whole text. The text is that of an initial segment of the words if they lead,
and only if, coincidences apart. -/
theorem buildCmdLine_faithful {group : List Token} (hlexed : ∀ t ∈ group, t.Lexed)
    (jobs : JobTable) (pgid : ℕ) (state : JobState) :
    ∃ a, buildCmdLine group = some a ∧ a.capacity = cmdLineSize ∧
      a.cells[(a.text Byte.nul).length]? = some (some Byte.nul) ∧
      StoredBy jobs pgid state (a.text Byte.nul) ∧
      (Leads (groupWords group) →
        ∃ k, a.text Byte.nul = joinWords ((groupWords group).take k)) ∧
      (NoCoincidence (groupWords group) →
        (∃ k, a.text Byte.nul = joinWords ((groupWords group).take k)) →
        Leads (groupWords group)) := by
  obtain ⟨a, hloop, hholds⟩ := cmdLineLoop_holds group holdsText_cmdLineInit
  have hnul : Byte.nul ∉ (group.filterMap (·.value)).foldl appendWord [] := by
    refine notMem_foldl_appendWord (fun word hword ↦ ?_) List.not_mem_nil
    obtain ⟨t, ht, hvalue⟩ := List.mem_filterMap.mp hword
    exact (hlexed t ht).nulFree word hvalue
  have htext := hholds.fits.holds.text_eq hholds.terminated hnul
  have hlength : (a.text Byte.nul).length ≤ cmdLineSize - 2 := htext ▸ hholds.fits.length_le
  refine ⟨a, hloop, hholds.fits.capacity_eq, ?_, ?_, ?_, ?_⟩
  · rw [htext, ← hholds.fits.holds.used_eq]
    exact hholds.terminated
  · exact storedBy_of_length (hlength.trans (by decide)) jobs pgid state
  · rw [htext, filterMap_value hlexed]
    rintro (hnone | ⟨k, hk⟩)
    · exact ⟨0, foldl_appendWord_nil hnone⟩
    · exact ⟨k, foldl_appendWord hk⟩
  · rw [htext, filterMap_value hlexed]
    rintro hwords ⟨k, hk⟩
    exact leads_of_foldl hwords hk

/-- `a b`. -/
theorem buildCmdLine_twoWords :
    let group : List Token := [⟨.word, some [97]⟩, ⟨.word, some [98]⟩]
    (∀ t ∈ group, t.Lexed) ∧ Leads (groupWords group) ∧ ∃ a, buildCmdLine group = some a ∧
      ∃ k, a.text Byte.nul = joinWords ((groupWords group).take k) := by
  intro group
  have hlexed : ∀ t ∈ group, t.Lexed := by decide
  obtain ⟨a, hbuild, -, -, -, hleads, -⟩ := buildCmdLine_faithful hlexed .empty 1 .running
  have hlead : HasLead (groupWords group) 2 := by
    refine ⟨by decide, fun i word hi hword ↦ ?_, by simp [group, groupWords]⟩
    rcases i with _ | _ | i
    · simp only [group, groupWords] at hword
      cases hword
      decide
    · simp only [group, groupWords] at hword
      cases hword
      decide
    · omega
  exact ⟨hlexed, .inr ⟨2, hlead⟩, a, hbuild, hleads (.inr ⟨2, hlead⟩)⟩

/-- The words `''`, `' '` and `''`, of which the second and third make the text that the first and
the second would. -/
example : [[], [Byte.space], []].foldl appendWord [] =
    joinWords ([[], [Byte.space], []].take 2) := by
  decide

/-- A word that does not fit between two that do. -/
def longArgument : List Token :=
  [⟨.word, some [97]⟩, ⟨.word, some (List.replicate 509 120)⟩, ⟨.word, some [98]⟩]

/-- The text is `a b`, with the second word missing. -/
theorem argument_missing : (∀ t ∈ longArgument, t.Lexed) ∧
    ∃ a, buildCmdLine longArgument = some a ∧
      a.text Byte.nul = [97, Byte.space, 98] ∧
      ∀ k, a.text Byte.nul ≠ joinWords ((groupWords longArgument).take k) := by
  have hlexed : ∀ t ∈ longArgument, t.Lexed := by decide +kernel
  have hbuild : (buildCmdLine longArgument).map (GrowArray.text Byte.nul) =
      some [97, Byte.space, 98] := by
    decide +kernel
  obtain ⟨a, ha, htext⟩ := Option.map_eq_some_iff.mp hbuild
  refine ⟨hlexed, a, ha, htext, fun k ↦ ?_⟩
  rw [htext]
  rcases k with _ | _ | _ | k
  · decide +kernel
  · decide +kernel
  · decide +kernel
  · have hall : (groupWords longArgument).take (k + 3) = groupWords longArgument :=
      List.take_of_length_le (by rw [show (groupWords longArgument).length = 3 from rfl]; omega)
    rw [hall]
    decide +kernel

end Irish.Shell
