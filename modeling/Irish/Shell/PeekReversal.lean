import Mathlib.Data.List.Forall2
import Irish.Library.Lines
import Irish.Shell.Peek

/-!
# Peek forwards and backwards

Each of the three readers of `peek` prints the lines of a file in its own way of stripping them: the
forward reader and the backward reader of streams take off every carriage return at the end of a
line, the backward reader of files at most one. What the backward reader of files prints does not
depend on its chunks (`peekReverseSeekable_eq`). So the readers agree exactly on the files without a
line that ends in two carriage returns, unless a NUL hides them.
-/

set_option autoImplicit false

namespace Irish.Shell

open Library

/-! ### The backward reader prints lines -/

/-- The lines of a list are printed one after the other, with numbers going down. -/
def reversePrints (flagN : Bool) : List (List Byte) → ℤ → List PrintedLine × ℤ
  | [], current => ([], current)
  | line :: rest, current =>
    let printed := reversePrint flagN line current
    let next := reversePrints flagN rest printed.2
    (printed.1 :: next.1, next.2)

theorem reversePrints_append (flagN : Bool) (a b : List (List Byte)) (current : ℤ) :
    reversePrints flagN (a ++ b) current =
      ((reversePrints flagN a current).1 ++
        (reversePrints flagN b (reversePrints flagN a current).2).1,
        (reversePrints flagN b (reversePrints flagN a current).2).2) := by
  induction a generalizing current with
  | nil => rfl
  | cons _ _ ih => simp only [List.cons_append, reversePrints, ih]

variable {others list read files : List (List Byte)} {first combined file line tail : List Byte}
  {m n current : ℤ} {c : Byte} {pos : ℕ}

/-- The loop over `combined`: what is printed are the parts behind the first newline, last first,
and the part before it is left. The bytes from `i` to `endIdx` have been looked at. -/
theorem reverseScan_eq (flagN : Bool) {i endIdx : ℕ} (hi : i ≤ endIdx)
    (hend : endIdx ≤ combined.length) (hseen : Byte.newline ∉ (combined.take endIdx).drop i)
    (hsplit : (combined.take endIdx).splitOn Byte.newline = first :: others) (current : ℤ) :
    reverseScan flagN combined i endIdx current =
      ((reversePrints flagN others.reverse current).1, first.length,
        (reversePrints flagN others.reverse current).2) := by
  induction i generalizing endIdx current first others with
  | zero =>
    rw [List.drop_zero] at hseen
    rw [splitOn_eq_singleton _ hseen] at hsplit
    obtain ⟨rfl, rfl⟩ := List.cons.inj hsplit
    simp [reverseScan, reversePrints, Nat.min_eq_left hend]
  | succ i ih =>
    have hlt : i < combined.length := by omega
    -- The bytes before `i`, the byte at `i`, and those that have been looked at.
    have hdrop : (combined.take endIdx).drop i =
        combined[i] :: (combined.take endIdx).drop (i + 1) := by
      have hlt' : i < (combined.take endIdx).length := by
        rw [List.length_take]
        omega
      rw [List.drop_eq_getElem_cons hlt', List.getElem_take]
    have htake : combined.take endIdx =
        combined.take i ++ combined[i] :: (combined.take endIdx).drop (i + 1) := by
      rw [← hdrop, ← Nat.min_eq_left (Nat.le_of_succ_le hi), ← List.take_take,
        Nat.min_eq_left (Nat.le_of_succ_le hi), List.take_append_drop]
    by_cases hnewline : combined[i] = Byte.newline
    · obtain ⟨first', others', hsplit'⟩ := exists_splitOn Byte.newline (combined.take i)
      rw [htake, hnewline, splitOn_append_newline, splitOn_eq_singleton _ hseen, hsplit'] at hsplit
      obtain ⟨rfl, rfl⟩ := List.cons.inj hsplit
      have hscan := ih (Nat.le_refl i) (Nat.le_of_lt hlt) (by simp) hsplit'
      simp [reverseScan, List.getElem?_eq_getElem hlt, hnewline, hscan, reversePrints]
    · have hseen' : Byte.newline ∉ (combined.take endIdx).drop i := by
        rw [hdrop]
        exact List.not_mem_cons_of_ne_of_not_mem (Ne.symm hnewline) hseen
      have hscan := ih (Nat.le_of_succ_le hi) hend hseen' hsplit current
      simp [reverseScan, List.getElem?_eq_getElem hlt, hnewline, hscan]

/-- What is left to print before the chunk that ends at `pos` is read. -/
def remaining (file : List Byte) (pos : ℕ) (tail : List Byte) : List Byte :=
  if pos = file.length then chop Byte.newline file else file.take pos ++ tail

/-- The chunk from `start` to `start + readLen`, with the partial line behind it. -/
def combinedAt (file : List Byte) (start readLen : ℕ) (tail : List Byte) : List Byte :=
  (file.drop start).take readLen ++ tail

/-- Where the last line of `combined` ends: before the newline at the end of the file. -/
def endIdxAt (file : List Byte) (start readLen : ℕ) (tail : List Byte) : ℕ :=
  if start + readLen = file.length ∧
      (combinedAt file start readLen tail).getLast? = some Byte.newline then
    (combinedAt file start readLen tail).length - 1
  else (combinedAt file start readLen tail).length

theorem endIdxAt_le (file : List Byte) (start readLen : ℕ) (tail : List Byte) :
    endIdxAt file start readLen tail ≤ (combinedAt file start readLen tail).length := by
  unfold endIdxAt
  split_ifs <;> omega

/-- A chunk is split off what is left to print. -/
theorem remaining_eq {start readLen : ℕ} (hread : 0 < readLen)
    (hstart : start + readLen = file.length → tail = []) :
    remaining file (start + readLen) tail = file.take start ++
      (combinedAt file start readLen tail).take (endIdxAt file start readLen tail) := by
  unfold remaining endIdxAt
  by_cases hlast : start + readLen = file.length
  · have hchunk : combinedAt file start readLen tail = file.drop start := by
      rw [combinedAt, hstart hlast, List.append_nil]
      exact List.take_of_length_le (by rw [List.length_drop]; omega)
    have hne : file.drop start ≠ [] := by
      rw [← List.length_pos_iff, List.length_drop]
      omega
    have hchop := chop_append Byte.newline (file.take start) hne
    rw [List.take_append_drop] at hchop
    rw [if_pos hlast, hchop, hchunk, chop]
    simp only [hlast, true_and]
    split_ifs
    · rw [List.dropLast_eq_take]
    · rw [List.take_length]
  · rw [if_neg hlast, if_neg (fun h ↦ hlast h.1), List.take_length, combinedAt, List.take_add,
      List.append_assoc]

/-- One turn of the loop over the chunks. -/
theorem reverseLoop_step (chunk : ℕ+) (flagN : Bool) (file : List Byte) (hpos : pos ≠ 0)
    (tail : List Byte) (current : ℤ) : ∃ start readLen, 0 < readLen ∧ pos = start + readLen ∧
      let scanned := reverseScan flagN (combinedAt file start readLen tail)
        (endIdxAt file start readLen tail) (endIdxAt file start readLen tail) current
      let next := reverseLoop chunk flagN file start
        ((combinedAt file start readLen tail).take scanned.2.1) scanned.2.2
      reverseLoop chunk flagN file pos tail current = (scanned.1 ++ next.1, next.2) := by
  have hchunk := chunk.pos
  have hread : 0 < (if pos ≥ chunk then (chunk : ℕ) else pos) ∧
      (if pos ≥ chunk then (chunk : ℕ) else pos) ≤ pos := by
    split_ifs <;> omega
  refine ⟨pos - (if pos ≥ chunk then (chunk : ℕ) else pos), _, hread.1, by omega, ?_⟩
  rw [reverseLoop, if_neg hpos]
  rfl

/-- The loop over the chunks prints all lines of what is left but the first, which it leaves. -/
theorem reverseLoop_eq (chunk : ℕ+) (flagN : Bool) (hpos : pos ≤ file.length) (hne : file ≠ [])
    (hstart : pos = file.length → tail = []) (htail : Byte.newline ∉ tail)
    (hsplit : (remaining file pos tail).splitOn Byte.newline = first :: others) (current : ℤ) :
    reverseLoop chunk flagN file pos tail current =
      ((reversePrints flagN others.reverse current).1, first,
        (reversePrints flagN others.reverse current).2) := by
  induction pos using Nat.strongRecOn generalizing tail first others current with
  | ind pos ih =>
    by_cases hzero : pos = 0
    · have hlength : ¬ 0 = file.length := fun h ↦ hne (List.length_eq_zero_iff.mp h.symm)
      rw [hzero, remaining, if_neg hlength, List.take_zero, List.nil_append,
        splitOn_eq_singleton _ htail] at hsplit
      obtain ⟨rfl, rfl⟩ := List.cons.inj hsplit
      rw [reverseLoop, if_pos hzero]
      rfl
    obtain ⟨start, readLen, hread, rfl, hstep⟩ :=
      reverseLoop_step chunk flagN file hzero tail current
    have hremaining := remaining_eq hread hstart
    have hle := endIdxAt_le file start readLen tail
    generalize combinedAt file start readLen tail = combined at hstep hremaining hle
    generalize endIdxAt file start readLen tail = endIdx at hstep hremaining hle
    -- The chunk gives the lines `lines₁` and the partial line `tail₁`.
    obtain ⟨tail₁, lines₁, hchunk⟩ := exists_splitOn Byte.newline (combined.take endIdx)
    have hscan := reverseScan_eq flagN (Nat.le_refl endIdx) hle (by simp) hchunk current
    have htail₁ : combined.take tail₁.length = tail₁ := by
      have htake := take_length_of_splitOn _ hchunk
      have hlength := congrArg List.length htake
      rw [List.take_take, List.length_take] at hlength
      rwa [List.take_take, Nat.min_eq_left (by omega)] at htake
    -- What is left behind the chunk starts with the same line.
    have hnext : remaining file start tail₁ = file.take start ++ tail₁ := if_neg (by omega)
    obtain ⟨first', others', hsplit'⟩ :=
      exists_splitOn Byte.newline (file.take start ++ tail₁)
    rw [hremaining, splitOn_append _ hchunk, hsplit', List.cons_append] at hsplit
    obtain ⟨rfl, rfl⟩ := List.cons.inj hsplit
    have hloop := ih start (by omega) (by omega) (by omega)
      (not_mem_of_mem_splitOn _ (hchunk ▸ List.mem_cons_self)) (hnext ▸ hsplit')
      (reversePrints flagN lines₁.reverse current).2
    simp only [hscan, htail₁] at hstep
    rw [hstep, hloop, List.reverse_append, reversePrints_append]

theorem reversePrint_nil (flagN : Bool) (current : ℤ) :
    reversePrint flagN [] current = (.blank, current) := by
  simp [reversePrint, stripOne, printLine]

/-- What the backward reader prints does not depend on the size of its chunks: the lines of the
file, last first. -/
theorem peekReverseSeekable_eq (chunk : ℕ+) (flagN : Bool) (hne : file ≠ [])
    (lineCounter : ℤ) : (peekReverseSeekable chunk flagN file lineCounter).1 =
      (reversePrints flagN (lines Byte.newline file).reverse
        (if flagN then lineCounter + countNonEmptyLines file - 1 else 0)).1 := by
  rw [lines_eq_splitOn _ hne]
  obtain ⟨first, others, hsplit⟩ := exists_splitOn Byte.newline (chop Byte.newline file)
  have hremaining : remaining file file.length [] = chop Byte.newline file := if_pos rfl
  have hloop := reverseLoop_eq chunk flagN le_rfl hne (fun _ ↦ rfl) List.not_mem_nil
    (hremaining ▸ hsplit)
  have hfirst : ∀ current, (if first ≠ [] then (reversePrint flagN first current).1 else .blank) =
      (reversePrint flagN first current).1 := by
    intro current
    split_ifs with hnil
    · rfl
    · rw [not_not.mp hnil, reversePrint_nil]
  rw [hsplit, List.reverse_cons, reversePrints_append]
  cases flagN <;> simp only [peekReverseSeekable, if_neg hne, hloop, hfirst] <;> rfl

/-! ### The lines that `getline` returns -/

/-- `getline` returns the lines, each with its newline if it has one. -/
theorem getLines_forall₂ (bytes : List Byte) :
    List.Forall₂ (fun read line ↦ read = line ∨ read = line ++ [Byte.newline]) (getLines bytes)
      (lines Byte.newline bytes) := by
  induction bytes with
  | nil => exact List.Forall₂.nil
  | cons c rest ih =>
    rcases eq_or_ne c Byte.newline with rfl | hc
    · rw [getLines, if_pos rfl, lines_cons_newline]
      exact List.Forall₂.cons (.inr rfl) ih
    · rw [getLines, if_neg hc, lines_cons_of_ne _ hc]
      generalize getLines rest = reads at ih
      generalize lines Byte.newline rest = others at ih
      cases ih with
      | nil => exact List.Forall₂.cons (.inl rfl) List.Forall₂.nil
      | cons hline hothers =>
        refine List.Forall₂.cons ?_ hothers
        rcases hline with rfl | rfl
        · exact .inl rfl
        · exact .inr rfl

theorem stripEol_newline (line : List Byte) : stripEol (line ++ [Byte.newline]) = stripEol line :=
  List.rdropWhile_concat_pos _ _ _ (by decide)

theorem map_stripEol_getLines (bytes : List Byte) :
    (getLines bytes).map stripEol = (lines Byte.newline bytes).map stripEol := by
  have hlines := getLines_forall₂ bytes
  generalize getLines bytes = reads at hlines ⊢
  generalize lines Byte.newline bytes = others at hlines ⊢
  induction hlines with
  | nil => rfl
  | cons hline _ ih =>
    rcases hline with rfl | rfl
    · rw [List.map_cons, List.map_cons, ih]
    · rw [List.map_cons, List.map_cons, ih, stripEol_newline]

theorem forwardLoop_congr (flagN : Bool) {a b : List (List Byte)}
    (h : a.map stripEol = b.map stripEol) (lineCounter : ℤ) :
    forwardLoop flagN a lineCounter = forwardLoop flagN b lineCounter := by
  induction a generalizing b lineCounter with
  | nil =>
    obtain rfl : b = [] := by simpa [eq_comm] using h
    rfl
  | cons _ _ ih =>
    cases b with
    | nil => cases h
    | cons line' b =>
      obtain ⟨hline, hrest⟩ := List.cons.inj h
      simp only [forwardLoop, hline, ih hrest]

theorem peekForwardStream_eq (flagN : Bool) (bytes : List Byte) (lineCounter : ℤ) :
    peekForwardStream flagN bytes lineCounter =
      forwardLoop flagN (lines Byte.newline bytes) lineCounter :=
  forwardLoop_congr flagN (map_stripEol_getLines bytes) lineCounter

/-! ### The backward reader of streams -/

theorem shown_of_le (h : line.length ≤ intMax) :
    shown line = some (line.takeWhile (· ≠ Byte.nul)) := if_pos h

/-- The stored lines are printed as the forward reader prints them. Their numbers are the same if
they are printed at all. -/
theorem storeLoop_print (flagN : Bool) (hshort : ∀ line ∈ read.map stripEol, line.length ≤ intMax)
    (hnm : flagN = true → n = m) :
    (storeLoop read n).1.map (StreamLine.print flagN) = (forwardLoop flagN read m).1 ∧
      (flagN = true → (storeLoop read n).2 = (forwardLoop flagN read m).2) := by
  induction read generalizing n m with
  | nil => exact ⟨rfl, hnm⟩
  | cons line _ ih =>
    have hline := hshort (stripEol line) List.mem_cons_self
    have hhead : StreamLine.print flagN ⟨stripEol line, stripEol line ≠ [],
        if stripEol line ≠ [] then n else 0⟩ = printLine flagN m (stripEol line) := by
      by_cases hnil : stripEol line = []
      · simp [StreamLine.print, printLine, hnil]
      · have hshown := shown_of_le hline
        cases flagN
        · simp [StreamLine.print, printLine, hnil, hshown]
        · simp [StreamLine.print, printLine, hnil, hshown, hnm]
    have hnext : flagN = true → (if stripEol line ≠ [] then n + 1 else n) =
        if stripEol line ≠ [] ∧ flagN = true then m + 1 else m := by
      intro hflag
      simp [hflag, hnm hflag]
    obtain ⟨hprint, hcounter⟩ := ih (fun l hl ↦ hshort l (List.mem_cons_of_mem _ hl)) hnext
    exact ⟨by simp only [storeLoop, forwardLoop, List.map_cons, hhead, hprint], hcounter⟩

/-! ### Counting -/

/-- The number of lines that the forward reader numbers. -/
def numbered (list : List (List Byte)) : ℕ := list.countP fun line ↦ stripEol line ≠ []

theorem stripEol_eq_nil_iff : stripEol line = [] ↔
    ∀ c ∈ line, c = Byte.newline ∨ c = Byte.carriageReturn := by
  simp [stripEol, List.rdropWhile_eq_nil_iff]

theorem numbered_cons (line : List Byte) (list : List (List Byte)) :
    numbered (line :: list) = numbered list + if stripEol line ≠ [] then 1 else 0 := by
  simp [numbered, List.countP_cons]

theorem numbered_lines_cons (hc : c ≠ Byte.newline) (rest : List Byte) :
    numbered (lines Byte.newline (c :: rest)) = if c = Byte.carriageReturn
      then numbered (lines Byte.newline rest) else 1 + numbered (lines Byte.newline rest).tail := by
  rw [lines_cons_of_ne _ hc]
  cases lines Byte.newline rest with
  | nil => by_cases hcr : c = Byte.carriageReturn <;> simp [numbered, stripEol_eq_nil_iff, hc, hcr]
  | cons line =>
    have hnil : stripEol (c :: line) = [] ↔ c = Byte.carriageReturn ∧ stripEol line = [] := by
      simp [stripEol_eq_nil_iff, hc]
    rw [numbered_cons, numbered_cons, List.tail_cons]
    by_cases hcr : c = Byte.carriageReturn
    · simp only [ne_eq, hnil.trans (and_iff_right hcr), if_pos hcr]
    · simp [hnil, hcr, Nat.add_comm]

theorem tail_lines_cons (hc : c ≠ Byte.newline) (rest : List Byte) :
    (lines Byte.newline (c :: rest)).tail = (lines Byte.newline rest).tail := by
  rw [lines_cons_of_ne _ hc]
  cases lines Byte.newline rest <;> rfl

/-- The counting pass, from within a line that has content or not. -/
theorem countLoop_eq (file : List Byte) (count : ℕ) (lineHasContent : Bool) :
    countLoop file count lineHasContent = count + if lineHasContent
      then 1 + numbered (lines Byte.newline file).tail else numbered (lines Byte.newline file) := by
  induction file generalizing count lineHasContent with
  | nil => cases lineHasContent <;> rfl
  | cons c rest ih =>
    rcases eq_or_ne c Byte.newline with rfl | hc
    · cases lineHasContent with
      | false => simp [countLoop, ih, numbered_cons, stripEol_eq_nil_iff]
      | true =>
        simp [countLoop, ih]
        omega
    · by_cases hcr : c = Byte.carriageReturn
      · have hloop : countLoop (c :: rest) count lineHasContent =
            countLoop rest count lineHasContent := by
          rw [countLoop, if_neg hc, if_neg (not_not.mpr hcr)]
        rw [hloop, ih, numbered_lines_cons hc, if_pos hcr, tail_lines_cons hc]
      · have hloop : countLoop (c :: rest) count lineHasContent = countLoop rest count true := by
          simp [countLoop, hc, hcr]
        rw [hloop, ih, numbered_lines_cons hc, if_neg hcr, tail_lines_cons hc]
        simp

/-- The counting pass counts the lines that the forward reader numbers. -/
theorem countNonEmptyLines_eq (file : List Byte) :
    countNonEmptyLines file = numbered (lines Byte.newline file) := by
  simp [countNonEmptyLines, countLoop_eq]

/-! ### Lines on which the two ways of stripping agree -/

/-- Both ways of stripping leave the same to print. -/
structure SameLine (line : List Byte) : Prop where
  nil : stripOne line = [] ↔ stripEol line = []
  shown : Shell.shown (stripOne line) = Shell.shown (stripEol line)

theorem SameLine.printLine (h : SameLine line) (flagN : Bool)
    (hnm : stripEol line ≠ [] → flagN = true → n = m) :
    printLine flagN n (stripOne line) = printLine flagN m (stripEol line) := by
  by_cases hnil : stripEol line = []
  · simp [Shell.printLine, hnil, h.nil.mpr hnil]
  · have hone : stripOne line ≠ [] := fun h' ↦ hnil (h.nil.mp h')
    cases flagN
    · simp [Shell.printLine, hnil, hone, h.shown]
    · simp [Shell.printLine, hnil, hone, h.shown, hnm hnil rfl]

/-- Numbers going down from the last are numbers going up from the first. -/
theorem reversePrints_reverse (flagN : Bool) (hsame : ∀ line ∈ list, SameLine line)
    (hcurrent : flagN = true → current = n + numbered list - 1) :
    (reversePrints flagN list.reverse current).1 = (forwardLoop flagN list n).1.reverse ∧
      (flagN = true → (reversePrints flagN list.reverse current).2 = n - 1) := by
  induction list generalizing n with
  | nil =>
    refine ⟨rfl, fun hflag ↦ ?_⟩
    simpa [numbered, reversePrints] using hcurrent hflag
  | cons line rest ih =>
    have hline := hsame line List.mem_cons_self
    have hrest := ih (fun l hl ↦ hsame l (List.mem_cons_of_mem _ hl))
      (n := if stripEol line ≠ [] ∧ flagN = true then n + 1 else n) ?_
    · obtain ⟨hprint, hcounter⟩ := hrest
      rw [List.reverse_cons, reversePrints_append, hprint]
      constructor
      · have hlast := hline.printLine flagN (n := (reversePrints flagN rest.reverse current).2)
          (m := n) (fun hne hflag ↦ by rw [hcounter hflag]; simp [hne, hflag])
        simp only [forwardLoop, List.reverse_cons, reversePrints, reversePrint, hlast]
      · intro hflag
        have hcount := hcounter hflag
        by_cases hnil : stripEol line = []
        · simp_all [reversePrints, reversePrint, hline.nil]
        · simp_all [reversePrints, reversePrint, hline.nil]
    · intro hflag
      rw [hcurrent hflag, numbered_cons]
      by_cases hnil : stripEol line = []
      · simp [hnil]
      · simp [hnil, hflag]
        omega

/-- A line that the two ways of stripping treat alike: it does not end in two carriage returns, or a
NUL hides its end. -/
def SafeLine (line : List Byte) : Prop :=
  Byte.nul ∈ line ∨ ¬ [Byte.carriageReturn, Byte.carriageReturn] <:+ line

theorem stripEol_concat (hnl : c ≠ Byte.newline)
    (hcr : c ≠ Byte.carriageReturn) : stripEol (line ++ [c]) = line ++ [c] :=
  List.rdropWhile_concat_neg _ _ _ (by simp [hnl, hcr])

theorem stripEol_carriageReturn (line : List Byte) :
    stripEol (line ++ [Byte.carriageReturn]) = stripEol line :=
  List.rdropWhile_concat_pos _ _ _ (by decide)

theorem stripEol_prefix_line (line : List Byte) : stripEol line <+: line :=
  List.rdropWhile_prefix _ _

theorem stripOne_carriageReturn (line : List Byte) :
    stripOne (line ++ [Byte.carriageReturn]) = line := by
  simp [stripOne]

theorem stripOne_concat (hcr : c ≠ Byte.carriageReturn) : stripOne (line ++ [c]) = line ++ [c] := by
  simp [stripOne, hcr]

/-- Without two carriage returns at its end, a line is stripped alike. -/
theorem stripOne_eq_stripEol (hnl : Byte.newline ∉ line)
    (h : ¬ [Byte.carriageReturn, Byte.carriageReturn] <:+ line) :
    stripOne line = stripEol line := by
  rcases List.eq_nil_or_concat line with rfl | ⟨init, c, rfl⟩
  · rfl
  rw [List.concat_eq_append] at *
  have hc : c ≠ Byte.newline := fun heq ↦ hnl (heq ▸ by simp)
  rcases eq_or_ne c Byte.carriageReturn with rfl | hcr
  · rw [stripOne_carriageReturn, stripEol_carriageReturn]
    rcases List.eq_nil_or_concat init with rfl | ⟨init', d, rfl⟩
    · rfl
    rw [List.concat_eq_append] at *
    have hd : d ≠ Byte.newline := fun heq ↦ hnl (heq ▸ by simp)
    have hdcr : d ≠ Byte.carriageReturn := by
      rintro rfl
      exact h ⟨init', by simp⟩
    exact (stripEol_concat hd hdcr).symm
  · rw [stripOne_concat hcr, stripEol_concat hc hcr]

/-- Up to a NUL, two prefixes of a line that contain it show the same. -/
theorem takeWhile_eq_of_nul_mem {a b : List Byte} (h : a <+: b) (hnul : Byte.nul ∈ a) :
    a.takeWhile (· ≠ Byte.nul) = b.takeWhile (· ≠ Byte.nul) := by
  obtain ⟨rest, rfl⟩ := h
  induction a with
  | nil => cases hnul
  | cons c a ih =>
    by_cases hc : c = Byte.nul
    · simp [hc]
    · have hmem : Byte.nul ∈ a := (List.mem_cons.mp hnul).resolve_left (Ne.symm hc)
      simpa [hc] using ih hmem

theorem stripOne_two (init : List Byte) :
    stripOne (init ++ [Byte.carriageReturn, Byte.carriageReturn]) =
      init ++ [Byte.carriageReturn] := by
  simpa using stripOne_carriageReturn (init ++ [Byte.carriageReturn])

theorem stripEol_two (init : List Byte) :
    stripEol (init ++ [Byte.carriageReturn, Byte.carriageReturn]) = stripEol init := by
  have hsplit : init ++ [Byte.carriageReturn, Byte.carriageReturn] =
      init ++ [Byte.carriageReturn] ++ [Byte.carriageReturn] := by simp
  rw [hsplit, stripEol_carriageReturn, stripEol_carriageReturn]

theorem nul_mem_stripEol (h : Byte.nul ∈ line) : Byte.nul ∈ stripEol line := by
  have happend := List.rdropWhile_append_rtakeWhile
    (p := fun c ↦ decide (c = Byte.newline ∨ c = Byte.carriageReturn)) (l := line)
  rw [← happend] at h
  refine (List.mem_append.mp h).resolve_right fun hmem ↦ ?_
  exact absurd (List.mem_rtakeWhile_imp hmem) (by decide)

theorem SafeLine.sameLine (h : SafeLine line) (hnl : Byte.newline ∉ line)
    (hlength : line.length ≤ intMax) : SameLine line := by
  by_cases hend : [Byte.carriageReturn, Byte.carriageReturn] <:+ line
  swap
  · have hstrip := stripOne_eq_stripEol hnl hend
    exact ⟨by rw [hstrip], by rw [hstrip]⟩
  -- The end is stripped in two ways, but a NUL comes first.
  obtain ⟨init, rfl⟩ := hend
  have hnul : Byte.nul ∈ init := by
    have hmem := h.resolve_right (not_not.mpr ⟨init, rfl⟩)
    simpa [show Byte.nul ≠ Byte.carriageReturn by decide] using hmem
  have hprefix : stripEol init <+: init ++ [Byte.carriageReturn] :=
    (stripEol_prefix_line init).trans (List.prefix_append _ _)
  have hone : (init ++ [Byte.carriageReturn]).length ≤ intMax := by
    simp only [List.length_append, List.length_cons, List.length_nil] at hlength ⊢
    omega
  refine ⟨?_, ?_⟩
  · rw [stripOne_two, stripEol_two]
    have hne : stripEol init ≠ [] := List.ne_nil_of_mem (nul_mem_stripEol hnul)
    simp [hne]
  · rw [stripOne_two, stripEol_two, shown_of_le hone,
      shown_of_le (Nat.le_trans hprefix.length_le hone),
      takeWhile_eq_of_nul_mem hprefix (nul_mem_stripEol hnul)]

theorem printLine_text (hnul : Byte.nul ∉ line) (hlength : line.length ≤ intMax) (flagN : Bool)
    (n : ℤ) : (printLine flagN n line).text = some line := by
  have htake : line.takeWhile (· ≠ Byte.nul) = line := by
    rw [List.takeWhile_eq_self_iff]
    intro c hc
    exact decide_eq_true fun heq ↦ hnul (heq ▸ hc)
  by_cases hnil : line = []
  · simp [printLine, hnil, PrintedLine.blank]
  · simp only [printLine, if_neg hnil, shown_of_le hlength, htake]

/-- A line that is not safe is printed with a carriage return at its end by the backward reader of
files only. -/
theorem text_ne_of_not_safeLine (h : ¬ SafeLine line) (hlength : line.length ≤ intMax)
    (flagN : Bool) (n m : ℤ) :
    (printLine flagN n (stripOne line)).text ≠ (printLine flagN m (stripEol line)).text := by
  obtain ⟨hnul, hend⟩ := not_or.mp h
  obtain ⟨init, rfl⟩ := not_not.mp hend
  simp only [List.mem_append, not_or] at hnul
  simp only [List.length_append, List.length_cons, List.length_nil] at hlength
  have hone : Byte.nul ∉ init ++ [Byte.carriageReturn] := by
    simpa [hnul.1] using (by decide : Byte.nul ≠ Byte.carriageReturn)
  have hle := (stripEol_prefix_line init).length_le
  rw [stripOne_two, stripEol_two, printLine_text hone (by simp; omega),
    printLine_text (fun hmem ↦ hnul.1 ((stripEol_prefix_line init).subset hmem)) (by omega)]
  intro heq
  have hlen := congrArg List.length (Option.some.inj heq)
  simp only [List.length_append, List.length_cons, List.length_nil] at hlen
  omega

/-! ### One file -/

theorem forwardLoop_counter (flagN : Bool) (list : List (List Byte)) (n : ℤ) :
    (forwardLoop flagN list n).2 = if flagN then n + numbered list else n := by
  induction list generalizing n with
  | nil => simp [forwardLoop, numbered]
  | cons line _ ih =>
    simp only [forwardLoop, ih, numbered_cons]
    by_cases hnil : stripEol line = [] <;> cases flagN <;> simp [hnil]
    omega

theorem peekReverseSeekable_counter (chunk : ℕ+) (flagN : Bool) (file : List Byte) (n : ℤ) :
    (peekReverseSeekable chunk flagN file n).2 = (peekForwardStream flagN file n).2 := by
  rw [peekForwardStream_eq, forwardLoop_counter]
  by_cases hne : file = []
  · simp [peekReverseSeekable, hne, lines, numbered]
  · simp only [peekReverseSeekable, if_neg hne, countNonEmptyLines_eq]
    cases flagN <;> rfl

/-- On safe lines the backward reader of files prints what the forward reader prints. -/
theorem peekReverseSeekable_of_safe (chunk : ℕ+) (flagN : Bool)
    (hsafe : ∀ line ∈ lines Byte.newline file, SafeLine line)
    (hlength : ∀ line ∈ lines Byte.newline file, line.length ≤ intMax) (n : ℤ) :
    (peekReverseSeekable chunk flagN file n).1 = (peekForwardStream flagN file n).1.reverse := by
  by_cases hne : file = []
  · simp [peekReverseSeekable, peekForwardStream, hne, getLines, forwardLoop]
  rw [peekReverseSeekable_eq chunk flagN hne, peekForwardStream_eq]
  refine (reversePrints_reverse flagN (fun line hline ↦ ?_) fun hflag ↦ ?_).1
  · exact (hsafe line hline).sameLine (not_mem_of_mem_lines _ hline) (hlength line hline)
  · rw [if_pos hflag, countNonEmptyLines_eq]

/-- The backward reader of streams prints what the forward reader prints. -/
theorem peekReverseStream_eq (flagN : Bool) {bytes : List Byte}
    (hlength : ∀ line ∈ lines Byte.newline bytes, line.length ≤ intMax)
    (hnm : flagN = true → n = m) :
    (peekReverseStream flagN bytes n).1 = (peekForwardStream flagN bytes m).1.reverse ∧
      (flagN = true →
        (peekReverseStream flagN bytes n).2 = (peekForwardStream flagN bytes m).2) := by
  have hshort : ∀ line ∈ (getLines bytes).map stripEol, line.length ≤ intMax := by
    rw [map_stripEol_getLines]
    intro line hline
    obtain ⟨full, hfull, rfl⟩ := List.mem_map.mp hline
    exact Nat.le_trans (stripEol_prefix_line full).length_le (hlength full hfull)
  obtain ⟨hprint, hcounter⟩ := storeLoop_print flagN hshort hnm
  refine ⟨?_, hcounter⟩
  rw [peekReverseStream, List.map_reverse, hprint]
  rfl

theorem forwardLoop_plain (list : List (List Byte)) (n : ℤ) :
    (forwardLoop false list n).1 = list.map fun line ↦ printLine false 0 (stripEol line) := by
  induction list generalizing n with
  | nil => rfl
  | cons _ _ ih => simp [forwardLoop, ih, printLine]

theorem reversePrints_plain (list : List (List Byte)) (n : ℤ) :
    (reversePrints false list n).1 = list.map fun line ↦ printLine false 0 (stripOne line) := by
  induction list generalizing n with
  | nil => rfl
  | cons _ _ ih => simp [reversePrints, reversePrint, ih, printLine]

/-- Conversely, if they agree without numbers, the lines are safe. -/
theorem safe_of_peekReverseSeekable (chunk : ℕ+)
    (hlength : ∀ line ∈ lines Byte.newline file, line.length ≤ intMax)
    (h : (peekReverseSeekable chunk false file n).1 =
      (peekForwardStream false file n).1.reverse) :
    ∀ line ∈ lines Byte.newline file, SafeLine line := by
  intro line hline
  have hne : file ≠ [] := by
    rintro rfl
    cases hline
  rw [peekReverseSeekable_eq chunk false hne, peekForwardStream_eq, forwardLoop_plain,
    reversePrints_plain, List.map_reverse, List.reverse_inj, List.map_inj_left] at h
  by_contra hunsafe
  exact text_ne_of_not_safeLine hunsafe (hlength line hline) false 0 0
    (congrArg PrintedLine.text (h line hline))

/-! ### A list of files -/

theorem peekLoop_agree (flagN : Bool)
    (hsafe : ∀ file ∈ files, ∀ line ∈ lines Byte.newline file, SafeLine line)
    (hlength : ∀ file ∈ files, ∀ line ∈ lines Byte.newline file, line.length ≤ intMax)
    (hnm : flagN = true → m = n) :
    peekLoop flagN true (files.map .regular) n =
        (peekLoop flagN false (files.map .regular) n).map (Except.map List.reverse) ∧
      peekLoop flagN true (files.map .stdin) m = peekLoop flagN true (files.map .regular) n := by
  induction files generalizing n m with
  | nil => exact ⟨rfl, rfl⟩
  | cons file _ ih =>
    have hfile := peekReverseSeekable_of_safe chunkSize flagN (hsafe file List.mem_cons_self)
      (hlength file List.mem_cons_self) n
    have hcounter := peekReverseSeekable_counter chunkSize flagN file n
    obtain ⟨hstream, hstreamCounter⟩ :=
      peekReverseStream_eq flagN (hlength file List.mem_cons_self) hnm
    obtain ⟨hregular, hstdin⟩ := ih (fun f hf ↦ hsafe f (List.mem_cons_of_mem _ hf))
      (fun f hf ↦ hlength f (List.mem_cons_of_mem _ hf)) hstreamCounter
    constructor
    · simp only [List.map_cons, peekLoop, peekTarget, if_true, hfile, hcounter, hregular]
      rfl
    · simp only [List.map_cons, peekLoop, peekTarget, if_true, hfile, hcounter, hstream, hstdin]

/-- Without numbers the counter stays as it is. -/
theorem peekLoop_plain (flagR : Bool) (files : List (List Byte)) (n : ℤ) :
    peekLoop false flagR (files.map .regular) n =
      files.map fun file ↦ (peekTarget false flagR n (.regular file)).1 := by
  have hcounter : ∀ file, (peekTarget false flagR n (.regular file)).2 = n := by
    intro file
    cases flagR
    · simp [peekTarget, peekForwardStream_eq, forwardLoop_counter]
    · simp [peekTarget, peekReverseSeekable_counter, peekForwardStream_eq, forwardLoop_counter]
  induction files with
  | nil => rfl
  | cons _ _ ih => simp only [List.map_cons, peekLoop, hcounter, ih]

/-- The lengths of the lines fit an `int`, and so do the numbers of all the lines and the counter
behind them. -/
structure IntSized (files : List (List Byte)) : Prop where
  length : ∀ file ∈ files, ∀ line ∈ lines Byte.newline file, line.length ≤ intMax
  number : (files.flatMap (lines Byte.newline)).length + 1 ≤ intMax

/-- Forward and backward peek agree exactly on safe lines.

Assumes: no `int` of the readers overflows. -/
theorem peek_agree_iff {files : List (List Byte)} (hsize : IntSized files) :
    (∀ flagN,
      (peekFiles flagN true (files.map .regular)).1 =
          (peekFiles flagN false (files.map .regular)).1.map (Except.map List.reverse) ∧
        (peekFiles flagN true (files.map .stdin)).1 =
          (peekFiles flagN true (files.map .regular)).1) ↔
      ∀ file ∈ files, ∀ line ∈ lines Byte.newline file, SafeLine line := by
  constructor
  · intro hagree file hfile
    refine safe_of_peekReverseSeekable chunkSize (hsize.length file hfile) (n := 1) ?_
    have hplain := (hagree false).1
    simp only [peekFiles, peekLoop_plain, List.map_map] at hplain
    have hout := List.map_inj_left.mp hplain file hfile
    simpa [peekTarget, Except.map] using hout
  · intro hsafe flagN
    exact peekLoop_agree flagN hsafe hsize.length fun _ ↦ rfl

/-- `a` and two carriage returns: forwards the line is `a`, backwards it is `a` and one carriage
return. -/
theorem peek_two_carriage_returns :
    let file : List Byte := [97, Byte.carriageReturn, Byte.carriageReturn, Byte.newline]
    (peekFiles false false [.regular file]).1 = [.ok [⟨none, some [97]⟩]] ∧
      (peekFiles false true [.regular file]).1 = [.ok [⟨none, some [97, Byte.carriageReturn]⟩]] ∧
      (peekFiles false true [.regular file]).1 ≠
        (peekFiles false false [.regular file]).1.map (Except.map List.reverse) := by
  decide +kernel

/-- Two files with an empty line, a single carriage return, a hidden end and no last newline. -/
theorem peek_agree_two_files :
    let files : List (List Byte) := [[97, Byte.carriageReturn, Byte.newline, Byte.newline, 98],
      [99, Byte.nul, Byte.carriageReturn, Byte.carriageReturn, Byte.newline]]
    IntSized files ∧
      (peekFiles true true (files.map .regular)).1 =
        (peekFiles true false (files.map .regular)).1.map (Except.map List.reverse) := by
  intro files
  have hsize : IntSized files := ⟨by decide, by decide⟩
  refine ⟨hsize, ((peek_agree_iff hsize).mpr ?_ true).1⟩
  unfold SafeLine
  decide

/-! ### Chunks -/

/-- What is shown of a line: without one carriage return at its end, up to its first NUL. -/
def shownText (line : List Byte) : List Byte := (stripOne line).takeWhile (· ≠ Byte.nul)

theorem length_stripOne_le (line : List Byte) : (stripOne line).length ≤ line.length := by
  unfold stripOne
  split_ifs
  · rw [List.length_dropLast]
    omega
  · exact le_rfl

theorem reversePrint_text (flagN : Bool) (hlength : line.length ≤ intMax)
    (current : ℤ) : (reversePrint flagN line current).1.text = some (shownText line) := by
  have hshown := shown_of_le (Nat.le_trans (length_stripOne_le line) hlength)
  by_cases hnil : stripOne line = []
  · simp [reversePrint, printLine, shownText, hnil, PrintedLine.blank]
  · simp only [reversePrint, printLine, if_neg hnil, hshown, shownText]

theorem reversePrints_text (flagN : Bool) (hlength : ∀ line ∈ list, line.length ≤ intMax)
    (current : ℤ) :
    (reversePrints flagN list current).1.map (·.text) =
      list.map fun line ↦ some (shownText line) := by
  induction list generalizing current with
  | nil => rfl
  | cons line _ ih =>
    have hline := reversePrint_text flagN (hlength line List.mem_cons_self) current
    simp only [reversePrints, List.map_cons, hline,
      ih fun l hl ↦ hlength l (List.mem_cons_of_mem _ hl)]

theorem peekReverseSeekable_congr (chunk chunk' : ℕ+) (flagN : Bool) (hne : file ≠ [])
    (lineCounter : ℤ) :
    peekReverseSeekable chunk flagN file lineCounter =
      peekReverseSeekable chunk' flagN file lineCounter := by
  refine Prod.ext ?_ ?_
  · rw [peekReverseSeekable_eq chunk flagN hne, peekReverseSeekable_eq chunk' flagN hne]
  · rw [peekReverseSeekable_counter, peekReverseSeekable_counter]

/-- The backward reader of files does not depend on the size of its chunks: output and counter are
those of a single chunk that holds the whole file, and the texts are the lines of the file, last
first. -/
theorem peekReverseSeekable_chunks (chunk : ℕ+) (flagN : Bool) {file : List Byte} (hne : file ≠ [])
    (hsize : file.length ≤ intMax) (lineCounter : ℤ) :
    peekReverseSeekable chunk flagN file lineCounter = peekReverseSeekable
        (file.length.toPNat (List.length_pos_iff.mpr hne)) flagN file lineCounter ∧
      (peekReverseSeekable chunk flagN file lineCounter).1.map (·.text) =
        (lines Byte.newline file).reverse.map fun line ↦ some (shownText line) := by
  refine ⟨peekReverseSeekable_congr chunk _ flagN hne lineCounter, ?_⟩
  rw [peekReverseSeekable_eq chunk flagN hne]
  refine reversePrints_text flagN (fun line hline ↦ ?_) _
  exact Nat.le_trans (length_le_of_mem_lines _ (List.mem_reverse.mp hline)) hsize

/-- A carriage return and its newline in two chunks, an empty line, a NUL, and no newline at the
end. -/
theorem peekReverseSeekable_two_byte_chunks :
    let file : List Byte := [97, Byte.carriageReturn, Byte.newline, Byte.newline, 98, Byte.nul, 99]
    (peekReverseSeekable (Nat.succPNat 1) true file 5).1.map (·.text) =
        [some [98], some [], some [97]] ∧
      peekReverseSeekable (Nat.succPNat 1) true file 5 =
        peekReverseSeekable (Nat.succPNat 6) true file 5 := by
  intro file
  have hne : file ≠ [] := by decide
  obtain ⟨hsame, htext⟩ :=
    peekReverseSeekable_chunks (Nat.succPNat 1) true hne (by decide) 5
  exact ⟨htext, hsame⟩

end Irish.Shell
