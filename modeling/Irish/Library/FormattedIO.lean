import Mathlib.Data.List.TakeWhile
import Mathlib.Data.Nat.Digits.Lemmas

/-!
# Formatted input and output

The parts of C's `stdio.h` and `string.h` that write a record as a line of text and read it back:
the conversions `%lu` and `%ld` in both directions, `%[...]`, `fgets`, and copies into character
arrays. Scanners return what they convert and the bytes they leave, or nothing where the conversion
fails. For each pair of conversions there is a round trip lemma, with arbitrary bytes behind the
number as long as they do not continue it.
-/

set_option autoImplicit false

namespace Irish.Library

/-! ### Decimal numbers -/

def digitByte (d : ℕ) : UInt8 := UInt8.ofNat (48 + d)

def isDigit (c : UInt8) : Bool := 48 ≤ c ∧ c ≤ 57

/-- `isspace` in the C locale. -/
def isSpace (c : UInt8) : Bool := c = 32 ∨ (9 ≤ c ∧ c ≤ 13)

def printNat (n : ℕ) : List UInt8 :=
  if n = 0 then [digitByte 0] else (Nat.digits 10 n).reverse.map digitByte

/-- The value of a sequence of digits, the first one being the most significant. -/
def decimalValue (digits : List UInt8) : ℕ :=
  digits.foldl (fun acc c ↦ (c.toNat - 48) + 10 * acc) 0

theorem toNat_digitByte {d : ℕ} (hd : d < 10) : (digitByte d).toNat = 48 + d := by
  rw [digitByte, UInt8.toNat_ofNat']
  exact Nat.mod_eq_of_lt (by omega)

theorem isDigit_digitByte {d : ℕ} (hd : d < 10) : isDigit (digitByte d) = true := by
  have hnat := toNat_digitByte hd
  simp only [isDigit, decide_eq_true_eq, UInt8.le_iff_toNat_le, hnat, UInt8.reduceToNat]
  omega

variable {c a : UInt8} {n k width size capacity : ℕ} {rest s t digits line u bytes : List UInt8}
  {v z : Int64}

theorem isSpace_of_isDigit (h : isDigit c = true) : isSpace c = false := by
  simp only [isDigit, isSpace, decide_eq_true_eq, decide_eq_false_iff_not, UInt8.le_iff_toNat_le,
    ← UInt8.toNat_inj, UInt8.reduceToNat] at h ⊢
  omega

theorem decimalValue_digits {l : List ℕ} (hl : ∀ d ∈ l, d < 10) :
    decimalValue (l.reverse.map digitByte) = Nat.ofDigits 10 l := by
  rw [decimalValue, List.foldl_map, List.foldl_reverse]
  induction l with
  | nil => rfl
  | cons d _ ih =>
    rw [List.foldr_cons, ih fun x hx ↦ hl x (List.mem_cons_of_mem _ hx),
      toNat_digitByte (hl d List.mem_cons_self), Nat.ofDigits_cons, Nat.add_sub_cancel_left]

theorem decimalValue_printNat (n : ℕ) : decimalValue (printNat n) = n := by
  unfold printNat
  split_ifs with hn
  · rw [hn]
    rfl
  · rw [decimalValue_digits fun d hd ↦ Nat.digits_lt_base (by decide) hd, Nat.ofDigits_digits]

theorem isDigit_of_mem_printNat (hc : c ∈ printNat n) : isDigit c = true := by
  unfold printNat at hc
  split_ifs at hc
  · rw [List.mem_singleton.mp hc]
    rfl
  · obtain ⟨d, hd, rfl⟩ := List.mem_map.mp hc
    exact isDigit_digitByte (Nat.digits_lt_base (by decide) (List.mem_reverse.mp hd))

theorem printNat_ne_nil (n : ℕ) : printNat n ≠ [] := by
  unfold printNat
  split_ifs with hn
  · simp
  · simpa using Nat.digits_ne_nil_iff_ne_zero.mpr hn

theorem length_printNat_le (hk : 0 < k) (hn : n < 10 ^ k) : (printNat n).length ≤ k := by
  unfold printNat
  split_ifs
  · exact hk
  · rw [List.length_map, List.length_reverse]
    exact (Nat.digits_length_le_iff (by decide) n).mpr hn

/-! ### Conversions -/

/-- A white-space directive, and the start of a numeric conversion. -/
def skipSpace (s : List UInt8) : List UInt8 := s.dropWhile isSpace

/-- An optional sign: whether it is a minus, and what follows. -/
def scanSign : List UInt8 → Bool × List UInt8
  | [] => (false, [])
  | c :: rest =>
    if c = 45 then (true, rest) else if c = 43 then (false, rest) else (false, c :: rest)

/-- The subject sequence of `strtol` and `strtoul` in base ten. -/
def scanInteger (s : List UInt8) : Option ((Bool × ℕ) × List UInt8) :=
  let (negative, rest) := scanSign (skipSpace s)
  let digits := rest.takeWhile isDigit
  if digits = [] then none else some ((negative, decimalValue digits), rest.dropWhile isDigit)

/-- `strtoul`: the negation is that of `unsigned long`, and what does not fit becomes
`ULONG_MAX`. -/
def toUnsigned (negative : Bool) (n : ℕ) : UInt64 :=
  if n ≤ 0xffffffffffffffff then
    if negative then - UInt64.ofNat n else UInt64.ofNat n
  else 0xffffffffffffffff

/-- `strtol`: what does not fit becomes `LONG_MIN` or `LONG_MAX`. -/
def toSigned (negative : Bool) (n : ℕ) : Int64 :=
  if negative then Int64.ofInt (max (-0x8000000000000000) (- (n : ℤ)))
  else Int64.ofInt (min 0x7fffffffffffffff (n : ℤ))

/-- `%lu` of `sscanf`. -/
def scanUnsigned (s : List UInt8) : Option (UInt64 × List UInt8) :=
  (scanInteger s).map fun ((negative, n), rest) ↦ (toUnsigned negative n, rest)

/-- `%ld` of `sscanf`. -/
def scanSigned (s : List UInt8) : Option (Int64 × List UInt8) :=
  (scanInteger s).map fun ((negative, n), rest) ↦ (toSigned negative n, rest)

/-- `%width[...]` of `sscanf`: at least one and at most `width` bytes of a set. -/
def scanSet (width : ℕ) (set : UInt8 → Bool) (s : List UInt8) : Option (List UInt8 × List UInt8) :=
  let field := (s.take width).takeWhile set
  if field = [] then none else some (field, s.drop field.length)

/-- `%lu` of `fprintf`. -/
def printUnsigned (n : UInt64) : List UInt8 := printNat n.toNat

/-- `%ld` of `fprintf`. -/
def printSigned (z : Int64) : List UInt8 :=
  if z.toInt < 0 then 45 :: printNat z.toInt.natAbs else printNat z.toInt.natAbs

/-- `%-width` of `printf`: what is printed, filled up with blanks. -/
def leftAlign (width : ℕ) (s : List UInt8) : List UInt8 :=
  s ++ List.replicate (width - s.length) 32

/-- A string constant of the source. -/
def literal (s : String) : List UInt8 := s.toList.map fun c ↦ UInt8.ofNat c.toNat

/-- Nothing that would continue a number: the bytes are at an end or go on with something else than
a digit. -/
def NoDigit (rest : List UInt8) : Prop := ∀ c ∈ rest.head?, isDigit c = false

theorem takeWhile_append_of_noDigit (hdigits : ∀ c ∈ digits, isDigit c = true)
    (hrest : NoDigit rest) :
    (digits ++ rest).takeWhile isDigit = digits ∧ (digits ++ rest).dropWhile isDigit = rest := by
  rw [List.takeWhile_append_of_pos hdigits, List.dropWhile_append_of_pos hdigits]
  cases rest with
  | nil => simp
  | cons c =>
    have hc : isDigit c = false := hrest c rfl
    simp [hc]

theorem skipSpace_of_head (hs : s.head? = some c) (hc : isSpace c = false) : skipSpace s = s := by
  obtain ⟨rest, rfl⟩ := List.head?_eq_some_iff.mp hs
  simp [skipSpace, hc]

theorem skipSpace_space (s : List UInt8) : skipSpace (32 :: s) = skipSpace s :=
  List.dropWhile_cons_of_pos (by decide)

/-- The first byte of a printed number. -/
theorem exists_printNat (n : ℕ) : ∃ c rest, printNat n = c :: rest ∧ isDigit c = true := by
  obtain ⟨c, rest, heq⟩ := List.exists_cons_of_ne_nil (printNat_ne_nil n)
  exact ⟨c, rest, heq, isDigit_of_mem_printNat (heq ▸ List.mem_cons_self)⟩

theorem scanSign_printNat (n : ℕ) (rest : List UInt8) :
    scanSign (printNat n ++ rest) = (false, printNat n ++ rest) := by
  obtain ⟨c, more, heq, hc⟩ := exists_printNat n
  have hminus : c ≠ 45 := by
    rintro rfl
    simp [isDigit] at hc
  have hplus : c ≠ 43 := by
    rintro rfl
    simp [isDigit] at hc
  simp [heq, scanSign, hminus, hplus]

theorem scanInteger_printNat (n : ℕ) (hrest : NoDigit rest) :
    scanInteger (printNat n ++ rest) = some ((false, n), rest) := by
  obtain ⟨c, more, heq, hc⟩ := exists_printNat n
  have hhead : (printNat n ++ rest).head? = some c := by rw [heq]; rfl
  obtain ⟨htake, hdrop⟩ :=
    takeWhile_append_of_noDigit (fun _ hc ↦ isDigit_of_mem_printNat (n := n) hc) hrest
  simp only [scanInteger, skipSpace_of_head hhead (isSpace_of_isDigit hc), scanSign_printNat, htake,
    hdrop, if_neg (printNat_ne_nil n), decimalValue_printNat]

theorem scanInteger_minus (n : ℕ) (hrest : NoDigit rest) :
    scanInteger (45 :: printNat n ++ rest) = some ((true, n), rest) := by
  obtain ⟨htake, hdrop⟩ :=
    takeWhile_append_of_noDigit (fun _ hc ↦ isDigit_of_mem_printNat (n := n) hc) hrest
  have hskip : skipSpace (45 :: (printNat n ++ rest)) = 45 :: (printNat n ++ rest) :=
    skipSpace_of_head rfl (by decide)
  simp only [scanInteger, List.cons_append, hskip, scanSign, if_true, htake, hdrop,
    if_neg (printNat_ne_nil n), decimalValue_printNat]

theorem scanUnsigned_printUnsigned (n : UInt64) (hrest : NoDigit rest) :
    scanUnsigned (printUnsigned n ++ rest) = some (n, rest) := by
  have hfits : n.toNat ≤ 0xffffffffffffffff := Nat.le_of_lt_succ n.toNat_lt
  simp [scanUnsigned, printUnsigned, scanInteger_printNat _ hrest, toUnsigned, hfits]

theorem scanSigned_printSigned (z : Int64) (hrest : NoDigit rest) :
    scanSigned (printSigned z ++ rest) = some (z, rest) := by
  have hlow := z.le_toInt
  have hhigh := z.toInt_lt
  unfold printSigned scanSigned
  split_ifs with hneg
  · have hvalue : max (-0x8000000000000000) (- (z.toInt.natAbs : ℤ)) = z.toInt := by omega
    rw [scanInteger_minus _ hrest]
    simp only [Option.map_some, toSigned, if_true, hvalue, Int64.ofInt_toInt]
  · have hvalue : min 0x7fffffffffffffff (z.toInt.natAbs : ℤ) = z.toInt := by omega
    rw [scanInteger_printNat _ hrest]
    simp only [Option.map_some, toSigned, Bool.false_eq_true, if_false, hvalue, Int64.ofInt_toInt]

theorem length_printUnsigned_le (n : UInt64) : (printUnsigned n).length ≤ 20 :=
  length_printNat_le (by decide) (n.toNat_lt.trans (by decide))

theorem length_printSigned_le (z : Int64) : (printSigned z).length ≤ 20 := by
  have hlow := z.le_toInt
  have hhigh := z.toInt_lt
  have hlen : (printNat z.toInt.natAbs).length ≤ 19 :=
    length_printNat_le (by decide) (by omega)
  unfold printSigned
  split_ifs
  · exact Nat.succ_le_succ hlen
  · exact hlen.trans (by decide)

/-- A printed number is digits and a sign. -/
theorem of_mem_printSigned (hc : c ∈ printSigned z) : isDigit c = true ∨ c = 45 := by
  unfold printSigned at hc
  split_ifs at hc
  · rcases List.mem_cons.mp hc with rfl | hc
    · exact .inr rfl
    · exact .inl (isDigit_of_mem_printNat hc)
  · exact .inl (isDigit_of_mem_printNat hc)

theorem exists_printSigned (z : Int64) :
    ∃ c rest, printSigned z = c :: rest ∧ isSpace c = false := by
  obtain ⟨c, rest, heq, hc⟩ := exists_printNat z.toInt.natAbs
  unfold printSigned
  split_ifs
  · exact ⟨45, _, rfl, by decide⟩
  · exact ⟨c, rest, heq, isSpace_of_isDigit hc⟩

theorem scanSet_of_forall {set : UInt8 → Bool} (hne : s ≠ []) (hwidth : s.length ≤ width)
    (hset : ∀ c ∈ s, set c = true) : scanSet width set s = some (s, []) := by
  have hfield : (s.take width).takeWhile set = s := by
    rw [List.take_of_length_le hwidth]
    exact List.takeWhile_eq_self_iff.mpr hset
  simp only [scanSet, hfield, if_neg hne, List.drop_length]

/-! ### Whole strings as numbers -/

/-- `strtol` and `strtoll` in base ten: the value, and the string that `endptr` points to. -/
def strtol (s : List UInt8) : Int64 × List UInt8 :=
  match scanInteger s with
  | none => (0, s)
  | some ((negative, n), rest) => (toSigned negative n, rest)

/-- Whether `errno` is `ERANGE` then. -/
def strtolRange (s : List UInt8) : Bool :=
  match scanInteger s with
  | none => false
  | some ((negative, n), _) => if negative then 0x8000000000000000 < n else 0x7fffffffffffffff < n

/-- The integer that a string spells, of whatever size, if it is nothing but an integer with white
space in front. -/
def integerValue (s : List UInt8) : Option ℤ :=
  match scanInteger s with
  | some ((negative, n), []) => some (if negative then - (n : ℤ) else n)
  | _ => none

/-- A string that `strtol` reads to its end spells an integer; the result is the closest `long` to
it, and the integer itself unless `errno` is `ERANGE`. -/
theorem toInt_strtol (hne : s ≠ []) (hend : (strtol s).2 = []) :
    ∃ n : ℤ, integerValue s = some n ∧
      (strtol s).1.toInt = max (-0x8000000000000000) (min 0x7fffffffffffffff n) ∧
      (strtolRange s = false → (strtol s).1.toInt = n) := by
  unfold strtol strtolRange integerValue at *
  rcases hscan : scanInteger s with _ | ⟨⟨negative, n⟩, rest⟩
  · rw [hscan] at hend
    exact absurd hend hne
  rw [hscan] at hend
  obtain rfl : rest = [] := hend
  refine ⟨_, rfl, ?_⟩
  cases negative with
  | true =>
    have hvalue : (toSigned true n).toInt = max (-0x8000000000000000) (- (n : ℤ)) :=
      Int64.toInt_ofInt_of_le (by omega) (by omega)
    simp only [hvalue, if_true, decide_eq_false_iff_not]
    omega
  | false =>
    have hvalue : (toSigned false n).toInt = min 0x7fffffffffffffff (n : ℤ) :=
      Int64.toInt_ofInt_of_le (by omega) (by omega)
    simp only [hvalue, Bool.false_eq_true, if_false, decide_eq_false_iff_not]
    omega

/-- A string with a `-` in front spells no positive integer. -/
theorem integerValue_of_minus {n : ℤ} (hhead : s.head? = some 45)
    (h : integerValue s = some n) : n ≤ 0 := by
  obtain ⟨rest, rfl⟩ : ∃ rest, s = 45 :: rest := by
    cases s with
    | nil => cases hhead
    | cons _ rest => exact ⟨rest, by rw [Option.some.inj hhead]⟩
  have hsign : scanSign (skipSpace (45 :: rest)) = (true, rest) := rfl
  have hscan : ∀ sign m after, scanInteger (45 :: rest) = some ((sign, m), after) →
      sign = true := by
    intro sign m after hscan
    unfold scanInteger at hscan
    rw [hsign] at hscan
    cases (Option.ite_none_left_eq_some.mp hscan).2
    rfl
  unfold integerValue at h
  split at h <;> cases h
  rename_i negative m heq
  rw [hscan negative m [] heq, if_pos rfl]
  omega

/-- The `long` that is closest to an integer. -/
def closestLong (n : ℤ) : Int64 :=
  Int64.ofInt (max (-0x8000000000000000) (min 0x7fffffffffffffff n))

theorem toInt_closestLong (n : ℕ) : (closestLong n).toInt = min 0x7fffffffffffffff (n : ℤ) := by
  have hvalue : (closestLong n).toInt =
      max (-0x8000000000000000) (min 0x7fffffffffffffff (n : ℤ)) :=
    Int64.toInt_ofInt_of_le (by omega) (by omega)
  omega

/-- A string that spells an integer is read to its end. -/
theorem strtol_of_integerValue {n : ℤ} (h : integerValue s = some n) :
    strtol s = (closestLong n, []) := by
  have hend : (strtol s).2 = [] := by
    unfold integerValue at h
    unfold strtol
    split at h
    · rename_i hscan
      rw [hscan]
    · cases h
  have hne : s ≠ [] := by
    rintro rfl
    cases h
  obtain ⟨m, hm, hvalue, -⟩ := toInt_strtol hne hend
  cases hm.symm.trans h
  refine Prod.ext (Int64.toInt_inj.mp (hvalue.trans ?_)) hend
  exact (Int64.toInt_ofInt_of_le (by omega) (by omega)).symm

/-- A `long` from a number keeps its value as an `int` exactly if the number is below
`2 ^ 31`. -/
theorem toInt_toInt32_eq_iff (hv : v.toInt = min 0x7fffffffffffffff (n : ℤ)) :
    v.toInt32.toInt = n ↔ n < 2 ^ 31 := by
  have hlt := v.toInt32.toInt_lt
  constructor
  · intro heq
    omega
  · intro hsmall
    rw [Int64.toInt_toInt32, hv, min_eq_right (by omega), Int.bmod_eq_of_le (by omega) (by omega)]

/-- As an `unsigned int` it keeps its value exactly if the number is below `2 ^ 32`. -/
theorem toNat_toUInt32_eq_iff (hv : v.toInt = min 0x7fffffffffffffff (n : ℤ)) :
    v.toUInt64.toUInt32.toNat = n ↔ n < 2 ^ 32 := by
  have hnonneg : 0 ≤ v := Int64.le_iff_toInt_le.mpr (by rw [Int64.toInt_zero]; omega)
  have hnat : v.toUInt64.toUInt32.toNat = (min 0x7fffffffffffffff n) % 2 ^ 32 := by
    rw [UInt64.toNat_toUInt32, Int64.toNat_toUInt64_of_le hnonneg, Int64.toNatClampNeg, hv]
    omega
  rw [hnat]
  omega

/-! ### Lines of a file -/

/-- What successive calls of `fgets` with a buffer of `size` bytes leave in the buffer, up to its
terminating NUL, before one fails at the end of the file. The argument `read` holds what the current
call has read. -/
def fgetsFrom (size : ℕ) : List UInt8 → List UInt8 → List (List UInt8)
  | read, [] => if read = [] then [] else [read]
  | read, c :: rest =>
    if c = 10 ∨ size ≤ read.length + 2 then (read ++ [c]) :: fgetsFrom size [] rest
    else fgetsFrom size (read ++ [c]) rest

def fgetsAll (size : ℕ) (file : List UInt8) : List (List UInt8) := fgetsFrom size [] file

/-- A line that fits the buffer is read by one call. -/
theorem fgetsFrom_line (read rest : List UInt8) (hfits : read.length + line.length + 2 ≤ size)
    (hline : 10 ∉ line) :
    fgetsFrom size read (line ++ 10 :: rest) = (read ++ line ++ [10]) :: fgetsAll size rest := by
  induction line generalizing read with
  | nil => simp [fgetsFrom, fgetsAll]
  | cons c _ ih =>
    have hc : c ≠ 10 := fun h ↦ hline (h ▸ List.mem_cons_self)
    simp only [List.length_cons] at hfits
    have hroom : ¬ size ≤ read.length + 2 := by omega
    rw [List.cons_append, fgetsFrom, if_neg (by simp [hc, hroom]),
      ih (read ++ [c]) (by simp; omega) fun h ↦ hline (List.mem_cons_of_mem _ h)]
    simp

/-- A text that is written as a line, up to its first byte `nl`. -/
theorem exists_first_line (nl : UInt8) (text file : List UInt8) :
    ∃ rest, text ++ nl :: file = text.takeWhile (· ≠ nl) ++ nl :: rest ∧
      (nl ∉ text → rest = file) := by
  have hsplit := List.takeWhile_append_dropWhile (p := (· ≠ nl)) (l := text)
  cases hdrop : text.dropWhile (· ≠ nl) with
  | nil =>
    rw [hdrop, List.append_nil] at hsplit
    exact ⟨file, by rw [hsplit], fun _ ↦ rfl⟩
  | cons c more =>
    have hc := List.head?_dropWhile_not (· ≠ nl) text
    rw [hdrop] at hc
    obtain rfl : c = nl := by simpa using hc
    rw [hdrop] at hsplit
    refine ⟨more ++ c :: file, ?_, fun hnot ↦ absurd ?_ hnot⟩
    · conv_lhs => rw [← hsplit]
      simp
    · rw [← hsplit]
      simp

/-! ### Strings in character arrays -/

/-- A string in an array of `capacity + 1` bytes. -/
@[ext]
structure CString (capacity : ℕ) where
  text : List UInt8
  nulFree : 0 ∉ text
  short : text.length ≤ capacity
deriving DecidableEq, Repr

/-- `strncpy(dst, src, capacity)` with a NUL at the end of `dst`. -/
def CString.ofBytes (capacity : ℕ) (bytes : List UInt8) : CString capacity where
  text := (bytes.takeWhile (· ≠ 0)).take capacity
  nulFree h := by simpa using List.mem_takeWhile_imp (List.mem_of_mem_take h)
  short := List.length_take_le _ _

/-- `strcmp`. -/
def strcmp : List UInt8 → List UInt8 → ℤ
  | [], [] => 0
  | [], b :: _ => -(b.toNat : ℤ)
  | a :: _, [] => a.toNat
  | a :: s, b :: t => if a = b then strcmp s t else (a.toNat : ℤ) - b.toNat

theorem strcmp_swap (s t : List UInt8) : strcmp t s = -strcmp s t := by
  induction s generalizing t with
  | nil =>
    cases t with
    | nil => rfl
    | cons b t => exact (neg_neg _).symm
  | cons a _ ih =>
    cases t with
    | nil => rfl
    | cons b t =>
      rw [strcmp, strcmp]
      by_cases hab : a = b
      · rw [if_pos hab, if_pos hab.symm, ih]
      · rw [if_neg hab, if_neg (Ne.symm hab), neg_sub]

theorem toNat_head_pos (h : 0 ∉ a :: s) : 0 < a.toNat :=
  Nat.pos_of_ne_zero fun hzero ↦ List.ne_of_not_mem_cons h (UInt8.toNat_inj.mp hzero.symm)

/-- Only equal strings compare as equal. -/
theorem eq_of_strcmp_eq_zero (hs : 0 ∉ s) (ht : 0 ∉ t) (h : strcmp s t = 0) : s = t := by
  induction s generalizing t with
  | nil =>
    cases t with
    | nil => rfl
    | cons b t =>
      have hb := toNat_head_pos ht
      rw [strcmp] at h
      omega
  | cons _ _ ih =>
    cases t with
    | nil =>
      have ha := toNat_head_pos hs
      rw [strcmp] at h
      omega
    | cons b t =>
      rw [strcmp] at h
      split_ifs at h with hab
      · rw [hab, ih (List.not_mem_of_not_mem_cons hs) (List.not_mem_of_not_mem_cons ht) h]
      · exact absurd (UInt8.toNat_inj.mp (by omega)) hab

theorem strcmp_trans (hs : 0 ∉ s) (ht : 0 ∉ t) (hst : strcmp s t ≤ 0) (htu : strcmp t u ≤ 0) :
    strcmp s u ≤ 0 := by
  induction s generalizing t u with
  | nil =>
    cases u with
    | nil => exact Int.le_refl 0
    | cons c u =>
      rw [strcmp]
      omega
  | cons _ _ ih =>
    cases t with
    | nil =>
      have ha := toNat_head_pos hs
      rw [strcmp] at hst
      omega
    | cons b t =>
      cases u with
      | nil =>
        have hb := toNat_head_pos ht
        rw [strcmp] at htu
        omega
      | cons c u =>
        rw [strcmp] at hst htu ⊢
        simp only [← UInt8.toNat_inj] at hst htu ⊢
        split_ifs at hst htu ⊢
        · exact ih (List.not_mem_of_not_mem_cons hs) (List.not_mem_of_not_mem_cons ht) hst htu
        all_goals omega

theorem CString.text_ofBytes (hnul : 0 ∉ bytes) (hshort : bytes.length ≤ capacity) :
    (CString.ofBytes capacity bytes).text = bytes := by
  have hall : bytes.takeWhile (· ≠ 0) = bytes := by
    refine List.takeWhile_eq_self_iff.mpr fun c hc ↦ ?_
    have hne : c ≠ 0 := fun h ↦ hnul (h ▸ hc)
    simpa using hne
  show (bytes.takeWhile (· ≠ 0)).take capacity = bytes
  rw [hall, List.take_of_length_le hshort]

end Irish.Library
