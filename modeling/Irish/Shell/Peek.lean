import Mathlib.Data.List.DropRight
import Mathlib.Data.PNat.Defs
import Irish.Shell.Lexer

/-!
# Peek

`src/peek.c`: the builtin that prints files forwards or backwards, with numbers on the lines that
are not empty. There are three readers. The one for forwards (`peekForwardStream`) and the one for a
backward stream (`peekReverseStream`) read with `getline`; the one for a backward file
(`peekReverseSeekable`) counts the lines first and then reads chunks from the end.

Files do not change while they are read, every `read` is full, and memory allocation succeeds. A
line is what is printed of it; line numbers are unbounded here.
-/

set_option autoImplicit false

namespace Irish.Shell

/-- `CHUNK_SIZE`. -/
def chunkSize : ℕ+ := 4096

/-- A line that is printed, without its newline. The text is `none` where `printf` goes beyond the
line. -/
structure PrintedLine where
  number : Option ℤ
  text : Option (List Byte)
deriving DecidableEq, Repr

/-- `putchar('\\n')`. -/
def PrintedLine.blank : PrintedLine := ⟨none, some []⟩

/-- `INT_MAX`. -/
def intMax : ℕ := 0x7fffffff

/-- `printf("%.*s", (int)len, line)`: up to the first NUL. A length that does not fit an `int` is
not a precision. -/
def shown (line : List Byte) : Option (List Byte) :=
  if line.length ≤ intMax then some (line.takeWhile (· ≠ Byte.nul)) else none

/-- A line as all readers print it, once they have stripped it. -/
def printLine (flagN : Bool) (number : ℤ) (line : List Byte) : PrintedLine :=
  if line = [] then .blank else ⟨if flagN then some number else none, shown line⟩

/-! ### Reading forwards -/

/-- What successive calls of `getline` return: the lines with their newlines. -/
def getLines : List Byte → List (List Byte)
  | [] => []
  | c :: rest =>
    if c = Byte.newline then [c] :: getLines rest
    else
      match getLines rest with
      | [] => [[c]]
      | line :: others => (c :: line) :: others

/-- The loop that takes every newline and carriage return off the end of a line. -/
def stripEol (line : List Byte) : List Byte :=
  line.rdropWhile fun c ↦ c = Byte.newline ∨ c = Byte.carriageReturn

/-- The loop of `peek_forward_stream`. -/
def forwardLoop (flagN : Bool) : List (List Byte) → ℤ → List PrintedLine × ℤ
  | [], lineCounter => ([], lineCounter)
  | line :: rest, lineCounter =>
    let stripped := stripEol line
    let next := forwardLoop flagN rest
      (if stripped ≠ [] ∧ flagN then lineCounter + 1 else lineCounter)
    (printLine flagN lineCounter stripped :: next.1, next.2)

def peekForwardStream (flagN : Bool) (bytes : List Byte) (lineCounter : ℤ) : List PrintedLine × ℤ :=
  forwardLoop flagN (getLines bytes) lineCounter

/-! ### Reading a stream backwards -/

/-- `StreamLine`. -/
structure StreamLine where
  text : List Byte
  isNonEmpty : Bool
  lineNum : ℤ

/-- The first loop of `peek_reverse_stream`. -/
def storeLoop : List (List Byte) → ℤ → List StreamLine × ℤ
  | [], lineCounter => ([], lineCounter)
  | line :: rest, lineCounter =>
    let stripped := stripEol line
    let next := storeLoop rest (if stripped ≠ [] then lineCounter + 1 else lineCounter)
    (⟨stripped, stripped ≠ [], if stripped ≠ [] then lineCounter else 0⟩ :: next.1, next.2)

/-- The body of its second loop; `%s` has no precision. -/
def StreamLine.print (flagN : Bool) (line : StreamLine) : PrintedLine :=
  if line.isNonEmpty then
    ⟨if flagN then some line.lineNum else none, some (line.text.takeWhile (· ≠ Byte.nul))⟩
  else .blank

def peekReverseStream (flagN : Bool) (bytes : List Byte) (lineCounter : ℤ) : List PrintedLine × ℤ :=
  let stored := storeLoop (getLines bytes) lineCounter
  (stored.1.reverse.map (StreamLine.print flagN), stored.2)

/-! ### Reading a file backwards -/

/-- The loop of `count_non_empty_lines_seekable`; the chunks it reads do not show. -/
def countLoop : List Byte → ℕ → Bool → ℕ
  | [], count, lineHasContent => if lineHasContent then count + 1 else count
  | c :: rest, count, lineHasContent =>
    if c = Byte.newline then
      if lineHasContent then countLoop rest (count + 1) false
      else countLoop rest count lineHasContent
    else if c ≠ Byte.carriageReturn then countLoop rest count true
    else countLoop rest count lineHasContent

def countNonEmptyLines (file : List Byte) : ℕ := countLoop file 0 false

/-- At most one carriage return is taken off the end of a line. -/
def stripOne (line : List Byte) : List Byte :=
  if line.getLast? = some Byte.carriageReturn then line.dropLast else line

/-- A line of the backward reader is printed, and the current number goes down. -/
def reversePrint (flagN : Bool) (line : List Byte) (current : ℤ) : PrintedLine × ℤ :=
  (printLine flagN current (stripOne line),
    if stripOne line ≠ [] ∧ flagN then current - 1 else current)

/-- The loop over `combined`, from its end: `i` is the number of bytes left to look at, `endIdx` the
end of the line that has not been printed. -/
def reverseScan (flagN : Bool) (combined : List Byte) : ℕ → ℕ → ℤ → List PrintedLine × ℕ × ℤ
  | 0, endIdx, current => ([], endIdx, current)
  | i + 1, endIdx, current =>
    if combined[i]? = some Byte.newline then
      let printed := reversePrint flagN ((combined.take endIdx).drop (i + 1)) current
      let next := reverseScan flagN combined i i printed.2
      (printed.1 :: next.1, next.2)
    else reverseScan flagN combined i endIdx current

/-- The loop over the chunks, from the end of the file. -/
def reverseLoop (chunk : ℕ+) (flagN : Bool) (file : List Byte) (pos : ℕ) (tail : List Byte)
    (current : ℤ) : List PrintedLine × List Byte × ℤ :=
  if pos = 0 then ([], tail, current)
  else
    let readLen : ℕ := if pos ≥ chunk then chunk else pos
    let start := pos - readLen
    let combined := (file.drop start).take readLen ++ tail
    let endIdx :=
      if start + readLen = file.length ∧ combined.getLast? = some Byte.newline then
        combined.length - 1
      else combined.length
    let scanned := reverseScan flagN combined endIdx endIdx current
    let next := reverseLoop chunk flagN file start (combined.take scanned.2.1) scanned.2.2
    (scanned.1 ++ next.1, next.2)
termination_by pos
decreasing_by
  have hchunk := chunk.pos
  split <;> omega

def peekReverseSeekable (chunk : ℕ+) (flagN : Bool) (file : List Byte) (lineCounter : ℤ) :
    List PrintedLine × ℤ :=
  if file = [] then ([], lineCounter)
  else
    let total : ℤ := if flagN then countNonEmptyLines file else 0
    let current := if flagN then lineCounter + total - 1 else 0
    let read := reverseLoop chunk flagN file file.length [] current
    let first := if read.2.1 ≠ [] then (reversePrint flagN read.2.1 read.2.2).1 else .blank
    (read.1 ++ [first], if flagN then lineCounter + total else lineCounter)

/-! ### The loop over the arguments -/

/-- What an argument of `peek` names. -/
inductive Target
  | stdin (bytes : List Byte)
  | missing
  | directory
  | regular (bytes : List Byte)
deriving DecidableEq, Repr

inductive PeekError
  /-- `peek: no such file or directory` -/
  | noSuchFile
  /-- `peek: is a directory` -/
  | isDirectory
deriving DecidableEq, Repr

/-- The body of the last loop of `peek_builtin`; a file that cannot be opened is a missing one. -/
def peekTarget (flagN flagR : Bool) (lineCounter : ℤ) :
    Target → Except PeekError (List PrintedLine) × ℤ
  | .stdin bytes =>
    let printed := if flagR then peekReverseStream flagN bytes lineCounter
      else peekForwardStream flagN bytes lineCounter
    (.ok printed.1, printed.2)
  | .missing => (.error .noSuchFile, lineCounter)
  | .directory => (.error .isDirectory, lineCounter)
  | .regular bytes =>
    let printed := if flagR then peekReverseSeekable chunkSize flagN bytes lineCounter
      else peekForwardStream flagN bytes lineCounter
    (.ok printed.1, printed.2)

/-- The last loop of `peek_builtin`: what is printed for each argument. -/
def peekLoop (flagN flagR : Bool) : List Target → ℤ → List (Except PeekError (List PrintedLine))
  | [], _ => []
  | target :: rest, lineCounter =>
    let printed := peekTarget flagN flagR lineCounter target
    printed.1 :: peekLoop flagN flagR rest printed.2

/-- `peek_builtin` once its arguments are read: what it prints, and its exit status. The counter
starts at 1. -/
def peekFiles (flagN flagR : Bool) (targets : List Target) :
    List (Except PeekError (List PrintedLine)) × ℕ :=
  let printed := peekLoop flagN flagR targets 1
  (printed, if printed.any (·.toOption.isNone) then 1 else 0)

end Irish.Shell
