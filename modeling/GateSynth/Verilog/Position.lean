import GateSynth.Total

/-!
# Positions in a source text

A position is a line and a column, both counted from one, the column in characters.

A `LineIndex` has the byte offsets at which the lines of a text start. The position of an offset is
found by halving the window of lines that it may be on, and by counting the characters of its line in
front of it. An offset inside a character or behind the text has no character count, so its column
counts the bytes of the line.
-/

namespace GateSynth.Verilog

/-- A line and a column. -/
structure Position where
  /-- The line, counted from one. -/
  line : Nat
  /-- The column in characters, counted from one. -/
  column : Nat
deriving DecidableEq

namespace Position

/-- The position of an empty text, which has no characters to point at. -/
def nowhere : Position := ⟨0, 0⟩

instance : Inhabited Position := ⟨nowhere⟩

/-- The written form. -/
def text (p : Position) : String := toString p.line ++ ":" ++ toString p.column

instance : ToString Position := ⟨text⟩

/-- The number of bytes of characters. -/
def byteCount (cs : List Char) : Nat := total (cs.map Char.utf8Size)

/-- The characters in front of a byte offset, if it lies between two characters or at the end. -/
def before? : (offset : Nat) → List Char → Option (List Char)
  | 0, _ => some []
  | _ + 1, [] => none
  | offset + 1, c :: rest =>
    if c.utf8Size ≤ offset + 1 then (before? (offset + 1 - c.utf8Size) rest).map (c :: ·) else none

/-- The characters from a byte offset on, if it lies between two characters or at the end. -/
def from? : (offset : Nat) → List Char → Option (List Char)
  | 0, cs => some cs
  | _ + 1, [] => none
  | offset + 1, c :: rest =>
    if c.utf8Size ≤ offset + 1 then from? (offset + 1 - c.utf8Size) rest else none

/-- The characters between two byte offsets, if there are such. -/
def slice? (start stop : Nat) (cs : List Char) : Option (List Char) :=
  if start ≤ stop then (from? start cs).bind (before? (stop - start)) else none

end Position

/-! ## Lines -/

/-- How many entries of an array, in a window of it, a test holds of, if it holds up to some place and
not from there on. The window is halved until nothing is left of it. -/
def partitionPoint (test : Nat → Bool) (entries : Array Nat) (low high : Nat)
    (h : high ≤ entries.size) : Nat :=
  if hwindow : low < high then
    let middle := low + (high - low) / 2
    have hmiddle : middle < entries.size := by omega
    if test entries[middle] then partitionPoint test entries (middle + 1) high h
    else partitionPoint test entries low middle (by omega)
  else low
termination_by high - low

theorem partitionPoint_le {test : Nat → Bool} {entries : Array Nat} {low high : Nat}
    (h : high ≤ entries.size) (hwindow : low ≤ high) :
    partitionPoint test entries low high h ≤ high := by
  fun_induction partitionPoint test entries low high h with
  | case1 low high h hlt middle hmiddle htest ih => exact ih (by omega)
  | case2 low high h hlt middle hmiddle htest ih => exact Nat.le_trans (ih (by omega)) (by omega)
  | case3 low high h hlt => exact hwindow

/-- A text with the byte offsets at which its lines start. -/
structure LineIndex where
  /-- The characters of the text. -/
  source : List Char
  /-- The byte offset of the first character of each line. -/
  starts : Array Nat
  /-- There is a first line. -/
  size_pos : 0 < starts.size

namespace LineIndex

/-- The byte offsets behind the newlines of characters that start at an offset. -/
def behindNewlines (offset : Nat) : List Char → List Nat
  | [] => []
  | c :: rest =>
    let next := offset + c.utf8Size
    if c = '\n' then next :: behindNewlines next rest else behindNewlines next rest

/-- The index of a text. -/
def ofChars (cs : List Char) : LineIndex :=
  ⟨cs, (0 :: behindNewlines 0 cs).toArray, by simp⟩

/-- The number of lines that start at a byte offset or before it. -/
def line (index : LineIndex) (offset : Nat) : Nat :=
  partitionPoint (· ≤ offset) index.starts 0 index.starts.size (Nat.le_refl _)

theorem line_le (index : LineIndex) (offset : Nat) : index.line offset ≤ index.starts.size :=
  partitionPoint_le _ (Nat.zero_le _)

/-- The position of a byte offset. -/
def pos (index : LineIndex) (offset : Nat) : Position :=
  let line := index.line offset
  have hline : line - 1 < index.starts.size := by
    have hle := index.line_le offset
    have hpos := index.size_pos
    omega
  let start := index.starts[line - 1]
  match Position.slice? start offset index.source with
  | some cs => ⟨line, cs.length + 1⟩
  | none => ⟨line, offset - start + 1⟩

end LineIndex

/-- The position of a byte offset in a text. -/
def Position.ofOffset (source : String) (offset : Nat) : Position :=
  (LineIndex.ofChars source.toList).pos offset

end GateSynth.Verilog
