/-!
# Source locations

A source text is a sequence of characters. Offsets count characters from zero; lines and columns
count from one, the way an editor shows them.
-/

namespace LineScript

/-- A place in a source text, as a line and a column. The place `0:0` stands before any text. -/
structure Position where
  line : Nat
  column : Nat
deriving DecidableEq, Inhabited

namespace Position

/-- The place before any text. -/
def origin : Position := ⟨0, 0⟩

/-- A place is written with its line first: `3:14`. -/
def text (p : Position) : String :=
  toString p.line ++ ":" ++ toString p.column

end Position

/-- The characters of a source text from offset `start` up to, not including, offset `stop`. -/
structure Span where
  start : Nat
  stop : Nat
deriving DecidableEq, Inhabited

namespace Span

/-- The largest offset that is told apart. -/
def lastOffset : Nat := 4294967295

/-- The span from one offset to another, as far as they are told apart. -/
def between (start stop : Nat) : Span := ⟨min start lastOffset, min stop lastOffset⟩

theorem between_eq {start stop : Nat} (hstart : start ≤ stop) (hstop : stop ≤ lastOffset) :
    between start stop = ⟨start, stop⟩ := by
  rw [between, Nat.min_eq_left (Nat.le_trans hstart hstop), Nat.min_eq_left hstop]

/-- Offsets are clamped the same way before and after they are moved on. -/
theorem between_add (start stop n : Nat) :
    between ((between start stop).start + n) ((between start stop).stop + n) =
      between (start + n) (stop + n) := by
  have hclamp (k : Nat) : min (min k lastOffset + n) lastOffset = min (k + n) lastOffset := by
    omega
  simp only [between, hclamp]

/-- A span is written as its two offsets: `4..9`. -/
def text (s : Span) : String :=
  toString s.start ++ ".." ++ toString s.stop

end Span

/-- Where a construct begins and where it ends, one past its last character. -/
structure Extent where
  start : Position
  stop : Position
deriving DecidableEq, Inhabited

end LineScript
