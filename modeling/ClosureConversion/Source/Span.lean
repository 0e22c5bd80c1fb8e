/-!
Spans: byte ranges of a source file.

A span names its file by number.  The dummy span stands for "no place in any file"; only its file
number marks it.
-/

namespace ClosureConversion

/-- Bytes `start` to `stop`, the end excluded, of a file. -/
structure Span where
  file : Nat
  start : Nat
  stop : Nat
deriving DecidableEq, Inhabited

namespace Span

/-- The file number that no file has. -/
def noFile : Nat := 4294967295

def dummy : Span := ⟨noFile, 0, 0⟩

def isDummy (s : Span) : Bool := s.file == noFile

/-- Number of bytes; an inverted span has none. -/
def length (s : Span) : Nat := s.stop - s.start

def isEmpty (s : Span) : Bool := s.stop ≤ s.start

end Span

end ClosureConversion
