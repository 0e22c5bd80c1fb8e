import ClosureConversion.Number.Word
import ClosureConversion.Source.Span

/-!
Source texts and places in them.

Offsets and columns count the bytes of the UTF-8 text; lines and columns start at 1.  The table of
line starts is searched by halving, for the last line that does not start after the offset.

Offsets, lines and columns are 32-bit words.  A text may have as many bytes as there are words less
one; then its end can be on a line, or in a column, that is no word and wraps to 0
(`ClosureConversion.Proofs.LinePositions`).
-/

namespace ClosureConversion

/-! ## Bytes of a text -/

/-- The text after its first `n` bytes, unless they end inside a character or beyond the text. -/
def dropBytes : Nat → List Char → Option (List Char)
  | 0, cs => some cs
  | _ + 1, [] => none
  | n + 1, c :: cs => if c.utf8Size ≤ n + 1 then dropBytes (n + 1 - c.utf8Size) cs else none

/-- The first `n` bytes of a text, unless they end inside a character or beyond the text. -/
def takeBytes : Nat → List Char → Option (List Char)
  | 0, _ => some []
  | _ + 1, [] => none
  | n + 1, c :: cs =>
    if c.utf8Size ≤ n + 1 then (c :: ·) <$> takeBytes (n + 1 - c.utf8Size) cs else none

/-- Offsets at which a line starts after a line break; `offset` is where the text starts. -/
def lineStartsFrom (offset : Nat) : List Char → List Nat
  | [] => []
  | c :: cs =>
    let next := offset + c.utf8Size
    if c = '\n' then next :: lineStartsFrom next cs else lineStartsFrom next cs

/-- The last index from `lo` on and below `hi` whose entry is at most `offset`, in an ascending
table whose entry at `lo` is. -/
def lastAtMost (table : Array Nat) (offset lo hi : Nat) : Nat :=
  if lo + 1 < hi then
    let mid := (lo + hi) / 2
    if table.getD mid 0 ≤ offset then lastAtMost table offset mid hi
    else lastAtMost table offset lo mid
  else lo
termination_by hi - lo
decreasing_by all_goals omega

/-! ## Texts and places -/

structure SourceText where
  /-- A path, or a made-up name for a text without one. -/
  name : String
  text : String
deriving DecidableEq, Inhabited

/-- A place in a text, for a reader. -/
structure Place where
  file : String
  line : Nat
  column : Nat
deriving DecidableEq

def Place.render (p : Place) : String := p.file ++ s!":{p.line}:{p.column}"

namespace SourceText

def lineStarts (f : SourceText) : Array Nat :=
  ((0 :: lineStartsFrom 0 f.text.toList).map Word.wrap).toArray

/-- An offset beyond the text is its end. -/
def clamp (f : SourceText) (offset : Nat) : Nat := min offset (Word.wrap f.text.utf8ByteSize)

/-- Index of the line of an offset. -/
def lineIndex (f : SourceText) (offset : Nat) : Nat :=
  lastAtMost f.lineStarts offset 0 f.lineStarts.size

/-- Line and column of a byte offset. -/
def lineColumn (f : SourceText) (offset : Nat) : Nat × Nat :=
  let offset := f.clamp offset
  let line := f.lineIndex offset
  (Word.wrap (line + 1), Word.wrap (Word.sub offset (f.lineStarts.getD line 0) + 1))

/-- The text of a byte range, if it is one. -/
def slice? (f : SourceText) (start stop : Nat) : Option String := do
  guard (start ≤ stop)
  let rest ← dropBytes start f.text.toList
  return String.ofList (← takeBytes (stop - start) rest)

end SourceText

/-- The texts of a compilation; the number of a file is its index. -/
structure SourceMap where
  files : Array SourceText := #[]
deriving Inhabited

namespace SourceMap

def add (m : SourceMap) (f : SourceText) : Nat × SourceMap := (m.files.size, ⟨m.files.push f⟩)

def file? (m : SourceMap) (id : Nat) : Option SourceText := m.files[id]?

def spanFile? (m : SourceMap) (s : Span) : Option SourceText :=
  if s.isDummy then none else m.file? s.file

/-- Where a span starts. -/
def place? (m : SourceMap) (s : Span) : Option Place := do
  let f ← m.spanFile? s
  let (line, column) := f.lineColumn s.start
  return ⟨f.name, line, column⟩

/-- The text of a span. -/
def text? (m : SourceMap) (s : Span) : Option String := do
  (← m.spanFile? s).slice? s.start s.stop

end SourceMap

end ClosureConversion
