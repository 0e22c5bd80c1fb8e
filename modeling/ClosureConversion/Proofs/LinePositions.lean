import ClosureConversion.Source.Text
import Mathlib.Data.Prod.Lex

/-!
Lines and columns of byte offsets.

The table of line starts is made from the characters of a text, but offsets count its bytes.  Among the
bytes of a text, those of line breaks are those with value 10, since all bytes of a longer character are
from 128 on (`lineBreak_not_mem_encode`); so the table is that of the bytes, `lineStarts_eq`.  It is
ascending, and as many of its entries are at most an offset as there are line breaks before it, and one.

The search by halving finds the last such entry in any table whose first entry is one
(`lastAtMost_spec`); in an ascending table its index is the number of the others.

All of this is for texts that words can address, which have fewer than `Word.size` bytes.  Line and
column are one more than numbers up to the length, so in the longest of these texts they need not be
words.  `lineColumn_exact`: they come out right, and are monotone, unless the text has this length and
no line breaks, or nothing else (`Overlong`).
-/

namespace ClosureConversion

/-! ## Line breaks among bytes -/

/-- The byte of a line break. -/
def lineBreak : UInt8 := 10

/-- Offsets at which a line starts after a line break; `offset` is where the bytes start. -/
def byteStartsFrom (offset : Nat) : List UInt8 → List Nat
  | [] => []
  | b :: bs =>
    if b = lineBreak then (offset + 1) :: byteStartsFrom (offset + 1) bs
    else byteStartsFrom (offset + 1) bs

theorem lineBreak_not_mem_encode {c : Char} (hc : c ≠ '\n') : lineBreak ∉ String.utf8EncodeChar c := by
  have hval : c.val.toNat ≠ 10 := by
    intro h
    refine hc (Char.ext (UInt32.toNat_inj.mp ?_))
    rw [h]
    rfl
  have hbyte : ∀ n, n % 256 ≠ 10 → lineBreak ≠ UInt8.ofNat n := by
    intro n hn h
    have := congrArg UInt8.toNat h
    simp [lineBreak] at this
    omega
  unfold String.utf8EncodeChar
  simp only
  split
  · rw [List.mem_singleton]
    exact hbyte _ (by omega)
  · split
    · simp only [List.mem_cons, List.not_mem_nil, or_false, not_or]
      exact ⟨hbyte _ (by omega), hbyte _ (by omega)⟩
    · split
      · simp only [List.mem_cons, List.not_mem_nil, or_false, not_or]
        exact ⟨hbyte _ (by omega), hbyte _ (by omega), hbyte _ (by omega)⟩
      · simp only [List.mem_cons, List.not_mem_nil, or_false, not_or]
        exact ⟨hbyte _ (by omega), hbyte _ (by omega), hbyte _ (by omega), hbyte _ (by omega)⟩

theorem byteStartsFrom_append {l : List UInt8} (hl : lineBreak ∉ l) (offset : Nat) (rest : List UInt8) :
    byteStartsFrom offset (l ++ rest) = byteStartsFrom (offset + l.length) rest := by
  induction l generalizing offset with
  | nil => rfl
  | cons b l ih =>
    obtain ⟨hb, hl⟩ := not_or.mp (mt List.mem_cons.mpr hl)
    rw [List.cons_append, byteStartsFrom, if_neg (Ne.symm hb), ih hl, List.length_cons]
    congr 1
    omega

/-- Lines start at the same offsets among the characters and among the bytes. -/
theorem lineStartsFrom_eq (offset : Nat) (cs : List Char) :
    lineStartsFrom offset cs = byteStartsFrom offset (cs.flatMap String.utf8EncodeChar) := by
  induction cs generalizing offset with
  | nil => rfl
  | cons c cs ih =>
    rw [List.flatMap_cons, lineStartsFrom]
    by_cases hc : c = '\n'
    · subst hc
      simp only [if_true, ih]
      rfl
    · rw [if_neg hc, ih, byteStartsFrom_append (lineBreak_not_mem_encode hc),
        String.length_utf8EncodeChar]

/-! ## The table of line starts -/

theorem mem_byteStartsFrom {offset start : Nat} {bs : List UInt8} :
    start ∈ byteStartsFrom offset bs ↔ ∃ k, bs[k]? = some lineBreak ∧ start = offset + k + 1 := by
  induction bs generalizing offset with
  | nil => simp [byteStartsFrom]
  | cons b bs ih =>
    rw [byteStartsFrom]
    constructor
    · intro h
      split at h
      · rename_i hb
        rcases List.mem_cons.mp h with rfl | h
        · exact ⟨0, by rw [hb]; rfl, rfl⟩
        · obtain ⟨k, hk, rfl⟩ := ih.mp h
          exact ⟨k + 1, hk, by omega⟩
      · obtain ⟨k, hk, rfl⟩ := ih.mp h
        exact ⟨k + 1, hk, by omega⟩
    · rintro ⟨k, hk, rfl⟩
      cases k with
      | zero =>
        rw [if_pos (Option.some.inj hk)]
        exact List.mem_cons_self
      | succ k =>
        have hrest : offset + (k + 1) + 1 ∈ byteStartsFrom (offset + 1) bs :=
          ih.mpr ⟨k, hk, by omega⟩
        split
        · exact List.mem_cons_of_mem _ hrest
        · exact hrest

theorem byteStartsFrom_ascending (offset : Nat) (bs : List UInt8) :
    (byteStartsFrom offset bs).Pairwise (· < ·) := by
  induction bs generalizing offset with
  | nil => exact .nil
  | cons b bs ih =>
    rw [byteStartsFrom]
    split
    · refine List.pairwise_cons.mpr ⟨fun start hstart => ?_, ih (offset + 1)⟩
      obtain ⟨k, -, rfl⟩ := mem_byteStartsFrom.mp hstart
      omega
    · exact ih (offset + 1)

/-- Each line break among the first `n` bytes has a line start up to there. -/
theorem countP_byteStartsFrom (offset n : Nat) (bs : List UInt8) :
    (byteStartsFrom offset bs).countP (· ≤ offset + n) = (bs.take n).count lineBreak := by
  induction bs generalizing offset n with
  | nil => simp [byteStartsFrom]
  | cons b bs ih =>
    cases n with
    | zero =>
      rw [List.take_zero, List.count_nil, List.countP_eq_zero]
      intro start hstart
      obtain ⟨k, -, rfl⟩ := mem_byteStartsFrom.mp hstart
      simp only [decide_eq_true_eq]
      omega
    | succ n =>
      have hn : offset + (n + 1) = offset + 1 + n := by omega
      rw [byteStartsFrom, List.take_succ_cons, hn]
      split
      · rename_i hb
        rw [List.countP_cons_of_pos (by simp), ih, hb, List.count_cons_self]
      · rename_i hb
        rw [ih, List.count_cons_of_ne hb]

/-! ## The search -/

/-- The search keeps an entry that is at most the offset below, and one that is not, or the end of the
table, above. -/
theorem lastAtMost_spec {table : Array Nat} {offset lo hi : Nat} (hlt : lo < hi)
    (hlo : table.getD lo 0 ≤ offset) (hhi : hi = table.size ∨ offset < table.getD hi 0) :
    lastAtMost table offset lo hi < hi ∧ table.getD (lastAtMost table offset lo hi) 0 ≤ offset ∧
      (lastAtMost table offset lo hi + 1 = table.size ∨
        offset < table.getD (lastAtMost table offset lo hi + 1) 0) := by
  fun_induction lastAtMost table offset lo hi with
  | case1 lo hi hgap mid hmid ih => exact ih (by omega) hmid hhi
  | case2 lo hi hgap mid hmid ih =>
    obtain ⟨hi', hle, hnext⟩ := ih (by omega) hlo (.inr (by omega))
    exact ⟨by omega, hle, hnext⟩
  | case3 lo hi hgap =>
    obtain rfl : hi = lo + 1 := by omega
    exact ⟨hlt, hlo, hhi⟩

theorem exists_last {table : Array Nat} (hfirst : table[0]? = some 0) (offset : Nat) :
    ∃ entry, table[lastAtMost table offset 0 table.size]? = some entry ∧ entry ≤ offset ∧
      ∀ next ∈ table[lastAtMost table offset 0 table.size + 1]?, offset < next := by
  have hpos : 0 < table.size := (Array.getElem?_eq_some_iff.mp hfirst).1
  have hlo : table.getD 0 0 ≤ offset := by simp [hfirst]
  obtain ⟨hlt, hle, hnext⟩ := lastAtMost_spec hpos hlo (.inl rfl)
  generalize lastAtMost table offset 0 table.size = i at hlt hle hnext ⊢
  refine ⟨table[i], Array.getElem?_eq_getElem hlt, by simpa [hlt] using hle, fun next hmem => ?_⟩
  rcases hnext with hend | hnext
  · rw [hend, Array.getElem?_size] at hmem
    cases hmem
  · simpa [Option.mem_def.mp hmem] using hnext

/-- In an ascending table, the last entry that is at most the offset has as many before it as there are
others. -/
theorem countP_of_last {table : List Nat} {offset i entry : Nat} (hasc : table.Pairwise (· < ·))
    (hi : table[i]? = some entry) (hle : entry ≤ offset)
    (hnext : ∀ next ∈ table[i + 1]?, offset < next) : table.countP (· ≤ offset) = i + 1 := by
  induction table generalizing i with
  | nil => simp at hi
  | cons first table ih =>
    obtain ⟨hfirst, hrest⟩ := List.pairwise_cons.mp hasc
    cases i with
    | zero =>
      obtain rfl : first = entry := Option.some.inj hi
      have hnone : table.countP (· ≤ offset) = 0 := by
        rw [List.countP_eq_zero]
        cases table with
        | nil => simp
        | cons second table =>
          have hsecond : offset < second := hnext second rfl
          intro e he
          rcases List.mem_cons.mp he with rfl | he
          · simpa using hsecond
          · have := (List.pairwise_cons.mp hrest).1 e he
            simp only [decide_eq_true_eq]
            omega
      rw [List.countP_cons_of_pos (by simpa using hle), hnone]
    | succ i =>
      have : first < entry := hfirst entry (List.mem_of_getElem? hi)
      rw [List.countP_cons_of_pos (by simp only [decide_eq_true_eq]; omega), ih hrest hi hnext]

/-! ## Lines and columns -/

/-- The line with byte `offset` of a text begins at `start`: after a line break or at the beginning, and
with no line break between. -/
structure LineStart (bytes : List UInt8) (offset start : Nat) : Prop where
  le : start ≤ offset
  begins : start = 0 ∨ bytes[start - 1]? = some lineBreak
  unbroken : lineBreak ∉ (bytes.take offset).drop start

namespace SourceText

variable (f : SourceText)

def bytes : List UInt8 := f.text.toByteArray.data.toList

theorem bytes_eq : f.bytes = f.text.toList.flatMap String.utf8EncodeChar := by
  rw [bytes, ← String.utf8Encode_toList]
  simp [List.utf8Encode]

theorem length_bytes : f.bytes.length = f.text.utf8ByteSize := by
  rw [bytes]
  rfl

/-- In a text that words can address every line start is a word. -/
theorem lineStarts_eq (h : f.bytes.length < Word.size) :
    f.lineStarts.toList = 0 :: byteStartsFrom 0 f.bytes := by
  have hword : ∀ start ∈ 0 :: byteStartsFrom 0 f.bytes, Word.wrap start = id start := by
    intro start hmem
    refine Word.wrap_of_lt ?_
    rcases List.mem_cons.mp hmem with rfl | hmem
    · omega
    · obtain ⟨k, hk, rfl⟩ := mem_byteStartsFrom.mp hmem
      have := (List.getElem?_eq_some_iff.mp hk).1
      omega
  rw [lineStarts, lineStartsFrom_eq, ← bytes_eq, List.map_congr_left hword, List.map_id]

theorem lineStarts_ascending (h : f.bytes.length < Word.size) :
    f.lineStarts.toList.Pairwise (· < ·) := by
  rw [lineStarts_eq f h]
  refine List.pairwise_cons.mpr ⟨fun start hstart => ?_, byteStartsFrom_ascending 0 f.bytes⟩
  obtain ⟨k, -, rfl⟩ := mem_byteStartsFrom.mp hstart
  omega

/-- Number of line breaks among the first `offset` bytes. -/
def breaksBefore (offset : Nat) : Nat := (f.bytes.take offset).count lineBreak

theorem breaksBefore_le (offset : Nat) : f.breaksBefore offset ≤ offset :=
  List.count_le_length.trans (List.length_take_le offset f.bytes)

theorem countP_lineStarts (h : f.bytes.length < Word.size) (offset : Nat) :
    f.lineStarts.toList.countP (· ≤ offset) = f.breaksBefore offset + 1 := by
  have hcount := countP_byteStartsFrom 0 offset f.bytes
  rw [Nat.zero_add] at hcount
  rw [lineStarts_eq f h, List.countP_cons_of_pos (by simp), hcount, breaksBefore]

/-- The search finds the entry with as many before it as there are line breaks before the offset, and
this is where the line of the offset starts. -/
theorem lineStart_found (h : f.bytes.length < Word.size) (offset : Nat) :
    ∃ start, f.lineStarts[f.lineIndex offset]? = some start ∧
      f.lineIndex offset = f.breaksBefore offset ∧ LineStart f.bytes offset start := by
  have hfirst : f.lineStarts[0]? = some 0 := rfl
  obtain ⟨start, hstart, hle, hnext⟩ := exists_last hfirst offset
  rw [← lineIndex] at hstart hnext
  generalize f.lineIndex offset = i at hstart hnext ⊢
  rw [← Array.getElem?_toList] at hstart hnext
  have hcount : i = f.breaksBefore offset := by
    have hc := countP_of_last (f.lineStarts_ascending h) hstart hle hnext
    rw [countP_lineStarts f h] at hc
    omega
  -- the entries up to `start` are those up to `offset`, so no line break stands between
  have hsame : i = f.breaksBefore start := by
    have hc := countP_of_last (f.lineStarts_ascending h) hstart (Nat.le_refl start)
      fun next hmem => Nat.lt_of_le_of_lt hle (hnext next hmem)
    rw [countP_lineStarts f h] at hc
    omega
  refine ⟨start, by rw [← Array.getElem?_toList, hstart], hcount, hle, ?_, ?_⟩
  · have hmem := List.mem_of_getElem? hstart
    rw [lineStarts_eq f h, List.mem_cons] at hmem
    refine hmem.imp_right fun hmem => ?_
    obtain ⟨k, hk, rfl⟩ := mem_byteStartsFrom.mp hmem
    simpa using hk
  · have hsplit : f.bytes.take offset = f.bytes.take start ++ (f.bytes.take offset).drop start := by
      conv_lhs => rw [← List.take_append_drop start (f.bytes.take offset), List.take_take,
        Nat.min_eq_left hle]
    have hc := congrArg (List.count lineBreak) hsplit
    rw [List.count_append, ← breaksBefore, ← breaksBefore] at hc
    rw [← List.count_eq_zero]
    omega

theorem clamp_eq (h : f.bytes.length < Word.size) (offset : Nat) :
    f.clamp offset = min offset f.bytes.length := by
  rw [clamp, ← length_bytes, Word.wrap_of_lt h]

/-- Line and column wrap, and nothing else does. -/
theorem exists_lineColumn (h : f.bytes.length < Word.size) (offset : Nat) :
    ∃ start, f.lineStarts[f.lineIndex (f.clamp offset)]? = some start ∧
      f.lineIndex (f.clamp offset) = f.breaksBefore (min offset f.bytes.length) ∧
      LineStart f.bytes (min offset f.bytes.length) start ∧
      f.lineColumn offset = (Word.wrap (f.breaksBefore (min offset f.bytes.length) + 1),
        Word.wrap (min offset f.bytes.length - start + 1)) := by
  obtain ⟨start, hstart, hindex, hline⟩ := f.lineStart_found h (f.clamp offset)
  have hread : f.lineStarts.getD (f.lineIndex (f.clamp offset)) 0 = start := by simp [hstart]
  rw [clamp_eq f h] at hindex hline
  have hword : min offset f.bytes.length < Word.size := by omega
  refine ⟨start, hstart, by rw [clamp_eq f h, hindex], hline, ?_⟩
  rw [lineColumn, hread, clamp_eq f h, hindex, Word.sub_of_le hline.le hword]

/-! ## The longest texts -/

/-- The line and the column of the byte at `offset`, both counted from 1. -/
structure At (offset : Nat) (place : Nat × Nat) : Prop where
  line : place.1 = f.breaksBefore offset + 1
  column : ∃ start, LineStart f.bytes offset start ∧ place.2 = offset - start + 1

/-- One byte more, and words could not address the text.  All of it is one line, or all lines are
empty. -/
def Overlong : Prop :=
  f.bytes.length + 1 = Word.size ∧ (lineBreak ∉ f.bytes ∨ ∀ b ∈ f.bytes, b = lineBreak)

variable {f}

/-- In other texts line and column are words. -/
theorem words_of_not_overlong (h : f.bytes.length < Word.size) (hf : ¬ f.Overlong)
    {offset start : Nat} (hle : offset ≤ f.bytes.length) (hs : LineStart f.bytes offset start) :
    f.breaksBefore offset + 1 < Word.size ∧ offset - start + 1 < Word.size := by
  have hbreaks := f.breaksBefore_le offset
  have hstart := hs.le
  refine ⟨Nat.lt_of_not_le fun hover => hf ⟨by omega, .inr fun b hb => ?_⟩,
    Nat.lt_of_not_le fun hover => hf ⟨by omega, .inl ?_⟩⟩
  · obtain rfl : offset = f.bytes.length := by omega
    rw [breaksBefore, List.take_length] at hover hbreaks
    have hall : f.bytes.count lineBreak = f.bytes.length := by omega
    exact (List.count_eq_length.mp hall b hb).symm
  · obtain rfl : offset = f.bytes.length := by omega
    obtain rfl : start = 0 := by omega
    simpa using hs.unbroken

/-- The end of one long line has column 0. -/
theorem lineColumn_end_of_unbroken (hlen : f.bytes.length + 1 = Word.size)
    (hb : lineBreak ∉ f.bytes) : f.lineColumn f.bytes.length = (1, 0) := by
  obtain ⟨start, -, -, hline, he⟩ := f.exists_lineColumn (by omega) f.bytes.length
  have hstart : start = 0 :=
    hline.begins.resolve_right fun hbreak => hb (List.mem_of_getElem? hbreak)
  rw [he, hstart, Nat.min_self, Nat.sub_zero, hlen, Word.wrap_size, breaksBefore, List.take_length,
    List.count_eq_zero.mpr hb]
  rfl

/-- The end of the last of too many empty lines is on line 0. -/
theorem lineColumn_end_of_breaks (hlen : f.bytes.length + 1 = Word.size)
    (hb : ∀ b ∈ f.bytes, b = lineBreak) : f.lineColumn f.bytes.length = (0, 1) := by
  obtain ⟨start, -, -, hline, he⟩ := f.exists_lineColumn (by omega) f.bytes.length
  rw [Nat.min_self] at hline he
  have hstart : start = f.bytes.length := by
    refine Nat.le_antisymm hline.le (Nat.le_of_not_lt fun hlt => hline.unbroken ?_)
    rw [List.take_length, List.drop_eq_getElem_cons hlt, hb _ (List.getElem_mem hlt)]
    exact List.mem_cons_self
  have hcount : f.bytes.count lineBreak = f.bytes.length :=
    List.count_eq_length.mpr fun b hmem => (hb b hmem).symm
  rw [he, hstart, Nat.sub_self, breaksBefore, List.take_length, hcount, hlen, Word.wrap_size]
  rfl

theorem lineColumn_zero (h : f.bytes.length < Word.size) : f.lineColumn 0 = (1, 1) := by
  obtain ⟨start, -, -, -, he⟩ := f.exists_lineColumn h 0
  rw [he, Nat.zero_min, Nat.zero_sub, breaksBefore, List.take_zero]
  rfl

theorem at_lineColumn (h : f.bytes.length < Word.size) (hf : ¬ f.Overlong) (offset : Nat) :
    f.At (min offset f.bytes.length) (f.lineColumn offset) := by
  obtain ⟨start, -, -, hline, he⟩ := f.exists_lineColumn h offset
  obtain ⟨hbreaks, hcolumn⟩ := words_of_not_overlong h hf (Nat.min_le_right _ _) hline
  rw [he, Word.wrap_of_lt hbreaks, Word.wrap_of_lt hcolumn]
  exact ⟨rfl, start, hline, rfl⟩

theorem lineColumn_mono (h : f.bytes.length < Word.size) (hf : ¬ f.Overlong) {offset later : Nat}
    (hle : offset ≤ later) : toLex (f.lineColumn offset) ≤ toLex (f.lineColumn later) := by
  obtain ⟨start, hstart, hindex, hline, he⟩ := f.exists_lineColumn h offset
  obtain ⟨start', hstart', hindex', hline', he'⟩ := f.exists_lineColumn h later
  obtain ⟨hw, hc⟩ := words_of_not_overlong h hf (Nat.min_le_right _ _) hline
  obtain ⟨hw', hc'⟩ := words_of_not_overlong h hf (Nat.min_le_right _ _) hline'
  have hmin : min offset f.bytes.length ≤ min later f.bytes.length := by omega
  have hbreaks : f.breaksBefore (min offset f.bytes.length) ≤
      f.breaksBefore (min later f.bytes.length) :=
    (List.take_sublist_take_left hmin).count_le lineBreak
  rw [he, he', Word.wrap_of_lt hw, Word.wrap_of_lt hc, Word.wrap_of_lt hw', Word.wrap_of_lt hc',
    Prod.Lex.toLex_le_toLex]
  rcases Nat.lt_or_eq_of_le hbreaks with hlt | heq
  · exact .inl (Nat.succ_lt_succ hlt)
  · -- on one line both columns count from the same start
    rw [hindex, heq, ← hindex', hstart'] at hstart
    obtain rfl := Option.some.inj hstart
    exact .inr ⟨by rw [heq], by omega⟩

/-- At the end of an overlong text the place is wrong, and before that of its beginning. -/
theorem Overlong.end_wrong (h : f.Overlong) :
    ¬ f.At f.bytes.length (f.lineColumn f.bytes.length) ∧
      ¬ toLex (f.lineColumn 0) ≤ toLex (f.lineColumn f.bytes.length) := by
  have hlen := h.1
  rw [lineColumn_zero (by omega), Prod.Lex.toLex_le_toLex]
  rcases h.2 with hb | hb
  · rw [lineColumn_end_of_unbroken hlen hb]
    refine ⟨fun ⟨_, start, _, hcolumn⟩ => ?_, by decide⟩
    exact absurd hcolumn (Nat.succ_ne_zero _).symm
  · rw [lineColumn_end_of_breaks hlen hb]
    refine ⟨fun ⟨hline, _⟩ => ?_, by decide⟩
    exact absurd hline (Nat.succ_ne_zero _).symm

/-- Line and column of an offset, for every text that words can address.  The entry of the table that is
read for it exists and is not beyond the offset, and line and column are, as words, one more than the
line breaks before the offset, or before the end if the offset is beyond it, and one more than the bytes
since the start of the line.  Both are these numbers themselves, for all offsets, iff the text is not
overlong; and iff it is not, a larger offset has no earlier place. -/
theorem lineColumn_exact (h : f.bytes.length < Word.size) :
    (∀ offset, ∃ start, f.lineStarts[f.lineIndex (f.clamp offset)]? = some start ∧
      f.lineIndex (f.clamp offset) = f.breaksBefore (min offset f.bytes.length) ∧
      LineStart f.bytes (min offset f.bytes.length) start ∧
      f.lineColumn offset = (Word.wrap (f.breaksBefore (min offset f.bytes.length) + 1),
        Word.wrap (min offset f.bytes.length - start + 1))) ∧
    ((∀ offset, f.At (min offset f.bytes.length) (f.lineColumn offset)) ↔ ¬ f.Overlong) ∧
    ((∀ offset later, offset ≤ later →
      toLex (f.lineColumn offset) ≤ toLex (f.lineColumn later)) ↔ ¬ f.Overlong) := by
  refine ⟨f.exists_lineColumn h, ⟨fun hat hover => ?_, at_lineColumn h⟩,
    fun hmono hover => ?_, fun hf offset later => lineColumn_mono h hf⟩
  · have hend := hat f.bytes.length
    rw [Nat.min_self] at hend
    exact hover.end_wrong.1 hend
  · exact hover.end_wrong.2 (hmono 0 f.bytes.length (Nat.zero_le _))

/-- An offset within a character of two bytes, and one beyond the text. -/
theorem lineColumn_exact_accent :
    let f : SourceText := ⟨"<expr>", "a\né\n\nb"⟩
    f.bytes.length < Word.size ∧ ¬ f.Overlong ∧ f.lineColumn 3 = (2, 2) ∧ f.lineColumn 100 = (4, 2) ∧
      toLex (f.lineColumn 3) ≤ toLex (f.lineColumn 100) := by
  intro f
  have hbytes : f.bytes = [97, 10, 195, 169, 10, 10, 98] := by decide +kernel
  have hstarts : f.lineStarts = #[0, 2, 5, 6] := by decide +kernel
  have hlen : f.bytes.length < Word.size := by rw [hbytes]; decide
  have hf : ¬ f.Overlong := fun hover => absurd hover.1 (by rw [hbytes]; decide)
  obtain ⟨hplace, -, hmono⟩ := lineColumn_exact hlen
  obtain ⟨start, hstart, hindex, -, he⟩ := hplace 3
  obtain ⟨start', hstart', hindex', -, he'⟩ := hplace 100
  rw [hindex, breaksBefore, hbytes, hstarts] at hstart
  rw [hindex', breaksBefore, hbytes, hstarts] at hstart'
  rw [breaksBefore, hbytes] at he he'
  cases hstart
  cases hstart'
  exact ⟨hlen, hf, he, he', hmono.mpr hf 3 100 (by decide)⟩

/-- A text of the same character over and over. -/
def repeated (c : Char) (n : Nat) : SourceText := ⟨"<expr>", String.ofList (List.replicate n c)⟩

theorem bytes_repeated {c : Char} {b : UInt8} (hc : String.utf8EncodeChar c = [b]) (n : Nat) :
    (repeated c n).bytes = List.replicate n b := by
  rw [bytes_eq, repeated, String.toList_ofList]
  induction n with
  | zero => rfl
  | succ n ih => rw [List.replicate_succ, List.flatMap_cons, hc, ih, List.replicate_succ]; rfl

/-- The places of the first byte and of the end, in an overlong text of a one-byte character. -/
theorem repeated_end (c : Char) {b : UInt8} (hc : String.utf8EncodeChar c = [b]) :
    (repeated c (Word.size - 1)).bytes.length < Word.size ∧
      (repeated c (Word.size - 1)).lineColumn 0 = (1, 1) ∧
      (repeated c (Word.size - 1)).lineColumn (Word.size - 1) =
        if b = lineBreak then (0, 1) else (1, 0) := by
  have hbytes := bytes_repeated hc (Word.size - 1)
  generalize repeated c (Word.size - 1) = f at hbytes ⊢
  have hlen : f.bytes.length = Word.size - 1 := by rw [hbytes, List.length_replicate]
  have hone : f.bytes.length + 1 = Word.size := by rw [hlen]; rfl
  have hmem : ∀ x ∈ f.bytes, x = b := fun x hx => List.eq_of_mem_replicate (hbytes ▸ hx)
  refine ⟨by omega, lineColumn_zero (by omega), ?_⟩
  rw [← hlen]
  split
  case isTrue hb => exact lineColumn_end_of_breaks hone fun x hx => (hmem x hx).trans hb
  case isFalse hb => exact lineColumn_end_of_unbroken hone fun hx => hb (hmem _ hx).symm

/-- One line of letters, and nothing but line breaks. -/
theorem lineColumn_wraps :
    ((repeated 'a' (Word.size - 1)).bytes.length < Word.size ∧
      (repeated 'a' (Word.size - 1)).lineColumn 0 = (1, 1) ∧
      (repeated 'a' (Word.size - 1)).lineColumn (Word.size - 1) = (1, 0)) ∧
    (repeated '\n' (Word.size - 1)).bytes.length < Word.size ∧
      (repeated '\n' (Word.size - 1)).lineColumn 0 = (1, 1) ∧
      (repeated '\n' (Word.size - 1)).lineColumn (Word.size - 1) = (0, 1) :=
  ⟨repeated_end 'a' rfl, repeated_end '\n' rfl⟩

end SourceText

end ClosureConversion
