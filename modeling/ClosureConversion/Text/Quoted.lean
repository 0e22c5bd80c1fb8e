import ClosureConversion.Text.Visible

/-!
Strings in quotes, for a reader: the quote, the backslash, line breaks, tabs and the null character
have escapes of their own, and any other character that is not shown is written by its code point.
-/

namespace ClosureConversion.Text

/-- A code point in braces, in hexadecimal. -/
def codePoint (c : Char) : String :=
  "\\u\x7b" ++ String.ofList (Nat.toDigits 16 c.toNat) ++ "\x7d"

def escapeChar (c : Char) : String :=
  match c with
  | '"' => "\\\""
  | '\\' => "\\\\"
  | '\n' => "\\n"
  | '\r' => "\\r"
  | '\t' => "\\t"
  | '\x00' => "\\0"
  | c => if isVisible c then c.toString else codePoint c

def quoted (s : String) : String := "\"" ++ String.join (s.toList.map escapeChar) ++ "\""

end ClosureConversion.Text
