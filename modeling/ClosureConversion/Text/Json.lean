/-!
JSON on one line, without blanks.

Strings keep every character but the quote, the backslash and those below U+0020.
-/

namespace ClosureConversion

inductive Json where
  | null
  | nat (n : Nat)
  | string (s : String)
  | array (items : List Json)
  /-- Fields are written in the order given. -/
  | object (fields : List (String × Json))
deriving Inhabited

namespace Json

/-- A code point in four hexadecimal digits. -/
def hex4 (n : Nat) : String :=
  String.ofList ((Nat.toDigits 16 (n + 0x10000)).drop 1)

def escapeChar (c : Char) : String :=
  match c with
  | '"' => "\\\""
  | '\\' => "\\\\"
  | '\n' => "\\n"
  | '\r' => "\\r"
  | '\t' => "\\t"
  | '\x08' => "\\b"
  | '\x0c' => "\\f"
  | c => if c.toNat < 0x20 then "\\u" ++ hex4 c.toNat else c.toString

def quote (s : String) : String := "\"" ++ String.join (s.toList.map escapeChar) ++ "\""

/-- An optional value, or `null`. -/
def ofOption {α : Type} (f : α → Json) (o : Option α) : Json := o.elim .null f

mutual

def render : Json → String
  | .null => "null"
  | .nat n => toString n
  | .string s => quote s
  | .array items => "[" ++ ",".intercalate (renderItems items) ++ "]"
  | .object fields => "\x7b" ++ ",".intercalate (renderFields fields) ++ "\x7d"

def renderItems : List Json → List String
  | [] => []
  | v :: vs => render v :: renderItems vs

def renderFields : List (String × Json) → List String
  | [] => []
  | (name, v) :: fields => (quote name ++ ":" ++ render v) :: renderFields fields

end

end Json

end ClosureConversion
