import Peephole.Angle
import Peephole.Json.Basic

/-!
# JSON text

* `Json.compact` writes a value on one line.
* `Json.pretty` writes each item and member on a line of its own, two spaces deeper than its
  container; an empty container stays on one line.

A double is written in positional notation with a decimal point, and `null` stands for one that is
not finite. In strings the quotation mark, the backslash and the control characters are escaped.
-/

namespace Peephole.Json

/-! ## Atoms -/

/-- A control character as four hexadecimal digits. -/
def codeEscape (c : Char) : List Char :=
  let digits := Nat.toDigits 16 c.toNat
  '\\' :: 'u' :: (List.replicate (4 - digits.length) '0' ++ digits)

/-- A character inside a string. -/
def escaped (c : Char) : List Char :=
  if c = '"' then ['\\', '"']
  else if c = '\\' then ['\\', '\\']
  else if c = '\n' then ['\\', 'n']
  else if c = '\r' then ['\\', 'r']
  else if c = '\t' then ['\\', 't']
  else if c.toNat = 8 then ['\\', 'b']
  else if c.toNat = 12 then ['\\', 'f']
  else if c.toNat < 32 then codeEscape c
  else [c]

/-- A text as a string literal. -/
def quoted (s : String) : String :=
  String.ofList ('"' :: s.toList.flatMap escaped ++ ['"'])

/-- A double with a decimal point. -/
def realText (x : Float) : String :=
  if x.isFinite then
    let text := Angle.render x
    if text.toList.contains '.' then text else text ++ ".0"
  else "null"

/-! ## Containers -/

mutual

/-- A value on one line, without blanks. -/
def compact : Json → String
  | .null => "null"
  | .bool true => "true"
  | .bool false => "false"
  | .integer n => toString n
  | .real x => realText x
  | .string s => quoted s
  | .array items => "[" ++ ",".intercalate (compactItems items) ++ "]"
  | .object members => "\x7b" ++ ",".intercalate (compactMembers members) ++ "\x7d"

/-- The items of an array, each on one line. -/
def compactItems : List Json → List String
  | [] => []
  | item :: rest => item.compact :: compactItems rest

/-- The members of an object, each on one line. -/
def compactMembers : List (String × Json) → List String
  | [] => []
  | (key, value) :: rest => (quoted key ++ ":" ++ value.compact) :: compactMembers rest

end

/-- A line break and the blanks of a nesting depth. -/
def newline (depth : Nat) : String :=
  String.ofList ('\n' :: List.replicate (2 * depth) ' ')

/-- A container whose parts stand on lines of their own. -/
def block (opening closing : String) (depth : Nat) (parts : List String) : String :=
  if parts.isEmpty then opening ++ closing
  else
    opening ++ newline (depth + 1) ++ ("," ++ newline (depth + 1)).intercalate parts
      ++ newline depth ++ closing

mutual

/-- A value whose first line is already indented to `depth`. -/
def prettyAt (depth : Nat) : Json → String
  | .array items => block "[" "]" depth (prettyItems (depth + 1) items)
  | .object members => block "\x7b" "\x7d" depth (prettyMembers (depth + 1) members)
  | .null => "null"
  | .bool true => "true"
  | .bool false => "false"
  | .integer n => toString n
  | .real x => realText x
  | .string s => quoted s

/-- The items of an array, indented to `depth`. -/
def prettyItems (depth : Nat) : List Json → List String
  | [] => []
  | item :: rest => item.prettyAt depth :: prettyItems depth rest

/-- The members of an object, indented to `depth`. -/
def prettyMembers (depth : Nat) : List (String × Json) → List String
  | [] => []
  | (key, value) :: rest =>
      (quoted key ++ ": " ++ value.prettyAt depth) :: prettyMembers depth rest

end

/-- A value over several lines. -/
def pretty (j : Json) : String := j.prettyAt 0

end Peephole.Json
