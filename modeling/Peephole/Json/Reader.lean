import Peephole.Decimal.Literal
import Peephole.Json.Basic

/-!
# Reading JSON text

The reader takes a whole document. It works on the list of characters still to read; every step
takes at least one, so the number of characters bounds the depth of its calls.

A number without fraction and exponent is an integer, except `-0`, which keeps its sign as a
double. Of several members with one key the last counts. What a reader of a part returns is its
value and the characters after it.
-/

namespace Peephole.Json

/-- The characters from the first that is not blank. -/
def skipBlank (cs : List Char) : List Char :=
  cs.dropWhile fun c => c = ' ' || c = '\t' || c = '\n' || c = '\r'

/-! ## Strings -/

/-- The value of a hexadecimal digit. -/
def hexDigit? (c : Char) : Option Nat :=
  if '0' ≤ c ∧ c ≤ '9' then some (c.toNat - '0'.toNat)
  else if 'a' ≤ c ∧ c ≤ 'f' then some (c.toNat - 'a'.toNat + 10)
  else if 'A' ≤ c ∧ c ≤ 'F' then some (c.toNat - 'A'.toNat + 10)
  else none

/-- Four hexadecimal digits. -/
def unit? : List Char → Option (Nat × List Char)
  | a :: b :: c :: d :: rest => do
      let a ← hexDigit? a
      let b ← hexDigit? b
      let c ← hexDigit? c
      let d ← hexDigit? d
      return (((a * 16 + b) * 16 + c) * 16 + d, rest)
  | _ => none

/-- The character after `\u`: one unit, or two that form a pair. -/
def codePoint? (cs : List Char) : Option (Char × List Char) := do
  let (high, rest) ← unit? cs
  if 0xD800 ≤ high ∧ high < 0xDC00 then
    match rest with
    | '\\' :: 'u' :: more =>
        let (low, rest) ← unit? more
        if 0xDC00 ≤ low ∧ low < 0xE000 then
          return (Char.ofNat (0x10000 + (high - 0xD800) * 0x400 + (low - 0xDC00)), rest)
        else none
    | _ => none
  else if 0xDC00 ≤ high ∧ high < 0xE000 then none
  else return (Char.ofNat high, rest)

/-- The character after a backslash. -/
def escape? : List Char → Option (Char × List Char)
  | '"' :: rest => some ('"', rest)
  | '\\' :: rest => some ('\\', rest)
  | '/' :: rest => some ('/', rest)
  | 'b' :: rest => some (Char.ofNat 8, rest)
  | 'f' :: rest => some (Char.ofNat 12, rest)
  | 'n' :: rest => some ('\n', rest)
  | 'r' :: rest => some ('\r', rest)
  | 't' :: rest => some ('\t', rest)
  | 'u' :: rest => codePoint? rest
  | _ => none

/-- The rest of a string whose opening mark was read; `done` holds its characters, last first. -/
def stringRest : Nat → List Char → List Char → Option (String × List Char)
  | 0, _, _ => none
  | _ + 1, _, [] => none
  | _ + 1, done, '"' :: rest => some (String.ofList done.reverse, rest)
  | fuel + 1, done, '\\' :: rest => do
      let (c, rest) ← escape? rest
      stringRest fuel (c :: done) rest
  | fuel + 1, done, c :: rest =>
      if c.toNat < 32 then none else stringRest fuel (c :: done) rest

/-! ## Numbers -/

/-- Whether a character can be part of a number. -/
def isNumberChar (c : Char) : Bool :=
  c.isDigit || c = '-' || c = '+' || c = '.' || c = 'e' || c = 'E'

/-- A number without its sign. -/
def magnitude? (negative : Bool) (cs : List Char) : Option Json :=
  match Text.digits? cs with
  | some n =>
      some (if negative then (if n = 0 then .real (-0.0) else .integer (-n)) else .integer n)
  | none =>
      (Decimal.Literal.read? cs).map fun l =>
        .real (if negative then -l.toFloat else l.toFloat)

/-- A number. -/
def number? (cs : List Char) : Option (Json × List Char) := do
  let text := cs.takeWhile isNumberChar
  let value ←
    match text with
    | '-' :: rest => magnitude? true rest
    | rest => magnitude? false rest
  return (value, cs.dropWhile isNumberChar)

/-! ## Documents -/

/-- The rest of the text after a word that must come first. -/
def after? (word : List Char) (cs : List Char) : Option (List Char) :=
  if word.isPrefixOf cs then some (cs.drop word.length) else none

mutual

/-- A value, with blanks allowed in front of it. -/
def value : Nat → List Char → Option (Json × List Char)
  | 0, _ => none
  | fuel + 1, cs =>
      match skipBlank cs with
      | 'n' :: rest => (after? "ull".toList rest).map fun r => (.null, r)
      | 't' :: rest => (after? "rue".toList rest).map fun r => (.bool true, r)
      | 'f' :: rest => (after? "alse".toList rest).map fun r => (.bool false, r)
      | '"' :: rest => do
          let (s, rest) ← stringRest fuel [] rest
          return (.string s, rest)
      | '[' :: rest =>
          match skipBlank rest with
          | ']' :: rest => some (.array [], rest)
          | rest => do
              let (items, rest) ← itemsRest fuel rest
              return (.array items, rest)
      | '\x7b' :: rest =>
          match skipBlank rest with
          | '\x7d' :: rest => some (.object [], rest)
          | rest => do
              let (members, rest) ← membersRest fuel rest
              return (.object members, rest)
      | rest => number? rest

/-- One or more items, up to the end of the array. -/
def itemsRest : Nat → List Char → Option (List Json × List Char)
  | 0, _ => none
  | fuel + 1, cs => do
      let (item, rest) ← value fuel cs
      match skipBlank rest with
      | ',' :: rest =>
          let (items, rest) ← itemsRest fuel rest
          return (item :: items, rest)
      | ']' :: rest => return ([item], rest)
      | _ => none

/-- One or more members, up to the end of the object. -/
def membersRest : Nat → List Char → Option (List (String × Json) × List Char)
  | 0, _ => none
  | fuel + 1, cs =>
      match skipBlank cs with
      | '"' :: rest => do
          let (key, rest) ← stringRest fuel [] rest
          match skipBlank rest with
          | ':' :: rest =>
              let (member, rest) ← value fuel rest
              match skipBlank rest with
              | ',' :: rest =>
                  let (members, rest) ← membersRest fuel rest
                  let known := members.any (·.1 == key)
                  return (if known then members else (key, member) :: members, rest)
              | '\x7d' :: rest => return ([(key, member)], rest)
              | _ => none
          | _ => none
      | _ => none

end

/-- The value of a whole document. -/
def read? (text : String) : Option Json :=
  let cs := text.toList
  match value (cs.length + 1) cs with
  | some (j, rest) => if (skipBlank rest).isEmpty then some j else none
  | none => none

end Peephole.Json
