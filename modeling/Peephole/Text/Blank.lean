/-!
# Blank characters, words and trimming

A netlist line is a run of words between blanks. Blank means the white space property of
Unicode: twenty-five code points, of which six are ASCII. Zero-width marks, the byte order mark
and the information separators U+001C to U+001F are not blank.

* `isBlank` is the character class.
* `words` cuts a text at its blanks and drops the empty pieces; `unwords` puts words together again.
* `trimmed` drops the blanks at both ends.
-/

namespace Peephole.Text

/-- White space, as the Unicode property of that name lists it. -/
def isBlank (c : Char) : Bool :=
  let n := c.toNat
  (9 ≤ n && n ≤ 13) || n == 0x20 || n == 0x85 || n == 0xA0 || n == 0x1680
    || (0x2000 ≤ n && n ≤ 0x200A) || n == 0x2028 || n == 0x2029 || n == 0x202F
    || n == 0x205F || n == 0x3000

/-! ## Words -/

/-- The maximal runs of characters that are not blank, in order. -/
def wordsOf : List Char → List (List Char)
  | [] => []
  | c :: rest =>
      if isBlank c then wordsOf rest
      else
        match rest, wordsOf rest with
        | d :: _, w :: ws => if isBlank d then [c] :: w :: ws else (c :: w) :: ws
        | _, ws => [c] :: ws

/-- The words of a text, in order. -/
def words (s : String) : List String :=
  (wordsOf s.toList).map String.ofList

/-- Words on one line, with a space between them. -/
def unwords (ws : List String) : String :=
  String.ofList (List.intercalate [' '] (ws.map String.toList))

/-! ## Trimming -/

/-- The characters between the first and the last that are not blank. -/
def trimmed (cs : List Char) : List Char :=
  ((cs.dropWhile isBlank).reverse.dropWhile isBlank).reverse

end Peephole.Text
