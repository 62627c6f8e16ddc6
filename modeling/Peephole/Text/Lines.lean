/-!
# Lines

A line ends with a line feed, which may follow one carriage return; neither belongs to the line.
A text that does not end with a line feed has a last line without one, and a carriage return
there is part of it. The empty text has no line.
-/

namespace Peephole.Text

/-- The lines of a text given as characters. -/
def linesOf : List Char → List (List Char)
  | [] => []
  | '\n' :: rest => [] :: linesOf rest
  | '\r' :: '\n' :: rest => [] :: linesOf rest
  | c :: rest =>
      match linesOf rest with
      | [] => [[c]]
      | l :: ls => (c :: l) :: ls

/-- The lines of a text, without their ends. -/
def lines (s : String) : List String :=
  (linesOf s.toList).map String.ofList

/-- Lines as one text, a line feed after each. -/
def unlines (ls : List String) : String :=
  String.ofList (ls.flatMap fun l => l.toList ++ ['\n'])

end Peephole.Text
