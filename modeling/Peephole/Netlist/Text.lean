import Peephole.Gate.Text
import Peephole.Netlist.Basic
import Peephole.Text.Lines

/-!
# Netlist text

A netlist is written one statement a line. `INIT n` declares the number of wires; it comes once,
before every gate. Empty lines and lines that start with `#` or `//` say nothing.

* `Netlist.read` reads a text; the first bad line decides the error.
* `Netlist.render` writes one.
-/

namespace Peephole

namespace Netlist

/-- The most wires that indices can tell apart. -/
def maxWidth : Nat := UInt32.size

/-- What is wrong with a line, given the lines before it. -/
inductive LineError where
  /-- A gate comes before the number of wires. -/
  | undeclared
  /-- The number of wires is declared again. -/
  | declaredTwice
  /-- The declaration does not have one operand. -/
  | declarationArity
  /-- The operand is not a count. -/
  | badCount (token : String)
  /-- There are more wires than indices. -/
  | tooManyWires (count : Nat)
  /-- The line is no instruction. -/
  | gate (cause : Gate.ReadError)

/-- What is wrong with a text. -/
inductive ReadError where
  /-- No line says anything. -/
  | undeclared
  /-- A line is wrong; lines count from one. -/
  | atLine (line : Nat) (cause : LineError)

/-- The text of what is wrong with a line. -/
def LineError.message : LineError → String
  | .undeclared => "Netlist has no INIT declaration"
  | .declaredTwice => "Invalid qubit count declaration: INIT declared twice"
  | .declarationArity => "Invalid qubit count declaration: INIT takes exactly one operand"
  | .badCount token => s!"Invalid qubit count declaration: '{token}' is not a wire count"
  | .tooManyWires count =>
      s!"Invalid qubit count declaration: {count} wires exceed the limit of {maxWidth}"
  | .gate cause => cause.message

/-- The text of what is wrong with a netlist. -/
def ReadError.message : ReadError → String
  | .undeclared => LineError.undeclared.message
  | .atLine line cause => s!"line {line}: {cause.message}"

/-! ## Reading -/

/-- Whether a trimmed line says nothing: it is empty, or it is a comment. -/
def isSilent : List Char → Bool
  | [] => true
  | '#' :: _ => true
  | '/' :: '/' :: _ => true
  | _ => false

/-- The number of wires from the operands of a declaration. -/
def readWidth : List String → Except LineError Nat
  | [count] =>
      match Text.natural? UInt64.size count with
      | none => .error (.badCount count)
      | some n => if maxWidth < n then .error (.tooManyWires n) else .ok n
  | _ => .error .declarationArity

/-- What a line adds to a netlist that was read so far; `none` before the declaration. -/
def readLine (sofar : Option Netlist) (line : String) : Except LineError (Option Netlist) :=
  if isSilent (Text.trimmed line.toList) then .ok sofar
  else
    match Text.words line, sofar with
    | "INIT" :: _, some _ => .error .declaredTwice
    | "INIT" :: operands, none => (readWidth operands).map fun width => some ⟨width, []⟩
    | _, none => .error .undeclared
    | words, some n =>
        match Gate.ofWords words with
        | .ok g => .ok (some { n with gates := n.gates ++ [g] })
        | .error cause => .error (.gate cause)

/-- Reads the lines from number `line` on. -/
def readLines (line : Nat) (sofar : Option Netlist) : List String → Except ReadError Netlist
  | [] =>
      match sofar with
      | some n => .ok n
      | none => .error .undeclared
  | l :: rest =>
      match readLine sofar l with
      | .ok next => readLines (line + 1) next rest
      | .error cause => .error (.atLine line cause)

/-- The netlist that a text stands for. -/
def read (source : String) : Except ReadError Netlist :=
  readLines 1 none (Text.lines source)

/-! ## Writing -/

/-- The text of a netlist: the declaration and a line for each gate. -/
def render (n : Netlist) : String :=
  Text.unlines (Text.unwords ["INIT", toString n.width] :: n.gates.map Gate.render)

end Netlist

end Peephole
