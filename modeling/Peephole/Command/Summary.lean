import Peephole.Command.Options
import Peephole.Json.Printer
import Peephole.Netlist.Basic

/-!
# Summaries

The output of the commands: what an optimization did, what a netlist is made of, and what the
program is.
-/

namespace Peephole.Command

/-- A text filled up with blanks on the right. -/
def padRight (n : Nat) (s : String) : String :=
  s ++ String.ofList (List.replicate (n - s.length) ' ')

/-- A text filled up with blanks on the left. -/
def padLeft (n : Nat) (s : String) : String :=
  String.ofList (List.replicate (n - s.length) ' ') ++ s

/-! ## Optimizations -/

/-- What an optimization did. -/
structure Summary where
  input : String
  width : Nat
  opsBefore : Nat
  opsAfter : Nat
  depthBefore : Nat
  depthAfter : Nat
  passes : List Report

namespace Summary

/-- The line of one pass. -/
def reportLine (r : Report) : String :=
  s!"  [round {r.round}] " ++ padRight 26 r.pass ++ s!" removed {r.removed}"

/-- The summary for a reader. `output` is the file the netlist went to. -/
def text (s : Summary) (output : Option String) : String :=
  let head :=
    [s!"✓ Optimized {s.input} ({s.width} qubits)",
      s!"  Ops:   {s.opsBefore} -> {s.opsAfter}",
      s!"  Depth: {s.depthBefore} -> {s.depthAfter}"]
  let tail := output.toList.map fun path => s!"  Output: {path}"
  "\n".intercalate (head ++ s.passes.map reportLine ++ tail)

/-- What one pass did, as a value. -/
def reportJson (r : Report) : Json :=
  .object [("pass", .string r.pass), ("round", .ofNat r.round), ("ops_before", .ofNat r.opsBefore),
    ("ops_after", .ofNat r.opsAfter)]

/-- The summary for a program. -/
def json (s : Summary) : Json :=
  .object [("input", .string s.input), ("num_qubits", .ofNat s.width),
    ("ops_before", .ofNat s.opsBefore), ("ops_after", .ofNat s.opsAfter),
    ("depth_before", .ofNat s.depthBefore), ("depth_after", .ofNat s.depthAfter),
    ("passes", .array (s.passes.map reportJson))]

/-- The summary in a format. -/
def render (s : Summary) (output : Option String) : Format → String
  | .text => s.text output
  | .json => s.json.pretty

end Summary

/-! ## Netlists -/

/-- What a netlist is made of. -/
structure Stats where
  width : Nat
  ops : Nat
  depth : Nat
  census : List (String × Nat)

namespace Stats

/-- The statistics for a reader. -/
def text (s : Stats) (input : String) : String :=
  let head :=
    [s!"Netlist: {input}", s!"  Qubits: {s.width}", s!"  Ops:    {s.ops}",
      s!"  Depth:  {s.depth}"]
  let gates := s.census.map fun p => "    " ++ padRight 8 p.1 ++ " " ++ padLeft 6 (toString p.2)
  "\n".intercalate (head ++ (if gates.isEmpty then [] else "  Gates:" :: gates))

/-- The statistics for a program. -/
def json (s : Stats) : Json :=
  .object [("num_qubits", .ofNat s.width), ("num_ops", .ofNat s.ops), ("depth", .ofNat s.depth),
    ("gate_counts", .object (s.census.map fun p => (p.1, .ofNat p.2)))]

/-- The statistics in a format. -/
def render (s : Stats) (input : String) : Format → String
  | .text => s.text input
  | .json => s.json.pretty

end Stats

/-! ## The program -/

/-- The description of the program. -/
def about : String :=
  "\n".intercalate
    ["qopt v0.1.0 - peephole optimizer for quantum netlists",
      "",
      "Components:",
      "  qopt-ir       Netlist format and wire-adjacency DAG",
      "  qopt-compile  Hadamard reduction and rotation/CNOT cancellation",
      "  qopt-cli      Command-line interface",
      "",
      "License:    Apache-2.0"]

end Peephole.Command
