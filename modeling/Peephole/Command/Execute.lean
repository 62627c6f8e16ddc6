import Peephole.Command.Files
import Peephole.Command.Summary
import Peephole.Netlist.Text

/-!
# Running commands

`execute` carries out a command line against any access to files. What it prints and how it ends
is returned as data.

The optimized netlist goes to a file, and the summary is printed; without a file the netlist is
printed, and the summary goes to the error output, so that what is printed is a netlist.
-/

namespace Peephole

/-- Why a netlist cannot be loaded. -/
inductive LoadError where
  | file (cause : Command.FileError)
  | text (cause : Netlist.ReadError)

/-- The text of a failure to load. -/
def LoadError.message : LoadError → String
  | .file cause => "I/O error: " ++ cause.message
  | .text cause => cause.message

/-- The netlist in a file. -/
def Netlist.load {m : Type → Type} [Monad m] (files : Command.Files m) (path : String) :
    m (Except LoadError Netlist) := do
  match ← files.read path with
  | .error e => return .error (.file e)
  | .ok source => return (Netlist.read source).mapError .text

namespace Command

/-- Why a command fails. -/
inductive Problem where
  | notFound (path : String)
  | unreadable (path : String) (cause : FileError)
  | malformed (path : String) (cause : Netlist.ReadError)
  | circuit (cause : Circuit.Error)
  | optimization (cause : Failure)
  | unwritable (path : String) (cause : FileError)

/-- A problem with its causes, the outermost first. -/
def Problem.chain : Problem → List String
  | .notFound path => ["File not found: " ++ path]
  | .unreadable path cause => ["Failed to read file: " ++ path, cause.message]
  | .malformed path cause =>
      ("Failed to parse netlist: " ++ path) :: cause.message ::
        (match cause with
          | .atLine _ inner => [inner.message]
          | .undeclared => [])
  | .circuit cause => [cause.message]
  | .optimization cause =>
      cause.message ::
        (match cause with
          | .circuit inner => [inner.message]
          | _ => [])
  | .unwritable path cause => ["Failed to write file: " ++ path, cause.message]

/-- The text of a problem: its causes in one line. -/
def Problem.message (p : Problem) : String := "Error: " ++ ": ".intercalate p.chain

/-- How a command ended. -/
structure Finish where
  exit : Nat
  stdout : String := ""
  stderr : String := ""

/-- Whether a log of this verbosity shows events of a level. -/
def shows (verbosity : Nat) : Level → Bool
  | .info => 1 ≤ verbosity
  | .debug => 2 ≤ verbosity
  | .trace => 3 ≤ verbosity

/-- The lines of a log. -/
def log (verbosity : Nat) (events : List Event) : String :=
  Text.unlines ((events.filter fun e => shows verbosity e.level).map Event.render)

/-- The end of a command that met a problem. -/
def Problem.finish (p : Problem) (log : String := "") : Finish :=
  { exit := 1, stderr := log ++ p.message ++ "\n" }

variable {m : Type → Type} [Monad m]

/-- The netlist of an input file. -/
def load (files : Files m) (path : String) : m (Except Problem Netlist) := do
  match ← files.read path with
  | .error e => return .error (if e.isAbsence then .notFound path else .unreadable path e)
  | .ok source => return (Netlist.read source).mapError (.malformed path)

/-- A circuit and its depth. -/
def circuitOf (n : Netlist) : Except Problem (Circuit × Nat) :=
  match n.toCircuit with
  | .error e => .error (.circuit e)
  | .ok c =>
      match c.depth with
      | .error e => .error (.circuit e)
      | .ok depth => .ok (c, depth)

/-! ## Statistics -/

/-- The statistics of a netlist. -/
def statsOf (n : Netlist) : Except Problem Stats :=
  (circuitOf n).map fun (c, depth) => ⟨n.width, c.size, depth, n.census⟩

/-- Prints the statistics of the netlist in a file. -/
def runStats (files : Files m) (input : String) (format : Format) : m Finish := do
  match (← load files input).bind statsOf with
  | .error p => return p.finish
  | .ok s => return { exit := 0, stdout := s.render input format ++ "\n" }

/-! ## Optimization -/

/-- What an optimization comes to. -/
structure Optimized where
  netlist : Netlist
  summary : Summary

/-- Optimizes a netlist. Returns the events too, since they remain if the optimization fails. -/
def optimizeNetlist (input : String) (settings : Settings) (n : Netlist) :
    List Event × Except Problem Optimized :=
  match circuitOf n with
  | .error p => ([], .error p)
  | .ok (c, depthBefore) =>
      let run := settings.pipeline.run c
      let events := .loaded c.size n.width input :: run.events
      match run.result, run.circuit.depth with
      | .error e, _ => (events, .error (.optimization e))
      | .ok _, .error e => (events, .error (.circuit e))
      | .ok passes, .ok depthAfter =>
          (events, .ok
            ⟨run.circuit.toNetlist,
              ⟨input, n.width, c.size, run.circuit.size, depthBefore, depthAfter, passes⟩⟩)

/-- Optimizes the netlist in a file. -/
def runOptimize (files : Files m) (verbosity : Nat) (input : String) (output : Option String)
    (settings : Settings) (format : Format) : m Finish := do
  match ← load files input with
  | .error p => return p.finish
  | .ok n =>
      let (events, result) := optimizeNetlist input settings n
      let log := log verbosity events
      match result with
      | .error p => return p.finish log
      | .ok o =>
          let summary := o.summary.render output format ++ "\n"
          match output with
          | none => return ⟨0, o.netlist.render, log ++ summary⟩
          | some path =>
              match ← files.write path o.netlist.render with
              | .error e => return (Problem.unwritable path e).finish log
              | .ok () => return ⟨0, summary, log⟩

/-! ## Command lines -/

/-- The long spelling of an option, with its dashes. -/
def Key.long : Key → String
  | .input => "--input"
  | .output => "--output"
  | .noHadamard => "--no-hadamard"
  | .noCancel => "--no-cancel"
  | .iterations => "--iterations"
  | .verify => "--verify"
  | .stats => "--stats"
  | .format => "--format"
  | .verbose => "--verbose"
  | .help => "--help"
  | .version => "--version"

/-- The text of a wrong command line. -/
def UsageError.message : UsageError → String
  | .unknownOption word => s!"unexpected argument '{word}' found"
  | .unknownCommand word => s!"unrecognized subcommand '{word}'"
  | .unexpectedWord word => s!"unexpected argument '{word}' found"
  | .missingCommand => "a command is required"
  | .missingOption key => s!"the option '{key.long}' is required"
  | .missingValue key => s!"a value is required for '{key.long}'"
  | .unneededValue key => s!"'{key.long}' takes no value"
  | .repeated key => s!"the argument '{key.long}' cannot be used multiple times"
  | .badValue key value => s!"invalid value '{value}' for '{key.long}'"

/-- How the program is called. -/
def usageText : String :=
  Text.unlines
    ["Usage: qopt [OPTIONS] <COMMAND>",
      "",
      "Commands:",
      "  optimize  Optimize a netlist",
      "  stats     Show gate counts and depth of a netlist",
      "  version   Show version information",
      "  help      Print this message or the help of the given subcommand(s)",
      "",
      "Options:",
      "  -v, --verbose...  Increase verbosity (-v, -vv, -vvv)",
      "  -h, --help        Print help",
      "  -V, --version     Print version"]

/-- The end of a command line that is not read to its end. -/
def Stop.finish : Stop → Finish
  | .usage e => { exit := 2, stderr := "error: " ++ e.message ++ "\n\n" ++ usageText }
  | .help => { exit := 0, stdout := usageText }
  | .version => { exit := 0, stdout := "qopt 0.1.0\n" }

/-- Carries out a command line. -/
def execute (files : Files m) (args : List String) : m Finish :=
  match Invocation.read args with
  | .error stop => return stop.finish
  | .ok inv =>
      match inv.request with
      | .optimize input output settings format =>
          runOptimize files inv.verbosity input output settings format
      | .stats input format => runStats files input format
      | .version => return { exit := 0, stdout := about ++ "\n" }

end Command

end Peephole
