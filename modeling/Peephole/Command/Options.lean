import Peephole.Pipeline.Basic
import Peephole.Text.Natural

/-!
# The command line

A command line names a command, and options before and after it. An option is long (`--input p`,
`--input=p`) or short (`-i p`, `-ip`, `-i=p`), and short options without a value can be joined
(`-vv`). Words are read from left to right, and the first that is wrong, or asks for help or for
the version, decides.

* `Scan.words` finds the options.
* `Invocation.read` is the meaning of a whole command line.
-/

namespace Peephole.Command

/-- How a summary is written. -/
inductive Format where
  | text | json
  deriving DecidableEq

/-- An option, whatever its spelling. -/
inductive Key where
  | input | output | noHadamard | noCancel | iterations | verify | stats | format
  | verbose | help | version
  deriving DecidableEq

/-- The spelling of an option. -/
structure Spelling where
  key : Key
  long : String
  short : Option Char := none
  takesValue : Bool := false

/-- What is wrong with a command line. -/
inductive UsageError where
  | unknownOption (word : String)
  | unknownCommand (word : String)
  | unexpectedWord (word : String)
  | missingCommand
  | missingOption (key : Key)
  | missingValue (key : Key)
  | unneededValue (key : Key)
  | repeated (key : Key)
  | badValue (key : Key) (value : String)

/-- Why a command line is not read to its end. -/
inductive Stop where
  | usage (error : UsageError)
  /-- Help was asked for. -/
  | help
  /-- The version was asked for. -/
  | version

/-! ## Spellings -/

/-- The option for more detail. -/
def Spelling.verbose : Spelling := ⟨.verbose, "verbose", some 'v', false⟩

/-- The option for help. -/
def Spelling.help : Spelling := ⟨.help, "help", some 'h', false⟩

/-- The option for the version. -/
def Spelling.version : Spelling := ⟨.version, "version", some 'V', false⟩

/-- The option for the netlist to read. -/
def Spelling.input : Spelling := ⟨.input, "input", some 'i', true⟩

/-- The options in front of a command. -/
def leadingOptions : List Spelling := [.verbose, .help, .version]

/-- The options of `optimize`. -/
def optimizeOptions : List Spelling :=
  [.input, ⟨.output, "output", some 'o', true⟩, ⟨.noHadamard, "no-hadamard", none, false⟩,
    ⟨.noCancel, "no-cancel", none, false⟩, ⟨.iterations, "iterations", none, true⟩,
    ⟨.verify, "verify", none, false⟩, ⟨.stats, "stats", none, true⟩, .verbose, .help]

/-- The options of `stats`. -/
def statsOptions : List Spelling :=
  [.input, ⟨.format, "format", some 'f', true⟩, .verbose, .help]

/-- The options of `version`. -/
def versionOptions : List Spelling := [.verbose, .help]

/-! ## Values -/

/-- The format that a value names. -/
def format? (value : String) : Option Format :=
  if value = "text" then some .text
  else if value = "json" then some .json
  else none

/-- The number of rounds that a value stands for. -/
def count? (value : String) : Option Nat := Text.natural? UInt64.size value

/-- Whether an option takes this value. -/
def Key.accepts : Key → String → Bool
  | .iterations, value => (count? value).isSome
  | .stats, value => (format? value).isSome
  | .format, value => (format? value).isSome
  | _, _ => true

/-! ## Scanning -/

/-- The options found so far, with their values; those without one have an empty value. -/
abbrev Found := List (Key × String)

/-- The value of an option. -/
def Found.get? (found : Found) (key : Key) : Option String := List.lookup key found

/-- Whether an option was found. -/
def Found.has (found : Found) (key : Key) : Bool := (found.get? key).isSome

/-- How often an option was found. -/
def Found.times (found : Found) (key : Key) : Nat := found.countP fun p => p.1 = key

/-- Takes up an option. Only `-v` may be repeated. -/
def Found.add (found : Found) (key : Key) (value : String) : Except Stop Found :=
  match key with
  | .help => .error .help
  | .version => .error .version
  | .verbose => .ok (found ++ [(key, value)])
  | _ =>
      if found.has key then .error (.usage (.repeated key))
      else if key.accepts value then .ok (found ++ [(key, value)])
      else .error (.usage (.badValue key value))

/-- A word that can be the value of the option before it: it is no option itself. -/
def isOperand (word : String) : Bool :=
  match word.toList with
  | '-' :: _ :: _ => false
  | _ => true

/-- What reading a word leads to. -/
inductive Next where
  /-- The next word is looked at on its own. -/
  | fresh (found : Found)
  /-- The next word is the value of this option. -/
  | awaiting (key : Key) (found : Found)

namespace Scan

/-- A long option, without its dashes. -/
def long (spellings : List Spelling) (found : Found) (body : List Char) : Except Stop Next :=
  let name := String.ofList (body.takeWhile (· ≠ '='))
  let value? :=
    match body.dropWhile (· ≠ '=') with
    | _ :: value => some (String.ofList value)
    | [] => none
  match spellings.find? fun s => s.long = name with
  | none => .error (.usage (.unknownOption name))
  | some s =>
      match s.takesValue, value? with
      | true, some value => (found.add s.key value).map .fresh
      | true, none => .ok (.awaiting s.key found)
      | false, some _ => .error (.usage (.unneededValue s.key))
      | false, none => (found.add s.key "").map .fresh

/-- Joined short options, without their dash. The first that takes a value takes what is left of
the word, after an equals sign if there is one. -/
def short (spellings : List Spelling) (found : Found) : List Char → Except Stop Next
  | [] => .ok (.fresh found)
  | c :: rest =>
      match spellings.find? fun s => s.short = some c with
      | none => .error (.usage (.unknownOption (String.singleton c)))
      | some s =>
          if s.takesValue then
            match rest with
            | [] => .ok (.awaiting s.key found)
            | '=' :: value => (found.add s.key (String.ofList value)).map .fresh
            | value => (found.add s.key (String.ofList value)).map .fresh
          else
            match found.add s.key "" with
            | .ok found => short spellings found rest
            | .error stop => .error stop

/-- The options of a list of words, up to the first word that is none. An option that waits for
its value is `pending`. Returns the options, and the words from that one on. -/
def words (spellings : List Spelling) (pending : Option Key) (found : Found) :
    List String → Except Stop (Found × List String)
  | [] =>
      match pending with
      | some key => .error (.usage (.missingValue key))
      | none => .ok (found, [])
  | word :: rest =>
      match pending with
      | some key =>
          if isOperand word then
            match found.add key word with
            | .ok found => words spellings none found rest
            | .error stop => .error stop
          else .error (.usage (.missingValue key))
      | none =>
          let next :=
            match word.toList with
            | '-' :: '-' :: [] => none
            | '-' :: '-' :: body => some (long spellings found body)
            | '-' :: c :: body => some (short spellings found (c :: body))
            | _ => none
          match next with
          | none => .ok (found, word :: rest)
          | some (.error stop) => .error stop
          | some (.ok (.fresh found)) => words spellings none found rest
          | some (.ok (.awaiting key found)) => words spellings (some key) found rest

/-- The options of a command, which takes no words but options; `--` may end them. -/
def whole (spellings : List Spelling) (args : List String) : Except Stop Found :=
  match words spellings none [] args with
  | .error stop => .error stop
  | .ok (found, []) => .ok found
  | .ok (found, ["--"]) => .ok found
  | .ok (_, "--" :: word :: _) => .error (.usage (.unexpectedWord word))
  | .ok (_, word :: _) => .error (.usage (.unexpectedWord word))

end Scan

/-! ## Commands -/

/-- What is to be done. -/
inductive Request where
  /-- Optimize a netlist, and write it to a file if one is named. -/
  | optimize (input : String) (output : Option String) (settings : Settings) (summary : Format)
  /-- Describe a netlist. -/
  | stats (input : String) (format : Format)
  /-- Describe the program. -/
  | version

/-- The meaning of a command line. -/
structure Invocation where
  /-- How often more detail was asked for. -/
  verbosity : Nat
  request : Request

/-- The value of an option with a format; text is the default. -/
def Found.format (found : Found) (key : Key) : Format :=
  ((found.get? key).bind format?).getD .text

/-- What `optimize` is asked to do. -/
def readOptimize (args : List String) : Except Stop (Found × Request) :=
  match Scan.whole optimizeOptions args with
  | .error stop => .error stop
  | .ok found =>
      match found.get? .input with
      | none => .error (.usage (.missingOption .input))
      | some input =>
          let settings : Settings :=
            { hadamard := !found.has .noHadamard
              cancel := !found.has .noCancel
              iterations := ((found.get? .iterations).bind count?).getD 1
              verify := found.has .verify }
          .ok (found, .optimize input (found.get? .output) settings (found.format .stats))

/-- What `stats` is asked to do. -/
def readStats (args : List String) : Except Stop (Found × Request) :=
  match Scan.whole statsOptions args with
  | .error stop => .error stop
  | .ok found =>
      match found.get? .input with
      | none => .error (.usage (.missingOption .input))
      | some input => .ok (found, .stats input (found.format .format))

/-- What `version` is asked to do. -/
def readVersion (args : List String) : Except Stop (Found × Request) :=
  (Scan.whole versionOptions args).map fun found => (found, .version)

/-- The names of the commands. -/
def commands : List String := ["optimize", "stats", "version", "help"]

/-- `help` may be followed by the name of one command. -/
def readHelp : List String → Stop
  | [] => .help
  | [command] => if commands.contains command then .help else .usage (.unknownCommand command)
  | command :: word :: _ =>
      .usage (.unknownCommand (if commands.contains command then word else command))

/-- The meaning of a command line. -/
def Invocation.read (args : List String) : Except Stop Invocation :=
  match Scan.words leadingOptions none [] args with
  | .error stop => .error stop
  | .ok (_, []) => .error (.usage .missingCommand)
  | .ok (leading, command :: rest) =>
      let request :=
        if command = "optimize" then readOptimize rest
        else if command = "stats" then readStats rest
        else if command = "version" then readVersion rest
        else if command = "help" then .error (readHelp rest)
        else .error (.usage (.unknownCommand command))
      request.map fun (found, request) =>
        ⟨Found.times leading .verbose + found.times .verbose, request⟩

end Peephole.Command
