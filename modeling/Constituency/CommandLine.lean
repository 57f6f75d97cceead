import Constituency.Chart.Printer
import Constituency.Grammar.Reader
import Constituency.Parser

/-!
# The command line

What the program answers to its arguments and to each line of its input. It names a grammar file,
reads sentences line by line behind a prompt, and prints a tree for each.
-/

namespace Constituency.CommandLine

/-- The name under which the program presents itself. -/
def programName : String := "chartparse"

/-- What the program can be told to do. -/
def usage : String := "\n".intercalate
  ["Usage: " ++ programName ++ " FILE [options]",
   "",
   "Reads sentences from stdin, one per line, and prints the best parse of each.",
   "",
   "Options:",
   "  -h, --help            Print this message",
   "  -c, --chart           Print the parse chart (defaults to not printing)",
   "  -s, --stats           Print search statistics",
   "  --config OPTIONS      Parser options as key=value pairs, e.g.",
   "                        strategy=beam,beam_width=20,decode=maxrule,semiring=sum",
   "",
   "Set RUST_LOG (e.g. RUST_LOG=chartparse=debug) for tracing output."]

/-- What is to be done with the sentences of the input. -/
structure Task where
  file : String
  options : Options Float32
  printChart : Bool
  printStats : Bool

/-- Why the arguments are refused. -/
inductive ArgumentError where
  | missingValue
  | badOptions (error : OptionError)
  | superfluous
  | missingFile

/-- The error in words, with the usage. -/
def ArgumentError.message (e : ArgumentError) : String :=
  let cause :=
    match e with
    | missingValue => "--config needs a value"
    | badOptions error => error.message
    | superfluous => "invalid arguments"
    | missingFile => "missing filename"
  "argument error: " ++ cause ++ ".\n\n" ++ usage

/-- What the arguments ask for. -/
inductive Command where
  | help
  | parse (task : Task)

/-- The arguments read so far. -/
structure Gathered where
  file : Option String
  options : Options Float32
  printChart : Bool
  printStats : Bool

/-- Reads the arguments from the left. A call for help is answered at once, and so is the first
error. -/
def Gathered.read (g : Gathered) : List String → Except ArgumentError Command
  | [] =>
    match g.file with
    | none => .error .missingFile
    | some file => .ok (.parse ⟨file, g.options, g.printChart, g.printStats⟩)
  | "-h" :: _ | "--help" :: _ => .ok .help
  | "-c" :: rest | "--chart" :: rest => { g with printChart := true }.read rest
  | "-s" :: rest | "--stats" :: rest => { g with printStats := true }.read rest
  | ["--config"] => .error .missingValue
  | "--config" :: text :: rest =>
    match Options.read text with
    | .error e => .error (.badOptions e)
    | .ok options => { g with options }.read rest
  | file :: rest =>
    match g.file with
    | none => { g with file := some file }.read rest
    | some _ => .error .superfluous

/-- What the arguments ask for. -/
def command (args : List String) : Except ArgumentError Command :=
  Gathered.read ⟨none, Options.standard, false, false⟩ args

/-- The prompt before each line of the input. -/
def prompt : String := "> "

/-- What the program says to a line of its input. -/
structure Answer where
  /-- The chart and the tree. -/
  lines : List String
  /-- The counts of the search, if they are wanted. -/
  stats : Option String

/-- The score of a sentence and the counts of its search. -/
def statsLine (result : Parse Float32) : String :=
  "inside=" ++ Decimal.ofScore result.inside ++
    " considered=" ++ toString result.stats.considered ++
    " added=" ++ toString result.stats.added ++
    " pushes=" ++ toString result.stats.pushes ++
    " pops=" ++ toString result.stats.pops

/-- Parses the words of a line. A blank line has no answer. -/
def answer (g : Grammar Float32) (task : Task) (line : String) : Option Answer :=
  match (Text.words line.toList).map String.ofList with
  | [] => none
  | words =>
    let result := Parser.parse ⟨g, task.options, .inside⟩ words
    let chart :=
      if task.printChart then ["chart:"] ++ result.chart.lines g.symbols ++ [""] else []
    let tree := (result.tree.map Tree.text).getD "()"
    some
      { lines := chart ++ [tree]
        stats := if task.printStats then some (statsLine result) else none }

/-- The text of the chart and the tree. -/
def Answer.body (a : Answer) : String :=
  String.join (a.lines.map (· ++ "\n"))

/-- The text of the counts, with the time that the answer took if that is known. -/
def Answer.footer (a : Answer) (time : Option String) : String :=
  match a.stats, time with
  | none, _ => ""
  | some counts, none => counts ++ "\n"
  | some counts, some time => counts ++ " time=" ++ time ++ "\n"

/-- What a run of the program leaves behind. -/
structure Transcript where
  code : Nat
  output : String
  errors : String

/-- The exit code for arguments that are refused. -/
def refusedCode : Nat := 255

/-- The exit code for a grammar that cannot be read. -/
def unreadableCode : Nat := 1

/-- The lines of an input, each without its line feed. -/
def inputLines (input : String) : List String :=
  let cut := Text.pieces (· == '\n') input.toList
  let complete := if cut.getLast? == some [] then cut.dropLast else cut
  complete.map String.ofList

/-- A whole run of the program, given the contents of files, or why they cannot be had, and the
input. Times are left out. -/
def run (args : List String) (contents : String → Except String String) (input : String) :
    Transcript :=
  match command args with
  | .error e => ⟨refusedCode, "", e.message ++ "\n"⟩
  | .ok .help => ⟨0, usage ++ "\n", ""⟩
  | .ok (.parse task) =>
    match contents task.file with
    | .error reason => ⟨unreadableCode, "", "Error: " ++ reason ++ "\n"⟩
    | .ok text =>
      match Grammar.read text with
      | .error e => ⟨unreadableCode, "", "Error: " ++ e.message ++ "\n"⟩
      | .ok g =>
        let answers := (inputLines input).map fun line =>
          prompt ++ ((answer g task line).map fun a => a.body ++ a.footer none).getD ""
        ⟨0, String.join answers ++ prompt, ""⟩

end Constituency.CommandLine
