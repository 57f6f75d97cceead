import Constituency.CommandLine

/-!
# The program

Reads the arguments, the grammar and the sentences, and prints the answers.
-/

namespace Constituency.CommandLine

/-- Ends the program with a message. -/
def fail (code : Nat) (message : String) : IO UInt32 := do
  IO.eprintln message
  return UInt32.ofNat code

/-- A time span in microseconds. -/
def microseconds (nanoseconds : Nat) : String :=
  Decimal.positional 3 nanoseconds ++ "µs"

/-- Answers the lines of the input until it ends. -/
partial def answerAll (g : Grammar Float32) (task : Task) : IO UInt32 := do
  let output ← IO.getStdout
  output.putStr prompt
  output.flush
  let line ← (← IO.getStdin).getLine
  if line.isEmpty then return 0
  let started ← IO.monoNanosNow
  match answer g task line with
  | none => pure ()
  | some a =>
    output.putStr a.body
    let elapsed := (← IO.monoNanosNow) - started
    output.putStr (a.footer (some (microseconds elapsed)))
  answerAll g task

end Constituency.CommandLine

open Constituency Constituency.CommandLine

/-- Runs the program. -/
def main (args : List String) : IO UInt32 := do
  match command args with
  | .error e => fail refusedCode e.message
  | .ok .help =>
    IO.println usage
    return 0
  | .ok (.parse task) =>
    match ← (IO.FS.readFile task.file).toBaseIO with
    | .error e => fail unreadableCode ("Error: " ++ toString e)
    | .ok text =>
      match Grammar.read text with
      | .error e => fail unreadableCode ("Error: " ++ e.message)
      | .ok g => answerAll g task
