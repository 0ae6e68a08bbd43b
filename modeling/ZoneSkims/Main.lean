import ZoneSkims.Town.Report

/-!
# The command line

Prints the report on the synthetic town. The first argument names a file with a configuration
document; without one the standard configuration of the town holds. Notices and errors go to the
error output. The status is 0 for a complete report.

* `main`: the program.
-/

namespace ZoneSkims.Town

/-- Programs that can end early with a status. -/
abbrev Program (γ : Type) : Type := ExceptT UInt32 IO γ

/-- Ends the program with words on the error output. -/
def quit {γ : Type} (status : UInt32) (words : String) : Program γ := do
  IO.eprintln s!"Error: {words}"
  throw status

def failureText : Failure (RunError Float) → String
  | .fault error => error.message
  | .breach breach => breach.message?.getD "a condition was violated"

/-- Calculates a part of the report and prints its lines. -/
def printPart {γ : Type} (part : Reporting γ) : Program γ := do
  let (result, transcript) ← IO.lazyPure fun _ => part.run { lines := [], notices := [] }
  transcript.notices.forM fun notice => IO.eprintln notice.message
  transcript.lines.forM fun line => IO.println line
  match result with
  | .ok value => return value
  | .error failure => quit (UInt32.ofNat (failureStatus failure)) (failureText failure)

/-- The configuration of the named file. -/
def readConfiguration (path : String) : Program (Configuration Float) := do
  match ← (IO.FS.readFile path).toBaseIO with
  | .error _ => quit 1 s!"reading {path}"
  | .ok document =>
    match Configuration.parse? 1 document with
    | some config => return config
    | none => quit 1 s!"parsing {path}"

/-- A number of milliseconds in seconds. -/
def secondsText (milliseconds : Nat) : String :=
  let places := (Nat.toDigits 10 (1000 + milliseconds % 1000)).drop 1
  s!"{milliseconds / 1000}.{String.ofList places} s"

/-- Prints the report of a configuration, and how long its matrices take. -/
def printReport (config : Configuration Float) : Program Unit := do
  let prepared ← printPart (prepare config)
  let start ← IO.monoMsNow
  let results ← printPart (perform (calculate prepared))
  let finish ← IO.monoMsNow
  IO.println s!"Skims complete in {secondsText (finish - start)}"
  (tabulate results).forM fun line => IO.println line

end ZoneSkims.Town

open ZoneSkims.Town in
def main (arguments : List String) : IO UInt32 := do
  let program : Program Unit := do
    let config ← match arguments with
      | [] => pure (standardConfig 1)
      | path :: _ => readConfiguration path
    printReport config
  match ← program.run with
  | .ok () => return 0
  | .error status => return status
