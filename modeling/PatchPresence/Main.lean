/-
  PatchPresence.Main — the program.
-/
import PatchPresence.CommandLine.Run

namespace PatchPresence.CommandLine

/-- Reads what there is at a path. -/
def readContents (path : String) : IO Contents := do
  try
    return .text (← IO.FS.readFile path)
  catch _ =>
    try
      discard <| IO.FS.Handle.mk path .read
      return .unreadable
    catch
      | .noFileOrDirectory .. => return .missing
      | _ => return .unreadable

/-- Prints a message on standard error. -/
def complain (fault : RunFault) : IO UInt32 := do
  (← IO.getStderr).putStrLn ("Error: " ++ fault.message)
  return 1

/-- Puts out what a run leaves. -/
def deliver : RunResult → IO UInt32
  | .printed text => do
    (← IO.getStdout).putStr text
    return 0
  | .written path text => do
    try
      IO.FS.writeFile path text
      return 0
    catch _ =>
      complain (.uncreatableFile path)
  | .failed fault => complain fault
  | .misused => do
    (← IO.getStderr).putStr helpText
    return 2

end PatchPresence.CommandLine

open PatchPresence.CommandLine

/-- Reads the files that the arguments name and runs the program on them. -/
def main (arguments : List String) : IO UInt32 := do
  let started ← IO.monoMsNow
  let command := Command.parse arguments
  let named := match command with
    | .analyze options => options.request :: options.config.toList
    | _ => []
  let contents ← named.mapM fun path => do return (path, ← readContents path)
  let status ← deliver (run (fun path => (contents.lookup path).getD .missing) arguments)
  if let .analyze options := command then
    if status = 0 && options.timing && !options.quiet then
      (← IO.getStderr).putStrLn ("timing: total_ms=" ++ toString ((← IO.monoMsNow) - started))
  return status
