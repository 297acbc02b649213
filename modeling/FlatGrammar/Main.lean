import FlatGrammar.Command.Outcome

/-! # Command line

Reads the grammar file, runs the command, and writes what it asks for.
-/
namespace FlatGrammar

def usage : String :=
  "usage: flatgrammar [--debug] [--no-colors] check [--bnf] FILE\n"
    ++ "       flatgrammar [--debug] [--no-colors] dump [--bnf] [-f sxp|ttl] [-p PREFIX]\n"
    ++ "                   [-n NAMESPACE] [-o OUTPUT] FILE\n"

def deliver (outcome : Outcome) : IO UInt32 := do
  let stderr ← IO.getStderr
  stderr.putStr outcome.stderr
  if let some abort := outcome.abort? then stderr.putStrLn abort.text
  match outcome.output? with
  | none => IO.print outcome.stdout
  | some output =>
    IO.FS.writeFile output.path output.content
    IO.print (outcome.stdout ++ output.message)
  return outcome.exitCode.toUInt32

/-- The full name and the bytes of a file, `none` if there is no such file. -/
def readFile? (path : String) : IO (Option (String × ByteArray)) := do
  try
    let file ← IO.FS.realPath path
    return some (file.toString, ← IO.FS.readBinFile file)
  catch
    | .noFileOrDirectory .. => return none
    | e => throw e

/-- Misuse of the command line ends in 2, and so does a grammar file that does not exist. -/
def runCommand (args : List String) : IO UInt32 := do
  let stderr ← IO.getStderr
  match Demand.ofArgs args with
  | .misuse =>
    stderr.putStr usage
    return 2
  | .help =>
    IO.print usage
    return 0
  | .badPath =>
    stderr.putStrLn SystemFault.badPath.text
    return 1
  | .run i =>
    match ← readFile? i.grammarFile with
    | none =>
      stderr.putStrLn (i.grammarFile ++ ": " ++ SystemFault.notFound.text)
      return 2
    | some (file, content) =>
      match String.fromUTF8? content with
      | some text => deliver (i.run text file)
      | none =>
        stderr.putStrLn (i.grammarFile ++ ": " ++ SystemFault.notText.text)
        return 1

end FlatGrammar

def main (args : List String) : IO UInt32 := do
  try
    FlatGrammar.runCommand args
  catch e =>
    (← IO.getStderr).putStrLn (toString e)
    return 1
