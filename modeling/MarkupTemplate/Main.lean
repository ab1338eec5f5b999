import MarkupTemplate.CommandLine.Run

/-!
# The command line

Reads the files a run needs, runs it, and prints and writes what it leaves behind.
-/

open MarkupTemplate

/-- What is found at a path. -/
def readEntry? (path : Text) : IO (Option (Text × FileEntry)) := do
  try
    let bytes ← IO.FS.readBinFile (String.ofList path)
    return some (path, .file (bytes.toList.map UInt8.toNat))
  catch
    | .noFileOrDirectory .. => return none
    | _ => return some (path, .directory)

/-- Writes a file and its directories. -/
def writeEntry (path text : Text) : IO Unit := do
  match (Path.parents path).getLast? with
  | some parent => IO.FS.createDirAll (String.ofList parent)
  | none => pure ()
  IO.FS.writeFile (String.ofList path) (String.ofList text)

/-- The command line. -/
def main (arguments : List String) : IO UInt32 := do
  let arguments := arguments.map String.toList
  let debug := (← IO.getEnv "HAMLC_DEBUG").any fun v => !v.isEmpty
  let files ← (CommandLine.paths arguments).filterMapM readEntry?
  let outcome := CommandLine.run files debug arguments
  for event in outcome.events do
    IO.println (String.ofList (event.level.word ++ [' '] ++ event.message))
  match outcome.written? with
  | some (path, text) => writeEntry path text
  | none => pure ()
  IO.print (String.ofList outcome.output)
  IO.eprint (String.ofList outcome.complaint)
  match outcome.uncaught? with
  | some e => IO.eprintln (String.ofList e.message)
  | none => pure ()
  return outcome.exit.toUInt32
