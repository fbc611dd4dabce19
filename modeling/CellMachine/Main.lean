import CellMachine.CommandLine

/-!
# Entry point

Reads the named file and the standard input, runs the command, and writes its report.
-/

open CellMachine

/-- All bytes of a stream. -/
partial def readAll (stream : IO.FS.Stream) (done : ByteArray) : IO ByteArray := do
  let bytes ← stream.read 65536
  if bytes.isEmpty then return done else readAll stream (done ++ bytes)

def main (arguments : List String) : IO UInt32 := do
  let file ← match arguments with
    | [] => pure none
    | path :: _ =>
      try
        pure (some (← IO.FS.readBinFile path))
      catch _ => pure none
  let stdin ← readAll (← IO.getStdin) ByteArray.empty
  let report := CommandLine.run Machine.ampleFuel arguments file stdin.toList
  (← IO.getStdout).write report.stdout
  (← IO.getStderr).write report.stderr
  return UInt32.ofNat report.code
