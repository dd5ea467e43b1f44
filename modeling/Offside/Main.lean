import Offside.CommandLine

/-!
The program.
-/

namespace Offside

def failureOf (path : Text) : IO.Error → Failure
  | .noFileOrDirectory .. => ReadError.missing.failure path
  | .inappropriateType _ 21 _ => ReadError.folder.failure path
  | .invalidArgument _ 36 _ => ReadError.nameTooLong.failure path
  | .inappropriateType .. => ReadError.throughFile.failure path
  | e => .error (Text.ofString (toString e)) (some .absent)

def readFile (path : Text) : IO (Except Failure Bytes) := do
  match ← (IO.FS.readBinFile path.toDisplay).toBaseIO with
  | .ok bytes => return .ok bytes.toList
  | .error e => return .error (failureOf path e)

end Offside

open Offside

def main (arguments : List String) : IO UInt32 := do
  let arguments := arguments.map Text.ofString
  let content ← match CommandLine.path? arguments with
    | some path => readFile path
    | none => pure (.ok [])
  let report := CommandLine.run arguments fun _ => content
  for entry in report.entries do
    if entry.isError then IO.eprintln entry.text.toDisplay
    else IO.println entry.text.toDisplay
  return report.exit.toUInt32
