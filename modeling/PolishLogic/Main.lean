import PolishLogic.CommandLine.Run

/-! # The program -/

namespace PolishLogic
namespace CommandLine

/-- The number of the reason why a file cannot be read. Some systems give it as a negative one. -/
def reasonCode (e : IO.Error) : Nat :=
  let code : UInt32 := match e with
    | .inappropriateType _ code _ | .permissionDenied _ code _ | .invalidArgument _ code _
    | .resourceExhausted _ code _ => code
    | _ => 5
  if code.toNat < 0x80000000 then code.toNat else 0x100000000 - code.toNat

def readFile (path : String) : IO (Except FileError (List UInt8)) := do
  let shown := (Path.ofString path).toString
  if shown.toList.contains '\x00' then return .error .nullInPath
  try
    let bytes ← IO.FS.readBinFile shown
    return .ok bytes.toList
  catch
    | .noFileOrDirectory .. => return .error (.notFound shown)
    | e => return .error (.ofCode shown (reasonCode e))

end CommandLine
end PolishLogic

open PolishLogic.CommandLine in
def main (args : List String) : IO UInt32 := do
  let contents ← match Options.ofArguments args with
    | .ok { file := some path, .. } => readFile path
    | _ => pure (.error .blank)
  match run .empty args fun _ => contents with
  | .ok outcome =>
    IO.print outcome.output
    IO.eprint outcome.errors
    return outcome.exitCode.toUInt32
  | .error fault =>
    IO.eprintln fault.message
    return 1
