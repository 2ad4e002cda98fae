import SsaKit.Command.Perform
/-!
The command line program.
-/
open SsaKit

def diskError : IO.Error → Error
  | .noFileOrDirectory _ _ _ => Directory.missing
  | e => .io (toString e)

def diskFiles : Files IO where
  read path := ExceptT.mk do
    try return .ok (← IO.FS.readBinFile path).toList
    catch e => return .error (diskError e)
  write path bytes := ExceptT.mk do
    try
      IO.FS.writeBinFile path ⟨bytes.toArray⟩
      return .ok ()
    catch e => return .error (diskError e)

def main (args : List String) : IO UInt32 := do
  match Request.ofWords? args with
  | none =>
    IO.eprint Command.programPage.text
    return 2
  | some request =>
    match ← (request.perform diskFiles).run with
    | .ok (.printed output) =>
      IO.print output
      return 0
    | .ok (.crashed _) => return 101
    | .error error =>
      IO.eprintln s!"Error: {error.text}"
      return 1
