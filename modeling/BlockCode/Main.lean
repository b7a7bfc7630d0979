import BlockCode.Console.Generate

namespace BlockCode

def usageText : String :=
  "Generate Rust source from a block-editor workspace (.json or .xml).\n\n" ++
  "Usage: blocks [OPTIONS] <INPUT> [OUTPUT]\n\n" ++
  "Options:\n" ++
  "      --statement-prefix <CODE>  Code inserted before every statement\n" ++
  "      --statement-suffix <CODE>  Code inserted after every statement\n" ++
  "      --loop-trap <CODE>         Code inserted at the top of every loop body\n" ++
  "      --developer-var <NAME>     Reserve and declare an extra variable name (repeatable)\n" ++
  "      --check                    Load and generate without writing any output\n" ++
  "  -h, --help                     Print help\n"

def fileFault : IO.Error → FileFault
  | .noFileOrDirectory .. => .notFound
  | .permissionDenied .. => .denied
  | e => .other (toString e)

def findInput (path : String) : IO (Option InputFile) := do
  let full ← try pure (toString (← IO.FS.realPath path)) catch _ => return none
  let name := (pathNames full).getLastD ""
  try
    return some ⟨full, name, Files.readText (← IO.FS.readBinFile full)⟩
  catch
    | .inappropriateType .. | .noFileOrDirectory .. => return none
    | e => return some ⟨full, name, .error (fileFault e)⟩

def deliver : Delivery → IO Unit
  | .none => return
  | .print code => do (← IO.getStdout).putStr code
  | .write path code => IO.FS.writeFile path code

def runCommand (c : Command) : IO UInt32 := do
  let o := c.run (← findInput c.input)
  (← IO.getStderr).putStr o.progress
  let fail (fault : RunFault) : IO UInt32 := do
    (← IO.getStderr).putStrLn ("Error: " ++ fault.message)
    return 1
  match o.result with
  | .error fault => fail fault
  | .ok d =>
    try
      deliver d
      return 0
    catch e => fail (.unwritable (fileFault e))

end BlockCode

def main (args : List String) : IO UInt32 := do
  match BlockCode.Command.parse args with
  | .ok c => BlockCode.runCommand c
  | .error fault =>
    (← IO.getStderr).putStr BlockCode.usageText
    return UInt32.ofNat fault.exitCode
