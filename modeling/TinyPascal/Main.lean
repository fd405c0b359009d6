import TinyPascal.CommandLine

/-!
# `Main` — the program `tpc`

Reads the input that the arguments name and writes the reply.
-/

namespace TinyPascal

/-- Why a file cannot be read. The system tells a directory from a file used as one by code 21. -/
def ReadError.ofFailure (e : IO.Error) : ReadError :=
  match e with
  | .noFileOrDirectory _ _ _ => .notFound
  | .inappropriateType _ code _ => if code = 21 then .isDirectory else .notADirectory
  | _ => .other (toString e)

/-- The bytes of a file, or why it cannot be read. -/
def readInput (path : String) : IO (Except ReadError ByteArray) := do
  try
    return .ok (← IO.FS.readBinFile path)
  catch e =>
    return .error (.ofFailure e)

/-- The bytes of the file that a request needs; a request without a file needs none. -/
def fetch (request : Option Request) : IO (Except ReadError ByteArray) :=
  match request.bind Request.input? with
  | some path => readInput path
  | none => return .ok .empty

end TinyPascal

/-- Answer the request that the arguments make. -/
def main (args : List String) : IO UInt32 := do
  let request := TinyPascal.Request.ofArgs? args
  let reply := TinyPascal.respond request (← TinyPascal.fetch request)
  IO.print reply.stdout
  IO.eprint reply.stderr
  return reply.exit.toUInt32
