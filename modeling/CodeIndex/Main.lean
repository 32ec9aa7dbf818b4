import CodeIndex.CommandLine.Run
import CodeIndex.Disk.Initial
import CodeIndex.Json.Reader

/-! # The program

Standard input holds a JSON object with the texts of files by their paths. The command line runs
in a folder with these files.
-/

open CodeIndex

def CodeIndex.Disk.ofJson (v : Json.Value) : Disk :=
  match v with
  | .object fields =>
    fields.foldl (fun d (path, content) =>
      match content with
      | .string text => d.write [] path (.file (Text.octets text))
      | _ => d) .initial
  | _ => .initial

def main (args : List String) : IO UInt32 := do
  let input ← (← IO.getStdin).readToEnd
  let disk := match Json.Value.read (Text.octets input) with
    | .ok v => Disk.ofJson v
    | .error _ => .initial
  let (_, reply) := CommandLine.run disk [] args
  IO.print reply.output
  return UInt32.ofNat reply.status
