import ArgFill.CommandLine.Run

/-!
# The program

Takes the files that the command line names into a folder, carries out the command line in it,
prints the output and writes back the files that changed.
-/

open ArgFill

/-- The files at these paths, as far as they can be read. -/
def readFolder (paths : List Text) : IO Folder := do
  let mut files := []
  for path in paths do
    try
      let bytes ← IO.FS.readBinFile (String.ofList path)
      files := files ++ [(path, Content.ofBytes bytes.toList)]
    catch _ => pure ()
  pure ⟨files⟩

/-- Writes the texts of a folder that are not as they were before. -/
def writeBack (before after : Folder) : IO Unit := do
  for (path, content) in after.files do
    match content with
    | .bytes _ => pure ()
    | .text t =>
      if before.files.lookup path != some content then
        IO.FS.writeFile (String.ofList path) (String.ofList t)

def main (args : List String) : IO UInt32 := do
  let args := args.map String.toList
  let paths := (CommandLine.Request.ofArguments? args).elim [] CommandLine.Request.plainPaths
  let folder ← readFolder paths
  let result := CommandLine.runArguments folder args
  IO.print (String.ofList result.output)
  writeBack folder result.folder
  pure result.code
