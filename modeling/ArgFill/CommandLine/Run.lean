import ArgFill.CommandLine.Request
import ArgFill.Listing

/-!
# Running requests

`runArguments` carries out a command line in a folder. The exit code is 2 if the command line or
anything in carrying it out is at fault, 1 if files were only checked and one of them would change,
and 0 otherwise. Files are processed in the order given; one at fault does not stop the others. An
offset that misses a character breaks the run off with `brokenOff` as its exit code: what was
printed and written before stays.
-/

namespace ArgFill.CommandLine

/-- What a run leaves behind. -/
structure Result where
  code : UInt32
  output : Text
  folder : Folder
  deriving DecidableEq, Repr

def brokenOff : UInt32 := 101

/-- Files on their way: what became of those processed, and whether one failed. -/
structure Batch where
  outcomes : List Outcome
  failed : Bool
  folder : Folder

/-- Processes one more file. An offset that misses a character breaks the batch off as it is. -/
def Batch.add (book : RuleBook) (mode : Mode) (b : Batch) (path : Text) : Except Batch Batch :=
  match processFile book mode path b.folder with
  | .ok (outcome, folder) => pure { b with outcomes := b.outcomes ++ [outcome], folder }
  | .error (.failed _ .badOffset) => throw b
  | .error _ => pure { b with failed := true }

def Batch.printed (b : Batch) : Text := b.outcomes.flatMap fun o => o.output.getD []

def entryLine (path : Text) (e : Entry) : Text :=
  let place := s!":{e.position.line}:{e.position.column}\t{e.start}..{e.stop}\t"
  path ++ place.toList ++ e.text ++ ['\n']

/-- The output and the exit code of `apply` from what became of all files. -/
def Batch.result (b : Batch) (mode : Mode) (json : Bool) : Result :=
  let report := if json then outcomesJson b.outcomes ++ ['\n'] else []
  let code :=
    if b.failed then 2
    else if mode = .check && b.outcomes.any Outcome.changed then 1
    else 0
  ⟨code, b.printed ++ report, b.folder⟩

def Request.run (folder : Folder) : Request → Result
  | .version => ⟨0, "backfill 0.1.0\n".toList, folder⟩
  | .nothing => ⟨0, [], folder⟩
  | .apply book mode json paths =>
    match loadBook folder book with
    | .error _ => ⟨2, [], folder⟩
    | .ok book =>
      match paths.foldlM (Batch.add book mode) ⟨[], false, folder⟩ with
      | .ok batch => batch.result mode json
      | .error batch => ⟨brokenOff, batch.printed, batch.folder⟩
  | .locate construct brackets path =>
    match folder.read path with
    | .error _ => ⟨2, [], folder⟩
    | .ok t =>
      match listCalls ⟨construct, brackets⟩ t with
      | .ok entries => ⟨0, entries.flatMap (entryLine path), folder⟩
      | .error .badOffset => ⟨brokenOff, [], folder⟩
      | .error _ => ⟨2, [], folder⟩

def runArguments (folder : Folder) (args : List Text) : Result :=
  match Request.ofArguments? args with
  | none => ⟨2, [], folder⟩
  | some request => request.run folder

end ArgFill.CommandLine
