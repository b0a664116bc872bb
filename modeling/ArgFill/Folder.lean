import ArgFill.Path

/-!
# Folders

A folder maps the plain paths of files to what they hold: a text, or bytes that are none.
`Folder.find` follows any path; `Folder.read` fails where there is no file, or no text in it;
`Folder.write` changes one file.
-/

namespace ArgFill

/-- What a file holds: a text, or bytes that are not the UTF-8 form of one. -/
inductive Content where
  | text (content : Text)
  | bytes (content : List UInt8)
  deriving DecidableEq, Repr

def Content.ofBytes (bytes : List UInt8) : Content :=
  match String.fromUTF8? (ByteArray.mk bytes.toArray) with
  | some s => text s.toList
  | none => .bytes bytes

/-- Why a path gives no text. A path that goes on behind a file is `notFolder`. -/
inductive ReadFault where
  | notFound
  | notFolder
  | isFolder
  | notText
  deriving DecidableEq, Repr

def ReadFault.message : ReadFault → String
  | notFound => "No such file or directory (os error 2)"
  | notFolder => "Not a directory (os error 20)"
  | isFolder => "Is a directory (os error 21)"
  | notText => "stream did not contain valid UTF-8"

/-- Files by their plain paths. -/
structure Folder where
  files : List (Text × Content)
  deriving DecidableEq, Repr

namespace Folder

def holds (folder : Folder) (name : Text) : Bool := (folder.files.lookup name).isSome

def find (folder : Folder) (path : Text) : Except ReadFault Content :=
  match folder.files.lookup (Path.plain path) with
  | some content => if Path.endsInFolder path then throw .notFolder else pure content
  | none =>
    if (Path.ways path).any folder.holds then throw .notFolder
    else if path != [] && (Path.steps path).all (· == "..".toList) then throw .isFolder
    else throw .notFound

def read (folder : Folder) (path : Text) : Except ReadFault Text := do
  match ← folder.find path with
  | .text content => pure content
  | .bytes _ => throw .notText

def write (folder : Folder) (path content : Text) : Folder :=
  let name := Path.plain path
  ⟨folder.files.map fun file => if file.1 = name then (name, .text content) else file⟩

end Folder

end ArgFill
