import Offside.Command.Failure
import Offside.Snapshot
import Offside.Text.Utf8

/-!
A folder of files, and reading from it by path. Names are divided by slashes; an empty name and a
dot stay in place, two dots lead out of a folder again. Around the folder there are only folders in
which nothing is found.
-/

namespace Offside

/-- Files and folders by their names from the top; a folder has no bytes. Folders on the way to an
entry exist without an entry of their own, and a later entry replaces an earlier one. -/
structure Folder where
  entries : List (List Text × Option Bytes)
  deriving DecidableEq, Repr

namespace Folder

inductive Item where
  | file (bytes : Bytes)
  | folder
  | missing
  deriving DecidableEq, Repr

inductive Place where
  | inside (names : List Text)
  | outside
  deriving DecidableEq, Repr

def names : Text → List Text
  | [] => [[]]
  | u :: rest =>
    if u = .slash then [] :: names rest
    else
      match names rest with
      | [] => [[u]]
      | name :: more => (u :: name) :: more

def dot : Text := Text.ofString "."

def stays (name : Text) : Bool := name == [] || name == dot

def leaves (name : Text) : Bool := name == dot ++ dot

def nameLimit : Nat := 255

def pathLimit : Nat := 4096

def normal (path : Text) : List Text :=
  (names path).foldl (fun place name =>
    if stays name then place
    else if leaves name then place.dropLast
    else place ++ [name]) []

def insert (f : Folder) (path : Text) (bytes : Option Bytes) : Folder :=
  ⟨(normal path, bytes) :: f.entries⟩

def item (f : Folder) (place : List Text) : Item :=
  match f.entries.lookup place with
  | some (some bytes) => .file bytes
  | some none => .folder
  | none => if place = [] ∨ f.entries.any (place.isPrefixOf ·.1) then .folder else .missing

def enter (f : Folder) (place : Place) (name : Text) : Except ReadError Place :=
  match place with
  | .outside =>
    if stays name || leaves name then .ok .outside
    else if nameLimit < name.utf8Size then .error .nameTooLong
    else .error .missing
  | .inside place =>
    match f.item place with
    | .file _ => .error .throughFile
    | .missing => .error .missing
    | .folder =>
      if stays name then .ok (.inside place)
      else if leaves name then .ok (if place = [] then .outside else .inside place.dropLast)
      else if nameLimit < name.utf8Size then .error .nameTooLong
      else .ok (.inside (place ++ [name]))

def contents (f : Folder) : Place → Except ReadError Bytes
  | .outside => .error .folder
  | .inside place =>
    match f.item place with
    | .file bytes => .ok bytes
    | .folder => .error .folder
    | .missing => .error .missing

def find (f : Folder) (path : Text) : Except ReadError Bytes :=
  if path.contains 0 then .error .nullUnit
  else if path = [] then .error .missing
  else if pathLimit ≤ path.utf8Size then .error .nameTooLong
  else do
    let start := if path.head? = some .slash then Place.outside else .inside []
    f.contents (← (names path).foldlM f.enter start)

def read (f : Folder) (path : Text) : Except Failure Bytes :=
  (f.find path).mapError (·.failure path)

end Folder

end Offside
