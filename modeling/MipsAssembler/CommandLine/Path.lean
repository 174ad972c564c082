/-
Paths and where they lead.

A path is cut at its slashes and followed piece by piece, from the root if it starts with a slash and
from the working directory otherwise.  An empty piece or a single dot stays where it is, two dots climb,
and the first piece that is no known folder is the entry that the path is about.

* `Folder`, `Location` — the directories that paths go through, and the names in them;
* `Path.place` — where a path leads;
* `Path.follow` — the same, or the reason why the path as a whole cannot be followed.

Design notes: which folders there are is not for a path to say, so they are given.  An entry keeps what the
path says after it, because an entry that is no folder can only be the end of a path.
-/
namespace MipsAssembler.CommandLine

/-- Why a file cannot be read or created. -/
inductive Obstacle
  | absent
  | notDirectory
  | isDirectory
  | nameTooLong
  | nulCharacter
  | notText
  | other (reason : String)
deriving DecidableEq, Repr

/-- What the system says. -/
def Obstacle.message : Obstacle → String
  | .absent => "No such file or directory (os error 2)"
  | .notDirectory => "Not a directory (os error 20)"
  | .isDirectory => "Is a directory (os error 21)"
  | .nameTooLong => "File name too long (os error 36)"
  | .nulCharacter => "file name contained an unexpected NUL byte"
  | .notText => "stream did not contain valid UTF-8"
  | .other reason => reason

/-- A directory: the working directory, one that is some levels above it, the root, or one inside
another. -/
inductive Folder
  | here
  | above (levels : Nat)
  | root
  | inside (outer : Folder) (name : String)
deriving DecidableEq, Repr

namespace Folder

/-- The folder that this one is in. -/
def outer : Folder → Folder
  | .here => .above 1
  | .above levels => .above (levels + 1)
  | .root => .root
  | .inside outer _ => outer

/-- The folders under the root that every system has. -/
def standard : List Folder := [.inside .root "dev", .inside .root "tmp"]

end Folder

/-- A name in a folder. -/
structure Location where
  folder : Folder
  name : String
deriving DecidableEq, Repr

/-- The device that every system has, which reads as empty. -/
def Location.null : Location := ⟨.inside .root "dev", "null"⟩

/-- What a path says after an entry: nothing, only slashes, or more pieces. -/
inductive Ending
  | exact
  | slashed
  | below
deriving DecidableEq, Repr

/-- The ending that the pieces after an entry make. -/
def Ending.ofPieces (pieces : List String) : Ending :=
  if pieces.isEmpty then .exact
  else if pieces.all (· == "") then .slashed
  else .below

/-- Where a path leads: to a folder, or to an entry of one. -/
inductive Place
  | directory
  | entry (location : Location) (ending : Ending)
deriving DecidableEq, Repr

namespace Path

/-- The most bytes that a name may have. -/
def nameLimit : Nat := 255

/-- The most bytes that a path may have. -/
def limit : Nat := 4095

/-- The pieces between the slashes. -/
def pieces (path : String) : List String := (path.toList.splitOn '/').map String.ofList

/-- Where pieces lead from a folder, if these are all folders inside others. -/
def walk (folders : List Folder) (folder : Folder) : List String → Place
  | [] => .directory
  | piece :: rest =>
    if piece = "" ∨ piece = "." then walk folders folder rest
    else if piece = ".." then walk folders folder.outer rest
    else if .inside folder piece ∈ folders then walk folders (.inside folder piece) rest
    else .entry ⟨folder, piece⟩ (.ofPieces rest)

/-- Where a path leads. -/
def place (folders : List Folder) (path : String) : Place :=
  match pieces path with
  | "" :: rest => walk folders .root rest
  | pieces => walk folders .here pieces

/-- Where a path leads, if it is one: it is not empty, holds no NUL and is not too long. -/
def follow (folders : List Folder) (path : String) : Except Obstacle Place :=
  if '\x00' ∈ path.toList then .error .nulCharacter
  else if path.isEmpty then .error .absent
  else if path.utf8ByteSize > limit then .error .nameTooLong
  else .ok (place folders path)

end Path

/-- Why a name is none: it is too long. -/
def Location.tooLong? (location : Location) : Option Obstacle :=
  if location.name.utf8ByteSize > Path.nameLimit then some .nameTooLong else none

end MipsAssembler.CommandLine
