/-
Runs in a directory of files.

A directory maps locations to contents; creating a file replaces its contents, or fails and changes
nothing.  `invoke` reads the arguments, makes the plan and carries it out in a directory, and keeps
what was printed and logged.

* `Directory` — files, and how the system around them deals with paths;
* `Directory.read`, `Directory.create` — the two things that a run does with a path;
* `Directory.inFolders` — a system in which nothing is in the way but the length of a name;
* `run`, `invoke` — a run, and all of an invocation.

Design notes: where a path leads and what may be created belongs to the system and differs from one to the
next, so a directory brings it along as data.  Files are kept by location and not by path, so that two
paths to one file see the same contents.
-/
import MipsAssembler.CommandLine.Path
import MipsAssembler.CommandLine.Plan

namespace MipsAssembler.CommandLine

/-- Contents by location. -/
abbrev Files := List (Location × ByteArray)

/-- Files, and how the system deals with paths. -/
structure Directory where
  files : Files
  /-- Where a path leads. -/
  follow : String → Except Obstacle Place
  /-- Why nothing can be found at a location. -/
  hidden : Location → Option Obstacle := fun _ => none
  /-- Why a file cannot be created at a location, among the files that are there. -/
  refusal : Files → Location → Option Obstacle := fun _ _ => none

namespace Directory

/-- Files in a system that has these folders, and no limits but the length of a name and of a path. -/
def inFolders (folders : List Folder) (files : Files) : Directory where
  files := (.null, .empty) :: files
  follow := Path.follow (Folder.standard ++ folders)
  hidden := Location.tooLong?
  refusal _ := Location.tooLong?

/-- A working directory that holds the given files and nothing else. -/
def ofFiles (files : List (String × ByteArray)) : Directory :=
  inFolders [] (files.map fun (name, contents) => (⟨.here, name⟩, contents))

/-- The files of the working directory itself. -/
def listing (d : Directory) : List (String × ByteArray) :=
  d.files.filterMap fun (location, contents) =>
    if location.folder = .here then some (location.name, contents) else none

/-- What is found at a location. -/
def get (d : Directory) (location : Location) : Except Obstacle ByteArray :=
  match d.hidden location with
  | some obstacle => .error obstacle
  | none =>
    match d.files.lookup location with
    | some contents => .ok contents
    | none => .error .absent

/-- The text of a file, or the reason why it cannot be read. -/
def read (d : Directory) (path : String) : Except Obstacle String := do
  match ← d.follow path with
  | .directory => .error .isDirectory
  | .entry location ending =>
    let contents ← d.get location
    if ending = .exact then
      match String.fromUTF8? contents with
      | some text => .ok text
      | none => .error .notText
    else .error .notDirectory

/-- The location of the file that a path would create, or the reason why there is none. -/
def target (d : Directory) (path : String) : Except Obstacle Location := do
  match ← d.follow path with
  | .directory => .error .isDirectory
  | .entry _ .slashed => .error .isDirectory
  | .entry location .below =>
    let _ ← d.get location
    .error .notDirectory
  | .entry location .exact =>
    match d.refusal d.files location with
    | some obstacle => .error obstacle
    | none => .ok location

/-- The directory with these contents for the file at a location. -/
def put (d : Directory) (location : Location) (contents : ByteArray) : Directory :=
  { d with files := (location, contents) :: d.files.filter (·.1 != location) }

/-- The directory with new contents for a file, or the reason why it cannot be created. -/
def create (d : Directory) (path : String) (text : String) : Except Obstacle Directory := do
  let location ← d.target path
  return d.put location text.toUTF8

end Directory

/-- What a run has changed so far. -/
structure Session where
  directory : Directory
  printed : String := ""
  log : Array Event := #[]

namespace Session

/-- Carries out one step. -/
def perform (s : Session) : Action → Except Obstacle Session
  | .write path text => do return { s with directory := ← s.directory.create path text }
  | .print text => .ok { s with printed := s.printed ++ text }
  | .log event => .ok { s with log := s.log.push event }

/-- Carries out steps until one fails, and gives the reason if one does. -/
def performAll (s : Session) : List Action → Session × Option Obstacle
  | [] => (s, none)
  | action :: actions =>
    match s.perform action with
    | .ok s => performAll s actions
    | .error obstacle => (s, some obstacle)

/-- Carries out a plan. -/
def follow (s : Session) (p : Plan Unit) : Session × Except Trouble Unit :=
  match s.performAll p.run.trace.toList with
  | (s, some obstacle) => (s, .error (.unwritable obstacle.message))
  | (s, none) => (s, p.run.value)

end Session

/-- A run in a directory, without the report at its end. -/
def run (args : Arguments) (directory : Directory) : Session × Except Trouble Unit :=
  let source := (directory.read args.input).mapError Obstacle.message
  { directory : Session }.follow (plan args source)

/-- The end of an invocation. -/
inductive Outcome
  | refused (usage : Usage)
  | finished (session : Session)
  | failed (session : Session) (trouble : Trouble)

/-- The exit status of an invocation. -/
def Outcome.exitCode : Outcome → Nat
  | .refused usage => usage.exitCode
  | .finished _ => 0
  | .failed .. => 1

/-- An invocation with the given words; trouble is reported in the log. -/
def invoke (words : List String) (directory : Directory) : Outcome :=
  match Arguments.parse words with
  | .error usage => .refused usage
  | .ok args =>
    match run args directory with
    | (session, .ok ()) => .finished session
    | (session, .error trouble) =>
      .failed { session with log := session.log ++ trouble.events args.input } trouble

end MipsAssembler.CommandLine
