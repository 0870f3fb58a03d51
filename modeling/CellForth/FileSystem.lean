import CellForth.Sink
import CellForth.Source

/-!
# Files and paths

A file system is a tree of folders and files. A path is walked part by part, from the root if
it starts with a slash and from the working directory otherwise. An empty part and `.` stay
where they are and `..` leads to the folder around, which for the root is the root itself; all
of them, like any name, only lead on from a folder. The walk stops at the first part that
fails, so that what follows it does not matter.

Names and whole paths have a greatest length in bytes.
-/

namespace CellForth

/-- A file or a folder. -/
inductive FileNode where
  /-- A file with its content. -/
  | file (content : List UInt8)
  /-- A folder with its entries. -/
  | folder (entries : List (String × FileNode))

/-- A place in a file system. -/
structure Location where
  /-- What is there. -/
  node : FileNode
  /-- The folders around it, innermost first; the last one is the root. -/
  around : List FileNode

/-- The longest name of a file, in bytes. -/
def maxNameBytes : Nat := 255

/-- The longest path, in bytes. -/
def maxPathBytes : Nat := 4095

namespace Location

/-- The folder around, or the root itself. -/
def parent : Location → Location
  | ⟨node, []⟩ => ⟨node, []⟩
  | ⟨_, folder :: around⟩ => ⟨folder, around⟩

/-- The root, given the folders around a node. -/
def rootFrom (node : FileNode) : List FileNode → Location
  | [] => ⟨node, []⟩
  | folder :: around => rootFrom folder around

/-- The root of the file system. -/
def root (place : Location) : Location :=
  rootFrom place.node place.around

/-- Goes on by one part of a path. -/
def enter (place : Location) (part : String) : Except DeviceError Location :=
  match place.node with
  | .file _ => .error .notADirectory
  | .folder entries =>
    if part = "" ∨ part = "." then .ok place
    else if part = ".." then .ok place.parent
    else if maxNameBytes < part.utf8ByteSize then .error .nameTooLong
    else
      match entries.lookup part with
      | none => .error .notFound
      | some node => .ok ⟨node, place.node :: place.around⟩

/-- Goes on by the parts of a path. -/
def walk : Location → List String → Except DeviceError Location
  | place, [] => .ok place
  | place, part :: rest =>
    match place.enter part with
    | .error e => .error e
    | .ok place => walk place rest

/-- The place that a path leads to from a working directory. -/
def resolve (working : Location) (path : String) : Except DeviceError Location :=
  if path = "" then .error .notFound
  else if maxPathBytes < path.utf8ByteSize then .error .nameTooLong
  else if path.startsWith "/" then working.root.walk (path.splitOn "/")
  else working.walk (path.splitOn "/")

/-- Opens a file. A folder opens too, but cannot be read. -/
def openFile (working : Location) (path : String) : Except DeviceError Source :=
  match working.resolve path with
  | .error e => .error e
  | .ok ⟨.file content, _⟩ => .ok (Source.ofBytes content)
  | .ok ⟨.folder _, _⟩ => .ok ⟨[.failure]⟩

/-- Creates a file in the working directory, or empties the one that is there. A folder stays. -/
def createFile (working : Location) (name : String) : Except DeviceError Sink :=
  match working.enter name with
  | .ok ⟨.folder _, _⟩ => .error .isADirectory
  | .ok ⟨.file _, _⟩ | .error .notFound => .ok {}
  | .error e => .error e

end Location

end CellForth
