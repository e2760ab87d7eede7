import AwaitStore.Bench.Suite
import AwaitStore.Config.Load

namespace AwaitStore.CommandLine

inductive Node where
  | file (contents : Bytes)
  | directory (entries : List (String × Node))

abbrev Entries := List (String × Node)

def Entries.put (entries : Entries) (name : String) (node : Node) : Entries :=
  (name, node) :: entries.filter fun e => e.1 != name

/-- The way from the root to a place: each name on it beside the directory that the name is in, the last
name first. The way to the root is empty. -/
abbrev Way := List (String × Entries)

def Entries.rootAbove (entries : Entries) : Way → Entries
  | [] => entries
  | (name, siblings) :: above => (siblings.put name (.directory entries)).rootAbove above

structure Files where
  root : Entries
  /-- The directory where paths start that do not start at the root, as the names that lead to it. -/
  working : List String

inductive PathFault where
  | missing
  | notDirectory
  | tooLong
  | cut
  | occupied
  deriving DecidableEq, Repr

def maxName : Nat := 255

def maxPath : Nat := 4095

/-- A path, and the paths of the directories above it, from the nearest one up. Empty names and dots do
not count, so above a directory with a dot behind it stands what stands above the directory. A path that
is too long leads nowhere, whatever is above it. -/
def directories (path : String) : List String :=
  let root := if path.startsWith "/" then "/" else ""
  let names := (path.splitOn "/").filter fun name => name ≠ "" ∧ name ≠ "."
  let above (count : Nat) := root ++ String.intercalate "/" (names.take count)
  if path = "" then []
  else if path.utf8ByteSize > maxPath then [path]
  else path :: (List.range' 1 (names.length - 1)).reverse.map above

namespace Files

/-- Directories that every host has at its root, with nothing in them here. -/
def standard : List String := ["bin", "etc", "home", "lib", "proc", "root", "sys", "usr", "var"]

/-- A working directory with nothing in it, among those for temporary files, and the device that is
always empty. -/
def blank : Files where
  root := ("tmp", .directory [("work", .directory [])]) :: ("dev", .directory [("null", .file [])]) ::
    standard.map fun name => (name, .directory [])
  working := ["tmp", "work"]

def node? (files : Files) : Way → Option Node
  | [] => some (.directory files.root)
  | (name, siblings) :: _ => siblings.lookup name

def add (files : Files) (node : Node) : Way → Files
  | [] => files
  | (name, siblings) :: above => { files with root := (siblings.put name node).rootAbove above }

/-- One name further. An empty name and a dot stay in a directory, and two dots leave it; the root is
left for itself. -/
def enter (files : Files) (way : Way) (name : String) : Except PathFault Way :=
  match files.node? way with
  | none => .error .missing
  | some (.file _) => .error .notDirectory
  | some (.directory entries) =>
      if name = "" ∨ name = "." then .ok way
      else if name = ".." then .ok way.tail
      else if name.utf8ByteSize > maxName then .error .tooLong
      else .ok ((name, entries) :: way)

def follow (files : Files) (names : List String) : Except PathFault Way := names.foldlM files.enter []

def route (files : Files) (path : String) : Except PathFault (List String) :=
  if path.contains '\x00' then .error .cut
  else if path = "" then .error .missing
  else if path.utf8ByteSize > maxPath then .error .tooLong
  else .ok (if path.startsWith "/" then path.splitOn "/" else files.working ++ path.splitOn "/")

/-- The way that a path leads. Nothing needs to be at its end yet, but the end is in a directory. -/
def locate (files : Files) (path : String) : Except PathFault Way := do
  files.follow (← files.route path)

def entry (files : Files) (path : String) : Config.Entry :=
  match files.locate path with
  | .error _ => .absent
  | .ok way =>
      match files.node? way with
      | none => .absent
      | some (.directory _) => .unreadable
      | some (.file contents) => .file contents

def write (files : Files) (path : String) (contents : Bytes) : Except PathFault Files := do
  let way ← files.locate path
  match files.node? way with
  | some (.directory _) => .error .occupied
  | none | some (.file _) => .ok (files.add (.file contents) way)

def makeDirectory (files : Files) (path : String) : Except PathFault Files := do
  let names ← files.route path
  let way ← files.follow (names.reverse.dropWhile (· = "")).reverse
  match files.node? way with
  | none => .ok (files.add (.directory []) way)
  | some (.directory _) => .ok files
  | some (.file _) => .error .occupied

def makeWay (files : Files) : List String → Except PathFault Files
  | [] => .ok files
  | path :: above =>
      match files.makeDirectory path with
      | .error .missing => do
          let files ← files.makeWay above
          files.makeDirectory path
      | made => made

def makeDirectories (files : Files) (path : String) : Except PathFault Files :=
  files.makeWay (directories path)

def put (files : Files) (path : String) (contents : Bytes) : Except PathFault Files := do
  let directory := String.intercalate "/" (path.splitOn "/").dropLast
  let files ← files.makeDirectories directory
  files.write path contents

def accepts (files : Files) (path : String) : Bool :=
  match files.write path [] with
  | .ok _ => true
  | .error _ => false

def outlet (files : Files) (directory : String) : Bench.Outlet :=
  match files.makeDirectories directory with
  | .error _ => ⟨false, fun _ => false⟩
  | .ok files => ⟨true, files.accepts⟩

end Files

end AwaitStore.CommandLine
