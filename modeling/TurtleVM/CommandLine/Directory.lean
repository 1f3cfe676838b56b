import TurtleVM.CommandLine.Path
import TurtleVM.CommandLine.Response

/-! # Commands in a directory

Here commands are carried out on a directory that is nothing but a list of files, so that all they
do can be seen: what they show, how they end, and which files there are afterwards.

The directory is the working folder of every path. Of the folders around it only those are known
that every system has, and of what they hold only the null device, which is empty and stays so. A
file can be written there, but is not seen again.
-/

namespace TurtleVM.CommandLine

/-- Files by name. -/
structure Directory where
  files : List (String × Bytes)

/-- What a name stands for in a folder. -/
inductive Entry where
  | folder (f : Folder)
  | file (contents : Bytes)

namespace Directory

/-- The bytes of a file of the directory. -/
def find? (d : Directory) (name : String) : Option Bytes := d.files.lookup name

/-- The directory after a file is written, in the place of an older one of that name. -/
def insert (d : Directory) (name : String) (bytes : Bytes) : Directory :=
  if (d.find? name).isSome then
    ⟨d.files.map fun (other, old) => if other = name then (name, bytes) else (other, old)⟩
  else ⟨d.files ++ [(name, bytes)]⟩

/-! ### Walking a path -/

/-- What a name that is neither `.` nor `..` stands for in a folder. -/
def entry? (d : Directory) (f : Folder) (name : String) : Option Entry :=
  match f with
  | .working => (d.find? name).map .file
  | .above | .temporary => none
  | .root =>
    [("dev", Entry.folder .devices), ("tmp", Entry.folder .temporary)].lookup name
  | .devices => if name = "null" then some (.file #[]) else none

/-- What a part of a path leads to from a folder, if there is anything. -/
def look (d : Directory) (f : Folder) (part : String) : Except FileError (Option Entry) :=
  if part = "." then .ok (some (.folder f))
  else if part = ".." then .ok (some (.folder f.parent))
  else if maxNameLength < part.utf8ByteSize then .error .nameTooLong
  else .ok (d.entry? f part)

/-- The folder that a part of a path leads to. -/
def enter (d : Directory) (f : Folder) (part : String) : Except FileError Folder := do
  match ← d.look f part with
  | some (.folder f) => return f
  | some (.file _) => throw .notADirectory
  | none => throw .notFound

/-- The folder that a path's last part is looked up in. -/
def walk (d : Directory) (p : Path) : Except FileError Folder := p.leading.foldlM d.enter p.start

/-! ### Reading and writing -/

/-- The bytes of the file at a path. -/
def read (d : Directory) (path : String) : Except FileError Bytes := do
  let p ← Path.parse path
  match ← d.look (← d.walk p) p.last with
  | some (.file contents) => if p.closed then throw .notADirectory else return contents
  | some (.folder _) => throw .isDirectory
  | none => throw .notFound

/-- The directory after a file of a folder is written. -/
def put (d : Directory) (f : Folder) (name : String) (bytes : Bytes) : Directory :=
  match f with
  | .working => d.insert name bytes
  | _ => d

/-- The directory after bytes are written to a path. -/
def write (d : Directory) (path : String) (bytes : Bytes) : Except FileError Directory := do
  let p ← Path.parse path
  let f ← d.walk p
  -- A file that is asked for as a folder is refused before it is looked for.
  if p.closed then throw .isDirectory
  match ← d.look f p.last with
  | some (.folder _) => throw .isDirectory
  | some (.file _) | none => return d.put f p.last bytes

/-! ### Plain names -/

/-- A name without slashes is looked up among the files. -/
theorem look_of_isName (d : Directory) {name : String} (h : Path.IsName name) :
    d.look .working name = .ok ((d.find? name).map .file) := by
  obtain ⟨-, -, hdot, hdots, hlen⟩ := h
  have hshort : ¬ maxNameLength < name.utf8ByteSize := Nat.not_lt.mpr hlen
  simp [look, entry?, hdot, hdots, hshort]

/-- A name without slashes is read from the directory itself. -/
theorem read_of_isName (d : Directory) {name : String} (h : Path.IsName name) :
    d.read name = match d.find? name with
      | some contents => .ok contents
      | none => .error .notFound := by
  have hparse := Path.parse_of_isName h
  have hlook := d.look_of_isName h
  cases hfind : d.find? name with
  | none =>
    simp [read, hparse, walk, hlook, hfind, bind, Except.bind, pure, Except.pure, throw, throwThe,
      MonadExceptOf.throw]
  | some contents =>
    simp [read, hparse, walk, hlook, hfind, bind, Except.bind, pure, Except.pure]

/-- The only file of a directory is read back. -/
theorem read_singleton {name : String} (contents : Bytes) (h : Path.IsName name) :
    read ⟨[(name, contents)]⟩ name = .ok contents := by
  rw [read_of_isName _ h]
  simp [find?]

end Directory

/-- What is left when a command has ended. -/
structure Ending where
  output : String
  errors : String
  exitCode : Nat
  directory : Directory

namespace Response

/-- The exit code of a command. -/
def exitCode (success : Bool) : Nat := if success then 0 else 1

/-- Carries out a response in a directory. -/
def carryOut (r : Response) (d : Directory) : Ending :=
  match r.file with
  | none => ⟨r.output, r.notes ++ r.closing, exitCode r.success, d⟩
  | some (name, bytes) =>
    match d.write name bytes with
    | .ok d => ⟨r.output, r.notes ++ r.closing, exitCode r.success, d⟩
    | .error e =>
      ⟨r.output, r.notes ++ errorText (writeFailure name e.message), exitCode false, d⟩

end Response

/-- Carries out a command in a directory. -/
def Command.carryOut (c : Command) (d : Directory) : Ending :=
  match d.read c.input with
  | .ok contents => (c.respond contents).carryOut d
  | .error e => (Response.failure (readFailure c.input e.message)).carryOut d

/-- The exit code of a command line that is not a command. -/
def UsageError.exitCode : UsageError → Nat
  | helpAsked => 0
  | _ => 2

end TurtleVM.CommandLine
