/-! # Paths

A path is a row of parts between slashes. All parts but the last lead from one folder to another,
and the last names what is read or written there. Slashes in a row count as one, a slash in front
starts the path at the root, and the part `.` leads nowhere else.

A slash at the end asks for a folder, which a file is not.
-/

namespace TurtleVM.CommandLine

/-- Why a file cannot be read or written. -/
inductive FileError where
  | notFound | isDirectory | notADirectory | nameTooLong
  deriving DecidableEq

/-- The number by which the operating system knows the reason. -/
def FileError.number : FileError → Nat
  | notFound => 2
  | notADirectory => 20
  | isDirectory => 21
  | nameTooLong => 36

/-- The reason in the words of the operating system. -/
def FileError.message (e : FileError) : String :=
  let words := match e with
    | notFound => "No such file or directory"
    | notADirectory => "Not a directory"
    | isDirectory => "Is a directory"
    | nameTooLong => "File name too long"
  words ++ " (os error " ++ toString e.number ++ ")"

/-- The reason with a given number. -/
def FileError.ofNumber? (n : Nat) : Option FileError :=
  [notFound, notADirectory, isDirectory, nameTooLong].find? fun e => e.number == n

@[simp] theorem FileError.ofNumber?_number (e : FileError) : ofNumber? e.number = some e := by
  cases e <;> rfl

example : FileError.notFound.message = "No such file or directory (os error 2)" := by decide

/-! ### Folders -/

/-- The folders that a path can lead to. -/
inductive Folder where
  /-- The folder that commands are carried out in. -/
  | working
  /-- Any of the folders above the working folder. -/
  | above
  | root
  /-- The folder `/dev`. -/
  | devices
  /-- The folder `/tmp`. -/
  | temporary
  deriving DecidableEq

/-- The folder that `..` leads to. The root is above itself. -/
def Folder.parent : Folder → Folder
  | working | above => above
  | root | devices | temporary => root

/-! ### Reading a path -/

/-- Bytes that the name of a file may have. -/
def maxNameLength : Nat := 255

/-- Bytes that a path may have. -/
def maxPathLength : Nat := 4095

/-- A path that has been read. -/
structure Path where
  start : Folder
  /-- The parts in front of the last one. -/
  leading : List String
  last : String
  /-- A slash stands at the end. -/
  closed : Bool
  deriving DecidableEq

namespace Path

/-- The parts between slashes, without the empty ones. -/
def parts (text : String) : List String :=
  ((text.toList.splitOn '/').filter fun part => !part.isEmpty).map String.ofList

/-- The path that a text writes. The slash alone writes the same as `/.`. -/
def parse (text : String) : Except FileError Path :=
  if text = "" then .error .notFound
  else if maxPathLength < text.utf8ByteSize then .error .nameTooLong
  else
    .ok { start := if text.toList.head? = some '/' then .root else .working
          leading := (parts text).dropLast
          last := (parts text).getLast?.getD "."
          closed := text.toList.getLast? = some '/' }

/-- The name stands for itself: it has no slash and is neither `.` nor `..`. -/
def IsName (name : String) : Prop :=
  name ≠ "" ∧ '/' ∉ name.toList ∧ name ≠ "." ∧ name ≠ ".." ∧ name.utf8ByteSize ≤ maxNameLength

instance (name : String) : Decidable (IsName name) :=
  inferInstanceAs (Decidable (_ ∧ _ ∧ _ ∧ _ ∧ _))

/-- A name without slashes is its own last part. -/
theorem parts_of_isName {name : String} (h : IsName name) : parts name = [name] := by
  obtain ⟨hne, hslash, -⟩ := h
  have hlist : name.toList ≠ [] := by simpa using hne
  simp [parts, List.splitOn_eq_singleton hslash, hlist]

/-- A name without slashes is a path in the working folder. -/
theorem parse_of_isName {name : String} (h : IsName name) :
    parse name = .ok ⟨.working, [], name, false⟩ := by
  have hparts := parts_of_isName h
  obtain ⟨hne, hslash, -, -, hlen⟩ := h
  have hshort : ¬ maxPathLength < name.utf8ByteSize := by
    simp only [maxNameLength] at hlen
    simp only [maxPathLength]
    omega
  -- A slash at either end would be one of the characters.
  have hhead : name.toList.head? ≠ some '/' := fun hs => hslash (List.mem_of_mem_head? hs)
  have hlast : name.toList.getLast? ≠ some '/' := fun hs => hslash (List.mem_of_getLast? hs)
  simp [parse, hne, hshort, hparts, hhead, hlast]

end Path

end TurtleVM.CommandLine
