import TurtleVM.CommandLine.Directory
import TurtleVM.Proofs.Codec

/-! # Where files stand

A path leads to a name in a folder or nowhere, and the files of the directory have no part in it:
a folder is never a file, and no file can be walked through. So a path can be written to in every
directory or in none, and reading it gives what stands at the place that writing it changes
(`Directory.read_eq_ok_iff`, `Directory.write_eq_ok_iff`). Writing changes nothing else
(`Directory.find?_put`).
-/

namespace TurtleVM.CommandLine

/-! ### Files by name -/

theorem lookup_map_replace (files : List (String × Bytes)) (name other : String) (bytes : Bytes) :
    (files.map fun (n, old) => if n = name then (name, bytes) else (n, old)).lookup other =
      if other = name then (files.lookup name).map fun _ => bytes else files.lookup other := by
  induction files with
  | nil => simp
  | cons file files ih =>
    obtain ⟨first, old⟩ := file
    by_cases hfirst : first = name
    · subst hfirst
      by_cases hother : other = first
      · simp [hother]
      · have hne : (other == first) = false := beq_false_of_ne hother
        simpa [List.lookup_cons, hother, hne] using ih
    · by_cases hother : other = first
      · subst hother
        simp [hfirst]
      · have hne : (other == first) = false := beq_false_of_ne hother
        have hne' : (name == first) = false := beq_false_of_ne (Ne.symm hfirst)
        simpa [List.lookup_cons, hfirst, hne, hne'] using ih

namespace Directory

variable {d : Directory}

/-- The directory without files. -/
def empty : Directory := ⟨[]⟩

/-- After a file is inserted it is there, and every other file is as before. -/
theorem find?_insert (d : Directory) (name other : String) (bytes : Bytes) :
    (d.insert name bytes).find? other = if other = name then some bytes else d.find? other := by
  unfold insert
  split
  · rename_i hsome
    obtain ⟨old, hold⟩ := Option.isSome_iff_exists.mp hsome
    rw [find?] at hold
    simp only [find?, lookup_map_replace, hold, Option.map_some]
  · rename_i hnone
    have hnone : d.find? name = none := Option.not_isSome_iff_eq_none.mp hnone
    have happend : (⟨d.files ++ [(name, bytes)]⟩ : Directory).find? other =
        (d.find? other).or ([(name, bytes)].lookup other) := List.lookup_append
    rw [happend]
    by_cases hother : other = name
    · simp [hother, hnone]
    · simp [List.lookup_cons, beq_false_of_ne hother, hother]

/-- Writing to a folder around the directory changes no file, and otherwise one. -/
theorem find?_put (d : Directory) (f : Folder) (name other : String) (bytes : Bytes) :
    (d.put f name bytes).find? other =
      if f = .working ∧ other = name then some bytes else d.find? other := by
  cases f with
  | working => simp [put, find?_insert]
  | above | root | devices | temporary => simp [put]

end Directory

/-! ### Folders in the way -/

/-- A part of a path can be the name of a file. -/
def Path.CanName (part : String) : Prop :=
  part ≠ "." ∧ part ≠ ".." ∧ part.utf8ByteSize ≤ maxNameLength

namespace Directory

variable {d d' : Directory} {f g : Folder} {part : String}

theorem look_of_canName (d : Directory) (f : Folder) (h : Path.CanName part) :
    d.look f part = .ok (d.entry? f part) := by
  obtain ⟨hdot, hdots, hlen⟩ := h
  simp [look, hdot, hdots, Nat.not_lt.mpr hlen]

/-- What is no name leads to a folder or is too long. -/
theorem look_of_not_canName (f : Folder) (h : ¬ Path.CanName part) :
    (∃ g, ∀ d : Directory, d.look f part = .ok (some (.folder g))) ∨
      ∀ d : Directory, d.look f part = .error .nameTooLong := by
  by_cases hdot : part = "."
  · exact .inl ⟨f, fun d => by simp [look, hdot]⟩
  by_cases hdots : part = ".."
  · exact .inl ⟨f.parent, fun d => by simp [look, hdots]⟩
  have hlen : maxNameLength < part.utf8ByteSize :=
    Nat.lt_of_not_le fun hlen => h ⟨hdot, hdots, hlen⟩
  exact .inr fun d => by simp [look, hdot, hdots, hlen]

@[simp] theorem entry?_working (d : Directory) (name : String) :
    d.entry? .working name = (d.find? name).map .file := rfl

/-- The files of the directory are no folders. -/
theorem entry?_eq_folder_iff (d d' : Directory) :
    d.entry? f part = some (.folder g) ↔ d'.entry? f part = some (.folder g) := by
  cases f with
  | working => simp
  | above | root | devices | temporary => exact Iff.rfl

theorem look_eq_folder_iff (d d' : Directory) :
    d.look f part = .ok (some (.folder g)) ↔ d'.look f part = .ok (some (.folder g)) := by
  by_cases hname : Path.CanName part
  · rw [look_of_canName d f hname, look_of_canName d' f hname, Except.ok.injEq, Except.ok.injEq]
    exact entry?_eq_folder_iff d d'
  · rcases look_of_not_canName f hname with ⟨g', hfolder⟩ | hlong
    · rw [hfolder d, hfolder d']
    · rw [hlong d, hlong d']

theorem enter_eq_ok_iff :
    d.enter f part = .ok g ↔ d.look f part = .ok (some (.folder g)) := by
  unfold enter
  cases d.look f part with
  | error e => simp
  | ok entry => rcases entry with _ | (_ | _) <;> simp

/-- Which folder a path is walked to does not depend on the files. -/
theorem walk_eq_ok_iff (d d' : Directory) {p : Path} :
    d.walk p = .ok f ↔ d'.walk p = .ok f := by
  unfold walk
  generalize p.start = start
  induction p.leading generalizing start with
  | nil => exact Iff.rfl
  | cons part parts ih =>
    simp only [List.foldlM_cons, bind_eq_ok, enter_eq_ok_iff, ih, look_eq_folder_iff d d']

end Directory

/-! ### Places -/

/-- A path ends at a file in a folder, whether there is such a file or not: it does not ask for a
folder, and its last part can be the name of a file there. -/
structure Path.EndsIn (p : Path) (f : Folder) : Prop where
  opened : p.closed = false
  walked : Directory.empty.walk p = .ok f
  named : Path.CanName p.last
  free : ∀ g, Directory.empty.entry? f p.last ≠ some (.folder g)

/-- The text of a path leads to a name in a folder. -/
def Path.LeadsTo (text : String) (f : Folder) (name : String) : Prop :=
  ∃ p, Path.parse text = .ok p ∧ p.EndsIn f ∧ p.last = name

/-- The path can be written to. -/
def Path.Writable (text : String) : Prop := ∃ f name, Path.LeadsTo text f name

namespace Path

variable {p : Path} {text name name' : String} {f f' : Folder} {d : Directory}

theorem LeadsTo.unique (h : LeadsTo text f name) (h' : LeadsTo text f' name') :
    f = f' ∧ name = name' := by
  obtain ⟨p, hp, hends, rfl⟩ := h
  obtain ⟨p', hp', hends', rfl⟩ := h'
  obtain rfl := Except.ok.inj (hp.symm.trans hp')
  exact ⟨Except.ok.inj (hends.walked.symm.trans hends'.walked), rfl⟩

/-- A name without slashes leads to itself in the working folder. -/
theorem leadsTo_of_isName (h : IsName name) : LeadsTo name .working name := by
  refine ⟨_, parse_of_isName h, ⟨rfl, rfl, h.2.2, ?_⟩, rfl⟩
  intro g
  simp [Directory.empty, Directory.find?]

/-- A path at whose end some directory has no folder ends at a file. -/
theorem endsIn_of_look {entry : Option Entry} (hwalk : d.walk p = .ok f)
    (hclosed : p.closed = false) (hlook : d.look f p.last = .ok entry)
    (hfile : ∀ g, entry ≠ some (.folder g)) : p.EndsIn f := by
  by_cases hname : CanName p.last
  · refine ⟨hclosed, (Directory.walk_eq_ok_iff _ d).mpr hwalk, hname, ?_⟩
    intro g hfolder
    rw [d.look_of_canName f hname] at hlook
    obtain rfl := Except.ok.inj hlook
    exact hfile g ((Directory.entry?_eq_folder_iff _ d).mp hfolder)
  · rcases Directory.look_of_not_canName f hname with ⟨g, hfolder⟩ | hlong
    · rw [hfolder d] at hlook
      exact absurd (Except.ok.inj hlook).symm (hfile g)
    · rw [hlong d] at hlook
      cases hlook

/-- At the end of such a path no directory has a folder. -/
theorem EndsIn.entry?_ne_folder (h : p.EndsIn f) (d : Directory) (g : Folder) :
    d.entry? f p.last ≠ some (.folder g) := by
  intro hfolder
  exact h.free g ((Directory.entry?_eq_folder_iff d _).mp hfolder)

end Path

namespace Directory

variable {d d' : Directory} {text name : String} {f : Folder} {bytes : Bytes}

/-- Reading gives the file at the place that the path leads to. -/
theorem read_eq_ok_iff : d.read text = .ok bytes ↔
    ∃ f name, Path.LeadsTo text f name ∧ d.entry? f name = some (.file bytes) := by
  simp only [read, bind_eq_ok]
  constructor
  · rintro ⟨p, hp, f, hwalk, entry, hlook, hbytes⟩
    rcases entry with _ | (g | contents)
    · simp at hbytes
    · simp at hbytes
    · cases hclosed : p.closed with
      | true => simp [hclosed] at hbytes
      | false =>
        obtain rfl : contents = bytes := by simpa [hclosed] using hbytes
        have hends := Path.endsIn_of_look hwalk hclosed hlook (by simp)
        rw [look_of_canName d f hends.named] at hlook
        exact ⟨f, p.last, ⟨p, hp, hends, rfl⟩, Except.ok.inj hlook⟩
  · rintro ⟨f, name, ⟨p, hp, hends, rfl⟩, hentry⟩
    have hlook := look_of_canName d f hends.named
    refine ⟨p, hp, f, (walk_eq_ok_iff d _).mpr hends.walked, _, hlook, ?_⟩
    simp [hentry, hends.opened]

/-- Writing puts a file at the place that the path leads to, and fails only if it leads to none. -/
theorem write_eq_ok_iff : d.write text bytes = .ok d' ↔
    ∃ f name, Path.LeadsTo text f name ∧ d' = d.put f name bytes := by
  simp only [write, bind_eq_ok]
  constructor
  · rintro ⟨p, hp, f, hwalk, hopened⟩
    cases hclosed : p.closed with
    | true => simp [hclosed] at hopened
    | false =>
      simp only [hclosed, Bool.false_eq_true, if_false] at hopened
      obtain ⟨entry, hlook, hput⟩ := bind_eq_ok.mp hopened
      have hfile : ∀ g, entry ≠ some (.folder g) := by
        rintro g rfl
        simp at hput
      have hends := Path.endsIn_of_look hwalk hclosed hlook hfile
      refine ⟨f, p.last, ⟨p, hp, hends, rfl⟩, ?_⟩
      rcases entry with _ | (g | contents)
      · exact (pure_eq_ok.mp hput).symm
      · exact absurd rfl (hfile g)
      · exact (pure_eq_ok.mp hput).symm
  · rintro ⟨f, name, ⟨p, hp, hends, rfl⟩, rfl⟩
    have hlook := look_of_canName d f hends.named
    refine ⟨p, hp, f, (walk_eq_ok_iff d _).mpr hends.walked, ?_⟩
    simp only [hends.opened, hlook]
    rcases hentry : d.entry? f p.last with _ | (g | contents)
    · rfl
    · exact absurd hentry (hends.entry?_ne_folder d g)
    · rfl

end Directory

end TurtleVM.CommandLine
