import TerminalConfig.Files.Path
import TerminalConfig.Lexical.Alphabet

/-! # File trees — the files that a run can see and change

    A tree lists what is below the root, and each thing in it is in a directory
    of it (`FileTree.WellFormed`).  A path that begins with a slash is walked
    from the root, and any other from the working directory; each step is made
    from a directory.

    A file is opened before anything is written to it.  Opening creates the file
    if there is none, and `OpenFile` is the tree in which it is there.  A tree
    denies nothing and has no limits: names may be of any length, and files too. -/

namespace TerminalConfig

/-- The way from the root down to a file. -/
abbrev Place := List Bytes

/-- What is at a place. -/
inductive Node
  | file (contents : Bytes)
  | directory
deriving DecidableEq

/-- Why the system does not do what it is asked: the number of the error, and
    the words for it. -/
structure FileFault where
  number : Nat
  description : String
deriving DecidableEq, Repr

namespace FileFault

def missing : FileFault := ⟨2, "No such file or directory"⟩

def denied : FileFault := ⟨13, "Permission denied"⟩

def notDirectory : FileFault := ⟨20, "Not a directory"⟩

def isDirectory : FileFault := ⟨21, "Is a directory"⟩

/-- The errors that mean that nothing is at a path: besides those for a missing
    name and for a file on the way, those for a bad descriptor and for a circle
    of links. -/
def absenceNumbers : List Nat := [2, 20, 9, 40]

/-- The fault tells that nothing is at the path. -/
def TellsAbsence (fault : FileFault) : Prop :=
  fault.number ∈ absenceNumbers

instance (fault : FileFault) : Decidable fault.TellsAbsence :=
  inferInstanceAs (Decidable (fault.number ∈ absenceNumbers))

/-- The fault as a text. -/
def words (fault : FileFault) : Text :=
  "[Errno " ++ Text.decimal fault.number ++ "] " ++ Text.ofString fault.description

/-- The fault as a text that names a path. -/
def message (fault : FileFault) (path : Text) : Text :=
  fault.words ++ ": " ++ path.quoted

end FileFault

namespace Place

/-- Where a name leads from a directory: nothing is above the root. -/
def step (place : Place) (name : Bytes) : Place :=
  if name = [ascii '.'] then place
  else if name = [ascii '.', ascii '.'] then place.dropLast
  else place ++ [name]

/-- Where names lead, one after another. -/
def follow (place : Place) (names : List Bytes) : Place :=
  names.foldl step place

end Place

namespace Path

/-- The names on the way that a path describes. -/
def route (path : Bytes) : List Bytes :=
  (segments slash path).filter (· ≠ [])

/-- A path that ends in a slash is one to a directory. -/
def EndsInSlash (path : Bytes) : Prop :=
  path.getLast? = some slash

instance (path : Bytes) : Decidable (EndsInSlash path) :=
  inferInstanceAs (Decidable (path.getLast? = some slash))

end Path

namespace FileTree

/-- What the list has at a place; the root is there without being listed. -/
def listed? (nodes : List (Place × Node)) (place : Place) : Option Node :=
  if place = [] then some .directory else nodes.lookup place

/-- Nothing is listed twice, whatever is listed is in a directory, and so is the
    one who works. -/
structure WellFormed (nodes : List (Place × Node)) (workingDirectory : Place) : Prop where
  distinct : (nodes.map (·.1)).Nodup
  below : ∀ entry ∈ nodes, entry.1 ≠ []
  held : ∀ entry ∈ nodes, listed? nodes entry.1.dropLast = some .directory
  working : listed? nodes workingDirectory = some .directory

instance (nodes : List (Place × Node)) (workingDirectory : Place) :
    Decidable (WellFormed nodes workingDirectory) :=
  decidable_of_iff
    ((nodes.map (·.1)).Nodup ∧ (∀ entry ∈ nodes, entry.1 ≠ []) ∧
      (∀ entry ∈ nodes, listed? nodes entry.1.dropLast = some .directory) ∧
      listed? nodes workingDirectory = some .directory)
    ⟨fun h => ⟨h.1, h.2.1, h.2.2.1, h.2.2.2⟩, fun h => ⟨h.1, h.2, h.3, h.4⟩⟩

end FileTree

/-- The files and directories below the root, and the directory that paths begin
    in. -/
structure FileTree where
  nodes : List (Place × Node) := []
  workingDirectory : Place := []
  wellFormed : FileTree.WellFormed nodes workingDirectory := by decide
deriving DecidableEq

namespace FileTree

/-- What is at a place of the tree. -/
def node? (tree : FileTree) (place : Place) : Option Node :=
  listed? tree.nodes place

/-- Whatever is there is in a directory. -/
theorem node?_dropLast {tree : FileTree} {place : Place} {node : Node}
    (h : tree.node? place = some node) : tree.node? place.dropLast = some .directory := by
  rw [node?, listed?] at h
  split at h
  · next hroot =>
    rw [hroot]
    rfl
  · obtain ⟨before, after, hnodes, -⟩ := List.lookup_eq_some_iff.mp h
    exact tree.wellFormed.held (place, node) (by simp [hnodes])

/-- Goes on by one name from what has to be a directory. -/
def enter (tree : FileTree) (place : Place) (name : Bytes) : Except FileFault Place :=
  match tree.node? place with
  | none => .error .missing
  | some (.file _) => .error .notDirectory
  | some .directory => .ok (place.step name)

/-- Where a path begins. -/
def origin (tree : FileTree) (path : Bytes) : Place :=
  if path.head? = some Path.slash then [] else tree.workingDirectory

/-- Goes where names lead. -/
def walk (tree : FileTree) (place : Place) (names : List Bytes) : Except FileFault Place :=
  names.foldlM tree.enter place

/-- What is at a path. -/
def find (tree : FileTree) (path : Bytes) : Except FileFault Node := do
  if path = [] then .error .missing
  else
    let place ← tree.walk (tree.origin path) (Path.route path)
    match tree.node? place with
    | none => .error .missing
    | some .directory => .ok .directory
    | some (.file contents) =>
        if Path.EndsInSlash path then .error .notDirectory else .ok (.file contents)

/-- The contents of the file at a path. -/
def read (tree : FileTree) (path : Bytes) : Except FileFault Bytes := do
  match ← tree.find path with
  | .directory => .error .isDirectory
  | .file contents => .ok contents

/-! ## Changing a file -/

/-- A file can be put at the place: in a directory, and not in the place of one. -/
structure Accepts (tree : FileTree) (place : Place) : Prop where
  held : tree.node? place.dropLast = some .directory
  free : tree.node? place ≠ some .directory

/-- The list with a file at a place. -/
def listFile (nodes : List (Place × Node)) (place : Place) (contents : Bytes) :
    List (Place × Node) :=
  (place, .file contents) :: nodes.filter (·.1 != place)

/-- What is at any other place stays there. -/
theorem listed?_listFile {nodes : List (Place × Node)} {place other : Place} (contents : Bytes)
    (h : other ≠ place) : listed? (listFile nodes place contents) other = listed? nodes other := by
  have hother : (other == place) = false := by simpa using h
  have hfilter : (nodes.filter (·.1 != place)).lookup other = nodes.lookup other := by
    induction nodes with
    | nil => rfl
    | cons entry nodes ih =>
        obtain ⟨key, node⟩ := entry
        by_cases hkey : key = place
        · rw [List.filter_cons_of_neg (by simp [hkey]), ih, List.lookup_cons, hkey, hother]
        · rw [List.filter_cons_of_pos (by simp [hkey]), List.lookup_cons, List.lookup_cons, ih]
  rw [listed?, listed?, listFile, List.lookup_cons, hother, hfilter]

/-- Putting a file where one can be put keeps the tree well-formed. -/
theorem wellFormed_listFile {tree : FileTree} {place : Place} (contents : Bytes)
    (h : tree.Accepts place) :
    WellFormed (listFile tree.nodes place contents) tree.workingDirectory := by
  -- a directory is at another place than the file, and stays there
  have hstays : ∀ {other : Place}, tree.node? other = some .directory →
      listed? (listFile tree.nodes place contents) other = some .directory := by
    intro other hother
    have hne : other ≠ place := by
      rintro rfl
      exact h.free hother
    exact (listed?_listFile contents hne).trans hother
  have hplace : place ≠ [] := by
    rintro rfl
    exact h.free rfl
  refine ⟨?_, ?_, ?_, hstays tree.wellFormed.working⟩
  · rw [listFile, List.map_cons, List.nodup_cons]
    refine ⟨?_, tree.wellFormed.distinct.sublist (List.filter_sublist.map _)⟩
    simp
  · refine List.forall_mem_cons.mpr ⟨hplace, fun entry hentry => ?_⟩
    exact tree.wellFormed.below entry (List.mem_filter.mp hentry).1
  · refine List.forall_mem_cons.mpr ⟨hstays h.held, fun entry hentry => ?_⟩
    exact hstays (tree.wellFormed.held entry (List.mem_filter.mp hentry).1)

/-- The tree with a file at a place. -/
def put (tree : FileTree) (place : Place) (contents : Bytes) (h : tree.Accepts place) :
    FileTree where
  nodes := listFile tree.nodes place contents
  workingDirectory := tree.workingDirectory
  wellFormed := wellFormed_listFile contents h

/-- What is put at a place is there. -/
theorem node?_put {tree : FileTree} {place : Place} (contents : Bytes) (h : tree.Accepts place) :
    (tree.put place contents h).node? place = some (.file contents) := by
  have hplace : place ≠ [] := by
    rintro rfl
    exact h.free rfl
  show listed? (listFile tree.nodes place contents) place = _
  rw [listed?, if_neg hplace, listFile, List.lookup_cons, beq_self_eq_true]

/-- A file can be put in the place of a file. -/
theorem accepts_of_file {tree : FileTree} {place : Place} {contents : Bytes}
    (h : tree.node? place = some (.file contents)) : tree.Accepts place :=
  ⟨node?_dropLast h, by simp [h]⟩

/-- What the file at a place holds; nothing, if there is none. -/
def contentsAt (tree : FileTree) (place : Place) : Bytes :=
  match tree.node? place with
  | some (.file contents) => contents
  | _ => []

end FileTree

/-- A file of a tree that is open to be added to. -/
structure OpenFile where
  tree : FileTree
  place : Place
  contents : Bytes
  isFile : tree.node? place = some (.file contents)

namespace OpenFile

/-- The tree after bytes have been added to the end of the file. -/
def append (file : OpenFile) (added : Bytes) : FileTree :=
  file.tree.put file.place (file.contents ++ added) (FileTree.accepts_of_file file.isFile)

end OpenFile

namespace FileTree

/-- Opens the file at a place, which is created if it is missing. -/
def openAt (tree : FileTree) (place : Place) (h : tree.Accepts place) : OpenFile where
  tree := tree.put place (tree.contentsAt place) h
  place := place
  contents := tree.contentsAt place
  isFile := node?_put _ h

/-- What a walk comes to is in a directory, if what it begins at is. -/
theorem node?_dropLast_of_walk {tree : FileTree} {place up : Place} {names : List Bytes}
    (hplace : tree.node? place.dropLast = some .directory)
    (h : tree.walk place names = .ok up) : tree.node? up.dropLast = some .directory := by
  induction names generalizing place with
  | nil =>
      cases h
      exact hplace
  | cons name names ih =>
      rw [walk, List.foldlM_cons, enter] at h
      cases hnode : tree.node? place with
      | none =>
          rw [hnode] at h
          cases h
      | some node =>
          rw [hnode] at h
          cases node with
          | file contents => cases h
          | directory =>
              refine ih ?_ h
              rw [Place.step]
              split
              · exact hplace
              split
              · exact node?_dropLast hplace
              · rw [List.dropLast_concat]
                exact hnode

/-- A path begins in a directory of the tree. -/
theorem node?_origin (tree : FileTree) (path : Bytes) :
    tree.node? (tree.origin path) = some .directory := by
  rw [origin]
  split
  · rfl
  · exact tree.wellFormed.working

/-- Opens the file at a path to be added to. -/
def openToAppend (tree : FileTree) (path : Bytes) : Except FileFault OpenFile :=
  if path = [] then .error .missing
  else
    match hwalk : tree.walk (tree.origin path) (Path.route path) with
    | .error fault => .error fault
    | .ok place =>
        if h : tree.node? place = some .directory then .error .isDirectory
        else if Path.EndsInSlash path then .error .isDirectory
        else
          .ok (tree.openAt place
            ⟨node?_dropLast_of_walk (node?_dropLast (tree.node?_origin path)) hwalk, h⟩)

/-- The files of the tree with their contents. -/
def files (tree : FileTree) : List (Place × Bytes) :=
  tree.nodes.filterMap fun
    | (place, .file contents) => some (place, contents)
    | (_, .directory) => none

end FileTree

end TerminalConfig
