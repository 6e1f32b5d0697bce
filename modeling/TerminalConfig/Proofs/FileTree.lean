import TerminalConfig.Files.Tree
import TerminalConfig.Proofs.Attempts
import TerminalConfig.Proofs.Paths
import Mathlib.Data.List.Induction

/-! # File trees — walking, opening and adding

    A walk goes through directories only (`FileTree.Passes`); it comes to where the
    names lead, or it stops at the first of them that is in no directory
    (`FileTree.walk_eq_ok`, `FileTree.walk_eq_error`).

    A file is opened at a path unless something is in the way.  What can be in the
    way is said of the tree alone (`FileTree.Obstructs`), and it is what opening
    reports (`FileTree.openToAppend_eq_error`).  Where nothing is, the file that is
    opened is the one that the path leads to (`FileTree.openToAppend_of_opens`).

    Putting a file at a place changes nothing at other places
    (`FileTree.node?_put_of_ne`), so the directories that a walk goes through are
    still there, and the path is read as what was put at its end. -/

namespace TerminalConfig

/-- No name on the way is empty, `.` or `..`. -/
def Place.IsPlain (place : Place) : Prop :=
  ∀ name ∈ place, name ≠ [] ∧ name ≠ [ascii '.'] ∧ name ≠ [ascii '.', ascii '.']

/-- Plain names lead straight down. -/
theorem Place.follow_of_isPlain {place names : Place} (h : Place.IsPlain names) :
    place.follow names = place ++ names := by
  induction names generalizing place with
  | nil => exact (List.append_nil place).symm
  | cons name names ih =>
      obtain ⟨-, hdot, hdots⟩ := h name List.mem_cons_self
      have hstep : place.step name = place ++ [name] := by
        rw [Place.step, if_neg hdot, if_neg hdots]
      rw [Place.follow, List.foldl_cons, hstep]
      show (place ++ [name]).follow names = _
      rw [ih fun n hn => h n (List.mem_cons_of_mem _ hn)]
      simp

namespace Path

variable {s : Bytes}

/-- A list that ends in a separator has an empty last segment. -/
theorem segments_concat_separator {α : Type} [DecidableEq α] {separator : α} (s : List α) :
    segments separator (s ++ [separator]) = segments separator s ++ [[]] := by
  induction s with
  | nil => exact segments_separator []
  | cons a s ih =>
      rw [List.cons_append]
      by_cases ha : a = separator
      · rw [ha, segments_separator, segments_separator, ih, List.cons_append]
      · obtain ⟨first, later, hsegments⟩ := List.exists_cons_of_ne_nil (segments_ne_nil separator s)
        rw [segments_other ha hsegments, List.cons_append]
        exact segments_other ha (by rw [ih, hsegments, List.cons_append])

/-- The names of a plain path are plain. -/
theorem isPlain_segments {path : Text} (h : Path.IsPlain path)
    (hs : Utf8.encodeEscaped? path = some s) : Place.IsPlain (segments slash s) := by
  have hsegments := Path.segments_bytes hs
  intro w hw
  obtain ⟨name, hname, hbytes⟩ : ∃ name ∈ segments (CodePoint.ofChar '/') path,
      Utf8.encodeEscaped? name = some w := by
    obtain ⟨i, hi, rfl⟩ := List.getElem_of_mem hw
    have hi' := hsegments.length_eq ▸ hi
    exact ⟨_, List.getElem_mem hi', hsegments.get hi' hi⟩
  obtain ⟨hempty, hdot, hdots⟩ := h name hname
  -- a name with the bytes of a dot is the dot
  have hof : ∀ v : Bytes, v.all (fun b => b.toNat < 0x80) → w = v → name = Text.ofBytes v := by
    rintro v hv rfl
    refine Utf8.eq_ofBytes_of_encodeEscaped? hbytes fun b hb => ?_
    exact of_decide_eq_true (List.all_eq_true.mp hv b hb)
  refine ⟨fun hw => hempty (hof [] (by decide) hw), fun hw => hdot ?_, fun hw => hdots ?_⟩
  · exact (hof _ (by decide) hw).trans (by decide)
  · exact (hof _ (by decide) hw).trans (by decide)

/-- The way of a plain path is made of all its segments. -/
theorem route_of_isPlain (h : Place.IsPlain (segments slash s)) : route s = segments slash s :=
  List.filter_eq_self.mpr fun name hname => decide_eq_true (h name hname).1

/-- A plain path begins with a name and ends with one. -/
theorem ends_of_isPlain (h : Place.IsPlain (segments slash s)) :
    s ≠ [] ∧ s.head? ≠ some slash ∧ ¬ EndsInSlash s := by
  refine ⟨?_, ?_, ?_⟩
  · rintro rfl
    exact (h [] List.mem_cons_self).1 rfl
  · intro hhead
    obtain ⟨later, rfl⟩ := List.head?_eq_some_iff.mp hhead
    rw [segments_separator] at h
    exact (h [] List.mem_cons_self).1 rfl
  · intro hlast
    obtain ⟨front, rfl⟩ := List.getLast?_eq_some_iff.mp hlast
    rw [segments_concat_separator] at h
    exact (h [] List.mem_concat_self).1 rfl

end Path

namespace FileTree

variable {tree : FileTree} {place up : Place} {names : List Bytes} {s : Bytes} {fault : FileFault}

/-! ## Walking -/

/-- Every name is looked for in a directory. -/
def Passes (tree : FileTree) (place : Place) (names : List Bytes) : Prop :=
  ∀ before, before <+: names → before ≠ names → tree.node? (place.follow before) = some .directory

theorem passes_nil (tree : FileTree) (place : Place) : tree.Passes place [] :=
  fun _ hbefore hne => absurd (List.prefix_nil.mp hbefore) hne

theorem passes_cons {name : Bytes} :
    tree.Passes place (name :: names) ↔
      tree.node? place = some .directory ∧ tree.Passes (place.step name) names := by
  constructor
  · intro h
    refine ⟨h [] List.nil_prefix (List.cons_ne_nil _ _).symm, fun before hbefore hne => ?_⟩
    exact h (name :: before) (List.cons_prefix_cons.mpr ⟨rfl, hbefore⟩) (by simpa using hne)
  · rintro ⟨hdirectory, h⟩ before hbefore hne
    rcases List.prefix_cons_iff.mp hbefore with rfl | ⟨later, rfl, hlater⟩
    · exact hdirectory
    · exact h later hlater (by simpa using hne)

/-- What stops a walk that is to go on from it. -/
inductive Stops : Option Node → FileFault → Prop
  | missing : Stops none .missing
  | notDirectory (contents : Bytes) : Stops (some (.file contents)) .notDirectory

theorem enter_eq_ok {name : Bytes} :
    tree.enter place name = .ok up ↔
      tree.node? place = some .directory ∧ place.step name = up := by
  rw [enter]
  split <;> simp [*]

theorem enter_eq_error {name : Bytes} :
    tree.enter place name = .error fault ↔ Stops (tree.node? place) fault := by
  rw [enter]
  cases tree.node? place with
  | none =>
      constructor
      · intro h
        cases h
        exact .missing
      · intro h
        cases h
        rfl
  | some node =>
      cases node with
      | file contents =>
          constructor
          · intro h
            cases h
            exact .notDirectory contents
          · intro h
            cases h
            rfl
      | directory =>
          constructor
          · intro h
            cases h
          · intro h
            cases h

theorem walk_cons {name : Bytes} :
    tree.walk place (name :: names) = (do
      let up ← tree.enter place name
      tree.walk up names) :=
  rfl

/-- A walk comes to where the names lead if it goes through directories. -/
theorem walk_eq_ok :
    tree.walk place names = .ok up ↔ tree.Passes place names ∧ place.follow names = up := by
  induction names generalizing place with
  | nil =>
      have hnil : tree.walk place [] = .ok up ↔ place = up := by
        rw [walk, List.foldlM_nil]
        exact ⟨fun h => Except.ok.inj h, fun h => h ▸ rfl⟩
      exact hnil.trans (and_iff_right (tree.passes_nil place)).symm
  | cons name names ih =>
      rw [walk_cons, bind_eq_ok, passes_cons]
      constructor
      · rintro ⟨next, henter, hwalk⟩
        obtain ⟨hdirectory, rfl⟩ := enter_eq_ok.mp henter
        obtain ⟨hpasses, hup⟩ := ih.mp hwalk
        exact ⟨⟨hdirectory, hpasses⟩, hup⟩
      · rintro ⟨⟨hdirectory, hpasses⟩, hup⟩
        exact ⟨_, enter_eq_ok.mpr ⟨hdirectory, rfl⟩, ih.mpr ⟨hpasses, hup⟩⟩

/-- A walk stops at the first of the names whose place is no directory. -/
theorem walk_eq_error :
    tree.walk place names = .error fault ↔ ∃ before, before <+: names ∧ before ≠ names ∧
      tree.Passes place before ∧ Stops (tree.node? (place.follow before)) fault := by
  induction names generalizing place with
  | nil =>
      refine iff_of_false (fun h => nomatch h) ?_
      rintro ⟨before, hbefore, hne, -⟩
      exact hne (List.prefix_nil.mp hbefore)
  | cons name names ih =>
      rw [walk_cons, bind_eq_error, enter_eq_error]
      -- the first name cannot be entered, or the walk stops at a later one
      constructor
      · rintro (hstops | ⟨next, henter, hwalk⟩)
        · exact ⟨[], List.nil_prefix, (List.cons_ne_nil _ _).symm, tree.passes_nil place, hstops⟩
        · obtain ⟨hdirectory, rfl⟩ := enter_eq_ok.mp henter
          obtain ⟨later, hlater, hne, hpasses, hstops⟩ := ih.mp hwalk
          exact ⟨name :: later, List.cons_prefix_cons.mpr ⟨rfl, hlater⟩, by simpa using hne,
            passes_cons.mpr ⟨hdirectory, hpasses⟩, hstops⟩
      · rintro ⟨before, hbefore, hne, hpasses, hstops⟩
        rcases List.prefix_cons_iff.mp hbefore with rfl | ⟨later, rfl, hlater⟩
        · exact .inl hstops
        · obtain ⟨hdirectory, hpasses⟩ := passes_cons.mp hpasses
          refine .inr ⟨_, enter_eq_ok.mpr ⟨hdirectory, rfl⟩, ih.mpr ?_⟩
          exact ⟨later, hlater, by simpa using hne, hpasses, hstops⟩

/-- The place that a path leads to. -/
def placeOf (tree : FileTree) (s : Bytes) : Place :=
  (tree.origin s).follow (Path.route s)

/-- What is found at a path whose way goes through directories is at its place. -/
theorem find_eq (hs : s ≠ []) (h : tree.Passes (tree.origin s) (Path.route s)) :
    tree.find s =
      match tree.node? (tree.placeOf s) with
      | none => .error .missing
      | some .directory => .ok .directory
      | some (.file contents) =>
          if Path.EndsInSlash s then .error .notDirectory else .ok (.file contents) := by
  rw [find, if_neg hs, walk_eq_ok.mpr ⟨h, rfl⟩]
  rfl

theorem Stops.tellsAbsence {node : Option Node} (h : Stops node fault) : fault.TellsAbsence := by
  cases h with
  | missing => decide
  | notDirectory => decide

/-- A tree always says whether anything is at a path. -/
theorem tellsAbsence_of_find (h : tree.find s = .error fault) : fault.TellsAbsence := by
  rw [find] at h
  split at h
  · cases h
    decide
  · rcases bind_eq_error.mp h with hwalk | ⟨place, -, hnode⟩
    · obtain ⟨before, -, -, -, hstops⟩ := walk_eq_error.mp hwalk
      exact hstops.tellsAbsence
    · split at hnode
      · cases hnode
        decide
      · cases hnode
      · split at hnode
        · cases hnode
          decide
        · cases hnode

/-! ## Opening a file -/

/-- What is in the way of opening a file at a path: the path is empty, a directory
    on its way is missing or is a file, or it leads to a directory or says that it
    does. -/
inductive Obstructs (tree : FileTree) (s : Bytes) : FileFault → Prop
  | empty (hs : s = []) : Obstructs tree s .missing
  | way {fault : FileFault} (before : List Bytes) (hbefore : before <+: Path.route s)
      (hne : before ≠ Path.route s) (hpasses : tree.Passes (tree.origin s) before)
      (hstops : Stops (tree.node? ((tree.origin s).follow before)) fault) : Obstructs tree s fault
  | isDirectory (hs : s ≠ []) (hpasses : tree.Passes (tree.origin s) (Path.route s))
      (h : tree.node? (tree.placeOf s) = some .directory ∨ Path.EndsInSlash s) :
      Obstructs tree s .isDirectory

/-- Nothing is in the way of opening a file at a path. -/
structure Opens (tree : FileTree) (s : Bytes) : Prop where
  nonempty : s ≠ []
  passes : tree.Passes (tree.origin s) (Path.route s)
  free : tree.node? (tree.placeOf s) ≠ some .directory
  endsInName : ¬ Path.EndsInSlash s

/-- A file can be put where a path leads. -/
theorem Opens.accepts (h : tree.Opens s) : tree.Accepts (tree.placeOf s) :=
  ⟨node?_dropLast_of_walk (node?_dropLast (tree.node?_origin s)) (walk_eq_ok.mpr ⟨h.passes, rfl⟩),
    h.free⟩

/-- A walk that is stopped is what opening reports. -/
theorem openToAppend_of_stopped (hs : s ≠ [])
    (hwalk : tree.walk (tree.origin s) (Path.route s) = .error fault) :
    tree.openToAppend s = .error fault := by
  rw [openToAppend, if_neg hs]
  split
  · next heq =>
    rw [hwalk] at heq
    cases heq
    rfl
  · next heq =>
    rw [hwalk] at heq
    cases heq

/-- Where a walk comes to a place, what is there decides. -/
theorem openToAppend_of_walked (hs : s ≠ [])
    (hwalk : tree.walk (tree.origin s) (Path.route s) = .ok place) :
    tree.openToAppend s =
      if h : tree.node? place = some .directory then .error .isDirectory
      else if Path.EndsInSlash s then .error .isDirectory
      else
        .ok (tree.openAt place
          ⟨node?_dropLast_of_walk (node?_dropLast (tree.node?_origin s)) hwalk, h⟩) := by
  rw [openToAppend, if_neg hs]
  split
  · next heq =>
    rw [hwalk] at heq
    cases heq
  · next heq =>
    rw [hwalk] at heq
    cases heq
    rfl

/-- Where nothing is in the way the file at the place of the path is opened. -/
theorem openToAppend_of_opens (h : tree.Opens s) :
    tree.openToAppend s = .ok (tree.openAt (tree.placeOf s) h.accepts) := by
  rw [openToAppend_of_walked h.nonempty (walk_eq_ok.mpr ⟨h.passes, rfl⟩)]
  exact (dif_neg h.free).trans (if_neg h.endsInName)

/-- What is in the way is reported. -/
theorem openToAppend_of_obstructs (h : tree.Obstructs s fault) :
    tree.openToAppend s = .error fault := by
  cases h with
  | empty hs => rw [openToAppend, if_pos hs]
  | way before hbefore hne hpasses hstops =>
      have hs : s ≠ [] := by
        rintro rfl
        exact hne (List.prefix_nil.mp hbefore)
      exact openToAppend_of_stopped hs (walk_eq_error.mpr ⟨before, hbefore, hne, hpasses, hstops⟩)
  | isDirectory hs hpasses h =>
      rw [openToAppend_of_walked hs (walk_eq_ok.mpr ⟨hpasses, rfl⟩)]
      split
      · rfl
      · next hfree => rw [if_pos (h.resolve_left hfree)]

/-- Something is in the way, or nothing is. -/
theorem opens_or_obstructs (tree : FileTree) (s : Bytes) :
    tree.Opens s ∨ ∃ fault, tree.Obstructs s fault := by
  by_cases hs : s = []
  · exact .inr ⟨.missing, .empty hs⟩
  cases hwalk : tree.walk (tree.origin s) (Path.route s) with
  | error fault =>
      obtain ⟨before, hbefore, hne, hpasses, hstops⟩ := walk_eq_error.mp hwalk
      exact .inr ⟨fault, .way before hbefore hne hpasses hstops⟩
  | ok place =>
      obtain ⟨hpasses, -⟩ := walk_eq_ok.mp hwalk
      by_cases hdirectory : tree.node? (tree.placeOf s) = some .directory ∨ Path.EndsInSlash s
      · exact .inr ⟨.isDirectory, .isDirectory hs hpasses hdirectory⟩
      · obtain ⟨hfree, hends⟩ := not_or.mp hdirectory
        exact .inl ⟨hs, hpasses, hfree, hends⟩

/-- A file is not opened exactly when something is in the way, for that reason. -/
theorem openToAppend_eq_error : tree.openToAppend s = .error fault ↔ tree.Obstructs s fault := by
  refine ⟨fun h => ?_, openToAppend_of_obstructs⟩
  rcases tree.opens_or_obstructs s with hopens | ⟨found, hfound⟩
  · rw [openToAppend_of_opens hopens] at h
    cases h
  · rw [openToAppend_of_obstructs hfound] at h
    cases h
    exact hfound

/-- What is opened is the file at the place of the path. -/
theorem openToAppend_eq_ok {file : OpenFile} (h : tree.openToAppend s = .ok file) :
    ∃ hopens : tree.Opens s, file = tree.openAt (tree.placeOf s) hopens.accepts := by
  rcases tree.opens_or_obstructs s with hopens | ⟨fault, hfault⟩
  · rw [openToAppend_of_opens hopens] at h
    exact ⟨hopens, (Except.ok.inj h).symm⟩
  · rw [openToAppend_of_obstructs hfault] at h
    cases h

/-- What the file at a place holds that can be opened, or that there is none. -/
theorem node?_of_accepts (h : tree.Accepts place) :
    tree.node? place = some (.file (tree.contentsAt place)) ∨
      tree.node? place = none ∧ tree.contentsAt place = [] := by
  rw [contentsAt]
  cases hnode : tree.node? place with
  | none => exact .inr ⟨rfl, rfl⟩
  | some node =>
      cases node with
      | file contents => exact .inl rfl
      | directory => exact absurd hnode h.free

/-! ## Putting a file -/

/-- Elsewhere everything is as it was. -/
theorem node?_put_of_ne {other : Place} (contents : Bytes) (h : tree.Accepts place)
    (hne : other ≠ place) : (tree.put place contents h).node? other = tree.node? other :=
  listed?_listFile contents hne

/-- Directories stay where they are. -/
theorem node?_put_of_directory {other : Place} (contents : Bytes) (h : tree.Accepts place)
    (hother : tree.node? other = some .directory) :
    (tree.put place contents h).node? other = some .directory := by
  have hne : other ≠ place := by
    rintro rfl
    exact h.free hother
  exact (node?_put_of_ne contents h hne).trans hother

/-- The directories that a walk goes through are still there. -/
theorem Passes.put (hpasses : tree.Passes up names) (contents : Bytes) (h : tree.Accepts place) :
    (tree.put place contents h).Passes up names :=
  fun before hbefore hne => node?_put_of_directory contents h (hpasses before hbefore hne)

/-- What is put at the place of a path is where the path leads. -/
theorem node?_placeOf_put (h : tree.Opens s) (contents : Bytes) :
    (tree.put (tree.placeOf s) contents h.accepts).node?
      ((tree.put (tree.placeOf s) contents h.accepts).placeOf s) = some (.file contents) :=
  node?_put contents h.accepts

/-- What is put at the place of a path is what the path is read as. -/
theorem read_put (h : tree.Opens s) (contents : Bytes) :
    (tree.put (tree.placeOf s) contents h.accepts).read s = .ok contents := by
  rw [read, find_eq h.nonempty (h.passes.put contents h.accepts), node?_placeOf_put h]
  show (if Path.EndsInSlash s then _ else _) >>= _ = _
  rw [if_neg h.endsInName]
  rfl

/-- The path can be opened again. -/
theorem Opens.put (h : tree.Opens s) (contents : Bytes) :
    (tree.put (tree.placeOf s) contents h.accepts).Opens s where
  nonempty := h.nonempty
  passes := h.passes.put contents h.accepts
  free := by
    rw [node?_placeOf_put h]
    nofun
  endsInName := h.endsInName

/-! ## Plain paths -/

/-- Whatever is above something is a directory. -/
theorem node?_of_prefix (h : tree.node? place.dropLast = some .directory) (hup : up <+: place)
    (hne : up ≠ place) : tree.node? up = some .directory := by
  -- from the end upwards: the last directory is in one itself
  induction place using List.reverseRecOn with
  | nil => exact absurd (List.prefix_nil.mp hup) hne
  | append_singleton front name ih =>
      rw [List.dropLast_concat] at h
      rcases List.prefix_concat_iff.mp hup with rfl | hup
      · exact absurd rfl hne
      · by_cases hfront : up = front
        · rw [hfront]
          exact h
        · exact ih (node?_dropLast h) hup hfront

/-- The place that a plain path names in the working directory. -/
def below (tree : FileTree) (s : Bytes) : Place :=
  tree.workingDirectory ++ Path.segments Path.slash s

/-- A plain path leads there. -/
theorem placeOf_of_isPlain (h : Place.IsPlain (Path.segments Path.slash s)) :
    tree.placeOf s = tree.below s := by
  rw [placeOf, origin, if_neg (Path.ends_of_isPlain h).2.1, Path.route_of_isPlain h,
    Place.follow_of_isPlain h, below]

/-- The way of a plain path goes through the directories above its place. -/
theorem passes_of_isPlain (h : Place.IsPlain (Path.segments Path.slash s))
    (hheld : tree.node? (tree.below s).dropLast = some .directory) :
    tree.Passes (tree.origin s) (Path.route s) := by
  intro before hbefore hne
  rw [Path.route_of_isPlain h] at hbefore hne
  have hplain : Place.IsPlain before := fun name hname => h name (hbefore.mem hname)
  rw [origin, if_neg (Path.ends_of_isPlain h).2.1, Place.follow_of_isPlain hplain]
  refine node?_of_prefix hheld ((List.prefix_append_right_inj _).mpr hbefore) fun heq => ?_
  exact hne (List.append_cancel_left heq)

/-- A plain path can be opened in a directory, where there is none. -/
theorem opens_of_isPlain (h : Place.IsPlain (Path.segments Path.slash s))
    (haccepts : tree.Accepts (tree.below s)) : tree.Opens s where
  nonempty := (Path.ends_of_isPlain h).1
  passes := passes_of_isPlain h haccepts.held
  free := placeOf_of_isPlain h ▸ haccepts.free
  endsInName := (Path.ends_of_isPlain h).2.2

end FileTree

namespace OpenFile

variable {tree : FileTree} {place other : Place} (h : tree.Accepts place) (added : Bytes)

/-- What is added to a file is behind what it held. -/
theorem node?_append_openAt :
    ((tree.openAt place h).append added).node? place
      = some (.file (tree.contentsAt place ++ added)) :=
  FileTree.node?_put _ _

/-- Elsewhere everything is as it was before the file was opened. -/
theorem node?_append_openAt_of_ne (hne : other ≠ place) :
    ((tree.openAt place h).append added).node? other = tree.node? other :=
  (FileTree.node?_put_of_ne _ _ hne).trans (FileTree.node?_put_of_ne _ h hne)

end OpenFile

end TerminalConfig
