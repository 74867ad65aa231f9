import Argunix.Lib.HashMap
import Argunix.Lib.Segments

/-!
# Directories, files, and the paths to them

A location is the list of the names on the way from the root. A path is a text: it starts at the
root or at the working directory and goes through its segments one after the other, and each step
but the last has to end in a directory. The segments `.` and `..` are not names, and neither is the
empty one.

A name is joined to the path of a directory as a text. The result is the file of that name in that
directory (`locate_join`) **if the name is the name of a file** (`FileName`). It may also have a
separator in it, or be `..`, or a path from the root, and then it is something else.

There are no links.
-/

set_option autoImplicit false

namespace Argunix.Lib

/-- The names on the way from the root. -/
abbrev Location := List String

/-- One segment of a path, seen from a directory. -/
def enter (loc : Location) (name : String) : Location :=
  if name = "" ∨ name = "." then loc
  else if name = ".." then loc.dropLast
  else loc ++ [name]

/-- Can be the name of a file. -/
def FileName (name : String) : Prop :=
  '/' ∉ name.toList ∧ Char.ofNat 0 ∉ name.toList ∧ name ≠ "" ∧ name ≠ "." ∧ name ≠ ".."

instance (name : String) : Decidable (FileName name) := by unfold FileName; infer_instance

def pathSegments (path : String) : List String :=
  (segments '/' path.toList).map String.ofList

def IsAbsolute (path : String) : Prop := path.toList.head? = some '/'

instance (path : String) : Decidable (IsAbsolute path) := by unfold IsAbsolute; infer_instance

/-- `name`, seen from the directory at `path`. -/
def join (path name : String) : String :=
  if IsAbsolute name then name
  else if path = "" ∨ path.toList.getLast? = some '/' then path ++ name
  else path ++ "/" ++ name

structure FileTree where
  dirs : List Location
  files : HashMap Location (List UInt8)
  /-- The working directory. -/
  cwd : Location

namespace FileTree

variable {t : FileTree}

/-- From a location on, through the segments of a path. -/
def walk (t : FileTree) (loc : Location) : List String → Option Location
  | [] => some loc
  | name :: names => if loc ∈ t.dirs then t.walk (enter loc name) names else none

def locate (t : FileTree) (path : String) : Option Location :=
  if Char.ofNat 0 ∈ path.toList then none
  else t.walk (if IsAbsolute path then [] else t.cwd) (pathSegments path)

/-- `none` if there is a directory. -/
def write (t : FileTree) (loc : Location) (data : List UInt8) : Option FileTree :=
  if loc ∈ t.dirs then none else some { t with files := t.files.insert loc data }

/-- `none` if there is a directory, `some none` if there is nothing. -/
def read (t : FileTree) (loc : Location) : Option (Option (List UInt8)) :=
  if loc ∈ t.dirs then none else some (t.files.lookup loc)

/-- There is a file or a directory. -/
def isThere (t : FileTree) (loc : Location) : Bool :=
  loc ∈ t.dirs ∨ (t.files.lookup loc).isSome

/-- Only files are removed. -/
def remove (t : FileTree) (loc : Location) : FileTree := { t with files := t.files.erase loc }

/-- The path leads to this directory. -/
def IsDir (t : FileTree) (path : String) (dir : Location) : Prop :=
  t.locate path = some dir ∧ dir ∈ t.dirs

/-! ## Updates -/

/-- Paths depend on the directories only. -/
def SameDirs (t t' : FileTree) : Prop := t'.dirs = t.dirs ∧ t'.cwd = t.cwd

theorem SameDirs.refl (t : FileTree) : SameDirs t t := ⟨rfl, rfl⟩

theorem SameDirs.trans {t₁ t₂ t₃ : FileTree} (h : SameDirs t₁ t₂) (h' : SameDirs t₂ t₃) :
    SameDirs t₁ t₃ := ⟨h'.1.trans h.1, h'.2.trans h.2⟩

theorem SameDirs.locate {t t' : FileTree} (h : SameDirs t t') : t'.locate = t.locate := by
  have hwalk : ∀ names loc, t'.walk loc names = t.walk loc names := by
    intro names
    induction names with
    | nil => exact fun _ => rfl
    | cons name names ih =>
      intro loc
      rw [walk, walk, h.1, ih]
  funext path
  rw [FileTree.locate, FileTree.locate, hwalk, h.2]

theorem SameDirs.isDir {t t' : FileTree} (h : SameDirs t t') : t'.IsDir = t.IsDir := by
  funext path dir
  rw [IsDir, IsDir, h.locate, h.1]

theorem sameDirs_remove (t : FileTree) (loc : Location) : SameDirs t (t.remove loc) := ⟨rfl, rfl⟩

theorem write_of_notMem {loc : Location} (h : loc ∉ t.dirs) (data : List UInt8) :
    t.write loc data = some { t with files := t.files.insert loc data } := if_neg h

/-! ## Paths -/

theorem enter_fileName {name : String} (h : FileName name) (loc : Location) :
    enter loc name = loc ++ [name] := by
  obtain ⟨_, _, hempty, hdot, hdots⟩ := h
  rw [enter, if_neg (not_or.mpr ⟨hempty, hdot⟩), if_neg hdots]

theorem walk_append (names names' : List String) (loc : Location) :
    t.walk loc (names ++ names') = (t.walk loc names).bind fun loc' => t.walk loc' names' := by
  induction names generalizing loc with
  | nil => rfl
  | cons name names ih =>
    rw [List.cons_append, walk, walk]
    split
    · exact ih _
    · rfl

theorem walk_fileName {name : String} {dir : Location} (hdir : dir ∈ t.dirs) (h : FileName name) :
    t.walk dir [name] = some (dir ++ [name]) := by
  rw [walk, if_pos hdir, walk, enter_fileName h]

theorem pathSegments_fileName {name : String} (h : FileName name) : pathSegments name = [name] := by
  rw [pathSegments, segments_of_not_mem h.1, List.map_singleton, String.ofList_toList]

theorem not_isAbsolute {name : String} (h : FileName name) : ¬ IsAbsolute name :=
  fun habs => h.1 (List.mem_of_mem_head? habs)

/-- A segment that is joined stands behind those of the path. -/
theorem pathSegments_slash (path name : String) :
    pathSegments (path ++ "/" ++ name) = pathSegments path ++ pathSegments name := by
  have htext : (path ++ "/" ++ name).toList = path.toList ++ '/' :: name.toList := by
    simp
  rw [pathSegments, htext, segments_append_sep, List.map_append]
  rfl

/-- A slash at the end of a path adds nothing but that there has to be a directory. -/
theorem walk_slash {path : String} {loc dir : Location}
    (h : t.walk loc (pathSegments (path ++ "/")) = some dir) :
    t.walk loc (pathSegments path) = some dir := by
  have hsegments : pathSegments (path ++ "/") = pathSegments path ++ [""] := by
    have heq := pathSegments_slash path ""
    rw [String.append_empty] at heq
    exact heq
  rw [hsegments, walk_append] at h
  obtain ⟨loc', hloc', hlast⟩ := Option.bind_eq_some_iff.mp h
  rw [walk] at hlast
  split at hlast
  · rw [hloc']
    exact hlast
  · cases hlast

theorem isAbsolute_append {path : String} (hempty : path ≠ "") (rest : String) :
    IsAbsolute (path ++ rest) ↔ IsAbsolute path := by
  have hne : path.toList ≠ [] := fun h => hempty (String.toList_eq_nil_iff.mp h)
  rw [IsAbsolute, IsAbsolute, String.toList_append, List.head?_append_of_ne_nil _ hne]

/-- Behind a path that is not empty, a slash stands before the name that is joined. -/
theorem join_eq {path name : String} (hempty : path ≠ "") (h : FileName name) :
    ∃ base, join path name = base ++ "/" ++ name ∧ (path = base ++ "/" ∨ path = base) := by
  rw [join, if_neg (not_isAbsolute h)]
  by_cases hslash : path.toList.getLast? = some '/'
  · obtain ⟨base, hbase⟩ := List.getLast?_eq_some_iff.mp hslash
    have hpath : path = String.ofList base ++ "/" := by
      rw [← String.toList_inj, hbase]
      simp
    exact ⟨String.ofList base, by rw [if_pos (Or.inr hslash), ← hpath], .inl hpath⟩
  · exact ⟨path, by rw [if_neg (not_or.mpr ⟨hempty, hslash⟩)], .inr rfl⟩

/-- **A file name that is joined to the path of a directory is the file of that name in it.** -/
theorem locate_join {path name : String} {dir : Location} (hdir : t.IsDir path dir)
    (h : FileName name) : t.locate (join path name) = some (dir ++ [name]) := by
  obtain ⟨hpath, hmem⟩ := hdir
  rw [locate] at hpath
  split at hpath
  · cases hpath
  rename_i hnul
  by_cases hempty : path = ""
  · -- the directory is the working directory
    subst hempty
    have hcwd : dir = t.cwd := by
      have hwalk : t.walk t.cwd [""] = some dir := hpath
      rw [walk] at hwalk
      split at hwalk
      · exact (Option.some.inj hwalk).symm
      · cases hwalk
    rw [join, if_neg (not_isAbsolute h), if_pos (Or.inl rfl), String.empty_append, locate,
      if_neg h.2.1, if_neg (not_isAbsolute h), pathSegments_fileName h, ← hcwd]
    exact walk_fileName hmem h
  · obtain ⟨base, hjoin, hbase⟩ := join_eq hempty h
    have hstart : IsAbsolute (join path name) ↔ IsAbsolute path := by
      rcases hbase with heq | heq
      · rw [hjoin, ← heq]
        exact isAbsolute_append hempty name
      · rw [hjoin, ← heq, String.append_assoc]
        exact isAbsolute_append hempty ("/" ++ name)
    have hwalk : t.walk (if IsAbsolute path then [] else t.cwd) (pathSegments base) = some dir := by
      rcases hbase with heq | heq
      · refine walk_slash ?_
        rw [← heq]
        exact hpath
      · rw [← heq]
        exact hpath
    have hclean : Char.ofNat 0 ∉ (join path name).toList := by
      have hlist : (join path name).toList = base.toList ++ '/' :: name.toList := by
        rw [hjoin]
        simp
      have hin : ∀ c ∈ base.toList, c ∈ path.toList := by
        intro c hc
        rcases hbase with heq | heq
        · rw [heq, String.toList_append]
          exact List.mem_append_left _ hc
        · rw [heq]
          exact hc
      rw [hlist, List.mem_append, List.mem_cons, not_or, not_or]
      exact ⟨fun hc => hnul (hin _ hc), by decide, h.2.1⟩
    rw [locate, if_neg hclean, if_congr hstart rfl rfl, hjoin, pathSegments_slash, walk_append,
      hwalk, pathSegments_fileName h]
    exact walk_fileName hmem h

end FileTree

end Argunix.Lib
