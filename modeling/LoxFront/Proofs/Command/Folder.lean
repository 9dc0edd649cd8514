import LoxFront.Command.Folder
/-!
# What paths read

A name leads to the file that has it, if the folder holds one
(`read_of_isName`). A path that names nothing ends where it has got to,
which is a directory, in the folder or above it (`read_of_isDirectory`);
but the empty path has got nowhere (`read_empty`).
-/

namespace LoxFront

namespace Folder

/-- A name that a file of a folder can have. The points are the names of
directories, a slash stands between names, and U+0000 in none. -/
structure IsName (name : String) : Prop where
  ne_empty : name ≠ ""
  ne_here : name ≠ "."
  ne_above : name ≠ ".."
  slash_not_mem : '/' ∉ name.toList
  null_not_mem : '\x00' ∉ name.toList
  size_le : name.utf8ByteSize ≤ nameLimit

/-- A path that leads to no file, as it goes up or stays where it is. It has
to be a path at all, which the empty text is not. -/
structure IsDirectory (path : String) : Prop where
  ne_empty : path ≠ ""
  size_le : path.utf8ByteSize ≤ pathLimit
  components : ∀ c ∈ components path, c = "" ∨ c = "." ∨ c = ".."

/-- A path without a slash is its only component. -/
theorem components_of_slash_not_mem {name : String} (h : '/' ∉ name.toList) :
    components name = [name] := by
  rw [Folder.components, List.splitOn_eq_singleton h, List.map_singleton, String.ofList_toList]

/-- **The empty path is missing** from every folder: it is not the folder
itself. -/
theorem read_empty (folder : Folder) : folder.read "" = .error .missing := if_pos rfl

/-- A path that is not empty and not too long is followed. -/
theorem read_eq_follow {path : String} (hne : path ≠ "") (hsize : path.utf8ByteSize ≤ pathLimit)
    (folder : Folder) :
    folder.read path =
      folder.follow (if ['/'].isPrefixOf path.toList then .above else .here) (components path) := by
  rw [read, if_neg hne, if_neg (Nat.not_lt.2 hsize)]

/-- **A name reads the file of this name**, and is missing if there is
none. -/
theorem read_of_isName {name : String} (h : IsName name) (folder : Folder) :
    folder.read name = (folder.content? name).elim (.error .missing) .ok := by
  have hsize : name.utf8ByteSize ≤ pathLimit := Nat.le_trans h.size_le (by decide)
  have hrelative : ['/'].isPrefixOf name.toList = false := by
    rw [Bool.eq_false_iff, ne_eq, List.isPrefixOf_iff_prefix]
    exact fun hslash => h.slash_not_mem (hslash.subset List.mem_cons_self)
  have hstays : (name == "" || name == ".") = false := by
    rw [beq_false_of_ne h.ne_empty, beq_false_of_ne h.ne_here, Bool.or_false]
  have hgoes : (name == "..") = false := beq_false_of_ne h.ne_above
  rw [read_eq_follow h.ne_empty hsize, hrelative, if_neg Bool.false_ne_true,
    components_of_slash_not_mem h.slash_not_mem]
  cases hcontent : folder.content? name <;>
    simp only [follow, hstays, hgoes, hcontent, Nat.not_lt.2 h.size_le] <;> rfl

/-- From any place, components that name nothing end in a directory. -/
theorem follow_of_directories {components : List String}
    (h : ∀ c ∈ components, c = "" ∨ c = "." ∨ c = "..") (folder : Folder) (place : Place) :
    folder.follow place components = .error .directory := by
  induction components generalizing place with
  | nil => rfl
  | cons c rest ih =>
    rw [List.forall_mem_cons] at h
    obtain ⟨rfl | rfl | rfl, hrest⟩ := h
    · exact ih hrest place
    · exact ih hrest place
    · exact ih hrest .above

/-- **A path that names nothing is a directory**, in the folder or above
it. -/
theorem read_of_isDirectory {path : String} (h : IsDirectory path) (folder : Folder) :
    folder.read path = .error .directory := by
  rw [read_eq_follow h.ne_empty h.size_le]
  exact follow_of_directories h.components folder _

/-- The empty path, two directories, a path that goes on behind a file, a
name in a directory above, and a file by a longer path. -/
example :
    ["", ".", "/..//.", "x/", "../x", "./x"].map (Folder.mk [("x", [64])]).read =
      [.error .missing, .error .directory, .error .directory, .error .beyondFile,
        .error .missing, .ok [64]] := by
  rfl

end Folder

end LoxFront
