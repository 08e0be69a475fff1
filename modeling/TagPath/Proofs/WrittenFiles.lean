import Mathlib
import TagPath.Command.Files

/-! # Files that were written

A name is followed part by part, through folders only.  A file is written where there is
no folder, so no way of a name passes its key.  Folders stay folders, and what other keys
hold stays the same; so each way leads where it led before (`goAlong_put`).  A file is
written at the key to which its name leads (`goAlong_of_target`), hence **what was written
under a name is read under it afterwards** (`read_put_of_target`).
-/
namespace TagPath.Files
variable {files : Files} {key folder next : FileKey} {bytes : ByteArray} {part name : String}

/-! ## Ways after a file was put -/

/-- Putting a file takes no folder away. -/
theorem isFolder_put (h : files.isFolder folder = true) :
    (files.put key bytes).isFolder folder = true := by
  simp only [isFolder, put, Bool.or_eq_true, List.any_eq_true] at h ⊢
  rcases h with hhome | ⟨entry, he, hin⟩
  · exact .inl hhome
  · right
    by_cases hk : entry.1 = key
    · exact ⟨(key, bytes), List.mem_cons_self, hk ▸ hin⟩
    · exact ⟨entry, List.mem_cons_of_mem _ (List.mem_filter.mpr ⟨he, by simpa using hk⟩), hin⟩

/-- A way goes on from folders only. -/
theorem folder_of_goOn (h : files.goOn folder part = .ok next) :
    (files.find? folder).isSome = false ∧ files.isFolder folder = true := by
  unfold goOn at h
  split at h
  · cases h
  · rename_i hfile
    split at h
    · cases h
    · rename_i hfolder
      simp only [Bool.not_eq_true', Bool.not_eq_false] at hfile hfolder
      exact ⟨by simpa using hfile, hfolder⟩

theorem goOn_put (hk : files.isFolder key = false) (h : files.goOn folder part = .ok next) :
    (files.put key bytes).goOn folder part = .ok next := by
  obtain ⟨hfile, hfolder⟩ := folder_of_goOn h
  have hne : folder ≠ key := by
    rintro rfl
    exact Bool.false_ne_true (hk.symm.trans hfolder)
  unfold goOn at h ⊢
  rw [find?_put_of_ne files hne, isFolder_put hfolder]
  rwa [hfolder] at h

/-- Where a way led, it still leads when a file was put at a key that is no folder. -/
theorem goAlong_put (hk : files.isFolder key = false) {parts : List String}
    (h : files.goAlong folder parts = .ok next) :
    (files.put key bytes).goAlong folder parts = .ok next := by
  induction parts generalizing folder with
  | nil => exact h
  | cons part rest ih =>
    rw [goAlong] at h ⊢
    cases hon : files.goOn folder part with
    | error fault =>
      rw [hon] at h
      cases h
    | ok inner =>
      rw [hon] at h
      rw [goOn_put hk hon]
      exact ih h

theorem goAlong_concat (files : Files) (folder : FileKey) (parts : List String) (part : String) :
    files.goAlong folder (parts ++ [part]) =
      match files.goAlong folder parts with
      | .error fault => .error fault
      | .ok inner => files.goOn inner part := by
  induction parts generalizing folder with
  | nil =>
    rw [List.nil_append, goAlong, goAlong]
    dsimp only
    cases files.goOn folder part <;> rfl
  | cons first rest ih =>
    rw [List.cons_append, goAlong, goAlong]
    cases files.goOn folder first with
    | error fault => rfl
    | ok inner => exact ih inner

/-! ## The key of a name -/

/-- An empty part leads from a folder to itself. -/
theorem isFolder_of_goOn_empty (h : files.goOn folder "" = .ok next) :
    files.isFolder next = true := by
  obtain ⟨hfile, hfolder⟩ := folder_of_goOn h
  unfold goOn at h
  rw [hfile, hfolder] at h
  obtain rfl : folder = next := by simpa using h
  exact hfolder

/-- **A file is written where its name leads**, and there is no folder. -/
theorem goAlong_of_target (h : files.target name = .ok key) :
    name.utf8ByteSize ≤ nameBound ∧
      files.goAlong (files.start name) (parts name) = .ok key ∧ files.isFolder key = false := by
  unfold target at h
  split at h
  · cases h
  rename_i hsize
  dsimp only at h
  set named := ((parts name).reverse.dropWhile (· == "")).reverse with hnamed
  split at h
  · cases h
  rename_i folder hfolder
  split at h
  · cases h
  rename_i last hlast
  split at h
  · cases h
  rename_i hkey
  obtain rfl : last = key := by simpa using h
  refine ⟨Nat.le_of_not_lt hsize, ?_, by simpa using hkey⟩
  split at hlast
  · -- the name ends with an empty part, so it leads to a folder
    exact absurd (isFolder_of_goOn_empty hlast) hkey
  · rename_i hlength
    have hall : named = parts name := by
      apply List.IsPrefix.eq_of_length_le
      · rw [hnamed, ← List.reverse_suffix, List.reverse_reverse]
        exact List.dropWhile_suffix _
      · exact Nat.le_of_not_lt hlength
    rcases List.eq_nil_or_concat named with hnil | ⟨front, final, hconcat⟩
    · rw [hnil] at hlast
      exact absurd (isFolder_of_goOn_empty hlast) hkey
    · rw [List.concat_eq_append] at hconcat
      rw [hconcat, List.dropLast_concat] at hfolder
      rw [hconcat, List.getLast?_concat] at hlast
      rw [← hall, hconcat, goAlong_concat, hfolder]
      exact hlast

/-- **What was written under a name is read under it.** -/
theorem read_put_of_target (h : files.target name = .ok key) (bytes : ByteArray) :
    (files.put key bytes).read name = .ok bytes := by
  obtain ⟨hsize, halong, hkey⟩ := goAlong_of_target h
  have hstart : (files.put key bytes).start name = files.start name := rfl
  unfold read
  rw [if_neg (Nat.not_lt_of_le hsize), hstart, goAlong_put hkey halong]
  dsimp only
  rw [find?_put_self]

end TagPath.Files
