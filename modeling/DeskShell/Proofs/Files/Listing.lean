import DeskShell.Proofs.Files.Confinement
import DeskShell.Proofs.Text.ByteOrder

/-!
# The names in a directory

A path whose pieces lead to a directory is listed (`list_of_leads`). The names come in the order of
their bytes, each one once (`pairwise_listing`), so a name that is there is shown once, as the file
or the directory that it stands for (`filter_listing`).
-/

set_option autoImplicit false

namespace DeskShell.Files

open Text Terminal

namespace FileTree

/-- What is shown of a directory: its names, each with whether it is a directory. -/
def listing (t : FileTree) (directory : Location) : List (String × Bool) :=
  (t.children directory).map fun e => (e.1, e.2.isDirectory)

variable {t : FileTree}

/-- A path whose pieces lead to a directory is found, also if a slash at its end asks for one. -/
theorem find_of_leads {path : String} (hfault : pathFault? path = none)
    (h : t.Leads (t.start path) (Path.pieces path)) :
    t.find path = .ok (t.place path, .directory) := by
  refine find_eq_ok_iff.2 ⟨hfault, ?_, h.get?_eq⟩
  unfold steps
  split
  · rw [walk_append h.walk_eq, walk_cons_eq_ok_iff]
    exact ⟨h.get?_eq, by decide, rfl⟩
  · exact h.walk_eq

theorem list_of_leads {path : String} (hfault : pathFault? path = none)
    (h : t.Leads (t.start path) (Path.pieces path)) :
    t.list path = .ok (t.listing (t.place path)) := by
  rw [FileTree.list, find_of_leads hfault h]
  rfl

section Nodup

variable (hnodup : (t.entries.map (·.1)).Nodup)
include hnodup

/-- **The names of a directory** come in the order of their bytes, each one once. -/
theorem pairwise_listing (directory : Location) :
    (t.listing directory).Pairwise fun a b =>
      a.1.toUTF8.data.toList < b.1.toUTF8.data.toList := by
  refine List.pairwise_map.2 ?_
  have hsorted := (pairwise_children t directory).and (nodup_children hnodup directory)
  refine hsorted.imp_of_mem ?_
  rintro ⟨a, entry⟩ ⟨b, entry'⟩ hmem hmem' ⟨hle, hne⟩
  -- two entries with one name would be the same entry
  have hnames : a ≠ b := by
    rintro rfl
    rw [mem_children_iff hnodup] at hmem hmem'
    rw [hmem] at hmem'
    exact hne (by rw [Option.some.inj hmem'])
  have hlt : a.toList < b.toList := String.lt_iff.1 (Std.lt_of_le_of_ne hle hnames)
  show a.toUTF8.data.toList < b.toUTF8.data.toList
  rw [data_toUTF8, data_toUTF8]
  exact encode_lt_encode hlt

/-- **A name in a directory** is shown once. -/
theorem filter_listing {directory : Location} {name : String} {entry : Entry}
    (h : t.get? (directory ++ [name]) = some entry) :
    (t.listing directory).filter (fun e => e.1 == name) = [(name, entry.isDirectory)] := by
  have hone : (t.children directory).filter (fun e => e.1 == name) = [(name, entry)] := by
    refine List.perm_singleton.1 ?_
    rw [List.perm_ext_iff_of_nodup ((nodup_children hnodup directory).filter _)
      (List.nodup_singleton _)]
    rintro ⟨other, entry'⟩
    rw [List.mem_filter, mem_children_iff hnodup, List.mem_singleton, Prod.mk.injEq, beq_iff_eq]
    constructor
    · rintro ⟨hother, rfl⟩
      rw [h] at hother
      exact ⟨rfl, (Option.some.inj hother).symm⟩
    · rintro ⟨rfl, rfl⟩
      exact ⟨h, rfl⟩
  have hmap : (t.listing directory).filter (fun e => e.1 == name)
      = ((t.children directory).filter fun e => e.1 == name).map
          fun e => (e.1, e.2.isDirectory) := by
    rw [listing, List.filter_map]
    rfl
  rw [hmap, hone]
  rfl

end Nodup

end FileTree

end DeskShell.Files
