import DeskShell.Proofs.Files.Writing

/-!
# Writing a file again

A file that has been written can be written again, and the last text alone counts: the tree is the
one that the last write would have made by itself (`Sandbox.Writable.write_write`). The reason is
that the directories on the way are there after the first write, and that the file stands in none of
their places.
-/

set_option autoImplicit false

namespace DeskShell.Files

namespace FileTree

theorem put_put (t : FileTree) (place : Location) (first second : Entry) :
    (t.put place first).put place second = t.put place second := by
  simp [put, List.filter_append, List.filter_filter]

/-! ## What a write that succeeds has found -/

/-- Whether a path leads to a place that can receive a file. -/
structure Receives (t : FileTree) (path : String) (place : Location) : Prop where
  pathFault?_eq : pathFault? path = none
  walk_eq : t.walk (t.start path) (Path.pieces path) = .ok place
  endsInSlash_eq : Path.endsInSlash path = false
  get?_ne : t.get? place ≠ some .directory

theorem writeBytes_eq_ok_iff {t t' : FileTree} {path : String} {bytes : ByteArray} :
    t.writeBytes path bytes = (t', .ok ()) ↔
      ∃ place, t.Receives path place ∧ t' = t.put place (.file bytes) := by
  unfold writeBytes
  constructor
  · intro h
    split at h
    · cases h
    · next hfault =>
        split at h
        · cases h
        · next place hwalk =>
            split at h
            · cases h
            · next hslash =>
                split at h
                · cases h
                · next hplace =>
                    cases h
                    exact ⟨place, ⟨hfault, hwalk, by simpa using hslash, hplace⟩, rfl⟩
  · rintro ⟨place, ⟨hfault, hwalk, hslash, hplace⟩, rfl⟩
    simp only [hfault, hwalk, hslash, Bool.false_eq_true, if_false]

/-- A tree with a file in a place still receives a file there. -/
theorem Receives.put {t : FileTree} {path : String} {place : Location} (h : t.Receives path place)
    (bytes : ByteArray) : (t.put place (.file bytes)).Receives path place := by
  have hne : place ≠ [] := by
    rintro rfl
    exact h.get?_ne rfl
  refine ⟨h.pathFault?_eq, ?_, h.endsInSlash_eq, ?_⟩
  · rw [start_of_workingDirectory (t.workingDirectory_put place _)]
    exact walk_put h.get?_ne _ h.walk_eq
  · rw [get?_put_self t _ hne]
    exact fun heq => by cases heq

theorem get?_put_of_directory {t : FileTree} {place : Location}
    (hplace : t.get? place ≠ some .directory) (entry : Entry) {d : Location}
    (hd : t.get? d = some .directory) : (t.put place entry).get? d = some .directory := by
  have hne : d ≠ place := by
    rintro rfl
    exact hplace hd
  rw [get?_put_of_ne t entry hne, hd]

/-! ## Directories that have been made -/

theorem makeSteps_of_directory {t : FileTree} {base : Location} {piece : String}
    (rest : List String) (hhere : piece ≠ Path.here) (hup : piece ≠ Path.up)
    (hlong : ¬ maxName < piece.utf8ByteSize) (h : t.get? (base ++ [piece]) = some .directory) :
    t.makeSteps base (piece :: rest) = t.makeSteps (base ++ [piece]) rest := by
  simp only [makeSteps, if_neg hhere, if_neg hup, if_neg hlong, h]

theorem makeSteps_of_made {t t' : FileTree} {base : Location} {steps : List String}
    (h : t.makeSteps base steps = (t', .ok ())) {t'' : FileTree}
    (hthere : ∀ d, t'.get? d = some .directory → t''.get? d = some .directory) :
    t''.makeSteps base steps = (t'', .ok ()) := by
  fun_induction FileTree.makeSteps t base steps with
  | case1 t base => rfl
  | case2 t base rest ih => simpa only [makeSteps, if_pos] using ih h
  | case3 t base rest hhere ih =>
      simpa only [makeSteps, if_neg hhere, if_pos] using ih h
  | case4 t base piece rest hhere hup hlong => cases h
  | case5 t base piece rest hhere hup hlong next hnext ih =>
      have hextends := t.makeSteps_extends next rest
      rw [h] at hextends
      rw [makeSteps_of_directory rest hhere hup hlong (hthere next (hextends.get?_eq _ _ hnext))]
      exact ih h
  | case6 t base piece rest hhere hup hlong next bytes hnext => cases h
  | case7 t base piece rest hhere hup hlong next hnext hrest => cases h
  | case8 t base piece rest hhere hup hlong next hnext hrest ih =>
      have hmade : (t.put next .directory).get? next = some .directory :=
        get?_put_self t _ (by simp [next])
      have hextends := (t.put next .directory).makeSteps_extends next rest
      rw [h] at hextends
      rw [makeSteps_of_directory rest hhere hup hlong (hthere next (hextends.get?_eq _ _ hmade))]
      exact ih h

theorem makeDirectories_of_made {t t' : FileTree} {path : String}
    (h : t.makeDirectories path = (t', .ok ())) {t'' : FileTree}
    (hworking : t''.workingDirectory = t.workingDirectory)
    (hthere : ∀ d, t'.get? d = some .directory → t''.get? d = some .directory) :
    t''.makeDirectories path = (t'', .ok ()) := by
  unfold makeDirectories at h ⊢
  split
  · rfl
  · next hne =>
      rw [if_neg hne] at h
      cases hfault : pathFault? path with
      | some fault =>
          rw [hfault] at h
          cases h
      | none =>
          rw [hfault] at h
          rw [start_of_workingDirectory hworking]
          exact makeSteps_of_made h hthere

/-- **A file that has been written is written again**, and the last text alone counts. -/
theorem writeText_writeText {t t' : FileTree} {path first : String}
    (h : t.writeText path first = (t', .ok ())) (second : String) :
    t'.writeText path second = t.writeText path second ∧
      (t.writeText path second).2 = .ok () := by
  unfold writeText at h
  cases hmade : t.makeDirectories ((Path.parent? path).getD "") with
  | mk t₁ made =>
      rw [hmade] at h
      cases made with
      | error fault => cases h
      | ok _ =>
          obtain ⟨place, hreceives, rfl⟩ := writeBytes_eq_ok_iff.1 h
          have hworking : (t₁.put place (.file first.toUTF8)).workingDirectory
              = t.workingDirectory := by
            have hextends := t.makeDirectories_extends ((Path.parent? path).getD "")
            rw [hmade] at hextends
            exact hextends.workingDirectory_eq
          have hagain := makeDirectories_of_made hmade hworking
            fun d hd => get?_put_of_directory hreceives.get?_ne _ hd
          have hfirst : t₁.writeBytes path second.toUTF8
              = (t₁.put place (.file second.toUTF8), .ok ()) :=
            writeBytes_eq_ok_iff.2 ⟨place, hreceives, rfl⟩
          have hsecond : (t₁.put place (.file first.toUTF8)).writeBytes path second.toUTF8
              = (t₁.put place (.file second.toUTF8), .ok ()) :=
            writeBytes_eq_ok_iff.2 ⟨place, hreceives.put _, (put_put t₁ place _ _).symm⟩
          simp only [writeText, hmade, hagain, hfirst, hsecond, and_self]

end FileTree

namespace Sandbox

def Writable (root : String) (t : FileTree) (path : String) : Prop :=
  ∃ text, (write root t path text).2 = .ok ()

/-- **Writing a file again.** Where a file can be written, any text can be, and a text that was
written before makes no difference. -/
theorem Writable.write_write {root : String} {t : FileTree} {path : String}
    (h : Writable root t path) (first second : String) :
    (write root t path first).2 = .ok () ∧
      write root (write root t path first).1 path second = write root t path second := by
  have hagain : ∀ {first : String}, (write root t path first).2 = .ok () → ∀ second,
      write root (write root t path first).1 path second = write root t path second ∧
        (write root t path second).2 = .ok () := by
    intro first h second
    unfold write at h ⊢
    cases hresolve : resolve root path with
    | error refusal =>
        rw [hresolve] at h
        cases h
    | ok target =>
        simp only [hresolve] at h ⊢
        cases hwrite : t.writeText target first with
        | mk t' written =>
            cases written with
            | error fault => simp [hwrite, blame] at h
            | ok _ =>
                obtain ⟨hsame, hok⟩ := FileTree.writeText_writeText hwrite second
                simp only [hsame, hok, blame, and_self]
  obtain ⟨text, htext⟩ := h
  have hfirst := (hagain htext first).2
  exact ⟨hfirst, (hagain hfirst second).1⟩

end Sandbox

end DeskShell.Files
