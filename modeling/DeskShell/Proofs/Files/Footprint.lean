import DeskShell.Proofs.Files.Overwriting
import DeskShell.Proofs.Files.Places

/-!
# What becomes of the other files

What an operation can have changed in a tree is bounded by two sets of locations (`Footprint`): in
the one a directory may stand where there was nothing, in the other a file may stand where there was
no directory. Nothing else changes, so nothing is ever deleted or renamed. Making directories has
the beginnings of the path in the first set; a write has the file itself in the second.

Footprints are put one after the other (`Footprint.trans`), which carries them from one request to
any number of them.
-/

set_option autoImplicit false

namespace DeskShell.Files

namespace FileTree

/-- A tree and what has become of it: there may be new directories and new or changed files in the
given locations, and all others hold what they held. -/
structure Footprint (directories files : Location → Prop) (t t' : FileTree) : Prop where
  workingDirectory_eq : t'.workingDirectory = t.workingDirectory
  get?_cases : ∀ place, t'.get? place = t.get? place ∨
    (directories place ∧ t.get? place = none ∧ t'.get? place = some .directory) ∨
      files place ∧ t.get? place ≠ some .directory ∧ ∃ bytes, t'.get? place = some (.file bytes)

namespace Footprint

variable {directories files : Location → Prop} {t t₁ t₂ t₃ : FileTree}

theorem refl (t : FileTree) : Footprint directories files t t := ⟨rfl, fun _ => .inl rfl⟩

theorem trans (h : Footprint directories files t₁ t₂) (h' : Footprint directories files t₂ t₃) :
    Footprint directories files t₁ t₃ := by
  refine ⟨h'.workingDirectory_eq.trans h.workingDirectory_eq, fun place => ?_⟩
  rcases h'.get?_cases place with hsame' | ⟨hplace', hnone', hmade'⟩ | ⟨hplace', hdir', hfile'⟩
  · rw [hsame']
    exact h.get?_cases place
  · rcases h.get?_cases place with hsame | ⟨-, -, hmade⟩ | ⟨-, -, bytes, hfile⟩
    · exact .inr (.inl ⟨hplace', hsame ▸ hnone', hmade'⟩)
    -- a directory or file that has been made is still there
    · rw [hmade] at hnone'
      cases hnone'
    · rw [hfile] at hnone'
      cases hnone'
  · rcases h.get?_cases place with hsame | ⟨-, -, hmade⟩ | ⟨-, hdir, -⟩
    · exact .inr (.inr ⟨hplace', hsame ▸ hdir', hfile'⟩)
    · exact absurd hmade hdir'
    · exact .inr (.inr ⟨hplace', hdir, hfile'⟩)

theorem put_directory {place : Location} (hplace : directories place) (h : t.get? place = none) :
    Footprint directories files t (t.put place .directory) := by
  have hne : place ≠ [] := by
    rintro rfl
    cases h
  refine ⟨rfl, fun other => ?_⟩
  by_cases hother : other = place
  · subst hother
    exact .inr (.inl ⟨hplace, h, get?_put_self t _ hne⟩)
  · exact .inl (get?_put_of_ne t _ hother)

theorem put_file {place : Location} (hplace : files place) (h : t.get? place ≠ some .directory)
    (bytes : ByteArray) : Footprint directories files t (t.put place (.file bytes)) := by
  have hne : place ≠ [] := by
    rintro rfl
    exact h rfl
  refine ⟨rfl, fun other => ?_⟩
  by_cases hother : other = place
  · subst hother
    exact .inr (.inr ⟨hplace, h, bytes, get?_put_self t _ hne⟩)
  · exact .inl (get?_put_of_ne t _ hother)

theorem directory_mono (h : Footprint directories files t₁ t₂) {place : Location}
    (hplace : t₁.get? place = some .directory) : t₂.get? place = some .directory := by
  rcases h.get?_cases place with hsame | ⟨-, hnone, -⟩ | ⟨-, hne, -⟩
  · rw [hsame, hplace]
  · rw [hplace] at hnone
    cases hnone
  · exact absurd hplace hne

theorem directory_cases (h : Footprint directories files t₁ t₂) {place : Location}
    (hplace : t₂.get? place = some .directory) :
    t₁.get? place = some .directory ∨ t₁.get? place = none ∧ directories place := by
  rcases h.get?_cases place with hsame | ⟨hmem, hnone, -⟩ | ⟨-, -, bytes, hfile⟩
  · exact .inl (hsame ▸ hplace)
  · exact .inr ⟨hnone, hmem⟩
  · rw [hfile] at hplace
    cases hplace

/-- Where there are no new or changed files, the files are what they were. -/
theorem file_iff (h : Footprint directories (fun _ => False) t₁ t₂) (place : Location)
    (bytes : ByteArray) :
    t₂.get? place = some (.file bytes) ↔ t₁.get? place = some (.file bytes) := by
  rcases h.get?_cases place with hsame | ⟨-, hnone, hmade⟩ | ⟨hfalse, -⟩
  · rw [hsame]
  · simp [hnone, hmade]
  · exact hfalse.elim

end Footprint

/-! ## Making directories -/

variable {directories files : Location → Prop}

/-- **Directories are made on the way only**, whether all of them can be made or not. -/
theorem makeSteps_footprint (t : FileTree) (base : Location) (steps : List String)
    (h : ∀ place, OnTheWay base steps place → directories place) :
    Footprint directories files t (t.makeSteps base steps).1 := by
  fun_induction FileTree.makeSteps t base steps with
  | case1 t base => exact .refl t
  | case2 t base rest ih =>
      refine ih fun place hplace => h place (onTheWay_cons.2 (.inr ?_))
      rwa [locate, if_pos rfl]
  | case3 t base rest hhere ih =>
      refine ih fun place hplace => h place (onTheWay_cons.2 (.inr ?_))
      rwa [locate, if_neg hhere, if_pos rfl]
  | case4 t base piece rest hhere hup hlong => exact .refl t
  | case5 t base piece rest hhere hup hlong next hnext ih =>
      refine ih fun place hplace => h place (onTheWay_cons.2 (.inr ?_))
      rwa [locate, if_neg hhere, if_neg hup]
  | case6 t base piece rest hhere hup hlong next bytes hnext => exact .refl t
  | case7 t base piece rest hhere hup hlong next hnext hrest => exact .refl t
  | case8 t base piece rest hhere hup hlong next hnext hrest ih =>
      have hlocate : locate base [piece] = next := by
        rw [locate, if_neg hhere, if_neg hup]
        rfl
      have hmade : directories next := h next (onTheWay_cons.2 (.inl hlocate.symm))
      refine (Footprint.put_directory hmade hnext).trans (ih fun place hplace => h place ?_)
      exact onTheWay_cons.2 (.inr (hlocate ▸ hplace))

theorem makeDirectories_footprint (t : FileTree) (path : String)
    (h : ∀ place, OnTheWay (t.start path) (Path.pieces path) place → directories place) :
    Footprint directories files t (t.makeDirectories path).1 := by
  unfold makeDirectories
  split
  · exact .refl t
  · split
    · exact .refl t
    · exact t.makeSteps_footprint _ _ h

/-- The locations of the directories above a path. -/
def Above (t : FileTree) (path : String) (place : Location) : Prop :=
  ∃ parent, Path.parent? path = some parent ∧
    OnTheWay (t.start parent) (Path.pieces parent) place

theorem makeParents_footprint (t : FileTree) (path : String)
    (h : ∀ place, t.Above path place → directories place) :
    Footprint directories files t (t.makeDirectories ((Path.parent? path).getD "")).1 := by
  cases hparent : Path.parent? path with
  | none => exact .refl t
  | some parent =>
      exact t.makeDirectories_footprint parent fun place hplace => h place ⟨parent, hparent, hplace⟩

/-! ## Writing -/

theorem writeBytes_footprint (t : FileTree) (path : String) (bytes : ByteArray)
    (h : files (t.place path)) : Footprint directories files t (t.writeBytes path bytes).1 := by
  cases hwrite : t.writeBytes path bytes with
  | mk t' written =>
      cases written with
      | error fault =>
          rw [writeBytes_of_error hwrite]
          exact .refl t
      | ok _ =>
          obtain ⟨place, hreceives, rfl⟩ := writeBytes_eq_ok_iff.1 hwrite
          have hplace : place = t.place path := locate_of_walk hreceives.walk_eq
          exact .put_file (hplace ▸ h) hreceives.get?_ne bytes

/-- **A write** makes directories on the way to the file, and changes the file alone. -/
theorem writeText_footprint (t : FileTree) {path : String} {ps : List String} {name : String}
    (hpieces : Path.pieces path = ps ++ [name]) (hname : name ≠ Path.here) (text : String)
    (hdirectories : ∀ place, OnTheWay (t.start path) ps place → directories place)
    (hfile : files (t.place path)) : Footprint directories files t (t.writeText path text).1 := by
  have hmade : Footprint directories files t
      (t.makeDirectories ((Path.parent? path).getD "")).1 := by
    refine t.makeParents_footprint path fun place hplace => hdirectories place ?_
    obtain ⟨parent, hparent, hplace⟩ := hplace
    obtain ⟨habsolute, hparentPieces⟩ := pieces_parent_of_concat hpieces hname hparent
    rw [start, habsolute, hparentPieces] at hplace
    exact hplace.of_essential
  unfold writeText
  split
  · next t₁ fault hmake =>
      rw [hmake] at hmade
      exact hmade
  · next t₁ hmake =>
      rw [hmake] at hmade
      refine hmade.trans (t₁.writeBytes_footprint path _ ?_)
      rwa [place, start_of_workingDirectory hmade.workingDirectory_eq]

end FileTree

/-! ## The sandbox -/

namespace Sandbox

variable {directories files : Location → Prop}

/-- **A write in the sandbox** to a file that has a name there. -/
theorem write_footprint {root path : String} {names : List String} {name : String}
    (hnames : names? path = some (names ++ [name])) (t : FileTree) (text : String)
    (hdirectories : ∀ place, OnTheWay (t.start root) (Path.pieces root ++ names) place →
      directories place)
    (hfile : files (t.place root ++ (names ++ [name]))) :
    FileTree.Footprint directories files t (write root t path text).1 := by
  have hisName := isName_of_mem_names? hnames
  have hresolve : resolve root path = .ok (target root (names ++ [name])) := by
    rw [resolve, hnames]
    rfl
  have hpieces : Path.pieces (target root (names ++ [name]))
      = (Path.pieces root ++ names) ++ [name] := by
    rw [pieces_target hisName, List.append_assoc]
  have hname := hisName name (List.mem_append_right _ (List.mem_singleton_self _))
  simp only [write, hresolve]
  refine t.writeText_footprint hpieces hname.ne_here text ?_ ?_
  · rwa [start_target hisName]
  · rwa [place_target hisName]

end Sandbox

end DeskShell.Files
