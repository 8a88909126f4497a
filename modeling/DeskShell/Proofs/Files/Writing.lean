import DeskShell.Files.Sandbox

/-!
# What a write does to the tree

Writing a file makes the directories above it and then puts the file in its place. Making
directories only adds entries (`FileTree.Extends`), and a walk that succeeds passes through
directories alone; so a walk that succeeds goes on to succeed after a write, to the same place. This
gives the two laws of `Sandbox.write`: a write that succeeds is what is read afterwards
(`bytes_write_of_ok`), and a write that fails leaves every file as it was (`bytes_write_of_error`).
-/

set_option autoImplicit false

namespace DeskShell.Files

theorem fromUTF8?_toUTF8 (text : String) : String.fromUTF8? text.toUTF8 = some text := by
  have hvalid : text.toUTF8.IsValidUTF8 := text.isValidUTF8
  rw [String.fromUTF8?, dif_pos hvalid]
  rfl

namespace FileTree

/-! ## More entries -/

/-- Whether a tree has all entries of another one, at least. -/
structure Extends (t t' : FileTree) : Prop where
  workingDirectory_eq : t'.workingDirectory = t.workingDirectory
  get?_eq : ∀ place entry, t.get? place = some entry → t'.get? place = some entry

theorem Extends.refl (t : FileTree) : t.Extends t := ⟨rfl, fun _ _ h => h⟩

theorem Extends.trans {t₁ t₂ t₃ : FileTree} (h : t₁.Extends t₂) (h' : t₂.Extends t₃) :
    t₁.Extends t₃ :=
  ⟨h'.workingDirectory_eq.trans h.workingDirectory_eq,
    fun place entry hentry => h'.get?_eq place entry (h.get?_eq place entry hentry)⟩

theorem extends_put {t : FileTree} {place : Location} (h : t.get? place = none) (entry : Entry) :
    t.Extends (t.put place entry) := by
  refine ⟨rfl, fun other old hold => ?_⟩
  have hne : other ≠ place := by
    rintro rfl
    rw [h] at hold
    cases hold
  rw [get?_put_of_ne t entry hne, hold]

theorem makeSteps_extends (t : FileTree) (base : Location) (steps : List String) :
    t.Extends (t.makeSteps base steps).1 := by
  fun_induction FileTree.makeSteps t base steps with
  | case1 t base => exact .refl t
  | case2 t base rest ih => exact ih
  | case3 t base rest hhere ih => exact ih
  | case4 t base piece rest hhere hup hlong => exact .refl t
  | case5 t base piece rest hhere hup hlong next hnext ih => exact ih
  | case6 t base piece rest hhere hup hlong next bytes hnext => exact .refl t
  | case7 t base piece rest hhere hup hlong next hnext hrest => exact .refl t
  | case8 t base piece rest hhere hup hlong next hnext hrest ih =>
      exact (extends_put hnext .directory).trans ih

theorem makeDirectories_extends (t : FileTree) (path : String) :
    t.Extends (t.makeDirectories path).1 := by
  unfold makeDirectories
  split
  · exact .refl t
  · split
    · exact .refl t
    · exact t.makeSteps_extends _ _

/-! ## Walks that succeed -/

/-- A walk passes through directories only, so it succeeds wherever they are directories too. -/
theorem walk_of_directories {t t' : FileTree}
    (h : ∀ d, t.get? d = some .directory → t'.get? d = some .directory)
    {base place : Location} {steps : List String} (hwalk : t.walk base steps = .ok place) :
    t'.walk base steps = .ok place := by
  induction steps generalizing base with
  | nil => exact hwalk
  | cons piece rest ih =>
      rw [walk] at hwalk ⊢
      -- a walk that succeeds starts in a directory
      cases hbase : t.get? base with
      | none => simp [hbase] at hwalk
      | some entry =>
          cases entry with
          | file bytes => simp [hbase] at hwalk
          | directory =>
              rw [h base hbase]
              simp only [hbase] at hwalk ⊢
              split at hwalk
              · next hhere => rw [if_pos hhere, ih hwalk]
              · next hhere =>
                  rw [if_neg hhere]
                  split at hwalk
                  · next hup => rw [if_pos hup, ih hwalk]
                  · next hup =>
                      rw [if_neg hup]
                      split at hwalk
                      · cases hwalk
                      · next hlong => rw [if_neg hlong, ih hwalk]

/-- A file in a place that is no directory is in nobody's way. -/
theorem walk_put {t : FileTree} {place : Location} (hplace : t.get? place ≠ some .directory)
    (entry : Entry) {base target : Location} {steps : List String}
    (hwalk : t.walk base steps = .ok target) :
    (t.put place entry).walk base steps = .ok target := by
  refine walk_of_directories (fun d hd => ?_) hwalk
  have hne : d ≠ place := by
    rintro rfl
    exact hplace hd
  rw [get?_put_of_ne t entry hne, hd]

theorem start_of_workingDirectory {t t' : FileTree}
    (h : t'.workingDirectory = t.workingDirectory) (path : String) :
    t'.start path = t.start path := by
  simp only [start, h]

theorem find_eq_ok_iff {t : FileTree} {path : String} {place : Location} {entry : Entry} :
    t.find path = .ok (place, entry) ↔ pathFault? path = none ∧
      t.walk (t.start path) (steps path) = .ok place ∧ t.get? place = some entry := by
  unfold find
  cases hfault : pathFault? path with
  | some fault => simp [bind, Except.bind, throw, throwThe, MonadExceptOf.throw]
  | none =>
      cases hwalk : t.walk (t.start path) (steps path) with
      | error fault => simp [bind, Except.bind]
      | ok found =>
          cases hget : t.get? found with
          | none =>
              simp only [bind, Except.bind, hget]
              constructor
              · intro h
                cases h
              · rintro ⟨-, h, h'⟩
                cases h
                rw [hget] at h'
                cases h'
          | some e =>
              simp only [bind, Except.bind, hget]
              constructor
              · intro h
                cases h
                exact ⟨trivial, rfl, hget⟩
              · rintro ⟨-, h, h'⟩
                cases h
                rw [hget] at h'
                cases h'
                rfl

theorem readBytes_eq_ok_iff {t : FileTree} {path : String} {bytes : ByteArray} :
    t.readBytes path = .ok bytes ↔ ∃ place, t.find path = .ok (place, .file bytes) := by
  unfold readBytes
  cases hfind : t.find path with
  | error fault => simp [bind, Except.bind]
  | ok found =>
      obtain ⟨place, entry⟩ := found
      cases entry with
      | file b => simp [bind, Except.bind]
      | directory => simp [bind, Except.bind]

theorem readBytes_of_extends {t t' : FileTree} (h : t.Extends t') {path : String}
    {bytes : ByteArray} (hread : t.readBytes path = .ok bytes) :
    t'.readBytes path = .ok bytes := by
  obtain ⟨place, hfind⟩ := readBytes_eq_ok_iff.1 hread
  obtain ⟨hfault, hwalk, hget⟩ := find_eq_ok_iff.1 hfind
  have hstart := start_of_workingDirectory h.workingDirectory_eq path
  refine readBytes_eq_ok_iff.2 ⟨place, find_eq_ok_iff.2 ⟨hfault, ?_, h.get?_eq _ _ hget⟩⟩
  rw [hstart]
  exact walk_of_directories (fun d hd => h.get?_eq d _ hd) hwalk

/-! ## Writing -/

theorem readBytes_writeBytes {t t' : FileTree} {path : String} {bytes : ByteArray}
    (h : t.writeBytes path bytes = (t', .ok ())) : t'.readBytes path = .ok bytes := by
  unfold writeBytes at h
  split at h
  · cases h
  · next hfault =>
      split at h
      · cases h
      · next place hwalk =>
          split at h
          · cases h
          · next hslash =>
              have hsteps : steps path = Path.pieces path := by simp [steps, hslash]
              split at h
              · cases h
              · next hplace =>
                  cases h
                  -- no directory is replaced, so the walk to the place is still the same
                  have hne : place ≠ [] := by
                    rintro rfl
                    exact hplace rfl
                  refine readBytes_eq_ok_iff.2 ⟨place, find_eq_ok_iff.2 ⟨hfault, ?_, ?_⟩⟩
                  · rw [start_of_workingDirectory (t.workingDirectory_put place _), hsteps]
                    exact walk_put hplace _ hwalk
                  · exact get?_put_self t _ hne

theorem writeBytes_of_error {t t' : FileTree} {path : String} {bytes : ByteArray} {fault : Fault}
    (h : t.writeBytes path bytes = (t', .error fault)) : t' = t := by
  unfold writeBytes at h
  split at h
  · cases h
    rfl
  · split at h
    · cases h
      rfl
    · split at h
      · cases h
        rfl
      · split at h
        · cases h
          rfl
        · cases h

theorem readBytes_writeText {t t' : FileTree} {path text : String}
    (h : t.writeText path text = (t', .ok ())) : t'.readBytes path = .ok text.toUTF8 := by
  unfold writeText at h
  split at h
  · cases h
  · exact readBytes_writeBytes h

/-- A write that fails has at most made directories. -/
theorem extends_of_writeText {t t' : FileTree} {path text : String} {fault : Fault}
    (h : t.writeText path text = (t', .error fault)) : t.Extends t' := by
  have hdirectories := t.makeDirectories_extends ((Path.parent? path).getD "")
  unfold writeText at h
  split at h
  · next t₁ fault' hmade =>
      cases h
      rwa [hmade] at hdirectories
  · next t₁ hmade =>
      rw [hmade] at hdirectories
      rwa [writeBytes_of_error h]

end FileTree

/-! ## The sandbox -/

namespace Sandbox

def bytes (root : String) (t : FileTree) (path : String) : Except Refusal ByteArray := do
  blame path (t.readBytes (← resolve root path))

theorem bytes_eq_ok_iff {root : String} {t : FileTree} {path : String} {b : ByteArray} :
    bytes root t path = .ok b ↔ ∃ target, resolve root path = .ok target ∧
      t.readBytes target = .ok b := by
  unfold bytes
  cases resolve root path with
  | error refusal => simp [bind, Except.bind]
  | ok target =>
      cases hread : t.readBytes target with
      | error fault => simp [bind, Except.bind, blame, hread]
      | ok b' => simp [bind, Except.bind, blame, hread]

theorem read_eq_ok_iff {root : String} {t : FileTree} {path text : String} :
    read root t path = .ok text ↔ ∃ b, bytes root t path = .ok b ∧
      String.fromUTF8? b = some text := by
  unfold read
  cases hresolve : resolve root path with
  | error refusal => simp [bytes, hresolve, bind, Except.bind]
  | ok target =>
      cases hread : t.readBytes target with
      | error fault =>
          simp [bytes, hresolve, bind, Except.bind, blame, hread, FileTree.readText]
      | ok b =>
          cases htext : String.fromUTF8? b with
          | none =>
              simp [bytes, hresolve, bind, Except.bind, blame, hread, FileTree.readText, htext]
          | some text' =>
              simp [bytes, hresolve, bind, Except.bind, blame, hread, FileTree.readText, htext]

theorem read_eq_error_of_bytes {root : String} {t : FileTree} {path : String} {b : ByteArray}
    (h : bytes root t path = .ok b) (htext : String.fromUTF8? b = none) :
    ∃ refusal, read root t path = .error refusal := by
  cases hread : read root t path with
  | error refusal => exact ⟨refusal, rfl⟩
  | ok text =>
      obtain ⟨b', hb', htext'⟩ := read_eq_ok_iff.1 hread
      rw [h] at hb'
      cases hb'
      rw [htext] at htext'
      cases htext'

/-- **A write that succeeds is what is read afterwards.** -/
theorem bytes_write_of_ok {root : String} {t : FileTree} {path text : String}
    (h : (write root t path text).2 = .ok ()) :
    bytes root (write root t path text).1 path = .ok text.toUTF8 := by
  unfold write at h ⊢
  cases hresolve : resolve root path with
  | error refusal => simp [hresolve] at h
  | ok target =>
      simp only [hresolve] at h ⊢
      cases hwrite : t.writeText target text with
      | mk t' written =>
          cases written with
          | error fault => simp [hwrite, blame] at h
          | ok _ => exact bytes_eq_ok_iff.2 ⟨target, hresolve, FileTree.readBytes_writeText hwrite⟩

/-- **A write that fails leaves every file as it was.** -/
theorem bytes_write_of_error {root : String} {t : FileTree} {path text other : String}
    {refusal : Refusal} {b : ByteArray} (h : (write root t path text).2 = .error refusal)
    (hb : bytes root t other = .ok b) :
    bytes root (write root t path text).1 other = .ok b := by
  obtain ⟨target, hother, hread⟩ := bytes_eq_ok_iff.1 hb
  refine bytes_eq_ok_iff.2 ⟨target, hother, ?_⟩
  unfold write at h ⊢
  cases hresolve : resolve root path with
  | error refusal => exact hread
  | ok place =>
      simp only [hresolve] at h ⊢
      cases hwrite : t.writeText place text with
      | mk t' written =>
          cases written with
          | ok _ => simp [hwrite, blame] at h
          | error fault =>
              exact FileTree.readBytes_of_extends (FileTree.extends_of_writeText hwrite) hread

theorem read_write_of_ok {root : String} {t : FileTree} {path text : String}
    (h : (write root t path text).2 = .ok ()) :
    read root (write root t path text).1 path = .ok text :=
  read_eq_ok_iff.2 ⟨_, bytes_write_of_ok h, fromUTF8?_toUTF8 text⟩

end Sandbox

end DeskShell.Files
