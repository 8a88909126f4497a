import DeskShell.Proofs.Files.Footprint
import DeskShell.Proofs.Files.Opened
import Mathlib.Data.List.Nodup
import Mathlib.Data.List.Perm.Basic

/-!
# Confinement to the root

Of two trees that hold the same under the root, no request in the sandbox can tell which is which:
the answers are the same, and the trees go on to hold the same (`Alike.read`, `Alike.list`,
`Alike.write`). The reason is that a path in the sandbox has no `..` left once it is resolved, so
that behind the root its walk stays below it, and depends only on what is there (`AgreeUnder`).
-/

set_option autoImplicit false

namespace DeskShell.Files

namespace FileTree

/-! ## Places below a place -/

/-- Whether two trees hold the same in a place and below it. -/
def AgreeUnder (base : Location) (t₁ t₂ : FileTree) : Prop :=
  ∀ place, base <+: place → t₁.get? place = t₂.get? place

/-- Without `..`, a walk stays below where it starts. -/
theorem prefix_locate {base start : Location} (hstart : base <+: start) {steps : List String}
    (hsteps : ∀ piece ∈ steps, piece ≠ Path.up) : base <+: locate start steps := by
  induction steps generalizing start with
  | nil => exact hstart
  | cons piece rest ih =>
      obtain ⟨hup, hrest⟩ := List.forall_mem_cons.1 hsteps
      rw [locate, if_neg hup]
      split
      · exact ih hstart hrest
      · exact ih (hstart.trans (List.prefix_append _ _)) hrest

section Agree

variable {base start : Location} {t₁ t₂ : FileTree} (h : AgreeUnder base t₁ t₂)
  (hstart : base <+: start) {steps : List String} (hsteps : ∀ piece ∈ steps, piece ≠ Path.up)
include h

theorem AgreeUnder.put (place : Location) (entry : Entry) :
    AgreeUnder base (t₁.put place entry) (t₂.put place entry) := by
  intro other hother
  by_cases htop : other = []
  · rw [htop]
    rfl
  · by_cases hsame : other = place
    · subst hsame
      rw [get?_put_self _ _ htop, get?_put_self _ _ htop]
    · rw [get?_put_of_ne _ _ hsame, get?_put_of_ne _ _ hsame, h other hother]

include hstart hsteps

theorem AgreeUnder.walk : t₁.walk start steps = t₂.walk start steps := by
  induction steps generalizing start with
  | nil => rfl
  | cons piece rest ih =>
      obtain ⟨hup, hrest⟩ := List.forall_mem_cons.1 hsteps
      rw [FileTree.walk, FileTree.walk, h start hstart]
      cases t₂.get? start with
      | none => rfl
      | some entry =>
          cases entry with
          | file bytes => rfl
          | directory =>
              simp only [if_neg hup, ih hstart hrest,
                ih (hstart.trans (List.prefix_append start [piece])) hrest]

theorem AgreeUnder.makeSteps :
    (t₁.makeSteps start steps).2 = (t₂.makeSteps start steps).2 ∧
      AgreeUnder base (t₁.makeSteps start steps).1 (t₂.makeSteps start steps).1 := by
  induction steps generalizing start t₁ t₂ with
  | nil => exact ⟨rfl, h⟩
  | cons piece rest ih =>
      obtain ⟨hup, hrest⟩ := List.forall_mem_cons.1 hsteps
      have hnext : base <+: start ++ [piece] := hstart.trans (List.prefix_append _ _)
      rw [FileTree.makeSteps, FileTree.makeSteps]
      simp only [if_neg hup, h _ hnext]
      split
      · exact ih h hstart hrest
      · split
        · exact ⟨rfl, h⟩
        · cases t₂.get? (start ++ [piece]) with
          | none =>
              simp only
              split
              · exact ⟨rfl, h⟩
              · exact ih (h.put _ _) hnext hrest
          | some entry =>
              cases entry with
              | file bytes => exact ⟨rfl, h⟩
              | directory => exact ih h hnext hrest

end Agree

/-! ## The names in a directory -/

theorem pairwise_children (t : FileTree) (directory : Location) :
    (t.children directory).Pairwise fun a b => a.1 ≤ b.1 := by
  have hsorted : (t.children directory).Pairwise fun a b => decide (a.1 ≤ b.1) = true := by
    refine List.pairwise_mergeSort (fun a b c hab hbc => ?_) (fun a b => ?_) _
    · simp only [decide_eq_true_eq] at hab hbc ⊢
      exact String.le_trans hab hbc
    · simpa using String.le_total a.1 b.1
  exact hsorted.imp fun h => by simpa using h

theorem nameIn?_eq_some_iff {directory place : Location} {name : String} :
    nameIn? directory place = some name ↔ place = directory ++ [name] := by
  unfold nameIn?
  constructor
  · intro h
    split at h
    · next hdirectory =>
        rw [← hdirectory]
        exact (List.dropLast_append_getLast? name h).symm
    · cases h
  · rintro rfl
    rw [List.dropLast_concat, if_pos rfl, List.getLast?_concat]

section Children

variable {t : FileTree} (hnodup : (t.entries.map (·.1)).Nodup)
include hnodup

theorem mem_entries_iff {place : Location} (hplace : place ≠ []) {entry : Entry} :
    (place, entry) ∈ t.entries ↔ t.get? place = some entry := by
  have hinj := List.inj_on_of_nodup_map hnodup
  rw [get?, if_neg hplace, Option.map_eq_some_iff]
  constructor
  · intro hmem
    cases hfind : t.entries.find? fun e => e.1 == place with
    | none =>
        have habsent := List.find?_eq_none.1 hfind _ hmem
        simp at habsent
    | some found =>
        have hfound : found.1 = place := by simpa using List.find?_some hfind
        refine ⟨found, rfl, ?_⟩
        rw [hinj (List.mem_of_find?_eq_some hfind) hmem hfound]
  · rintro ⟨found, hfind, rfl⟩
    have hfound : found.1 = place := by simpa using List.find?_some hfind
    rw [← hfound]
    exact List.mem_of_find?_eq_some hfind

theorem mem_children_iff {directory : Location} {name : String} {entry : Entry} :
    (name, entry) ∈ t.children directory ↔ t.get? (directory ++ [name]) = some entry := by
  have hne : directory ++ [name] ≠ [] := by simp
  rw [children, (List.mergeSort_perm _ _).mem_iff, List.mem_filterMap, ← mem_entries_iff hnodup hne]
  constructor
  · rintro ⟨⟨place, found⟩, hmem, hfound⟩
    obtain ⟨name', hname, heq⟩ := Option.map_eq_some_iff.1 hfound
    cases heq
    rw [nameIn?_eq_some_iff] at hname
    exact hname ▸ hmem
  · intro hmem
    refine ⟨_, hmem, ?_⟩
    rw [nameIn?_eq_some_iff.2 rfl, Option.map_some]

theorem nodup_children (directory : Location) : (t.children directory).Nodup := by
  rw [children, (List.mergeSort_perm _ _).nodup_iff]
  refine (List.Nodup.of_map _ hnodup).filterMap ?_
  rintro ⟨place, entry⟩ ⟨place', entry'⟩ ⟨name, found⟩ h h'
  obtain ⟨name₁, hname, heq⟩ := Option.map_eq_some_iff.1 h
  obtain ⟨name₂, hname', heq'⟩ := Option.map_eq_some_iff.1 h'
  cases heq
  cases heq'
  have hplace : place = place' :=
    (nameIn?_eq_some_iff.1 hname).trans (nameIn?_eq_some_iff.1 hname').symm
  rw [hplace]

end Children

/-- The names in a directory come in one order only. -/
theorem AgreeUnder.children {base directory : Location} {t₁ t₂ : FileTree}
    (h : AgreeUnder base t₁ t₂) (hdirectory : base <+: directory)
    (h₁ : (t₁.entries.map (·.1)).Nodup) (h₂ : (t₂.entries.map (·.1)).Nodup) :
    t₁.children directory = t₂.children directory := by
  have hget (name : String) : t₁.get? (directory ++ [name]) = t₂.get? (directory ++ [name]) :=
    h _ (hdirectory.trans (List.prefix_append _ _))
  have hperm : (t₁.children directory).Perm (t₂.children directory) := by
    rw [List.perm_ext_iff_of_nodup (nodup_children h₁ _) (nodup_children h₂ _)]
    rintro ⟨name, entry⟩
    rw [mem_children_iff h₁, mem_children_iff h₂, hget]
  refine hperm.eq_of_pairwise ?_ (pairwise_children t₁ directory) (pairwise_children t₂ directory)
  -- two entries with one name are the same entry
  rintro ⟨name, entry⟩ ⟨name', entry'⟩ hmem hmem' hle hle'
  obtain rfl := String.le_antisymm hle hle'
  rw [mem_children_iff h₁, hget] at hmem
  rw [mem_children_iff h₂, hmem] at hmem'
  rw [Option.some.inj hmem']

/-- What a path leads to is decided by its walk and by what is there at its end. -/
theorem find_congr {t₁ t₂ : FileTree} {path : String}
    (hwalk : t₁.walk (t₁.start path) (steps path) = t₂.walk (t₂.start path) (steps path))
    (hget : ∀ place, t₂.walk (t₂.start path) (steps path) = .ok place →
      t₁.get? place = t₂.get? place) : t₁.find path = t₂.find path := by
  unfold find
  rw [hwalk]
  cases hfound : t₂.walk (t₂.start path) (steps path) with
  | error fault => rfl
  | ok place => simp only [bind, Except.bind, hget place hfound]

end FileTree

namespace Sandbox

open FileTree

/-! ## Trees that are alike -/

/-- Two trees in which the root is the same place and holds the same. -/
structure Agree (root : String) (t₁ t₂ : FileTree) : Prop where
  place_eq : t₁.place root = t₂.place root
  agreeUnder : AgreeUnder (t₁.place root) t₁ t₂

/-- Two trees in which the root is there, is the same place and holds the same. -/
structure Alike (root : String) (t₁ t₂ : FileTree) : Prop extends Agree root t₁ t₂ where
  left : Opened root t₁
  right : Opened root t₂

variable {root : String} {t t₁ t₂ : FileTree} {names : List String}

/-- Behind the root, the walk of a path goes on from the place of the root. -/
theorem Opened.walk_target (h : Opened root t) (hnames : ∀ name ∈ names, Path.IsName name)
    (tail : List String) :
    t.walk (t.start (target root names)) (Path.pieces root ++ tail)
      = t.walk (t.place root) tail := by
  rw [start_target hnames, walk_append h.leads.walk_eq]
  rfl

theorem steps_target (hnames : ∀ name ∈ names, Path.IsName name) (root : String) :
    ∃ tail, steps (target root names) = Path.pieces root ++ tail ∧
      ∀ piece ∈ tail, piece ≠ Path.up := by
  have hup : ∀ name ∈ names, name ≠ Path.up := fun name hname => (hnames name hname).ne_up
  unfold steps
  rw [pieces_target hnames]
  split
  · refine ⟨names ++ [Path.here], List.append_assoc .., fun piece hpiece => ?_⟩
    rcases List.mem_append.1 hpiece with hpiece | hpiece
    · exact hup piece hpiece
    · rw [List.mem_singleton.1 hpiece]
      decide
  · exact ⟨names, rfl, hup⟩

namespace Alike

variable (h : Alike root t₁ t₂)
include h

/-- A path in the sandbox leads to the same, in a place below the root. -/
theorem find (hnames : ∀ name ∈ names, Path.IsName name) :
    t₁.find (target root names) = t₂.find (target root names) ∧
      ∀ place entry, t₁.find (target root names) = .ok (place, entry) →
        t₁.place root <+: place := by
  obtain ⟨tail, hsteps, hup⟩ := steps_target hnames root
  have hwalk₁ := h.left.walk_target hnames tail
  have hwalk₂ := h.right.walk_target hnames tail
  rw [← hsteps] at hwalk₁ hwalk₂
  have hwalk := h.agreeUnder.walk (List.prefix_refl _) hup
  -- outside the root the two walks may differ, but both pass the root and go on from there
  have hbelow : ∀ place, t₁.walk (t₁.start (target root names)) (steps (target root names))
      = .ok place → t₁.place root <+: place := by
    intro place hplace
    rw [hwalk₁] at hplace
    rw [locate_of_walk hplace]
    exact prefix_locate (List.prefix_refl _) hup
  have hsame : t₁.walk (t₁.start (target root names)) (steps (target root names))
      = t₂.walk (t₂.start (target root names)) (steps (target root names)) := by
    rw [hwalk₁, hwalk₂, hwalk, h.place_eq]
  refine ⟨find_congr hsame fun place hplace => ?_, fun place entry hfind => ?_⟩
  · exact h.agreeUnder place (hbelow place (hsame ▸ hplace))
  · exact hbelow place (find_eq_ok_iff.1 hfind).2.1

/-- **Reading** a path gives the same. -/
theorem read (path : String) : Sandbox.read root t₁ path = Sandbox.read root t₂ path := by
  unfold Sandbox.read resolve
  cases hnames : names? path with
  | none => rfl
  | some names =>
      have hfind := (h.find (isName_of_mem_names? hnames)).1
      rw [target] at hfind
      simp only [bind, Except.bind, readText, readBytes, hfind]

/-- **Listing** a path gives the same. -/
theorem list (path : String) : Sandbox.list root t₁ path = Sandbox.list root t₂ path := by
  unfold Sandbox.list resolve
  cases hnames : names? path with
  | none => rfl
  | some names =>
      obtain ⟨hfind, hbelow⟩ := h.find (isName_of_mem_names? hnames)
      rw [target] at hfind hbelow
      have hlist : t₁.list (Path.join root ("/".intercalate names))
          = t₂.list (Path.join root ("/".intercalate names)) := by
        rw [FileTree.list, FileTree.list, ← hfind]
        cases hfound : t₁.find (Path.join root ("/".intercalate names)) with
        | error fault => rfl
        | ok found =>
            obtain ⟨place, entry⟩ := found
            cases entry with
            | file bytes => rfl
            | directory =>
                simp only [bind, Except.bind,
                  h.agreeUnder.children (hbelow _ _ hfound) h.left.nodup h.right.nodup]
      simp only [bind, Except.bind, hlist]

end Alike

/-! ## Writing -/

theorem Opened.makeSteps (h : Opened root t) (base : Location) (steps : List String) :
    Opened root (t.makeSteps base steps).1 := by
  have hextends := t.makeSteps_extends base steps
  exact h.of_directories (nodup_makeSteps h.nodup base steps) hextends.workingDirectory_eq
    fun d hd => hextends.get?_eq d _ hd

/-- The directories above a path are made from the place of the root on. -/
theorem Opened.makeSteps_parent (h : Opened root t) (hnames : ∀ name ∈ names, Path.IsName name)
    {parent : String} (hparent : (Path.parent? (target root names)).getD "" = parent) :
    t.makeSteps (t.start parent) (Path.pieces parent)
      = t.makeSteps (t.place root) names.dropLast := by
  have hhere : ∀ name ∈ names, name ≠ Path.here := fun name hname => (hnames name hname).ne_here
  cases hfound : Path.parent? (target root names) with
  | none =>
      have hempty : names = [] := by
        rw [Path.parent?, Path.components_eq, pieces_target hnames,
          Path.essential_append _ _ hhere] at hfound
        split at hfound
        · next hnil => exact (List.append_eq_nil_iff.1 hnil).2
        · cases hfound
      have hpieces : Path.pieces "" = [] := rfl
      rw [← hparent, hfound, Option.getD_none, hpieces, hempty, List.dropLast_nil,
        FileTree.makeSteps, FileTree.makeSteps]
  | some found =>
      rw [hfound, Option.getD_some] at hparent
      rw [hparent] at hfound
      obtain ⟨habsolute, hpieces⟩ := pieces_parent hfound
      have hstart : t.start parent = t.start root := by
        rw [← start_target hnames t root, start, start, habsolute]
      rw [pieces_target hnames, Path.essential_append _ _ hhere] at hpieces
      rw [hstart, hpieces]
      generalize Path.isAbsolute (target root names) = absolute
      -- the pieces of the root that are kept lead through directories
      have hthere : ∀ first, first <+: Path.essential absolute (Path.pieces root) →
          ∀ rest, t.makeSteps (t.start root) (first ++ rest)
            = t.makeSteps (locate (t.start root) first) rest := by
        intro first hfirst rest
        refine makeSteps_append (fun place hplace => ?_) (fun piece hpiece => ?_) rest
        · exact h.leads.onTheWay (hplace.mono hfirst).of_essential
        · exact h.leads.le_maxName piece (Path.essential_subset _ _ (hfirst.subset hpiece))
      by_cases hempty : names = []
      · have hrest := hthere _ (List.dropLast_prefix _) []
        rw [List.append_nil] at hrest
        rw [hempty, List.append_nil, hrest, List.dropLast_nil, FileTree.makeSteps,
          FileTree.makeSteps]
      · rw [List.dropLast_append_of_ne_nil hempty, hthere _ (List.prefix_refl _), locate_essential]
        rfl

namespace Alike

variable (h : Alike root t₁ t₂)
include h

/-- Trees stay alike if the root stays there and both change alike below it. -/
theorem of_agreeUnder {t₁' t₂' : FileTree} (hleft : Opened root t₁') (hright : Opened root t₂')
    (hworking₁ : t₁'.workingDirectory = t₁.workingDirectory)
    (hworking₂ : t₂'.workingDirectory = t₂.workingDirectory)
    (hagree : AgreeUnder (t₁.place root) t₁' t₂') : Alike root t₁' t₂' := by
  have hplace₁ : t₁'.place root = t₁.place root := by
    rw [place, place, start_of_workingDirectory hworking₁]
  have hplace₂ : t₂'.place root = t₂.place root := by
    rw [place, place, start_of_workingDirectory hworking₂]
  exact ⟨⟨by rw [hplace₁, hplace₂, h.place_eq], hplace₁ ▸ hagree⟩, hleft, hright⟩

theorem makeDirectories_parent (hnames : ∀ name ∈ names, Path.IsName name) {parent : String}
    (hparent : (Path.parent? (target root names)).getD "" = parent) :
    (t₁.makeDirectories parent).2 = (t₂.makeDirectories parent).2 ∧
      Alike root (t₁.makeDirectories parent).1 (t₂.makeDirectories parent).1 := by
  have hmade₁ := h.left.makeSteps_parent hnames hparent
  have hmade₂ := h.right.makeSteps_parent hnames hparent
  unfold makeDirectories
  split
  · exact ⟨rfl, h⟩
  · split
    · exact ⟨rfl, h⟩
    · have hup : ∀ name ∈ names.dropLast, name ≠ Path.up := fun name hname =>
        (hnames name (List.dropLast_subset _ hname)).ne_up
      obtain ⟨hanswer, hagree⟩ := h.agreeUnder.makeSteps (List.prefix_refl _) hup
      rw [hmade₁, hmade₂, ← h.place_eq]
      refine ⟨hanswer, h.of_agreeUnder (h.left.makeSteps _ _) (h.right.makeSteps _ _) ?_ ?_ hagree⟩
      · exact (t₁.makeSteps_extends _ _).workingDirectory_eq
      · exact (t₂.makeSteps_extends _ _).workingDirectory_eq

theorem writeBytes (hnames : ∀ name ∈ names, Path.IsName name) (bytes : ByteArray) :
    (t₁.writeBytes (target root names) bytes).2 = (t₂.writeBytes (target root names) bytes).2 ∧
      Alike root (t₁.writeBytes (target root names) bytes).1
        (t₂.writeBytes (target root names) bytes).1 := by
  have hup : ∀ name ∈ names, name ≠ Path.up := fun name hname => (hnames name hname).ne_up
  have hwalk₁ := h.left.walk_target hnames names
  have hwalk₂ := h.right.walk_target hnames names
  rw [← pieces_target hnames] at hwalk₁ hwalk₂
  rw [← h.place_eq, ← h.agreeUnder.walk (List.prefix_refl _) hup, ← hwalk₁] at hwalk₂
  unfold FileTree.writeBytes
  rw [hwalk₂]
  split
  · exact ⟨rfl, h⟩
  · cases hfound : t₁.walk (t₁.start (target root names)) (Path.pieces (target root names)) with
    | error fault => exact ⟨rfl, h⟩
    | ok place =>
        have hbelow : t₁.place root <+: place := by
          rw [hwalk₁] at hfound
          rw [locate_of_walk hfound]
          exact prefix_locate (List.prefix_refl _) hup
        simp only [h.agreeUnder place hbelow]
        split
        · exact ⟨rfl, h⟩
        · split
          · exact ⟨rfl, h⟩
          · next hplace =>
              have hplace₁ : t₁.get? place ≠ some .directory := by
                rw [h.agreeUnder place hbelow]
                exact hplace
              refine ⟨rfl, h.of_agreeUnder ?_ ?_ rfl rfl (h.agreeUnder.put _ _)⟩
              · exact h.left.of_directories (nodup_put h.left.nodup _ _) rfl
                  fun d hd => get?_put_of_directory hplace₁ _ hd
              · exact h.right.of_directories (nodup_put h.right.nodup _ _) rfl
                  fun d hd => get?_put_of_directory hplace _ hd

/-- **Writing** a path gives the same answer, and leaves trees that are alike. -/
theorem write (path text : String) :
    (Sandbox.write root t₁ path text).2 = (Sandbox.write root t₂ path text).2 ∧
      Alike root (Sandbox.write root t₁ path text).1 (Sandbox.write root t₂ path text).1 := by
  unfold Sandbox.write resolve
  cases hnames : names? path with
  | none => exact ⟨rfl, h⟩
  | some names =>
      have hisName := isName_of_mem_names? hnames
      obtain ⟨hmade, halike⟩ := h.makeDirectories_parent hisName rfl
      rw [target] at hmade halike
      simp only [writeText]
      generalize t₁.makeDirectories _ = made₁ at hmade halike ⊢
      generalize t₂.makeDirectories _ = made₂ at hmade halike ⊢
      obtain ⟨t₁', answer₁⟩ := made₁
      obtain ⟨t₂', answer₂⟩ := made₂
      obtain rfl : answer₁ = answer₂ := hmade
      cases answer₁ with
      | error fault => exact ⟨rfl, halike⟩
      | ok _ =>
          obtain ⟨hanswer, hwritten⟩ := halike.writeBytes hisName text.toUTF8
          rw [target] at hanswer hwritten
          exact ⟨congrArg (blame path) hanswer, hwritten⟩

end Alike

end Sandbox

end DeskShell.Files
