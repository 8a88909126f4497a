import DeskShell.Program.Run
import DeskShell.Proofs.Shell.Changes
import DeskShell.Proofs.Terminal.Footprint

/-!
# What a run leaves behind

Whatever a run is asked to do, and however it ends, the tree it leaves differs from the one it found
in little: there may be new directories on the way to the project root and to the two files of the
applications, and these two files may have other bytes, each of them only if there was a change of
what it stores (`footprint_of_run`). The settings are only read, the root is made (`run_start`), and
the rest is a session in the shell.
-/

set_option autoImplicit false

namespace DeskShell.Program

open Terminal Files FileTree

/-! ## The start -/

theorem run_bind {α β : Type} (x : StateM FileTree α) (f : α → StateM FileTree β) (t : FileTree) :
    (x >>= f).run t = (f (x.run t).1).run (x.run t).2 := rfl

section Start

variable (env : Environment) (platform : Platform) (a : CommandLine) (t : FileTree)

theorem run_findM? (paths : List String) :
    ((paths.findM? treeHost.pathExists).run t).2 = t := by
  induction paths with
  | nil => rfl
  | cons path rest ih =>
      have hexists : (treeHost.pathExists path).run t = (t.pathExists path, t) := rfl
      rw [List.findM?, run_bind, hexists]
      cases t.pathExists path with
      | true => rfl
      | false => exact ih

theorem run_readSettings (source : SettingsSource) :
    ((readSettings treeHost env source).run t).2 = t := by
  have hfile : ((settingsFile treeHost env source).run t).2 = t := by
    cases source with
    | search => exact run_findM? t env.settingsFiles
    | nowhere => rfl
    | file path => rfl
  rw [readSettings, run_bind]
  cases ((settingsFile treeHost env source).run t).1 with
  | none => exact hfile
  | some path => exact hfile

def rootAt : String :=
  env.projectRoot a.root ((readSettings treeHost env a.settings).run t).1.1.root
    platform.dataDirectory

/-- **The start** reads the settings and makes the project root, and that is all it does. -/
theorem run_start (today : Calendar.Date) :
    ((start treeHost env platform today a).run t).2
        = (t.makeDirectories (rootAt env platform a t)).1 ∧
      ∀ plan, ((start treeHost env platform today a).run t).1.2 = .ok plan →
        plan.root = rootAt env platform a t ∧ ∃ look, plan.session = sessionOf look a := by
  have hread := run_readSettings env t a.settings
  have hlog (directive : Option String) (debug : Bool) :
      (treeHost.startLog directive debug).run t = ((), t) := rfl
  have hmake (root : String) : (treeHost.makeDirectories root).run t
      = ((t.makeDirectories root).2, (t.makeDirectories root).1) := rfl
  unfold start rootAt
  rw [run_bind, hread]
  generalize ((readSettings treeHost env a.settings).run t).1 = settings
  rw [run_bind, hlog, run_bind, hmake]
  cases (t.makeDirectories
      (env.projectRoot a.root settings.1.root platform.dataDirectory)).2 with
  | error fault => exact ⟨rfl, fun plan hplan => by cases hplan⟩
  | ok _ =>
      refine ⟨rfl, fun plan hplan => ?_⟩
      cases hplan
      exact ⟨rfl, _, rfl⟩

end Start

/-! ## The session -/

/-- The changes that a session makes, that of its command included if it has one. -/
def sessionChanges (session : Shell.Session) (command : Option String) (root : String)
    (t : FileTree) (lines : List RawLine) : List Shell.Change :=
  (command.bind fun line => (Shell.Command.ofLine line).change? root t).toList
    ++ session.heardChanges root t lines

/-- The writes of the session have changes before them. -/
theorem sessionOf_accounted (look : Calendar.Look) (a : CommandLine) (root : String) (t : FileTree)
    (lines : List RawLine) :
    Shell.Accounted (sessionChanges (sessionOf look a) a.command root t lines)
      ((sessionOf look a).writes root t lines) ((sessionOf look a).run root t lines).state := by
  unfold sessionOf sessionChanges
  cases a.command with
  | none => exact Shell.Session.interactive_accounted look root t lines _
  | some command => exact Shell.Session.single_accounted look root t lines command

/-! ## The run -/

namespace Situation

variable (s : Situation)

/-- The project root, if the command line can be read. -/
def root? : Option String :=
  match CommandLine.ofWords s.arguments with
  | .error _ => none
  | .ok a => some (rootAt s.environment s.platform a s.files)

def changes : List Shell.Change :=
  match CommandLine.ofWords s.arguments with
  | .error _ => []
  | .ok a =>
      let ((_, plan), t) := (start treeHost s.environment s.platform s.today a).run s.files
      match plan with
      | .error _ => []
      | .ok plan => sessionChanges plan.session a.command plan.root t (rawLines s.typed)

/-- Where a run may make a directory: on the way to the project root, or to one of the two files. -/
def MayMake (place : Location) : Prop :=
  ∃ root, s.root? = some root ∧
    (OnTheWay (s.files.start root) (Path.pieces root ++ ["home", "user"]) place ∨
      OnTheWay (s.files.start root) (Path.pieces root ++ ["system"]) place)

/-- Where a run may write: in the file of the book if it has changed the book, and in the file of
the registry if it has changed the registry. -/
def MayWrite (place : Location) : Prop :=
  ∃ root, s.root? = some root ∧
    ((place = s.files.place root ++ ["home", "user", "events.txt"] ∧
        ∃ change, .book change ∈ s.changes) ∨
      (place = s.files.place root ++ ["system", "lib_registry.txt"] ∧
        ∃ change, .registry change ∈ s.changes))

end Situation

/-- A write of a session stays within what a run may make and write. -/
theorem within_of_explained {s : Situation} {root : String} (hroot : s.root? = some root)
    {w : Write} (h : Shell.Explained s.changes w) :
    w.Within root s.files.workingDirectory s.MayMake s.MayWrite := by
  intro t ht
  have hstart : t.start root = s.files.start root := start_of_workingDirectory ht root
  have hplace : t.place root = s.files.place root := by rw [place, hstart, ← place]
  cases h with
  | book path_eq mem =>
      have hnames : Sandbox.names? w.path = some (["home", "user"] ++ ["events.txt"]) := by
        rw [path_eq]
        decide
      refine Sandbox.write_footprint hnames t _ (fun other hother => ?_) ?_
      · exact ⟨root, hroot, .inl (hstart ▸ hother)⟩
      · exact ⟨root, hroot, .inl ⟨by rw [hplace]; rfl, _, mem⟩⟩
  | registry path_eq mem =>
      have hnames : Sandbox.names? w.path = some (["system"] ++ ["lib_registry.txt"]) := by
        rw [path_eq]
        decide
      refine Sandbox.write_footprint hnames t _ (fun other hother => ?_) ?_
      · exact ⟨root, hroot, .inr (hstart ▸ hother)⟩
      · exact ⟨root, hroot, .inr ⟨by rw [hplace]; rfl, _, mem⟩⟩

/-- **What a run leaves behind**, whatever its command line, environment, platform, date, files and
input, and however it ends. Apart from new directories on the way to the project root and to the two
files of the applications, and from these two files, every place holds what it held; and each of the
two files is as it was unless there was a change of what it stores. -/
theorem footprint_of_run (s : Situation) :
    Footprint s.MayMake s.MayWrite s.files (run s).files := by
  unfold run
  cases hwords : CommandLine.ofWords s.arguments with
  | error fault => exact .refl s.files
  | ok a =>
      obtain ⟨htree, hplan⟩ := run_start s.environment s.platform a s.files s.today
      have hroot : s.root? = some (rootAt s.environment s.platform a s.files) := by
        rw [Situation.root?, hwords]
      -- first the root is made, then the session writes under it
      have hmade : Footprint s.MayMake s.MayWrite s.files
          (s.files.makeDirectories (rootAt s.environment s.platform a s.files)).1 :=
        s.files.makeDirectories_footprint _ fun place hplace =>
          ⟨_, hroot, .inl (hplace.mono (List.prefix_append _ _))⟩
      rw [← htree] at hmade
      cases hstart : (start treeHost s.environment s.platform s.today a).run s.files with
      | mk begun t =>
          obtain ⟨warnings, plan⟩ := begun
          rw [hstart] at hmade hplan
          cases plan with
          | error refusal => simpa only [hstart] using hmade
          | ok plan =>
              obtain ⟨hplanRoot, look, hsession⟩ := hplan plan rfl
              have hchanges : s.changes
                  = sessionChanges plan.session a.command plan.root t (rawLines s.typed) := by
                simp only [Situation.changes, hwords, hstart]
              have haccounted := sessionOf_accounted look a plan.root t (rawLines s.typed)
              rw [← hsession, ← hchanges] at haccounted
              simp only [hstart]
              refine hmade.trans (Dialogue.converse_footprint fun w hw => ?_)
              rw [hmade.workingDirectory_eq, hplanRoot]
              exact within_of_explained hroot (haccounted.explained w hw)

end DeskShell.Program
