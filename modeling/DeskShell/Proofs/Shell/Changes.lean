import DeskShell.Proofs.Calendar.Durability
import DeskShell.Proofs.Packages.Durability
import DeskShell.Shell.Session

/-!
# Changes in the shell

What the shell stores are the book of the calendar and the registry of packages. A line changes one
of them if the running application makes a change with it (`Calendar.State.hear_cases`,
`Packages.hear_cases`), or if it is a command that calls the package installer with a change. Every
write of a session is one of these two files, and has a change of it before it (`Accounted`): the
registry is written at the end of a dialogue, so the changes that are still held have to be kept
track of.
-/

set_option autoImplicit false

namespace DeskShell.Shell

open Terminal Files

/-! ## Changes -/

/-- A change of what an application stores. -/
inductive Change
  | book (change : Calendar.Change)
  | registry (change : Packages.Change)
  deriving DecidableEq

def Activity.change? (line : String) : Activity → Option Change
  | .calculator => none
  | .calendar state => (state.change? line).map .book
  | .packages registry => (Packages.change? registry line).map .registry

def Command.change? (root : String) (t : FileTree) : Command → Option Change
  | .packages call => (Packages.change? (.stored root t) call).map .registry
  | _ => none

def Change.ofHeard? (root : String) (heard : Heard (Option Activity)) : Option Change :=
  match heard.state with
  | some activity => activity.change? heard.line
  | none => (Command.ofLine heard.line).change? root heard.tree

/-- Whether a write is one of the two files and has a change of it before it. -/
inductive Explained (changes : List Change) (w : Write) : Prop
  | book (path_eq : w.path = Calendar.EventBook.path) {change : Calendar.Change}
      (mem : .book change ∈ changes)
  | registry (path_eq : w.path = Packages.Registry.path) {change : Packages.Change}
      (mem : .registry change ∈ changes)

/-- The writes of a session so far, and the registry that it may still hold, have changes before
them. -/
structure Accounted (changes : List Change) (written : List Write) (running : Option Activity) :
    Prop where
  explained : ∀ w ∈ written, Explained changes w
  held : ∀ r, running = some (.packages r) → r.dirty = true → ∃ change, .registry change ∈ changes

theorem Explained.mono {changes changes' : List Change} {w : Write} (h : Explained changes w)
    (hchanges : changes ⊆ changes') : Explained changes' w := by
  cases h with
  | book path_eq mem => exact .book path_eq (hchanges mem)
  | registry path_eq mem => exact .registry path_eq (hchanges mem)

/-! ## Applications -/

theorem Activity.turn_state {σ : Type} (running : σ → Activity) (turn : Turn σ) :
    (Activity.turn running turn).state = if turn.last then none else some (running turn.state) := by
  unfold Activity.turn
  split <;> rfl

theorem Activity.turn_state_ne_packages {σ : Type} {running : σ → Activity}
    (h : ∀ s r, running s ≠ .packages r) (turn : Turn σ) (r : Packages.Registry) :
    (Activity.turn running turn).state ≠ some (.packages r) := by
  rw [turn_state]
  split
  · exact fun heq => by cases heq
  · exact fun heq => h _ r (Option.some.inj heq)

/-- The end of a package dialogue writes the registry, and only if it is dirty. -/
theorem path_of_mem_close {r : Packages.Registry} {root : String} {t : FileTree} {w : Write}
    (h : w ∈ (Packages.close r).writes root t) :
    w.path = Packages.Registry.path ∧ r.dirty = true := by
  cases hdirty : r.dirty with
  | true =>
      rw [Packages.close_of_dirty hdirty, (Packages.run_commit r root t).2.written_eq,
        List.mem_singleton] at h
      exact ⟨by rw [h], rfl⟩
  | false =>
      rw [Packages.close_of_clean hdirty, Access.writes_pure] at h
      exact absurd h List.not_mem_nil

theorem Accounted.of_no_writes {changes : List Change} {running : Option Activity}
    (h : ∀ r, running = some (.packages r) → r.dirty = true →
      ∃ change, .registry change ∈ changes) : Accounted changes [] running :=
  ⟨fun _ hw => absurd hw List.not_mem_nil, h⟩

/-- The writes that come later are accounted for by the changes that come with them. -/
theorem Accounted.append {changes more : List Change} {written written' : List Write}
    {running running' : Option Activity} (h : Accounted changes written running)
    (h' : Accounted (changes ++ more) written' running') :
    Accounted (changes ++ more) (written ++ written') running' := by
  refine ⟨fun w hw => ?_, h'.held⟩
  rcases List.mem_append.1 hw with hw | hw
  · exact (h.explained w hw).mono (List.subset_append_left _ _)
  · exact h'.explained w hw

theorem hear_calendar_accounted (look : Calendar.Look) (changes : List Change)
    (state : Calendar.State) (line root : String) (t : FileTree) :
    Accounted (changes ++ ((Activity.calendar state).change? line).toList)
      (((Activity.calendar state).hear look line).writes root t)
      (((Activity.calendar state).hear look line).run root t).1.state := by
  simp only [Activity.hear, Access.writes_map, Access.run_map, Activity.change?]
  have hother (turn : Turn Calendar.State) (r : Packages.Registry) :
      (Activity.turn .calendar turn).state ≠ some (.packages r) :=
    Activity.turn_state_ne_packages (fun _ _ heq => by cases heq) turn r
  cases hchange : state.change? line with
  | none =>
      obtain ⟨-, -, hwrites⟩ := Calendar.hear_of_change?_eq_none look hchange root t
      rw [Calendar.dialogue, hwrites]
      exact .of_no_writes fun r hr => absurd hr (hother _ r)
  | some change =>
      obtain ⟨-, -, hwrites⟩ := Calendar.hear_of_change?_eq_some look hchange root t
      rw [Calendar.dialogue, hwrites]
      have hmem : Change.book change ∈ changes ++ [Change.book change] := by simp
      refine ⟨fun w hw => ?_, fun r hr => absurd hr (hother _ r)⟩
      rw [List.mem_singleton.1 hw]
      exact .book rfl hmem

/-- A line in the package installer: the registry is written when the installer is left, and only if
there has been a change. -/
theorem hear_packages_accounted (look : Calendar.Look) {changes : List Change}
    {registry : Packages.Registry}
    (h : registry.dirty = true → ∃ change, .registry change ∈ changes) (line root : String)
    (t : FileTree) :
    Accounted (changes ++ ((Activity.packages registry).change? line).toList)
      (((Activity.packages registry).hear look line).writes root t)
      (((Activity.packages registry).hear look line).run root t).1.state := by
  simp only [Activity.hear, Access.writes_map, Access.run_map, Activity.turn_state,
    Packages.dialogue_hear, Activity.change?]
  rcases Packages.hear_cases registry line with
    ⟨turn, hhear, hstate, hlast⟩ | ⟨hnone, ended, hhear, hended⟩
  · rw [hhear, Access.writes_pure, Access.run_pure, hlast, hstate]
    refine .of_no_writes fun r hr hdirty => ?_
    simp only [Bool.false_eq_true, if_false, Option.some.injEq, Activity.packages.injEq] at hr
    rw [← hr] at hdirty
    -- what is held is dirty because of this line or of one before it
    cases hchange : Packages.change? registry line with
    | none =>
        rw [hchange] at hdirty
        obtain ⟨change, hmem⟩ := h hdirty
        exact ⟨change, List.mem_append_left _ hmem⟩
    | some change => exact ⟨change, by simp⟩
  · rw [hhear, hnone]
    simp only [Access.writes_bind, Access.writes_pure, List.append_nil, Access.run_bind,
      Access.run_pure, hended, if_true]
    refine ⟨fun w hw => ?_, fun r hr => by cases hr⟩
    obtain ⟨hpath, hdirty⟩ := path_of_mem_close hw
    obtain ⟨change, hmem⟩ := h hdirty
    exact .registry hpath (List.mem_append_left _ hmem)

/-- **A line in an application.** -/
theorem Activity.hear_accounted (look : Calendar.Look) {changes : List Change} {activity : Activity}
    (h : ∀ r, activity = .packages r → r.dirty = true → ∃ change, .registry change ∈ changes)
    (line root : String) (t : FileTree) :
    Accounted (changes ++ (activity.change? line).toList)
      ((activity.hear look line).writes root t) ((activity.hear look line).run root t).1.state := by
  cases activity with
  | calculator =>
      simp only [hear, Access.writes_map, Access.run_map]
      exact .of_no_writes fun r hr =>
        absurd hr (turn_state_ne_packages (fun _ _ heq => by cases heq) _ r)
  | calendar state => exact hear_calendar_accounted look changes state line root t
  | packages registry => exact hear_packages_accounted look (h registry rfl) line root t

/-- **A command.** A call of the package installer writes the registry at once, and only if it makes
a change; no other command writes. -/
theorem perform_accounted (look : Calendar.Look) (changes : List Change) (command : Command)
    (root : String) (t : FileTree) :
    Accounted (changes ++ (command.change? root t).toList)
      ((perform look command).writes root t) ((perform look command).run root t).1.state := by
  cases command with
  | nothing | leave | help | unknown word => exact .of_no_writes fun r hr => by cases hr
  | calculator =>
      simp only [perform, Access.writes_map, Access.run_map]
      exact .of_no_writes fun r hr =>
        absurd hr (Activity.turn_state_ne_packages (fun _ _ heq => by cases heq) _ r)
  | calendar =>
      obtain ⟨-, -, hwrites⟩ := Calendar.run_opening look root t
      simp only [perform, Access.writes_map, Access.run_map, hwrites]
      exact .of_no_writes fun r hr =>
        absurd hr (Activity.turn_state_ne_packages (fun _ _ heq => by cases heq) _ r)
  | list path =>
      have hwrites : (listDirectory path).writes root t = [] := by
        unfold listDirectory
        rw [Access.writes_bind, Access.writes_listDirectory, Access.run_listDirectory]
        cases Sandbox.list root t path <;> rfl
      simp only [perform, Access.writes_map, Access.run_map, hwrites, reply]
      exact .of_no_writes fun r hr => by cases hr
  | print path =>
      have hwrites : (printFile path).writes root t = [] := by
        unfold printFile
        split
        · rfl
        · rw [Access.writes_bind, Access.writes_readText, Access.run_readText]
          cases Sandbox.read root t path <;> rfl
      simp only [perform, Access.writes_map, Access.run_map, hwrites, reply]
      exact .of_no_writes fun r hr => by cases hr
  | packages call =>
      -- the only command that writes: its change is put behind those that came before
      simp only [perform, Access.writes_map, Access.run_map, Activity.turn_state, Command.change?]
      refine ⟨fun w hw => ?_, fun r hr hdirty => ?_⟩
      · rcases (Packages.run_opening call root t).2 with ⟨-, -, hnone⟩ | ⟨change, hchange, hsaved⟩
        · rw [hnone] at hw
          exact absurd hw List.not_mem_nil
        · rw [hsaved.written_eq, List.mem_singleton] at hw
          have hmem : Change.registry change ∈ changes ++ [Change.registry change] := by simp
          rw [hchange, hw]
          exact .registry rfl hmem
      · -- without a command in the call, the dialogue starts with a registry that is clean
        by_cases hcall : Text.trim call.toList = []
        · obtain ⟨hopening, -⟩ := Packages.run_opening_of_blank hcall root t
          rw [hopening] at hr
          simp only [Bool.false_eq_true, if_false, Option.some.injEq, Activity.packages.injEq] at hr
          rw [← hr, Packages.Registry.dirty_stored] at hdirty
          cases hdirty
        · rw [Packages.last_opening_of_command hcall, if_pos rfl] at hr
          cases hr

/-! ## The shell -/

/-- **A line in the shell** goes to the running application or is a command. -/
theorem hear_accounted (look : Calendar.Look) {changes : List Change} {written : List Write}
    {running : Option Activity} (h : Accounted changes written running) (line root : String)
    (t : FileTree) :
    Accounted (changes ++ (Change.ofHeard? root ⟨running, t, line⟩).toList)
      (written ++ (hear look running line).writes root t)
      ((hear look running line).run root t).1.state := by
  refine h.append ?_
  cases running with
  | none =>
      simpa only [Change.ofHeard?, hear] using
        perform_accounted look changes (.ofLine line) root t
  | some activity =>
      refine activity.hear_accounted look (fun r hr => ?_) line root t
      exact h.held r (congrArg some hr)

theorem Accounted.atEnd (look : Calendar.Look) {changes : List Change} {written : List Write}
    {activity : Activity} (h : Accounted changes written (some activity)) (root : String)
    (t : FileTree) :
    Accounted changes (written ++ (activity.atEnd look).writes root t) (some activity) := by
  refine ⟨fun w hw => ?_, h.held⟩
  rcases List.mem_append.1 hw with hw | hw
  · exact h.explained w hw
  · cases activity with
    | calculator => simp [Activity.atEnd, Calculator.dialogue] at hw
    | calendar state => simp [Activity.atEnd, Calendar.dialogue] at hw
    | packages registry =>
        rw [Activity.atEnd, Access.writes_bind, Access.writes_pure, List.append_nil,
          (Packages.run_atEnd registry root t).2] at hw
        obtain ⟨hpath, hdirty⟩ := path_of_mem_close hw
        obtain ⟨change, hmem⟩ := h.held registry rfl hdirty
        exact .registry hpath hmem

section Session

variable (look : Calendar.Look) (root : String) (t : FileTree) (lines : List RawLine)

def Session.writes (s : Session) : List Write :=
  s.dialogue.converseWrites root s.opening t lines

def Session.heardChanges (s : Session) : List Change :=
  (s.dialogue.converseHeard root s.opening t lines).filterMap (Change.ofHeard? root)

/-- **The writes of an interactive shell** have changes before them. -/
theorem Session.interactive_accounted (greeting : Transcript) :
    Accounted ((Session.interactive look greeting).heardChanges root t lines)
      ((Session.interactive look greeting).writes root t lines)
      ((Session.interactive look greeting).run root t lines).state := by
  refine Dialogue.converse_induction (motive := fun heard written s _ =>
    Accounted (heard.filterMap (Change.ofHeard? root)) written s) ?start ?hear ?atEnd
  case start => exact .of_no_writes fun r hr => by cases hr
  case hear =>
    intro heard written running t' raw line hraw htext h
    rw [filterMap_concat]
    exact hear_accounted look h line root t'
  case atEnd =>
    intro heard written running t' h
    cases running with
    | none => simpa [interactive, Shell.dialogue] using h
    | some activity => simpa [interactive, Shell.dialogue] using h.atEnd look root t'

@[simp]
theorem once_state (turn : Turn (Option Activity)) : (once turn).state = turn.state := rfl

/-- **The writes of a single command** have changes before them, that of the command included. -/
theorem Session.single_accounted (line : String) :
    Accounted (((Command.ofLine line).change? root t).toList
        ++ (Session.single look line).heardChanges root t lines)
      ((Session.single look line).writes root t lines)
      ((Session.single look line).run root t lines).state := by
  refine Dialogue.converse_induction (motive := fun heard written s _ =>
    Accounted (((Command.ofLine line).change? root t).toList
      ++ heard.filterMap (Change.ofHeard? root)) written s) ?start ?hear ?atEnd
  case start =>
    simpa only [List.filterMap_nil, List.append_nil, List.nil_append, single, Access.writes_map,
      Access.run_map, once_state] using perform_accounted look [] (.ofLine line) root t
  case hear =>
    intro heard written running t' raw line' hraw htext h
    simpa only [filterMap_concat, List.append_assoc, single, commandDialogue, Access.writes_map,
      Access.run_map, once_state] using hear_accounted look h line' root t'
  case atEnd =>
    intro heard written running t' h
    cases running with
    | none => simpa [single, commandDialogue] using h
    | some activity => simpa only [single, commandDialogue] using h.atEnd look root t'

end Session

end DeskShell.Shell
