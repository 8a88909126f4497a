import DeskShell.Packages.Session
import DeskShell.Proofs.Packages.RegistryText
import DeskShell.Proofs.Terminal.History
import Mathlib.Data.List.TakeWhile

/-!
# Changes of the registry

A command line installs a package, removes one, or leaves the registry alone (`execute_fst`). In a
dialogue a change is only held; the registry is written when the dialogue ends, if it is dirty then
(`hear_cases`, `run_close`). A single command writes it at once (`run_opening`).
-/

set_option autoImplicit false

namespace DeskShell.Packages

open Text Terminal Files

/-! ## One change -/

inductive Change
  | installed (name : String)
  | removed (name : String)
  deriving DecidableEq

def Change.apply (r : Registry) : Change → Registry
  | installed name => { names := r.names ++ [name], dirty := true }
  | removed name => { names := r.names.eraseP fun n => sameLetters n name, dirty := true }

def Change.installation? : Change → Option String
  | installed name => some name
  | removed _ => none

/-- The registry after a line that makes a change, or none. -/
def Registry.after (r : Registry) (change : Option Change) : Registry :=
  (change.map fun change => change.apply r).getD r

def change? (r : Registry) (line : String) : Option Change :=
  let (word, rest) := firstWord (trim line.toList)
  let name := String.ofList (trim rest)
  if name = "" then none
  else
    match lower (String.ofList word) with
    | "install" => if r.contains name then none else some (.installed name)
    | "remove" => if r.contains name then some (.removed name) else none
    | _ => none

theorem install_fst (r : Registry) (name : String) :
    (install r name).1 = if name = "" then none
      else if r.contains name then none else some ((Change.installed name).apply r) := by
  unfold install Registry.install?
  by_cases hname : name = ""
  · simp [hname]
  · by_cases hthere : r.contains name = true <;> simp [hname, hthere, Change.apply]

theorem remove_fst (r : Registry) (name : String) :
    (remove r name).1 = if name = "" then none
      else if r.contains name then some ((Change.removed name).apply r) else none := by
  unfold remove Registry.remove?
  by_cases hname : name = ""
  · simp [hname]
  · by_cases hthere : r.contains name = true <;> simp [hname, hthere, Change.apply]

/-- **The effect of a command line** is its change. -/
theorem execute_fst (r : Registry) (line : String) :
    (execute r line).1 = (change? r line).map fun change => change.apply r := by
  unfold execute change?
  generalize firstWord (trim line.toList) = cut
  obtain ⟨word, rest⟩ := cut
  simp only
  by_cases hword : String.ofList word = ""
  · have hlower : lower "" = "" := rfl
    simp [hword, hlower]
  · rw [if_neg hword]
    split
    · next hcommand =>
        rw [install_fst, hcommand]
        by_cases hname : String.ofList (trim rest) = ""
        · simp [hname]
        · by_cases hthere : r.contains (String.ofList (trim rest)) = true <;> simp [hname, hthere]
    · next hcommand =>
        rw [remove_fst, hcommand]
        by_cases hname : String.ofList (trim rest) = ""
        · simp [hname]
        · by_cases hthere : r.contains (String.ofList (trim rest)) = true <;> simp [hname, hthere]
    -- the other commands change nothing
    · simp_all
    · simp_all
    · simp_all

theorem change?_trim (r : Registry) (line : String) :
    change? r (String.ofList (trim line.toList)) = change? r line := by
  rw [change?, String.toList_ofList, trim_trim]
  rfl

/-- The word that ends a dialogue is a command without an argument. -/
theorem change?_of_exit {line : String} (r : Registry)
    (h : sameLetters (String.ofList (trim line.toList)) "exit" = true) : change? r line = none := by
  have hlower : (trim line.toList).map Char.toLower = ['e', 'x', 'i', 't'] := by
    have hword := congrArg String.toList (sameLetters_iff.1 h)
    simpa [lower] using hword
  have hblank : ∀ c ∈ trim line.toList, (!isAsciiBlank c) = true := by
    intro c hc
    have hsmall : c.toLower ∈ ['e', 'x', 'i', 't'] := hlower ▸ List.mem_map_of_mem hc
    cases hb : isAsciiBlank c with
    | false => rfl
    | true =>
        -- a blank is no capital, so it would be one of the four letters itself
        simp only [isAsciiBlank, Bool.or_eq_true, beq_iff_eq] at hb
        rcases hb with (((rfl | rfl) | rfl) | rfl) | rfl <;> revert hsmall <;> decide
  have hrest : (firstWord (trim line.toList)).2 = [] := by
    have hdrop : (trim line.toList).dropWhile (fun c => !isAsciiBlank c) = [] :=
      List.dropWhile_eq_nil_iff.2 hblank
    rw [firstWord, hdrop]
    rfl
  unfold change?
  simp only [hrest]
  rfl

/-! ## Writing the registry -/

/-- A registry is written, whether that succeeds or not. -/
structure Saved (root : String) (r : Registry) (t t' : FileTree) (written : List Write) :
    Prop where
  tree_eq : t' = (Sandbox.write root t Registry.path r.toText).1
  written_eq : written
    = [⟨Registry.path, r.toText, (Sandbox.write root t Registry.path r.toText).2⟩]

theorem run_save (r : Registry) (root : String) (t : FileTree) :
    (r.save.run root t).1.1.names = r.names ∧
      Saved root r t (r.save.run root t).2 (r.save.writes root t) := by
  unfold Registry.save
  simp only [Access.run_bind, Access.writes_bind, Access.run_writeText, Access.writes_writeText]
  cases hanswer : (Sandbox.write root t Registry.path r.toText).2 with
  | ok _ =>
      simp only [Access.run_pure, Access.writes_pure, List.append_nil]
      refine ⟨trivial, ⟨rfl, ?_⟩⟩
      rw [hanswer]
  | error refusal =>
      simp only [Access.run_pure, Access.writes_pure, List.append_nil]
      refine ⟨trivial, ⟨rfl, ?_⟩⟩
      rw [hanswer]

theorem run_commit (r : Registry) (root : String) (t : FileTree) :
    ((commit r).run root t).1.1.names = r.names ∧
      Saved root r t ((commit r).run root t).2 ((commit r).writes root t) := by
  obtain ⟨hnames, hsaved⟩ := run_save r root t
  unfold commit
  simp only [Access.run_bind, Access.writes_bind]
  generalize r.save.run root t = saved at hnames hsaved
  obtain ⟨⟨r', answer⟩, t'⟩ := saved
  cases answer with
  | ok _ =>
      simp only [Access.run_pure, Access.writes_pure, List.append_nil]
      exact ⟨hnames, hsaved⟩
  | error refusal =>
      simp only [Access.run_pure, Access.writes_pure, List.append_nil]
      exact ⟨hnames, hsaved⟩

theorem close_of_clean {r : Registry} (h : r.dirty = false) : close r = pure (r, .nothing) := by
  rw [close, h]
  rfl

theorem close_of_dirty {r : Registry} (h : r.dirty = true) : close r = commit r := by
  rw [close, if_pos h]

/-- What a dialogue does at its end: nothing, or it writes the registry. -/
theorem run_close (r : Registry) (root : String) (t : FileTree) :
    ((close r).run root t).1.1.names = r.names ∧
      ((((close r).run root t).2 = t ∧ (close r).writes root t = []) ∨
        Saved root r t ((close r).run root t).2 ((close r).writes root t)) := by
  cases hdirty : r.dirty with
  | true =>
      obtain ⟨hnames, hsaved⟩ := run_commit r root t
      rw [close_of_dirty hdirty]
      exact ⟨hnames, .inr hsaved⟩
  | false =>
      rw [close_of_clean hdirty]
      exact ⟨rfl, .inl ⟨rfl, rfl⟩⟩

/-! ## Lines of a dialogue -/

theorem hear_of_blank (r : Registry) {line : String} (h : trim line.toList = []) :
    hear r line = pure { written := .nothing, state := r } := by
  unfold hear
  rw [h]
  rfl

/-- The turn with which a dialogue ends, after it has been closed. -/
def lastTurn (closed : Registry × Transcript) : Turn Registry :=
  { written := .sayLine "Package installer session ended." ++ closed.2
    state := closed.1
    last := true }

theorem hear_of_exit (r : Registry) {line : String}
    (h : sameLetters (String.ofList (trim line.toList)) "exit" = true) :
    hear r line = (close r >>= fun closed => pure (lastTurn closed)) := by
  have hblank : String.ofList (trim line.toList) ≠ "" := by
    intro hempty
    rw [hempty] at h
    exact absurd h (by decide)
  unfold hear
  simp only [hblank, h, if_false, if_true]
  rfl

/-- A line that is a command has its effect on the registry that is held. -/
theorem hear_of_command (r : Registry) {line : String} (hblank : trim line.toList ≠ [])
    (hexit : sameLetters (String.ofList (trim line.toList)) "exit" = false) :
    hear r line = pure
      { written := (execute r (String.ofList (trim line.toList))).2
        state := r.after (change? r line) } := by
  have hword : String.ofList (trim line.toList) ≠ "" := by simpa using hblank
  have hexecute := execute_fst r (String.ofList (trim line.toList))
  rw [change?_trim] at hexecute
  unfold hear Registry.after
  simp only [hword, hexit, if_false, Bool.false_eq_true, ← hexecute]

/-- **What a line does**: its change, without a write, or it ends the dialogue. -/
theorem hear_cases (r : Registry) (line : String) :
    (∃ turn : Turn Registry, hear r line = pure turn ∧
      turn.state = r.after (change? r line) ∧ turn.last = false) ∨
    (change? r line = none ∧ ∃ ended : Registry × Transcript → Turn Registry,
      hear r line = (close r >>= fun closed => pure (ended closed)) ∧
        ∀ closed, (ended closed).state = closed.1 ∧ (ended closed).last = true) := by
  by_cases hblank : trim line.toList = []
  · have hnone : change? r line = none := by
      rw [← change?_trim, hblank]
      rfl
    refine .inl ⟨_, hear_of_blank r hblank, ?_, rfl⟩
    rw [hnone]
    rfl
  · cases hexit : sameLetters (String.ofList (trim line.toList)) "exit" with
    | true =>
        exact .inr ⟨change?_of_exit r hexit, lastTurn, hear_of_exit r hexit, fun _ => ⟨rfl, rfl⟩⟩
    | false =>
        -- no plain reflexivity here: it would evaluate the command
        exact .inl ⟨_, hear_of_command r hblank hexit, by dsimp only, by dsimp only⟩

/-- A line on files: its change is held, and only the line that ends the dialogue writes. -/
theorem run_hear (r : Registry) (line : String) (root : String) (t : FileTree) :
    ((hear r line).run root t).1.state.names = (r.after (change? r line)).names ∧
      ((((hear r line).run root t).2 = t ∧ (hear r line).writes root t = []) ∨
        (change? r line = none ∧
          Saved root r t ((hear r line).run root t).2 ((hear r line).writes root t))) := by
  rcases hear_cases r line with ⟨turn, hhear, hstate, -⟩ | ⟨hnone, ended, hhear, hended⟩
  · rw [hhear]
    refine ⟨?_, .inl ⟨rfl, rfl⟩⟩
    rw [Access.run_pure, hstate]
  · obtain ⟨hnames, hclose⟩ := run_close r root t
    rw [hhear, hnone]
    simp only [Access.run_bind, Access.run_pure, Access.writes_bind, Access.writes_pure,
      List.append_nil, hended]
    refine ⟨hnames, ?_⟩
    rcases hclose with hidle | hsaved
    · exact .inl hidle
    · exact .inr ⟨trivial, hsaved⟩

theorem dialogue_hear : dialogue.hear = hear := by rw [dialogue]

/-! ## Sessions -/

def Registry.stored (root : String) (t : FileTree) : Registry := (Registry.load.run root t).1

theorem run_load (root : String) (t : FileTree) :
    Registry.load.run root t = (Registry.stored root t, t) ∧ Registry.load.writes root t = [] := by
  unfold Registry.stored Registry.load
  simp only [Access.run_bind, Access.writes_bind, Access.run_readText, Access.writes_readText]
  cases Sandbox.read root t Registry.path <;> exact ⟨rfl, rfl⟩

theorem stored_of_read {root : String} {t : FileTree} {text : String}
    (h : Sandbox.read root t Registry.path = .ok text) :
    Registry.stored root t = Registry.ofText text := by
  simp [Registry.stored, Registry.load, h]

theorem stored_of_error {root : String} {t : FileTree} {refusal : Sandbox.Refusal}
    (h : Sandbox.read root t Registry.path = .error refusal) :
    Registry.stored root t = {} := by
  simp [Registry.stored, Registry.load, h]

/-- **The opening of a session**: a command that is given with the call is executed, and the
registry is written if there is a change. -/
theorem run_opening (call root : String) (t : FileTree) :
    ((opening call).run root t).1.state.names
        = ((Registry.stored root t).after (change? (Registry.stored root t) call)).names ∧
      ((change? (Registry.stored root t) call = none ∧ ((opening call).run root t).2 = t ∧
          (opening call).writes root t = []) ∨
        ∃ change, change? (Registry.stored root t) call = some change ∧
          Saved root (change.apply (Registry.stored root t)) t ((opening call).run root t).2
            ((opening call).writes root t)) := by
  obtain ⟨hload, hwrites⟩ := run_load root t
  unfold opening
  simp only [Access.run_bind, Access.writes_bind, hload, hwrites, List.nil_append]
  generalize Registry.stored root t = r
  by_cases hblank : String.ofList (trim call.toList) = ""
  · have hnone : change? r call = none := by
      rw [← change?_trim, hblank]
      rfl
    rw [if_pos hblank, hnone]
    exact ⟨rfl, .inl ⟨rfl, rfl, rfl⟩⟩
  · have hexecute := execute_fst r (String.ofList (trim call.toList))
    rw [change?_trim] at hexecute
    rw [if_neg hblank]
    unfold executeOnce
    generalize execute r (String.ofList (trim call.toList)) = effect at hexecute
    obtain ⟨changed, written⟩ := effect
    cases hchange : change? r call with
    | none =>
        rw [hchange] at hexecute
        cases hexecute
        exact ⟨rfl, .inl ⟨rfl, rfl, rfl⟩⟩
    | some change =>
        rw [hchange] at hexecute
        cases hexecute
        obtain ⟨hnames, hsaved⟩ := run_commit (change.apply r) root t
        simp only [Access.run_bind, Access.run_pure, Access.writes_bind, Access.writes_pure,
          List.append_nil]
        exact ⟨hnames, .inr ⟨change, rfl, hsaved⟩⟩

def Change.ofHeard? (heard : Heard Registry) : Option Change := change? heard.state heard.line

@[simp]
theorem Change.ofHeard?_mk (r : Registry) (t : FileTree) (line : String) :
    Change.ofHeard? ⟨r, t, line⟩ = change? r line := by rw [Change.ofHeard?]

section Session

variable (root call : String) (t : FileTree) (input : List UInt8)

/-- The outcome of a session that is called with a command, or with none, on typed bytes. -/
def session : Outcome Registry := dialogue.converse root (opening call) t (rawLines input)

def sessionWrites : List Write :=
  dialogue.converseWrites root (opening call) t (rawLines input)

/-- The changes that a session makes: that of its call and those of the lines it hears. -/
def sessionChanges : List Change :=
  (change? (Registry.stored root t) call).toList ++
    (dialogue.converseHeard root (opening call) t (rawLines input)).filterMap Change.ofHeard?

end Session

end DeskShell.Packages
