import DeskShell.Proofs.Packages.Storable
import DeskShell.Proofs.Terminal.Lines

/-!
# What an installer leaves in its file

A session holds the registry that it loaded with its changes made to it, one after the other
(`dialogue_outcome`, `command_outcome`). A single command writes that registry at once, and a
dialogue when it ends, but not where it ends at a line that is not text. So what the next session
finds is what this one held, except after such an end, and except for a name with a line feed in it,
which is read back as several names (`namesFound_of_session`).
-/

set_option autoImplicit false

namespace DeskShell.Packages

open Text Terminal Files

/-! ## Changes one after the other -/

def Registry.afterAll (r : Registry) (changes : List Change) : Registry :=
  changes.foldl Change.apply r

theorem Registry.afterAll_append (r : Registry) (changes : List Change) (change : Option Change) :
    r.afterAll (changes ++ change.toList) = (r.afterAll changes).after change := by
  cases change with
  | none => simp [afterAll, after]
  | some change => simp [afterAll, after]

theorem Registry.dirty_afterAll {r : Registry} {changes : List Change} (h : changes ≠ []) :
    (r.afterAll changes).dirty = true := by
  obtain ⟨before, change, rfl⟩ := List.eq_nil_or_concat changes |>.resolve_left h
  rw [afterAll, List.concat_eq_append, List.foldl_append]
  cases change <;> rfl

theorem Change.mem_apply {r : Registry} {name : String} (h : name ∈ r.names) {change : Change}
    (hkept : ∀ other, change = .removed other → sameLetters name other = false) :
    name ∈ (change.apply r).names := by
  cases change with
  | installed other => exact List.mem_append_left _ h
  | removed other =>
      have hne : ¬ sameLetters name other = true := by simp [hkept other rfl]
      exact (List.mem_eraseP_of_neg (p := fun n => sameLetters n other) hne).2 h

theorem Registry.mem_afterAll {r : Registry} {before after : List Change} {name : String}
    (h : ∀ other, .removed other ∈ after → sameLetters name other = false) :
    name ∈ (r.afterAll (before ++ .installed name :: after)).names := by
  rw [afterAll, List.foldl_append, List.foldl_cons]
  generalize before.foldl Change.apply r = held
  have hinstalled : name ∈ ((Change.installed name).apply held).names :=
    List.mem_append_right _ (List.mem_singleton_self _)
  refine List.foldlRecOn (motive := fun r : Registry => name ∈ r.names) after Change.apply
    hinstalled ?_
  intro held hheld change hchange
  exact Change.mem_apply hheld fun other hother => h other (hother ▸ hchange)

theorem Saved.stored_eq {root : String} {r : Registry} {t t' : FileTree} {written : List Write}
    (h : Saved root r t t' written) (hok : ∀ w ∈ written, w.answer = .ok ()) :
    Registry.stored root t' = Registry.ofText r.toText := by
  have hanswer : (Sandbox.write root t Registry.path r.toText).2 = .ok () := by
    rw [h.written_eq] at hok
    simpa only [List.forall_mem_singleton] using hok
  rw [h.tree_eq]
  exact stored_of_read (Sandbox.read_write_of_ok hanswer)

/-! ## Openings -/

def greeting : Transcript :=
  .sayLine ("Package Installer (commands: install <name>, " ++ "remove <name>, list, help, exit)")

theorem run_opening_of_blank {call : String} (h : trim call.toList = []) (root : String)
    (t : FileTree) :
    (opening call).run root t = ({ written := greeting, state := Registry.stored root t }, t) ∧
      (opening call).writes root t = [] := by
  obtain ⟨hload, hwrites⟩ := run_load root t
  have hword : String.ofList (trim call.toList) = "" := by rw [h]
  unfold opening greeting
  simp only [Access.run_bind, Access.writes_bind, hload, hwrites, if_pos hword, Access.run_pure,
    Access.writes_pure, List.append_nil, and_self]

theorem last_opening_of_command {call : String} (h : trim call.toList ≠ []) (root : String)
    (t : FileTree) : ((opening call).run root t).1.last = true := by
  have hword : String.ofList (trim call.toList) ≠ "" := by simpa using h
  unfold opening
  simp only [Access.run_bind, if_neg hword]
  unfold executeOnce
  generalize execute _ _ = effect
  obtain ⟨changed, written⟩ := effect
  cases changed with
  | none => rfl
  | some r' => simp only [Access.run_bind, Access.run_pure]

/-! ## Sessions -/

section Session

variable (root call : String) (t : FileTree) (input : List UInt8)

/-- The names that a session holds when it is over. -/
def namesHeld : List String := (session root call t input).state.names

/-- The names that the next session finds. -/
def namesFound : List String :=
  (Registry.stored root (session root call t input).tree).names

end Session

/-- A dialogue between two lines: it holds what it loaded with its changes, and has not touched a
file. -/
structure Pending (root : String) (t : FileTree) (heard : List (Heard Registry))
    (written : List Write) (r : Registry) (t' : FileTree) : Prop where
  state_eq : r = (Registry.stored root t).afterAll (heard.filterMap Change.ofHeard?)
  storable : r.Storable
  tree_eq : t' = t
  written_eq : written = []

/-- **One line** that does not end the dialogue. -/
theorem Pending.hear {root : String} {t t' : FileTree} {heard : List (Heard Registry)}
    {written : List Write} {r : Registry} {line : String}
    (h : Pending root t heard written r t') (hline : '\n' ∉ line.toList)
    (hlast : ((Packages.hear r line).run root t').1.last = false) :
    Pending root t (heard ++ [⟨r, t', line⟩]) (written ++ (Packages.hear r line).writes root t')
      ((Packages.hear r line).run root t').1.state ((Packages.hear r line).run root t').2 := by
  rcases hear_cases r line with ⟨turn, hhear, hstate, -⟩ | ⟨-, ended, hhear, hended⟩
  · rw [hhear]
    refine ⟨?_, ?_, h.tree_eq, ?_⟩
    · rw [Access.run_pure, hstate, filterMap_concat, Change.ofHeard?_mk,
        Registry.afterAll_append, ← h.state_eq]
    · rw [Access.run_pure, hstate]
      exact h.storable.after hline
    · rw [Access.writes_pure, List.append_nil, h.written_eq]
  · rw [hhear] at hlast
    simp [hended] at hlast

/-- The end of a dialogue whose writes succeed: what is found in the file is what was held. -/
theorem Pending.close {root : String} {t t' : FileTree} {heard : List (Heard Registry)}
    {written : List Write} {r : Registry} (h : Pending root t heard written r t')
    (hok : ∀ w ∈ (Packages.close r).writes root t', w.answer = .ok ()) :
    (Registry.stored root ((Packages.close r).run root t').2).names = r.names := by
  cases hdirty : r.dirty with
  | true =>
      rw [close_of_dirty hdirty] at hok ⊢
      rw [(run_commit r root t').2.stored_eq hok, Registry.names_ofText_toText h.storable]
  | false =>
      -- without a change the file still holds what was loaded
      have hnone : heard.filterMap Change.ofHeard? = [] := by
        by_contra hne
        have hchanged := Registry.dirty_afterAll (r := Registry.stored root t) hne
        rw [← h.state_eq, hdirty] at hchanged
        cases hchanged
      rw [close_of_clean hdirty, Access.run_pure, h.tree_eq, h.state_eq, hnone]
      rfl

/-- The line that ends a dialogue makes no change and closes it. -/
theorem run_hear_of_last {r : Registry} {line root : String} {t : FileTree}
    (h : ((hear r line).run root t).1.last = true) :
    change? r line = none ∧ ((hear r line).run root t).1.state.names = r.names ∧
      ((hear r line).run root t).2 = ((close r).run root t).2 ∧
      (hear r line).writes root t = (close r).writes root t := by
  rcases hear_cases r line with ⟨turn, hhear, -, hlast⟩ | ⟨hnone, ended, hhear, hended⟩
  · rw [hhear, Access.run_pure, hlast] at h
    cases h
  · rw [hhear]
    simp only [Access.run_bind, Access.run_pure, Access.writes_bind, Access.writes_pure,
      List.append_nil, hended, and_true]
    exact ⟨hnone, (run_close r root t).1⟩

theorem run_atEnd (r : Registry) (root : String) (t : FileTree) :
    ((dialogue.atEnd r).run root t).2 = ((close r).run root t).2 ∧
      (dialogue.atEnd r).writes root t = (close r).writes root t := by
  simp [dialogue]

/-- **The last step of a dialogue.** What is held then is what was loaded with its changes. If the
step is a line that is not text, the file is left alone; else what is found there is what was held.
-/
theorem Pending.lastStep {root : String} {t t' tree : FileTree} {lines : List RawLine}
    {heard heard' : List (Heard Registry)} {written written' : List Write} {r state : Registry}
    {ending : Ending} (h : Pending root t heard written r t')
    (hstep : dialogue.LastStep root lines heard written r t' ending heard' written' state tree)
    (hok : ∀ w ∈ written', w.answer = .ok ()) :
    state.names = ((Registry.stored root t).afterAll (heard'.filterMap Change.ofHeard?)).names ∧
      Registry.Storable { names := state.names } ∧
      (ending = .inputNotText →
        (Registry.stored root tree).names = (Registry.stored root t).names) ∧
      (ending ≠ .inputNotText → (Registry.stored root tree).names = state.names) := by
  have hheld := congrArg Registry.names h.state_eq
  have hstorable : Registry.Storable { names := r.names } :=
    ⟨h.storable.isName, h.storable.distinct⟩
  cases hstep with
  | notText =>
      refine ⟨hheld, hstorable, fun _ => ?_, fun hne => absurd rfl hne⟩
      rw [h.tree_eq]
  | inputEnded =>
      obtain ⟨htree, hwrites⟩ := run_atEnd r root t'
      refine ⟨hheld, hstorable, fun heq => (by cases heq), fun _ => ?_⟩
      rw [htree]
      exact h.close fun w hw => hok w (List.mem_append_right _ (by rwa [hwrites]))
  | finished mem text last =>
      rw [dialogue_hear] at last hok ⊢
      obtain ⟨hnoChange, hnames, htree, hwrites⟩ := run_hear_of_last last
      rw [filterMap_concat, Change.ofHeard?_mk, hnoChange, Option.toList_none, List.append_nil,
        hnames, htree]
      refine ⟨hheld, hstorable, fun heq => (by cases heq), fun _ => ?_⟩
      exact h.close fun w hw => hok w (List.mem_append_right _ (by rwa [hwrites]))

/-- A session whose call has no command is a dialogue, from the registry that it loads. -/
theorem session_of_blank {call : String} (hcall : trim call.toList = []) (root : String)
    (t : FileTree) (input : List UInt8) :
    session root call t input
        = (dialogue.run root (Registry.stored root t) t (rawLines input)).after greeting ∧
      sessionWrites root call t input
        = dialogue.writes root (Registry.stored root t) t (rawLines input) ∧
      sessionChanges root call t input
        = (dialogue.heard root (Registry.stored root t) t (rawLines input)).filterMap
          Change.ofHeard? := by
  obtain ⟨hopening, hwrites⟩ := run_opening_of_blank hcall root t
  have hnone : change? (Registry.stored root t) call = none := by
    rw [← change?_trim, hcall]
    rfl
  refine ⟨?_, ?_, ?_⟩
  · rw [session, Dialogue.converse, hopening]
    rfl
  · rw [sessionWrites, Dialogue.converseWrites, hopening, hwrites]
    rfl
  · rw [sessionChanges, Dialogue.converseHeard, hnone, hopening]
    rfl

/-- A session whose call has a command is its opening, and reads no line. -/
theorem session_of_call {call : String} (hcall : trim call.toList ≠ []) (root : String)
    (t : FileTree) (input : List UInt8) :
    session root call t input
        = ⟨((opening call).run root t).1.written, .finished, ((opening call).run root t).1.state,
          rawLines input, ((opening call).run root t).2⟩ ∧
      sessionWrites root call t input = (opening call).writes root t ∧
      sessionChanges root call t input = (change? (Registry.stored root t) call).toList := by
  have hlast := last_opening_of_command hcall root t
  refine ⟨?_, ?_, ?_⟩
  · rw [session, Dialogue.converse]
    simp only [hlast, if_true]
  · rw [sessionWrites, Dialogue.converseWrites]
    simp only [hlast, if_true, List.append_nil]
  · rw [sessionChanges, Dialogue.converseHeard]
    simp only [hlast, if_true, List.filterMap_nil, List.append_nil]

/-- **A dialogue.** It holds what it loaded with its changes. If it ends at a line that is not text,
its file is left alone; else what is found there is what was held. -/
theorem dialogue_outcome {root call : String} {t : FileTree} {input : List UInt8}
    (hcall : trim call.toList = [])
    (hok : ∀ w ∈ sessionWrites root call t input, w.answer = .ok ()) :
    namesHeld root call t input
        = ((Registry.stored root t).afterAll (sessionChanges root call t input)).names ∧
      Registry.Storable { names := namesHeld root call t input } ∧
      ((session root call t input).ending = .inputNotText →
        namesFound root call t input = (Registry.stored root t).names) ∧
      ((session root call t input).ending ≠ .inputNotText →
        namesFound root call t input = namesHeld root call t input) := by
  obtain ⟨hsession, hwrites, hchanges⟩ := session_of_blank hcall root t input
  have hstart : Pending root t [] [] (Registry.stored root t) t :=
    ⟨rfl, Registry.storable_stored root t, rfl, rfl⟩
  have hend := @Dialogue.run_lastStep _ dialogue root (rawLines input) (Pending root t) ?hear
    [] [] (Registry.stored root t) t hstart
  case hear =>
    intro heard written r t' raw line hraw htext hlast hpending
    rw [dialogue_hear] at hlast ⊢
    exact hpending.hear (newline_notMem_of_text? hraw htext).1 hlast
  rw [List.nil_append, List.nil_append] at hend
  obtain ⟨heard, written, r, t', hpending, hstep⟩ := hend
  rw [hwrites] at hok
  rw [namesFound, namesHeld, hsession, hchanges]
  exact hpending.lastStep hstep hok

/-- **A single command.** It holds what it loaded with its change, and what is found afterwards is
what the lines of its text hold. -/
theorem command_outcome {root call : String} {t : FileTree} {input : List UInt8}
    (hcall : trim call.toList ≠ [])
    (hok : ∀ w ∈ sessionWrites root call t input, w.answer = .ok ()) :
    namesHeld root call t input
        = ((Registry.stored root t).afterAll (sessionChanges root call t input)).names ∧
      (session root call t input).ending = .finished ∧
      namesFound root call t input
        = (Registry.ofText (Registry.toText { names := namesHeld root call t input })).names ∧
      ((∀ name ∈ namesHeld root call t input, '\n' ∉ name.toList) →
        namesFound root call t input = namesHeld root call t input) := by
  obtain ⟨hsession, hwrites, hchanges⟩ := session_of_call hcall root t input
  obtain ⟨hnames, hfile⟩ := run_opening call root t
  have hloaded := Registry.storable_stored root t
  rw [hwrites] at hok
  rw [namesFound, namesHeld, hsession, hchanges]
  dsimp only
  rw [hnames]
  rcases hfile with ⟨hnone, htree, -⟩ | ⟨change, hchange, hsaved⟩
  · rw [hnone, htree]
    have hback := Registry.names_ofText_toText hloaded
    exact ⟨rfl, rfl, hback.symm, fun _ => rfl⟩
  · rw [hchange, hsaved.stored_eq hok]
    refine ⟨rfl, rfl, rfl, fun hlines => ?_⟩
    exact Registry.names_ofText_toText ((hloaded.apply hchange).2 hlines)

/-! ## What is found -/

theorem newline_notMem_of_mem_namesFound {root call : String} {t : FileTree} {input : List UInt8}
    {name : String} (h : name ∈ namesFound root call t input) : '\n' ∉ name.toList :=
  ((Registry.storable_stored root _).isName name h).newline_notMem

/-- **What the next session finds**, where no write has failed. It finds the names that this one
held exactly if none of them has a line feed in it and the session has not ended, with changes, at a
line that is not text. After such an end the file is what it was; else it holds the lines of all
names, so that a package that was installed and not removed later is found if it stands on one
line. -/
theorem namesFound_of_session {root call : String} {t : FileTree} {input : List UInt8}
    (h : ∀ w ∈ sessionWrites root call t input, w.answer = .ok ()) :
    (namesFound root call t input = namesHeld root call t input ↔
      (∀ name ∈ namesHeld root call t input, '\n' ∉ name.toList) ∧
        ((session root call t input).ending = .inputNotText →
          namesHeld root call t input = (Registry.stored root t).names)) ∧
    ((session root call t input).ending = .inputNotText →
      namesFound root call t input = (Registry.stored root t).names) ∧
    ((session root call t input).ending ≠ .inputNotText →
      namesFound root call t input
          = (Registry.ofText (Registry.toText { names := namesHeld root call t input })).names ∧
        ((∀ name ∈ namesHeld root call t input, '\n' ∉ name.toList) →
          ∀ before name after,
            sessionChanges root call t input = before ++ .installed name :: after →
            (∀ other, .removed other ∈ after → sameLetters name other = false) →
              name ∈ namesFound root call t input)) := by
  have hkept (hheld : namesHeld root call t input
        = ((Registry.stored root t).afterAll (sessionChanges root call t input)).names)
      (hfound : namesFound root call t input = namesHeld root call t input) :
      ∀ before name after, sessionChanges root call t input = before ++ .installed name :: after →
        (∀ other, .removed other ∈ after → sameLetters name other = false) →
          name ∈ namesFound root call t input := by
    intro before name after hchanges hafter
    rw [hfound, hheld, hchanges]
    exact Registry.mem_afterAll hafter
  by_cases hcall : trim call.toList = []
  -- a dialogue hears no line feed, so it is only the way it ends that matters
  · obtain ⟨hheld, hstorable, hnotText, hended⟩ := dialogue_outcome hcall h
    have hlines : ∀ name ∈ namesHeld root call t input, '\n' ∉ name.toList :=
      fun name hname => (hstorable.isName name hname).newline_notMem
    refine ⟨?_, hnotText, fun hending => ⟨?_, fun _ => hkept hheld (hended hending)⟩⟩
    · by_cases hending : (session root call t input).ending = .inputNotText
      · rw [hnotText hending]
        exact ⟨fun heq => ⟨hlines, fun _ => heq.symm⟩, fun hall => (hall.2 hending).symm⟩
      · exact ⟨fun _ => ⟨hlines, fun heq => absurd heq hending⟩, fun _ => hended hending⟩
    · rw [hended hending]
      exact (Registry.names_ofText_toText hstorable).symm
  -- a single command always comes to its end, so it is only the names that matter
  · obtain ⟨hheld, hending, hfound, hback⟩ := command_outcome hcall h
    have hfinished : ¬ (session root call t input).ending = .inputNotText := by
      rw [hending]
      exact fun heq => by cases heq
    refine ⟨⟨fun heq => ⟨?_, fun hnot => absurd hnot hfinished⟩, fun hall => hback hall.1⟩,
      fun hnot => absurd hnot hfinished,
      fun _ => ⟨hfound, fun hlines => hkept hheld (hback hlines)⟩⟩
    intro name hname
    exact newline_notMem_of_mem_namesFound (heq.symm ▸ hname)

/-- A call with a line feed in the name that it installs, and a dialogue that ends at a line that is
not text: both say that they have installed a package, and neither is found with its name. -/
theorem namesFound_of_session_lost :
    let t : FileTree := ⟨["w"], [(["w"], .directory)]⟩
    let cut : List UInt8 := "install a\n".toUTF8.toList ++ [0xff, 0x0a]
    (∀ w ∈ sessionWrites "." "install a\nb" t [], w.answer = .ok ()) ∧
      (∀ w ∈ sessionWrites "." "" t cut, w.answer = .ok ()) ∧
      namesHeld "." "install a\nb" t [] = ["a\nb"] ∧
      namesFound "." "install a\nb" t [] = ["a", "b"] ∧
      namesHeld "." "" t cut = ["a"] ∧ namesFound "." "" t cut = [] := by
  intro t cut
  have hcall : ∀ w ∈ sessionWrites "." "install a\nb" t [], w.answer = .ok () := by decide +kernel
  have hcut : ∀ w ∈ sessionWrites "." "" t cut, w.answer = .ok () := by decide +kernel
  have hheldCall : namesHeld "." "install a\nb" t [] = ["a\nb"] := by decide +kernel
  have hheldCut : namesHeld "." "" t cut = ["a"] := by decide +kernel
  have hendingCall : (session "." "install a\nb" t []).ending ≠ .inputNotText := by decide +kernel
  have hendingCut : (session "." "" t cut).ending = .inputNotText := by decide +kernel
  refine ⟨hcall, hcut, hheldCall, ?_, hheldCut, ?_⟩
  · rw [((namesFound_of_session hcall).2.2 hendingCall).1, hheldCall]
    decide +kernel
  · rw [(namesFound_of_session hcut).2.1 hendingCut]
    decide +kernel

end DeskShell.Packages
