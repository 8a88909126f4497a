import DeskShell.Proofs.Files.Growing
import DeskShell.Proofs.Packages.Changes

/-!
# What becomes of the names that stood in the file

A session that removes nothing keeps all names of a file that is a text, up to case, however it is
called and whatever is typed. A file that is not a text is read as a registry without names; the
first write that succeeds leaves in it what the session has installed and nothing else
(`standing_after_installations`).
-/

set_option autoImplicit false

namespace DeskShell.Packages

open Text Terminal Files

def namesText (names : List String) : String := Registry.toText { names }

theorem toText_eq (r : Registry) : r.toText = namesText r.names := rfl

/-! ## Sessions that only install -/

/-- A session that has only installed packages: it holds those that it loaded and those that it
installed, and its file is that of such a list. -/
structure Grown (root : String) (t₀ : FileTree) (bytes : ByteArray) (added : List String)
    (written : List Write) (r : Registry) (t : FileTree) : Prop where
  names_eq : r.names = (Registry.stored root t₀).names ++ added
  file : Growing root Registry.path namesText bytes (Registry.stored root t₀).names added written t

theorem Grown.saved {root : String} {t₀ t t' : FileTree} {bytes : ByteArray}
    {added : List String} {written more : List Write} {r : Registry}
    (h : Grown root t₀ bytes added written r t) (hsaved : Saved root r t t' more) :
    Growing root Registry.path namesText bytes (Registry.stored root t₀).names added
      (written ++ more) t' := by
  have htext : r.toText = namesText ((Registry.stored root t₀).names ++ added) := by
    rw [toText_eq, h.names_eq]
  obtain ⟨htree, hwritten⟩ := hsaved
  rw [htree, hwritten, htext]
  exact h.file.write

/-- **One line** that installs a package, or changes nothing. -/
theorem Grown.hear {root : String} {t₀ t : FileTree} {bytes : ByteArray} {added : List String}
    {written : List Write} {r : Registry} {line : String}
    (h : Grown root t₀ bytes added written r t)
    (hline : ∀ change ∈ change? r line, ∃ name, change = .installed name) :
    Grown root t₀ bytes (added ++ (change? r line).toList.filterMap Change.installation?)
      (written ++ (Packages.hear r line).writes root t)
      ((Packages.hear r line).run root t).1.state ((Packages.hear r line).run root t).2 := by
  obtain ⟨hnames, hfile⟩ := run_hear r line root t
  cases hchange : change? r line with
  | none =>
      rw [hchange] at hnames hfile
      have hadded : added ++ (none : Option Change).toList.filterMap Change.installation? = added :=
        List.append_nil _
      rw [hadded]
      refine ⟨hnames.trans h.names_eq, ?_⟩
      rcases hfile with ⟨htree, hwrites⟩ | ⟨-, hsaved⟩
      · rw [htree, hwrites, List.append_nil]
        exact h.file
      · exact h.saved hsaved
  | some change =>
      obtain ⟨name, rfl⟩ := hline change hchange
      rw [hchange] at hnames hfile
      have hadded : (some (Change.installed name)).toList.filterMap Change.installation?
          = [name] := rfl
      rw [hadded]
      rcases hfile with ⟨htree, hwrites⟩ | ⟨hnone, -⟩
      · rw [htree, hwrites, List.append_nil]
        refine ⟨?_, h.file.more [name]⟩
        rw [hnames, ← List.append_assoc, ← h.names_eq]
        rfl
      · cases hnone

theorem grown_opening {root call : String} {t : FileTree} {bytes : ByteArray}
    (hbytes : Sandbox.bytes root t Registry.path = .ok bytes)
    (hcall : ∀ change ∈ change? (Registry.stored root t) call, ∃ name, change = .installed name) :
    Grown root t bytes
      ((change? (Registry.stored root t) call).toList.filterMap Change.installation?)
      ((opening call).writes root t) ((opening call).run root t).1.state
      ((opening call).run root t).2 := by
  obtain ⟨hnames, hfile⟩ := run_opening call root t
  rcases hfile with ⟨hnone, htree, hwrites⟩ | ⟨change, hchange, hsaved⟩
  · rw [htree, hwrites]
    rw [hnone] at hnames ⊢
    refine ⟨?_, .start hbytes⟩
    rw [hnames]
    exact (List.append_nil _).symm
  · -- a single command is written at once
    obtain ⟨name, rfl⟩ := hcall change hchange
    rw [hchange] at hnames ⊢
    have hloaded : Grown root t bytes [name] [] ((Change.installed name).apply
        (Registry.stored root t)) t := ⟨rfl, .start hbytes⟩
    exact ⟨hnames, hloaded.saved hsaved⟩

/-- **A whole session.** -/
theorem session_grown {root call : String} {t : FileTree} {bytes : ByteArray}
    (input : List UInt8) (hbytes : Sandbox.bytes root t Registry.path = .ok bytes)
    (hinstalls : ∀ change ∈ sessionChanges root call t input,
      ∃ name, change = .installed name) :
    Grown root t bytes ((sessionChanges root call t input).filterMap Change.installation?)
      (sessionWrites root call t input) (session root call t input).state
      (session root call t input).tree := by
  refine Dialogue.converse_induction (motive := fun heard written r t' =>
    (∀ change ∈ (change? (Registry.stored root t) call).toList ++ heard.filterMap Change.ofHeard?,
      ∃ name, change = .installed name) →
    Grown root t bytes (((change? (Registry.stored root t) call).toList
      ++ heard.filterMap Change.ofHeard?).filterMap Change.installation?) written r t')
    ?_ ?_ ?_ hinstalls
  · intro hall
    rw [List.filterMap_nil, List.append_nil]
    refine grown_opening hbytes fun change hchange => hall change ?_
    exact List.mem_append_left _ (Option.mem_toList.2 hchange)
  · intro heard written r t' raw line _ _ hgrown hall
    rw [filterMap_concat, Change.ofHeard?_mk, ← List.append_assoc] at hall ⊢
    rw [List.filterMap_append, dialogue_hear]
    have hbefore := hgrown fun change hchange => hall change (List.mem_append_left _ hchange)
    refine hbefore.hear fun change hchange => hall change (List.mem_append_right _ ?_)
    exact Option.mem_toList.2 hchange
  · intro heard written r t' hgrown hall
    have h := hgrown hall
    obtain ⟨-, hclose⟩ := run_close r root t'
    have hend : ((dialogue.atEnd r).run root t').2 = ((close r).run root t').2 ∧
        (dialogue.atEnd r).writes root t' = (close r).writes root t' := by
      simp [dialogue]
    rw [hend.1, hend.2]
    refine ⟨h.names_eq, ?_⟩
    rcases hclose with ⟨htree, hwrites⟩ | hsaved
    · rw [htree, hwrites, List.append_nil]
      exact h.file
    · exact h.saved hsaved

/-- **What stands in the file after a session that removes nothing.** If no write has succeeded, the
file is what it was. Else, if it was a text, all names that stood there still do, up to case; and
if it was not, it holds a first part of the names that were installed. -/
theorem standing_after_installations {root call : String} {t : FileTree} {bytes : ByteArray}
    (input : List UInt8) (hbytes : Sandbox.bytes root t Registry.path = .ok bytes)
    (hinstalls : ∀ change ∈ sessionChanges root call t input,
      ∃ name, change = .installed name) :
    ∃ bytes', Sandbox.bytes root (session root call t input).tree Registry.path = .ok bytes' ∧
      ((∀ w ∈ sessionWrites root call t input, w.answer ≠ .ok ()) → bytes' = bytes) ∧
      ((String.fromUTF8? bytes).isSome → ∀ name ∈ standing bytes,
        ∃ name' ∈ standing bytes', sameLetters name' name = true) ∧
      ((∃ w ∈ sessionWrites root call t input, w.answer = .ok ()) →
        (String.fromUTF8? bytes).isSome = false →
          ∃ kept, kept <+: (sessionChanges root call t input).filterMap Change.installation? ∧
            bytes' = (namesText kept).toUTF8) := by
  have hgrown := session_grown input hbytes hinstalls
  rcases hgrown.file.cases with ⟨hfailed, hafter⟩ | ⟨hok, kept, hkept, hafter⟩
  · refine ⟨bytes, hafter, fun _ => rfl, ?_, ?_⟩
    · intro _ name hname
      exact ⟨name, hname, sameLetters_iff.2 rfl⟩
    · rintro ⟨w, hw, hanswer⟩
      exact absurd hanswer (hfailed w hw)
  · refine ⟨_, hafter, ?_, ?_, ?_⟩
    · intro hfailed
      obtain ⟨w, hw, hanswer⟩ := hok
      exact absurd hanswer (hfailed w hw)
    · intro htext name hname
      obtain ⟨text, hsome⟩ := Option.isSome_iff_exists.1 htext
      have hread := Sandbox.read_eq_ok_iff.2 ⟨bytes, hbytes, hsome⟩
      rw [stored_of_read hread]
      rw [standing_of_text hsome] at hname
      -- the name was read, perhaps in another spelling, and is written with the others
      obtain ⟨own, hown, hsame⟩ := List.any_eq_true.1 (Registry.contains_ofText hname)
      refine ⟨own, ?_, hsame⟩
      exact mem_standing_toText (Registry.isName_of_mem_ofText hown) (List.mem_append_left _ hown)
    · intro _ hnotText
      have hnone : String.fromUTF8? bytes = none := by simpa using hnotText
      obtain ⟨refusal, hread⟩ := Sandbox.read_eq_error_of_bytes hbytes hnone
      refine ⟨kept, hkept, ?_⟩
      rw [stored_of_error hread, List.nil_append]

end DeskShell.Packages
