import DeskShell.Proofs.Calendar.Survival
import DeskShell.Proofs.Packages.Survival

/-!
# What survives a session

The calendar and the package installer keep their data in the same way: what cannot be read counts
as nothing, and what is held is written over what was there. So both keep a file that is a text, and
both lose one that is not, however much of it could have been read.
-/

set_option autoImplicit false

namespace DeskShell

open Files Terminal

/-- **What stands in the two files after sessions that take nothing away.** An events file that is a
text keeps its events, up to carriage returns at the ends of descriptions, and a registry file that
is a text keeps its names, up to case. A file that is not a text is kept only as long as no write
succeeds; after one it holds nothing but a first part of what the session has added. -/
theorem standing_after_session (root : String) (t : FileTree) (input : List UInt8) :
    (∀ (look : Calendar.Look) (bytes : ByteArray),
      Sandbox.bytes root t Calendar.EventBook.path = .ok bytes →
      (∀ change ∈ Calendar.sessionChanges look root t input, ∃ e, change = .added e) →
      ∃ bytes', Sandbox.bytes root (Calendar.session look root t input).tree
          Calendar.EventBook.path = .ok bytes' ∧
        ((∀ w ∈ Calendar.sessionWrites look root t input, w.answer ≠ .ok ()) → bytes' = bytes) ∧
        ((∃ w ∈ Calendar.sessionWrites look root t input, w.answer = .ok ()) →
          ∃ kept, kept <+: (Calendar.sessionChanges look root t input).filterMap
              Calendar.Change.addition? ∧
            Calendar.standing bytes'
              = ((if (String.fromUTF8? bytes).isSome then Calendar.standing bytes else [])
                ++ kept).filterMap Calendar.Event.reread) ∧
        ((String.fromUTF8? bytes).isSome → ∀ e ∈ Calendar.standing bytes,
          ¬ e.EndsInReturn → e ∈ Calendar.standing bytes')) ∧
    ∀ (call : String) (bytes : ByteArray),
      Sandbox.bytes root t Packages.Registry.path = .ok bytes →
      (∀ change ∈ Packages.sessionChanges root call t input,
        ∃ name, change = .installed name) →
      ∃ bytes', Sandbox.bytes root (Packages.session root call t input).tree
          Packages.Registry.path = .ok bytes' ∧
        ((∀ w ∈ Packages.sessionWrites root call t input, w.answer ≠ .ok ()) → bytes' = bytes) ∧
        ((String.fromUTF8? bytes).isSome → ∀ name ∈ Packages.standing bytes,
          ∃ name' ∈ Packages.standing bytes', Text.sameLetters name' name = true) ∧
        ((∃ w ∈ Packages.sessionWrites root call t input, w.answer = .ok ()) →
          (String.fromUTF8? bytes).isSome = false →
            ∃ kept, kept <+: (Packages.sessionChanges root call t input).filterMap
                Packages.Change.installation? ∧
              bytes' = (Packages.namesText kept).toUTF8) := by
  constructor
  · intro look bytes hbytes hadds
    exact Calendar.standing_after_additions look input hbytes hadds
  · intro call bytes hbytes hinstalls
    exact Packages.standing_after_installations input hbytes hinstalls

/-- Files with one line that is not text: what stood on their other lines is lost. -/
theorem standing_after_session_of_broken_line :
    let look : Calendar.Look := ⟨⟨2024, 2, 20, by decide⟩, .plain⟩
    let events : ByteArray := "2024-01-01|a\n".toUTF8.push 0xff
    let names : ByteArray := "a\n".toUTF8.push 0xff
    let t : FileTree := ⟨["w"], [(["w"], .directory), (["w", "home"], .directory),
      (["w", "home", "user"], .directory), (["w", "home", "user", "events.txt"], .file events),
      (["w", "system"], .directory), (["w", "system", "lib_registry.txt"], .file names)]⟩
    let input : List UInt8 := "add\n\n1\nb\nexit\n".toUTF8.toList
    (∃ e ∈ Calendar.standing events, ∃ bytes',
      Sandbox.bytes "." (Calendar.session look "." t input).tree Calendar.EventBook.path
        = .ok bytes' ∧ e ∉ Calendar.standing bytes') ∧
    ∃ name ∈ Packages.standing names, ∃ bytes',
      Sandbox.bytes "." (Packages.session "." "install b" t input).tree Packages.Registry.path
        = .ok bytes' ∧ ∀ name' ∈ Packages.standing bytes', Text.sameLetters name' name = false := by
  intro look events names t input
  have h := standing_after_session "." t input
  constructor
  · have hbytes : Sandbox.bytes "." t Calendar.EventBook.path = .ok events := by rfl
    have hchanges : Calendar.sessionChanges look "." t input
        = [.added ⟨⟨2024, 2, 1, by decide⟩, "b"⟩] := by decide +kernel
    have hadds : ∀ change ∈ Calendar.sessionChanges look "." t input,
        ∃ e, change = .added e := by
      intro change hchange
      rw [hchanges] at hchange
      exact ⟨_, List.mem_singleton.1 hchange⟩
    have hwritten : ∃ w ∈ Calendar.sessionWrites look "." t input, w.answer = .ok () := by
      decide +kernel
    have hnotText : (String.fromUTF8? events).isSome = false := by decide +kernel
    obtain ⟨bytes', hafter, -, hlost, -⟩ := h.1 look events hbytes hadds
    obtain ⟨kept, hkept, hstanding⟩ := hlost hwritten
    refine ⟨⟨⟨2024, 1, 1, by decide⟩, "a"⟩, by decide +kernel, bytes', hafter, ?_⟩
    rw [hstanding, hnotText]
    intro hmem
    obtain ⟨e, he, hback⟩ := List.mem_filterMap.1 hmem
    have hadded : e ∈ [(⟨⟨2024, 2, 1, by decide⟩, "b"⟩ : Calendar.Event)] := by
      rw [hchanges] at hkept
      exact hkept.subset (by simpa using he)
    rw [List.mem_singleton.1 hadded] at hback
    exact absurd hback (by decide +kernel)
  · have hbytes : Sandbox.bytes "." t Packages.Registry.path = .ok names := by rfl
    have hchanges : Packages.sessionChanges "." "install b" t input = [.installed "b"] := by
      decide +kernel
    have hinstalls : ∀ change ∈ Packages.sessionChanges "." "install b" t input,
        ∃ name, change = .installed name := by
      intro change hchange
      rw [hchanges] at hchange
      exact ⟨_, List.mem_singleton.1 hchange⟩
    have hwritten : ∃ w ∈ Packages.sessionWrites "." "install b" t input, w.answer = .ok () := by
      decide +kernel
    have hnotText : (String.fromUTF8? names).isSome = false := by decide +kernel
    obtain ⟨bytes', hafter, -, -, hlost⟩ := h.2 "install b" names hbytes hinstalls
    obtain ⟨kept, hkept, rfl⟩ := hlost hwritten hnotText
    refine ⟨"a", by decide +kernel, _, hafter, ?_⟩
    -- what is kept is the one name that was installed, or nothing
    rw [hchanges] at hkept
    rcases List.prefix_cons_iff.1 hkept with rfl | ⟨more, rfl, hmore⟩
    · decide +kernel
    · rw [List.prefix_nil.1 hmore]
      decide +kernel

end DeskShell
