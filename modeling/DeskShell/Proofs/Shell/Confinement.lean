import DeskShell.Proofs.Files.Confinement
import DeskShell.Proofs.Files.Footprint
import DeskShell.Shell.Session

/-!
# What a user can learn of other files

Nothing. On two trees that hold the same under the project root, requests give the same results
(`Access.run_alike`), so a dialogue says the same and ends in the same way (`converse_alike`), and
so does the shell, whatever it is asked for, with one command after the other or in one session
(`shell_confined`).
-/

set_option autoImplicit false

namespace DeskShell.Files

/-- **Requests** have the same result on trees that are alike, and leave them alike. -/
theorem Access.run_alike {α : Type} {root : String} (x : Access α) {t₁ t₂ : FileTree}
    (h : Sandbox.Alike root t₁ t₂) :
    (x.run root t₁).1 = (x.run root t₂).1 ∧
      Sandbox.Alike root (x.run root t₁).2 (x.run root t₂).2 := by
  induction x generalizing t₁ t₂ with
  | done a => exact ⟨rfl, h⟩
  | read path next ih =>
      rw [run, run, h.read path]
      exact ih _ h
  | list path next ih =>
      rw [run, run, h.list path]
      exact ih _ h
  | write path text next ih =>
      obtain ⟨hanswer, halike⟩ := h.write path text
      simp only [run, hanswer]
      exact ih _ halike

end DeskShell.Files

namespace DeskShell.Terminal

open Files

variable {σ : Type} {root : String}

/-- Two outcomes that are the same for the user, and trees that are alike. -/
structure Outcome.Alike (root : String) (o₁ o₂ : Outcome σ) : Prop where
  written_eq : o₁.written = o₂.written
  ending_eq : o₁.ending = o₂.ending
  state_eq : o₁.state = o₂.state
  unread_eq : o₁.unread = o₂.unread
  tree : Sandbox.Alike root o₁.tree o₂.tree

theorem Outcome.Alike.after {o₁ o₂ : Outcome σ} (h : Outcome.Alike root o₁ o₂)
    (written : Transcript) : Outcome.Alike root (o₁.after written) (o₂.after written) :=
  ⟨congrArg (written ++ ·) h.written_eq, h.ending_eq, h.state_eq, h.unread_eq, h.tree⟩

namespace Dialogue

variable {t₁ t₂ : FileTree} (d : Dialogue σ) (h : Sandbox.Alike root t₁ t₂)
include h

/-- **A run** on trees that are alike. -/
theorem run_alike (s : σ) (lines : List RawLine) :
    Outcome.Alike root (d.run root s t₁ lines) (d.run root s t₂ lines) := by
  induction lines generalizing s t₁ t₂ with
  | nil =>
      obtain ⟨hclosing, htree⟩ := (d.atEnd s).run_alike h
      exact ⟨congrArg (.say (d.prompt s) ++ ·) hclosing, rfl, rfl, rfl, htree⟩
  | cons raw rest ih =>
      rw [run, run]
      cases raw.text? with
      | none => exact ⟨rfl, rfl, rfl, rfl, h⟩
      | some line =>
          obtain ⟨hturn, htree⟩ := (d.hear s line).run_alike h
          simp only [hturn]
          split
          · exact ⟨rfl, rfl, rfl, rfl, htree⟩
          · exact (ih htree _).after _

/-- **A dialogue** on trees that are alike. -/
theorem converse_alike (opening : Access (Turn σ)) (lines : List RawLine) :
    Outcome.Alike root (d.converse root opening t₁ lines) (d.converse root opening t₂ lines) := by
  obtain ⟨hturn, htree⟩ := opening.run_alike h
  rw [converse, converse]
  simp only [hturn]
  split
  · exact ⟨rfl, rfl, rfl, rfl, htree⟩
  · exact (d.run_alike htree _ lines).after _

end Dialogue

end DeskShell.Terminal

namespace DeskShell.Shell

open Terminal Files

/-! ## Calls of the shell -/

/-- A call with one command line. -/
structure Call where
  look : Calendar.Look
  line : String
  /-- What can be typed meanwhile; without a console of its own, a call reads on where the one
  before it has stopped. -/
  console : Option (List UInt8) := none

structure Reply where
  written : Transcript
  /-- How the shell goes on; nothing is said where the input is not text. -/
  flow? : Option Flow
  deriving DecidableEq

namespace Call

def run (c : Call) (root : String) (t : FileTree) (unread : List RawLine) :
    Outcome (Option Activity) :=
  (Session.single c.look c.line).run root t ((c.console.map rawLines).getD unread)

def reply (c : Call) (o : Outcome (Option Activity)) : Reply where
  written := o.written
  flow? := if o.ending = .inputNotText then none else some (Command.ofLine c.line).flow

def runAll (root : String) (t : FileTree) (unread : List RawLine) :
    List Call → List Reply × FileTree
  | [] => ([], t)
  | c :: rest =>
      let o := c.run root t unread
      let (replies, t') := runAll root o.tree o.unread rest
      (c.reply o :: replies, t')

/-- **Calls** on trees that are alike. -/
theorem runAll_alike {root : String} {t₁ t₂ : FileTree} (h : Sandbox.Alike root t₁ t₂)
    (unread : List RawLine) (calls : List Call) :
    (runAll root t₁ unread calls).1 = (runAll root t₂ unread calls).1 ∧
      Sandbox.Alike root (runAll root t₁ unread calls).2 (runAll root t₂ unread calls).2 := by
  induction calls generalizing t₁ t₂ unread with
  | nil => exact ⟨rfl, h⟩
  | cons c rest ih =>
      have hcall : Outcome.Alike root (c.run root t₁ unread) (c.run root t₂ unread) :=
        Dialogue.converse_alike _ h _ _
      obtain ⟨hreplies, htree⟩ := ih hcall.tree (c.run root t₁ unread).unread
      have hreply : c.reply (c.run root t₁ unread) = c.reply (c.run root t₂ unread) := by
        rw [reply, reply, hcall.written_eq, hcall.ending_eq]
      rw [runAll, runAll]
      simp only [hreply, hreplies, ← hcall.unread_eq]
      exact ⟨trivial, htree⟩

end Call

/-! ## The shell -/

/-- **The shell is confined to the project root.** On two trees in which the root has been made and
that agree under it, a session of the shell writes the same and ends in the same way, calls with
single commands write the same and give back the same, and the trees go on to agree under the root.
-/
theorem shell_confined {root : String} {t₁ t₂ t₁' t₂' : FileTree} (hwell₁ : t₁.WellFormed)
    (hwell₂ : t₂.WellFormed) (hopen₁ : Sandbox.openRoot root t₁ = (t₁', .ok ()))
    (hopen₂ : Sandbox.openRoot root t₂ = (t₂', .ok ())) (hagree : Sandbox.Agree root t₁' t₂') :
    (∀ look greeting input,
      let o₁ := (Session.interactive look greeting).run root t₁' (rawLines input)
      let o₂ := (Session.interactive look greeting).run root t₂' (rawLines input)
      o₁.written = o₂.written ∧ o₁.ending = o₂.ending ∧ Sandbox.Agree root o₁.tree o₂.tree) ∧
    (∀ input calls,
      let (replies₁, left₁) := Call.runAll root t₁' (rawLines input) calls
      let (replies₂, left₂) := Call.runAll root t₂' (rawLines input) calls
      replies₁ = replies₂ ∧ Sandbox.Agree root left₁ left₂) := by
  -- every step keeps the root open, and it has to be open for the steps to agree
  have halike : Sandbox.Alike root t₁' t₂' :=
    ⟨hagree, Sandbox.opened_of_openRoot hwell₁ hopen₁, Sandbox.opened_of_openRoot hwell₂ hopen₂⟩
  refine ⟨fun look greeting input => ?_, fun input calls => ?_⟩
  · have hrun := (Shell.dialogue look).converse_alike halike (pure (reply greeting))
      (rawLines input)
    exact ⟨hrun.written_eq, hrun.ending_eq, hrun.tree.toAgree⟩
  · obtain ⟨hreplies, htree⟩ := Call.runAll_alike halike (rawLines input) calls
    exact ⟨hreplies, htree.toAgree⟩

/-- A file outside the root, which one of two trees has: listing the root and asking for the file by
its path gives the same on both, in a session and by single commands. -/
theorem shell_confined_of_secret :
    let t₁ : FileTree := ⟨[], [(["r"], .directory), (["r", "f"], .file "x".toUTF8)]⟩
    let t₂ : FileTree := ⟨[], [(["r"], .directory), (["r", "f"], .file "x".toUTF8),
      (["secret"], .file "key".toUTF8)]⟩
    let look : Calendar.Look := ⟨⟨2024, 2, 20, by decide⟩, .plain⟩
    let lines := rawLines "ls\ncat ../secret\nexit\n".toUTF8.toList
    let calls : List Call := [⟨look, "ls", none⟩, ⟨look, "cat ../secret", none⟩]
    t₁.WellFormed ∧ t₂.WellFormed ∧ Sandbox.openRoot "r" t₁ = (t₁, .ok ()) ∧
      Sandbox.openRoot "r" t₂ = (t₂, .ok ()) ∧ Sandbox.Agree "r" t₁ t₂ ∧
      ((Session.interactive look .nothing).run "r" t₁ lines).written
        = ((Session.interactive look .nothing).run "r" t₂ lines).written ∧
      ((Session.interactive look .nothing).run "r" t₂ lines).written.out
        = "genix> f\n"
          ++ "genix> cat: Permission denied: ../secret is outside the project root\n"
          ++ "genix> " ∧
      (Call.runAll "r" t₁ [] calls).1 = (Call.runAll "r" t₂ [] calls).1 := by
  intro t₁ t₂ look lines calls
  have hwell₁ : t₁.WellFormed := by
    refine FileTree.wellFormed_of_entries (by decide) ?_ rfl
    simp only [t₁, List.forall_mem_cons, List.not_mem_nil, false_implies, implies_true, and_true]
    exact ⟨rfl, rfl⟩
  have hwell₂ : t₂.WellFormed := by
    refine FileTree.wellFormed_of_entries (by decide) ?_ rfl
    simp only [t₂, List.forall_mem_cons, List.not_mem_nil, false_implies, implies_true, and_true]
    exact ⟨rfl, rfl, rfl⟩
  have hopen₁ : Sandbox.openRoot "r" t₁ = (t₁, .ok ()) := by rfl
  have hopen₂ : Sandbox.openRoot "r" t₂ = (t₂, .ok ()) := by rfl
  have hagree : Sandbox.Agree "r" t₁ t₂ := by
    have hput : t₂ = t₁.put ["secret"] (.file "key".toUTF8) := rfl
    have hroot : t₁.place "r" = ["r"] := rfl
    refine ⟨rfl, fun place hplace => ?_⟩
    rw [hroot] at hplace
    have hne : place ≠ ["secret"] := by
      rintro rfl
      exact absurd hplace (by decide)
    rw [hput, FileTree.get?_put_of_ne t₁ _ hne]
  have hconfined := shell_confined hwell₁ hwell₂ hopen₁ hopen₂ hagree
  have hsession := hconfined.1 look .nothing "ls\ncat ../secret\nexit\n".toUTF8.toList
  exact ⟨hwell₁, hwell₂, hopen₁, hopen₂, hagree, hsession.1, by decide +kernel,
    (hconfined.2 [] calls).1⟩

end DeskShell.Shell
