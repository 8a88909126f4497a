import DeskShell.Proofs.Files.Overwriting
import DeskShell.Proofs.Packages.Durability

/-!
# A dialogue and its commands one by one

A dialogue loads the registry once, holds its changes, and writes at its end; single commands load
it before each change and write it after. Where the file can be written, both come to the same: the
same tree, and the same answers between the prompts (`dialogue_eq_oneByOne`). Between two commands
the names that the dialogue holds are those that the next single command loads (`InStep`), since a
registry comes back from its file and only the last write of a file counts.

The lines have to be commands of a dialogue: not blank, and not the word `exit`, with or without
blanks around it.
-/

set_option autoImplicit false

namespace DeskShell.Packages

open Text Terminal Files

/-! ## What depends on the names alone -/

variable {r r' : Registry}

theorem contains_of_names (h : r.names = r'.names) (name : String) :
    r.contains name = r'.contains name := by
  simp only [Registry.contains, h]

theorem change?_of_names (h : r.names = r'.names) (line : String) :
    change? r line = change? r' line := by
  simp only [change?, contains_of_names h]

theorem Change.apply_of_names (h : r.names = r'.names) (change : Change) :
    change.apply r = change.apply r' := by
  cases change <;> simp only [Change.apply, h]

theorem execute_of_names (h : r.names = r'.names) (line : String) :
    execute r line = execute r' line := by
  simp only [execute, install, remove, listing, Registry.install?, Registry.remove?,
    contains_of_names h, h]

/-! ## Single commands -/

theorem run_commit_of_writable {root : String} {t : FileTree}
    (h : Sandbox.Writable root t Registry.path) (r : Registry) :
    (commit r).run root t
      = (({ r with dirty := false }, .nothing),
          (Sandbox.write root t Registry.path r.toText).1) := by
  have hanswer := (h.write_write r.toText "").1
  unfold commit Registry.save
  simp only [Access.run_bind, Access.run_writeText, hanswer, Access.run_pure]

/-- A single command on files: what it prints, and the tree after it. -/
theorem session_of_command {root call : String} {t : FileTree} (input : List UInt8)
    (hcall : trim call.toList ≠ []) (h : Sandbox.Writable root t Registry.path) :
    (session root call t input).written
        = (execute (Registry.stored root t) (String.ofList (trim call.toList))).2 ∧
      (session root call t input).tree
        = match change? (Registry.stored root t) call with
          | none => t
          | some change => (Sandbox.write root t Registry.path
              (change.apply (Registry.stored root t)).toText).1 := by
  obtain ⟨hsession, -, -⟩ := session_of_call hcall root t input
  have hword : String.ofList (trim call.toList) ≠ "" := by simpa using hcall
  have hopening : (opening call).run root t
      = (executeOnce (Registry.stored root t) (String.ofList (trim call.toList))).run root t := by
    unfold opening
    simp only [Access.run_bind, (run_load root t).1, if_neg hword]
  have hexecute := execute_fst (Registry.stored root t) (String.ofList (trim call.toList))
  rw [change?_trim] at hexecute
  rw [hsession]
  dsimp only
  rw [hopening, executeOnce]
  generalize execute (Registry.stored root t) (String.ofList (trim call.toList)) = effect
    at hexecute ⊢
  obtain ⟨changed, written⟩ := effect
  cases hchange : change? (Registry.stored root t) call with
  | none =>
      rw [hchange] at hexecute
      cases hexecute
      exact ⟨rfl, rfl⟩
  | some change =>
      rw [hchange] at hexecute
      cases hexecute
      simp only [Access.run_bind, Access.run_pure, run_commit_of_writable h,
        Transcript.append_nothing, and_self]

/-- Commands that are run one by one: what each of them prints, and the tree after all of them. The
bytes that could be typed meanwhile are not read. -/
def oneByOne (root : String) (input : List UInt8) (t : FileTree) :
    List String → List Transcript × FileTree
  | [] => ([], t)
  | line :: rest =>
      let single := session root line t input
      let (printed, t') := oneByOne root input single.tree rest
      (single.written :: printed, t')

/-! ## A dialogue between two commands -/

/-- Whether a line is a command of a dialogue. -/
structure IsCommand (line : String) : Prop where
  newline_notMem : '\n' ∉ line.toList
  trim_ne_nil : trim line.toList ≠ []
  ne_exit : sameLetters (String.ofList (trim line.toList)) "exit" = false

/-- A dialogue that started on the tree `t`, and the tree `t'` that its commands have left one by
one. -/
structure InStep (root : String) (t : FileTree) (r : Registry) (t' : FileTree) : Prop where
  storable : r.Storable
  names_eq : (Registry.stored root t').names = r.names
  tree_eq : t' = if r.dirty then (Sandbox.write root t Registry.path r.toText).1 else t

theorem InStep.write {root : String} {t t' : FileTree} (h : InStep root t r t')
    (hwrite : Sandbox.Writable root t Registry.path) (text : String) :
    Sandbox.write root t' Registry.path text = Sandbox.write root t Registry.path text := by
  rw [h.tree_eq]
  split
  · exact (hwrite.write_write _ _).2
  · rfl

theorem InStep.writable {root : String} {t t' : FileTree} (h : InStep root t r t')
    (hwrite : Sandbox.Writable root t Registry.path) :
    Sandbox.Writable root t' Registry.path := by
  refine ⟨"", ?_⟩
  rw [h.write hwrite]
  exact (hwrite.write_write "" "").1

/-- **One command.** The dialogue holds its change, the single command writes it, and both print the
same. -/
theorem InStep.step {root : String} {t t' : FileTree} (h : InStep root t r t')
    (hwrite : Sandbox.Writable root t Registry.path) {line : String} (hline : IsCommand line)
    (input : List UInt8) :
    InStep root t (r.after (change? r line)) (session root line t' input).tree ∧
      (session root line t' input).written
        = (execute r (String.ofList (trim line.toList))).2 := by
  obtain ⟨hwritten, htree⟩ := session_of_command input hline.trim_ne_nil (h.writable hwrite)
  -- the single command loads the names that the dialogue holds
  rw [hwritten, htree, change?_of_names h.names_eq, execute_of_names h.names_eq]
  refine ⟨?_, rfl⟩
  have hstorable := h.storable.after hline.newline_notMem
  cases hchange : change? r line with
  | none => exact h
  | some change =>
      rw [hchange] at hstorable
      dsimp only
      rw [Change.apply_of_names h.names_eq, h.write hwrite]
      have hdirty : (change.apply r).dirty = true := by cases change <;> rfl
      refine ⟨hstorable, ?_, ?_⟩
      · have hanswer := (hwrite.write_write (change.apply r).toText "").1
        rw [stored_of_read (Sandbox.read_write_of_ok hanswer)]
        exact Registry.names_ofText_toText hstorable
      · rw [Registry.after, Option.map_some, Option.getD_some, if_pos hdirty]

/-- The end of a dialogue: it writes what the single commands have written. -/
theorem InStep.close {root : String} {t t' : FileTree} (h : InStep root t r t')
    (hwrite : Sandbox.Writable root t Registry.path) :
    ((Packages.close r).run root t).1.2 = .nothing ∧ ((Packages.close r).run root t).2 = t' := by
  have htree := h.tree_eq
  cases hdirty : r.dirty with
  | true =>
      rw [close_of_dirty hdirty, run_commit_of_writable hwrite, htree]
      simp only [hdirty, if_true, and_self]
  | false =>
      rw [close_of_clean hdirty, htree]
      simp only [hdirty, Bool.false_eq_true, if_false, Access.run_pure, and_self]

/-! ## Dialogues -/

/-- What a dialogue writes behind its first words where its commands print what is given: each
answer behind a prompt, and its last words behind one more. -/
def prompted (printed : List Transcript) : Transcript :=
  printed.foldr (fun written rest => .say "pkg> " ++ written ++ rest)
    (.say "pkg> " ++ .sayLine "Package installer session ended.")

/-- **A run of a dialogue** from a registry on, and the single commands from the tree on that is in
step with it. -/
theorem InStep.run {root : String} {t t' : FileTree} (h : InStep root t r t')
    (hwrite : Sandbox.Writable root t Registry.path) {lines : List String}
    (hlines : ∀ line ∈ lines, IsCommand line) (input : List UInt8) :
    let outcome := dialogue.run root r t ((lines ++ ["exit"]).map typedLine)
    outcome.tree = (oneByOne root input t' lines).2 ∧
      outcome.written = prompted (oneByOne root input t' lines).1 ∧
      outcome.ending = .finished := by
  induction lines generalizing r t' with
  | nil =>
      obtain ⟨heard, htext, htrim⟩ := text?_typedLine "exit"
      have hexit : sameLetters (String.ofList (trim heard.toList)) "exit" = true := by
        rw [htrim]
        decide
      obtain ⟨hnothing, htree⟩ := h.close hwrite
      simp only [List.nil_append, List.map_cons, List.map_nil, Dialogue.run, htext, dialogue_hear,
        hear_of_exit r hexit, Access.run_bind, Access.run_pure, lastTurn, if_true, hnothing, htree,
        Transcript.append_nothing, oneByOne, prompted, List.foldr_nil]
      exact ⟨trivial, rfl, trivial⟩
  | cons line lines ih =>
      have hline := hlines line (List.mem_cons_self ..)
      obtain ⟨heard, htext, htrim⟩ := text?_typedLine line
      -- what is heard is the line without its end, which is the same command
      have hchange : change? r heard = change? r line := by
        rw [← change?_trim, htrim, change?_trim]
      have hhear : hear r heard = pure
          { written := (execute r (String.ofList (trim line.toList))).2
            state := r.after (change? r line) } := by
        rw [hear_of_command r (htrim ▸ hline.trim_ne_nil) (htrim ▸ hline.ne_exit), hchange, htrim]
      obtain ⟨hstep, hwritten⟩ := h.step hwrite hline input
      have hrest := ih hstep fun other hother => hlines other (List.mem_cons_of_mem _ hother)
      obtain ⟨htree, htranscript, hending⟩ := hrest
      simp only [List.cons_append, List.map_cons, Dialogue.run, htext, dialogue_hear, hhear,
        Access.run_pure, Bool.false_eq_true, if_false, Outcome.after, oneByOne]
      refine ⟨htree, ?_, hending⟩
      rw [htranscript, hwritten]
      rfl

/-- **A dialogue and its commands one by one**, where the file can be written: the tree at the end
is the same, and the dialogue writes what the commands print, between its own words. -/
theorem dialogue_eq_oneByOne {root call : String} {t : FileTree} {lines : List String}
    (hcall : trim call.toList = []) (hwrite : Sandbox.Writable root t Registry.path)
    (hlines : ∀ line ∈ lines, IsCommand line) (input : List UInt8) :
    let outcome := session root call t (typed (lines ++ ["exit"]))
    outcome.tree = (oneByOne root input t lines).2 ∧
      outcome.written = greeting ++ prompted (oneByOne root input t lines).1 ∧
      outcome.ending = .finished := by
  have hall : ∀ line ∈ lines ++ ["exit"], '\n' ∉ line.toList := by
    intro line hline
    rcases List.mem_append.1 hline with hline | hline
    · exact (hlines line hline).newline_notMem
    · rw [List.mem_singleton.1 hline]
      decide
  have hstart : InStep root t (Registry.stored root t) t := by
    refine ⟨Registry.storable_stored root t, rfl, ?_⟩
    rw [Registry.dirty_stored, if_neg Bool.false_ne_true]
  obtain ⟨hsession, -, -⟩ := session_of_blank hcall root t (typed (lines ++ ["exit"]))
  obtain ⟨htree, hwritten, hending⟩ := hstart.run hwrite hlines input
  rw [hsession, rawLines_typed hall]
  refine ⟨htree, ?_, hending⟩
  rw [← hwritten]
  rfl

/-- Commands with a change that is taken back, with blanks around them and in other spellings. -/
theorem dialogue_eq_oneByOne_of_changes :
    let t : FileTree := ⟨["w"], [(["w"], .directory)]⟩
    let lines := ["install a", " INSTALL b\r", "remove A", "list"]
    Sandbox.Writable "." t Registry.path ∧ (∀ line ∈ lines, IsCommand line) ∧
      (session "." "" t (typed (lines ++ ["exit"]))).tree = (oneByOne "." [] t lines).2 ∧
      (session "." "" t (typed (lines ++ ["exit"]))).written
        = greeting ++ prompted (oneByOne "." [] t lines).1 := by
  intro t lines
  have hwrite : Sandbox.Writable "." t Registry.path := ⟨"", by decide +kernel⟩
  have hlines : ∀ line ∈ lines, IsCommand line := by
    simp only [lines, List.forall_mem_cons, List.not_mem_nil, false_implies, implies_true, and_true]
    exact ⟨⟨by decide, by decide, by decide⟩, ⟨by decide, by decide, by decide⟩,
      ⟨by decide, by decide, by decide⟩, ⟨by decide, by decide, by decide⟩⟩
  have hcall : trim "".toList = [] := rfl
  have hsame := dialogue_eq_oneByOne hcall hwrite hlines []
  exact ⟨hwrite, hlines, hsame.1, hsame.2.1⟩

/-- The word `exit` with a blank before it is not that word, but ends a dialogue all the same; alone
it is a command that is not known. So what follows it is done one by one only. -/
theorem exit_after_blank_ends_dialogue :
    let t : FileTree := ⟨["w"], [(["w"], .directory)]⟩
    let lines := [" exit", "install a"]
    Sandbox.Writable "." t Registry.path ∧
      (∀ line ∈ lines, '\n' ∉ line.toList ∧ trim line.toList ≠ [] ∧
        sameLetters line "exit" = false) ∧
      Sandbox.pathExists "." (session "." "" t (typed (lines ++ ["exit"]))).tree Registry.path
        = false ∧
      Sandbox.read "." (oneByOne "." [] t lines).2 Registry.path = .ok "a\n" := by
  intro t lines
  refine ⟨⟨"", by decide +kernel⟩, by decide, by decide +kernel, ?_⟩
  decide +kernel

end DeskShell.Packages
