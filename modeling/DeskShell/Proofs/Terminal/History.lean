import DeskShell.Terminal.Dialogue

/-!
# The history of a dialogue

What happened in a run, besides its outcome: the writes that were tried, with their answers
(`Access.writes`, `Dialogue.writes`), and the lines that were heard, each with the state and the
tree in which it was heard (`Dialogue.heard`). `Dialogue.run_induction` is how anything is proved
about a run: what one heard line preserves, with the history so far, holds at the end with the
whole history.
-/

set_option autoImplicit false

namespace DeskShell.Files

/-! ## Writes -/

/-- A write that was tried, with its answer. -/
structure Write where
  path : String
  text : String
  answer : Except Sandbox.Refusal Unit

namespace Access

variable {α β : Type}

/-- The writes that are tried while requests run on a tree. -/
def writes (root : String) : Access α → FileTree → List Write
  | done _, _ => []
  | read path next, t => (next (Sandbox.read root t path)).writes root t
  | write path text next, t =>
      let (t', answer) := Sandbox.write root t path text
      ⟨path, text, answer⟩ :: (next answer).writes root t'
  | list path next, t => (next (Sandbox.list root t path)).writes root t

@[simp] theorem writes_pure (root : String) (a : α) (t : FileTree) :
    (pure a : Access α).writes root t = [] := rfl

@[simp] theorem writes_bind (root : String) (x : Access α) (f : α → Access β) (t : FileTree) :
    (x >>= f).writes root t
      = x.writes root t ++ (f (x.run root t).1).writes root (x.run root t).2 := by
  show (x.bind f).writes root t = _
  induction x generalizing t with
  | done a => rfl
  | read path next ih => simp only [bind, writes, run, ih]
  | write path text next ih => simp only [bind, writes, run, ih, List.cons_append]
  | list path next ih => simp only [bind, writes, run, ih]

@[simp] theorem run_map (root : String) (f : α → β) (x : Access α) (t : FileTree) :
    (f <$> x).run root t = (f (x.run root t).1, (x.run root t).2) := by
  show (x >>= fun a => pure (f a)).run root t = _
  rw [run_bind, run_pure]

@[simp] theorem writes_map (root : String) (f : α → β) (x : Access α) (t : FileTree) :
    (f <$> x).writes root t = x.writes root t := by
  show (x >>= fun a => pure (f a)).writes root t = _
  rw [writes_bind, writes_pure, List.append_nil]

@[simp] theorem writes_readText (root path : String) (t : FileTree) :
    (readText path).writes root t = [] := rfl

@[simp] theorem writes_writeText (root path text : String) (t : FileTree) :
    (writeText path text).writes root t
      = [⟨path, text, (Sandbox.write root t path text).2⟩] := rfl

@[simp] theorem writes_listDirectory (root path : String) (t : FileTree) :
    (listDirectory path).writes root t = [] := rfl

end Access

end DeskShell.Files

namespace DeskShell.Terminal

open Files

/-! ## Lines that are heard -/

/-- A line that a dialogue has heard, with the state and the tree in which it was heard. -/
structure Heard (σ : Type) where
  state : σ
  tree : FileTree
  line : String

/-- A list that is read off the history so far grows with each line that is heard. -/
theorem filterMap_concat {α β : Type} (f : α → Option β) (xs : List α) (x : α) :
    (xs ++ [x]).filterMap f = xs.filterMap f ++ (f x).toList := by
  cases hx : f x <;> simp [hx]

namespace Dialogue

variable {σ : Type}

def heard (d : Dialogue σ) (root : String) (s : σ) (t : FileTree) : List RawLine → List (Heard σ)
  | [] => []
  | raw :: rest =>
      match raw.text? with
      | none => []
      | some line =>
          let (turn, t') := (d.hear s line).run root t
          ⟨s, t, line⟩ :: if turn.last then [] else d.heard root turn.state t' rest

def writes (d : Dialogue σ) (root : String) (s : σ) (t : FileTree) : List RawLine → List Write
  | [] => (d.atEnd s).writes root t
  | raw :: rest =>
      match raw.text? with
      | none => []
      | some line =>
          let (turn, t') := (d.hear s line).run root t
          (d.hear s line).writes root t ++
            if turn.last then [] else d.writes root turn.state t' rest

def converseHeard (d : Dialogue σ) (root : String) (opening : Access (Turn σ)) (t : FileTree)
    (lines : List RawLine) : List (Heard σ) :=
  let (turn, t') := opening.run root t
  if turn.last then [] else d.heard root turn.state t' lines

def converseWrites (d : Dialogue σ) (root : String) (opening : Access (Turn σ)) (t : FileTree)
    (lines : List RawLine) : List Write :=
  let (turn, t') := opening.run root t
  opening.writes root t ++ if turn.last then [] else d.writes root turn.state t' lines

/-! ## Induction -/

/-- **Induction on a run.** What holds at its start, is preserved by every line that is heard, and
by what is left to do when the input ends, holds at its end; the property may speak of the history
so far. -/
theorem run_induction {d : Dialogue σ} {root : String} {lines : List RawLine}
    {motive : List (Heard σ) → List Write → σ → FileTree → Prop}
    (hear : ∀ heard written s t raw line, raw ∈ lines → raw.text? = some line →
      motive heard written s t →
        motive (heard ++ [⟨s, t, line⟩]) (written ++ (d.hear s line).writes root t)
          ((d.hear s line).run root t).1.state ((d.hear s line).run root t).2)
    (atEnd : ∀ heard written s t, motive heard written s t →
      motive heard (written ++ (d.atEnd s).writes root t) s ((d.atEnd s).run root t).2)
    {heard : List (Heard σ)} {written : List Write} {s : σ} {t : FileTree}
    (start : motive heard written s t) :
    motive (heard ++ d.heard root s t lines) (written ++ d.writes root s t lines)
      (d.run root s t lines).state (d.run root s t lines).tree := by
  induction lines generalizing heard written s t with
  | nil => simpa [Dialogue.heard, writes, run] using atEnd heard written s t start
  | cons raw rest ih =>
      rw [Dialogue.heard, writes, run]
      cases htext : raw.text? with
      | none => simpa using start
      | some line =>
          -- the motive holds again, with the history one line longer
          have hnext := hear heard written s t raw line (by simp) htext start
          simp only
          split
          · simpa using hnext
          · have hrest := ih (fun heard written s t raw' line' hmem =>
              hear heard written s t raw' line' (List.mem_cons_of_mem _ hmem)) hnext
            simpa [Outcome.after] using hrest

/-- Induction on a run from an opening turn on. -/
theorem converse_induction {d : Dialogue σ} {root : String} {opening : Access (Turn σ)}
    {t : FileTree} {lines : List RawLine}
    {motive : List (Heard σ) → List Write → σ → FileTree → Prop}
    (start : motive [] (opening.writes root t) (opening.run root t).1.state
      (opening.run root t).2)
    (hear : ∀ heard written s t raw line, raw ∈ lines → raw.text? = some line →
      motive heard written s t →
        motive (heard ++ [⟨s, t, line⟩]) (written ++ (d.hear s line).writes root t)
          ((d.hear s line).run root t).1.state ((d.hear s line).run root t).2)
    (atEnd : ∀ heard written s t, motive heard written s t →
      motive heard (written ++ (d.atEnd s).writes root t) s ((d.atEnd s).run root t).2) :
    motive (d.converseHeard root opening t lines) (d.converseWrites root opening t lines)
      (d.converse root opening t lines).state (d.converse root opening t lines).tree := by
  rw [converseHeard, converseWrites, converse]
  simp only
  split
  · simpa using start
  · have hrun := run_induction hear atEnd start
    simpa [Outcome.after] using hrun

/-! ## The last step -/

/-- The last step of a run, from a state that has been reached, to the ending and what it leaves:
the next line is not text, the input is at its end, or a line ends the dialogue. -/
inductive LastStep (d : Dialogue σ) (root : String) (lines : List RawLine)
    (heard : List (Heard σ)) (written : List Write) (s : σ) (t : FileTree) :
    Ending → List (Heard σ) → List Write → σ → FileTree → Prop
  | notText : LastStep d root lines heard written s t .inputNotText heard written s t
  | inputEnded :
      LastStep d root lines heard written s t .inputEnded heard
        (written ++ (d.atEnd s).writes root t) s ((d.atEnd s).run root t).2
  | finished {raw : RawLine} {line : String} (mem : raw ∈ lines) (text : raw.text? = some line)
      (last : ((d.hear s line).run root t).1.last = true) :
      LastStep d root lines heard written s t .finished (heard ++ [⟨s, t, line⟩])
        (written ++ (d.hear s line).writes root t) ((d.hear s line).run root t).1.state
        ((d.hear s line).run root t).2

theorem LastStep.mono {d : Dialogue σ} {root : String} {lines lines' : List RawLine}
    (hlines : lines ⊆ lines') {heard heard' : List (Heard σ)} {written written' : List Write}
    {s s' : σ} {t t' : FileTree} {ending : Ending}
    (h : LastStep d root lines heard written s t ending heard' written' s' t') :
    LastStep d root lines' heard written s t ending heard' written' s' t' := by
  cases h with
  | notText => exact .notText
  | inputEnded => exact .inputEnded
  | finished mem text last => exact .finished (hlines mem) text last

/-- **How a run ends.** What holds at its start and is preserved by every line that does not end it
holds where the last step is taken. -/
theorem run_lastStep {d : Dialogue σ} {root : String} {lines : List RawLine}
    {motive : List (Heard σ) → List Write → σ → FileTree → Prop}
    (hear : ∀ heard written s t raw line, raw ∈ lines → raw.text? = some line →
      ((d.hear s line).run root t).1.last = false → motive heard written s t →
        motive (heard ++ [⟨s, t, line⟩]) (written ++ (d.hear s line).writes root t)
          ((d.hear s line).run root t).1.state ((d.hear s line).run root t).2)
    {heard : List (Heard σ)} {written : List Write} {s : σ} {t : FileTree}
    (start : motive heard written s t) :
    ∃ heard' written' s' t', motive heard' written' s' t' ∧
      LastStep d root lines heard' written' s' t' (d.run root s t lines).ending
        (heard ++ d.heard root s t lines) (written ++ d.writes root s t lines)
        (d.run root s t lines).state (d.run root s t lines).tree := by
  induction lines generalizing heard written s t with
  | nil =>
      refine ⟨heard, written, s, t, start, ?_⟩
      simpa [Dialogue.heard, writes, run] using LastStep.inputEnded
  | cons raw rest ih =>
      rw [Dialogue.heard, writes, run]
      cases htext : raw.text? with
      | none =>
          refine ⟨heard, written, s, t, start, ?_⟩
          simpa using LastStep.notText
      | some line =>
          simp only
          split
          · next hlast =>
              refine ⟨heard, written, s, t, start, ?_⟩
              simpa using LastStep.finished (List.mem_cons_self ..) htext hlast
          · next hlast =>
              -- the motive holds again, with the history one line longer
              have hnext := hear heard written s t raw line (by simp) htext (by simpa using hlast)
                start
              obtain ⟨heard', written', s', t', hmotive, hstep⟩ :=
                ih (fun heard written s t raw' line' hmem =>
                  hear heard written s t raw' line' (List.mem_cons_of_mem _ hmem)) hnext
              refine ⟨heard', written', s', t', hmotive, ?_⟩
              have hlonger := hstep.mono (List.subset_cons_self raw rest)
              simpa [Outcome.after] using hlonger

end Dialogue

end DeskShell.Terminal
