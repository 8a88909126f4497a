import DeskShell.Calendar.Session
import DeskShell.Proofs.Files.Writing

/-!
# Turns that lead to questions

A turn of the calendar may open a question, the answer to it another one, and so on until the
session is back at the commands or there are no more answers. `Settles` says what a turn comes to
with all the answers that follow it, and has one rule for each of the three things that a turn can
do: give up (`Settles.unchanged`), change the book (`Settles.changed`), ask (`Settles.ask`). A chain
of questions is settled from its last one back to its first.
-/

set_option autoImplicit false

namespace DeskShell.Terminal.Outcome

variable {σ : Type}

theorem after_nothing (o : Outcome σ) : o.after .nothing = o := by
  cases o
  simp [after]

theorem after_after (o : Outcome σ) (a b : Transcript) :
    (o.after a).after b = o.after (b ++ a) := by
  cases o
  simp [after, Transcript.append_assoc]

end DeskShell.Terminal.Outcome

namespace DeskShell.Calendar

open Text Terminal Files

/-! ## Questions and answers -/

/-- Where a session is when no question is open, or the answers are used up. -/
structure Halt where
  state : State
  tree : FileTree
  unread : List RawLine

/-- The typed lines up to the first one that is not text. -/
def answers : List RawLine → List String
  | [] => []
  | raw :: rest =>
      match raw.text? with
      | none => []
      | some line => line :: answers rest

/-- Answer questions, line by line, until none is open or the answers are used up. -/
def State.proceed (look : Look) (root : String) (s : State) (t : FileTree) : List RawLine → Halt
  | [] => ⟨s, t, []⟩
  | raw :: rest =>
      if s.question = .command then ⟨s, t, raw :: rest⟩
      else
        match raw.text? with
        | none => ⟨s, t, raw :: rest⟩
        | some line =>
            let (turn, t') := (s.hear look line).run root t
            turn.state.proceed look root t' rest

/-- Take a turn, and answer the questions that it leads to. -/
def conclude (look : Look) (root : String) (t : FileTree) (x : Access (Turn State))
    (raws : List RawLine) : Halt :=
  let (turn, t') := x.run root t
  turn.state.proceed look root t' raws

/-- What has come of a book while a month is shown, of its file and of the lines that were typed,
where answers may make other events of the book: the answers that make some of it are used, the
book holds what they make and is written; and where no answers make anything of it, nothing has
changed. Either way no question is open any more, or there is no answer to it. -/
structure Settled (root : String) (b : EventBook) (m : Month) (t : FileTree)
    (makes : List String → List Event → Prop) (raws : List RawLine) (h : Halt) : Prop where
  ended : h.state.question = .command ∨ answers h.unread = []
  month_eq : h.state.month = m
  changed : ∀ used events, used <+: answers raws → makes used events →
    h.state.book.events = events ∧ h.state.question = .command ∧
      h.unread = raws.drop used.length ∧
      h.tree = (Sandbox.write root t EventBook.path h.state.book.toText).1 ∧
      ((Sandbox.write root t EventBook.path h.state.book.toText).2 = .ok () →
        Sandbox.read root h.tree EventBook.path = .ok h.state.book.toText)
  unchanged : (∀ used events, used <+: answers raws → ¬ makes used events) →
    h.state.book = b ∧ h.tree = t

/-! ## Turns -/

section Turns

variable {look : Look} {root : String}

theorem proceed_of_command {s : State} (h : s.question = .command) (t : FileTree)
    (raws : List RawLine) : s.proceed look root t raws = ⟨s, t, raws⟩ := by
  cases raws with
  | nil => rfl
  | cons raw rest => rw [State.proceed, if_pos h]

theorem proceed_of_text? {s : State} (h : s.question ≠ .command) (t : FileTree) {raw : RawLine}
    {line : String} (htext : raw.text? = some line) (rest : List RawLine) :
    s.proceed look root t (raw :: rest) = conclude look root t (s.hear look line) rest := by
  rw [State.proceed, if_neg h, htext]
  rfl

theorem proceed_of_not_text {s : State} (t : FileTree) {raw : RawLine} (htext : raw.text? = none)
    (rest : List RawLine) : s.proceed look root t (raw :: rest) = ⟨s, t, raw :: rest⟩ := by
  rw [State.proceed, htext, ite_self]

/-- Whether the dialogue goes on after a turn and comes to where the questions are settled. -/
def Resumes (look : Look) (root : String) (t : FileTree) (x : Access (Turn State))
    (raws : List RawLine) : Prop :=
  (x.run root t).1.last = false ∧ ∃ written,
    (dialogue look).run root (x.run root t).1.state (x.run root t).2 raws
      = ((dialogue look).run root (conclude look root t x raws).state
          (conclude look root t x raws).tree (conclude look root t x raws).unread).after written

/-- What a turn comes to, whatever is typed after it. -/
def Settles (look : Look) (root : String) (b : EventBook) (m : Month) (t : FileTree)
    (x : Access (Turn State)) (makes : List String → List Event → Prop) : Prop :=
  ∀ raws, Resumes look root t x raws ∧ Settled root b m t makes raws (conclude look root t x raws)

theorem Resumes.of_pause {t : FileTree} {x : Access (Turn State)} {raws : List RawLine}
    (hlast : (x.run root t).1.last = false)
    (h : conclude look root t x raws = ⟨(x.run root t).1.state, (x.run root t).2, raws⟩) :
    Resumes look root t x raws := by
  refine ⟨hlast, .nothing, ?_⟩
  rw [h, Outcome.after_nothing]

variable {s : State} {t : FileTree} {makes : List String → List Event → Prop}

/-- A line that is heard takes the dialogue to where its questions are settled. -/
theorem Resumes.exists_run {line : String} {raw : RawLine} {rest : List RawLine}
    (h : Resumes look root t (s.hear look line) rest) (htext : raw.text? = some line) :
    ∃ written, (dialogue look).run root s t (raw :: rest)
      = ((dialogue look).run root (conclude look root t (s.hear look line) rest).state
          (conclude look root t (s.hear look line) rest).tree
          (conclude look root t (s.hear look line) rest).unread).after written := by
  obtain ⟨hlast, written, hrun⟩ := h
  have hstep : (dialogue look).run root s t (raw :: rest)
      = ((dialogue look).run root ((s.hear look line).run root t).1.state
          ((s.hear look line).run root t).2 rest).after
            (.say s.prompt ++ ((s.hear look line).run root t).1.written) := by
    rw [Dialogue.run, htext]
    show (if ((s.hear look line).run root t).1.last = true then _ else _) = _
    rw [if_neg (by rw [hlast]; decide)]
    rfl
  rw [hstep, hrun, Outcome.after_after]
  exact ⟨_, rfl⟩

theorem Settles.congr {b : EventBook} {m : Month} {x : Access (Turn State)}
    {makes' : List String → List Event → Prop} (h : Settles look root b m t x makes)
    (hmakes : ∀ used events, makes' used events ↔ makes used events) :
    Settles look root b m t x makes' := by
  have heq : makes' = makes := by
    funext used events
    exact propext (hmakes used events)
  rwa [heq]

/-- **Giving up** makes nothing. -/
theorem Settles.unchanged (message : String) (hmakes : ∀ used events, ¬ makes used events) :
    Settles look root s.book s.month t (s.unchanged look message) makes := by
  intro raws
  have hhalt : conclude look root t (s.unchanged look message) raws
      = ⟨{ s with question := .command }, t, raws⟩ := proceed_of_command rfl t raws
  refine ⟨.of_pause rfl hhalt, ?_⟩
  rw [hhalt]
  exact ⟨.inl rfl, rfl, fun used events _ h => absurd h (hmakes used events),
    fun _ => ⟨rfl, rfl⟩⟩

/-- **A change of the book** is what no further answers make. -/
theorem Settles.changed (book : EventBook) (message : String)
    (hmakes : ∀ used events, makes used events ↔ used = [] ∧ events = book.events) :
    Settles look root s.book s.month t (s.changed look book message) makes := by
  intro raws
  have hrun : ((s.changed look book message).run root t).1.state
        = { s with book, question := .command } ∧
      ((s.changed look book message).run root t).2
        = (Sandbox.write root t EventBook.path book.toText).1 ∧
      ((s.changed look book message).run root t).1.last = false := by
    simp [State.changed, EventBook.save]
  obtain ⟨hstate, htree, hlast⟩ := hrun
  have hhalt : conclude look root t (s.changed look book message) raws
      = ⟨{ s with book, question := .command },
          (Sandbox.write root t EventBook.path book.toText).1, raws⟩ := by
    rw [conclude]
    simp only [hstate, htree]
    exact proceed_of_command rfl _ raws
  refine ⟨.of_pause hlast (by rw [hhalt, hstate, htree]), ?_⟩
  rw [hhalt]
  refine ⟨.inl rfl, rfl, fun used events _ h => ?_, fun h => ?_⟩
  · obtain ⟨rfl, rfl⟩ := (hmakes used events).1 h
    -- the fields of the halt are read off before the tree is compared
    dsimp only
    exact ⟨rfl, rfl, rfl, rfl, Sandbox.read_write_of_ok⟩
  · exact absurd ((hmakes [] book.events).2 ⟨rfl, rfl⟩) (h [] _ (List.nil_prefix))

/-- Where a question has no answer, the session waits, and nothing has been made. -/
theorem Settled.of_wait {question : Question} {raws : List RawLine} (hanswers : answers raws = [])
    (hnone : ∀ events, ¬ makes [] events) :
    Settled root s.book s.month t makes raws ⟨{ s with question }, t, raws⟩ := by
  refine ⟨.inr hanswers, rfl, fun used events hused h => ?_, fun _ => ⟨rfl, rfl⟩⟩
  rw [hanswers, List.prefix_nil] at hused
  subst hused
  exact absurd h (hnone events)

/-- Where a question has an answer, what the next ones make is settled after it. -/
theorem Settled.of_answer {b : EventBook} {m : Month} {raw : RawLine} {line : String}
    {rest : List RawLine} {halt : Halt} (htext : raw.text? = some line)
    (hnone : ∀ events, ¬ makes [] events)
    (h : Settled root b m t (fun used => makes (line :: used)) rest halt) :
    Settled root b m t makes (raw :: rest) halt := by
  have hanswers : answers (raw :: rest) = line :: answers rest := by rw [answers, htext]
  refine ⟨h.ended, h.month_eq, fun used events hused hmakes => ?_, fun hmakes => ?_⟩
  · cases used with
    | nil => exact absurd hmakes (hnone events)
    | cons first used =>
        rw [hanswers, List.cons_prefix_cons] at hused
        obtain ⟨rfl, hused⟩ := hused
        exact h.changed used events hused hmakes
  · refine h.unchanged fun used events hused => hmakes (line :: used) events ?_
    rw [hanswers]
    exact List.cons_prefix_cons.2 ⟨rfl, hused⟩

/-- **A question** makes nothing by itself; its answer decides what the next ones make. -/
theorem Settles.ask {question : Question} (written : Transcript) (hquestion : question ≠ .command)
    (hnone : ∀ events, ¬ makes [] events)
    (hanswer : ∀ line, Settles look root s.book s.month t
      (State.hear look { s with question } line) fun used => makes (line :: used)) :
    Settles look root s.book s.month t (s.ask written question) makes := by
  intro raws
  have hconclude : conclude look root t (s.ask written question) raws
      = State.proceed look root { s with question } t raws := rfl
  cases raws with
  | nil => exact ⟨.of_pause rfl rfl, .of_wait rfl hnone⟩
  | cons raw rest =>
      cases htext : raw.text? with
      | none =>
          have hhalt := hconclude.trans (proceed_of_not_text t htext rest)
          refine ⟨.of_pause rfl hhalt, ?_⟩
          rw [hhalt]
          exact .of_wait (by rw [answers, htext]) hnone
      | some line =>
          have hhalt := hconclude.trans (proceed_of_text? hquestion t htext rest)
          obtain ⟨hresumes, hsettled⟩ := hanswer line rest
          rw [Resumes, hhalt]
          exact ⟨⟨rfl, hresumes.exists_run htext⟩, .of_answer htext hnone hsettled⟩

end Turns

end DeskShell.Calendar
