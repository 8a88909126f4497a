import DeskShell.Proofs.Calendar.Days
import DeskShell.Proofs.Calendar.Settling
import DeskShell.Proofs.Terminal.Lines

/-!
# Commands that change the book

`add`, `edit` and `delete` ask questions until they are done, or give up. What the answers to them
come to is said by `Makes`, without the questions: a new event on the date that was typed or on a
day of the shown month, another description for the event that was chosen, or the book without it.
Of a description the first 127 characters count. Answers that make nothing leave the book and the
files alone (`settled_of_errand`).
-/

set_option autoImplicit false

namespace DeskShell.Calendar

open Text Terminal Files

/-! ## What answers come to -/

/-- A command that may change the book. -/
inductive Errand
  | add
  | choose (purpose : Purpose)
  deriving DecidableEq

def Errand.word : Errand → String
  | add => "add"
  | choose purpose => purpose.verb

/-- Whether a line gives a command: its first word is that of the command, in any case. -/
def Errand.GivenBy (c : Errand) (line : String) : Prop :=
  ((words line.toList).map fun word => lower (String.ofList word)).head? = some c.word

instance (c : Errand) (line : String) : Decidable (c.GivenBy line) := by
  unfold Errand.GivenBy
  infer_instance

/-- Answers that name the date of a new event: the date as it is typed, or nothing and then a day
of the shown month. -/
inductive NewDate (m : Month) : List String → Date → Prop
  | typed {line : String} {d : Date}
      (reads : DateParts.ofText? line = some (DateParts.ofDate d)) : NewDate m [line] d
  | ofMonth {line : String} {d : Date} (reads : leadingInt? line.toList = some (d.day : Int))
      (year : d.year = m.year) (month : d.month = m.number) : NewDate m ["", line] d

/-- Answers that choose an event: its date, and where it is not the only one on its date, its number
among those. -/
inductive Chooses (b : EventBook) : List String → b.Place → Prop
  | only {line : String} {p : b.Place}
      (reads : DateParts.ofText? line = some (DateParts.ofDate p.event.date))
      (alone : b.countOn p.event.date = 1) : Chooses b [line] p
  | byNumber {line choice : String} {p : b.Place}
      (reads : DateParts.ofText? line = some (DateParts.ofDate p.event.date))
      (several : 1 < b.countOn p.event.date)
      (number : leadingInt? choice.toList = some (p.number : Int)) : Chooses b [line, choice] p

/-- What becomes of the events once one of them has been chosen, and the answers that this takes. -/
inductive Carries {b : EventBook} (p : b.Place) : Purpose → List String → List Event → Prop
  | edit {description : String} (ne_empty : description ≠ "") :
      Carries p .edit [description] (p.before
        ++ { p.event with description := String.ofList (description.toList.take 127) } :: p.after)
  | delete : Carries p .delete [] (p.before ++ p.after)

/-- The events that a command and its answers make of a book, while a month is shown. -/
inductive Makes (b : EventBook) (m : Month) : Errand → List String → List Event → Prop
  | added {answers : List String} {d : Date} {description : String} (date : NewDate m answers d)
      (ne_empty : description ≠ "") :
      Makes b m .add (answers ++ [description])
        (b.events ++ [⟨d, String.ofList (description.toList.take 127)⟩])
  | carried {answers used : List String} {p : b.Place} {purpose : Purpose} {events : List Event}
      (chosen : Chooses b answers p) (done : Carries p purpose used events) :
      Makes b m (.choose purpose) (answers ++ used) events

/-! ## Answers that are read -/

theorem clip_eq (description : String) :
    clip description = String.ofList (description.toList.take 127) := rfl

theorem DateParts.toDate?_eq_some_iff {parts : DateParts} {d : Date} :
    parts.toDate? = some d ↔ parts = ofDate d := by
  constructor
  · intro h
    obtain ⟨hyear, hmonth, hday⟩ := Date.ofParts?_eq_some_iff.1 h
    cases parts
    simp only at hyear hmonth hday
    rw [ofDate, hyear, hmonth, hday]
  · rintro rfl
    exact toDate?_ofDate d

theorem DateParts.ofDate_inj {d d' : Date} : ofDate d = ofDate d' ↔ d = d' := by
  rw [← toDate?_eq_some_iff, toDate?_ofDate, Option.some_inj]

theorem Month.day?_leadingInt?_eq_some_iff {m : Month} {line : String} {d : Date} :
    m.day? ((leadingInt? line.toList).getD 0).toNat = some d ↔
      leadingInt? line.toList = some (d.day : Int) ∧ d.year = m.year ∧ d.month = m.number := by
  have hday : 1 ≤ d.day := d.isDate.2.2.2.2.1
  rw [Month.day?, Date.ofParts?_eq_some_iff]
  constructor
  · rintro ⟨hyear, hmonth, hd⟩
    refine ⟨?_, hyear, hmonth⟩
    cases hread : leadingInt? line.toList with
    | none =>
        rw [hread] at hd
        simp only [Option.getD_none, Int.toNat_zero] at hd
        omega
    | some n =>
        rw [hread, Option.getD_some] at hd
        have hn : n = (d.day : Int) := by omega
        rw [hn]
  · rintro ⟨hread, hyear, hmonth⟩
    rw [hread]
    exact ⟨hyear, hmonth, rfl⟩

theorem pick?_eq_some_iff {candidates : List Nat} {line : String} {i : Nat} :
    pick? candidates line = some i ↔
      ∃ n : Nat, leadingInt? line.toList = some ((n + 1 : Nat) : Int) ∧
        candidates[n]? = some i := by
  unfold pick?
  cases hread : leadingInt? line.toList with
  | none => simp
  | some z =>
      show (if 1 ≤ z then candidates[(z - 1).toNat]? else none) = some i ↔ _
      constructor
      · intro h
        split at h
        · next hz =>
            have hn : z = (((z - 1).toNat + 1 : Nat) : Int) := by omega
            exact ⟨(z - 1).toNat, congrArg some hn, h⟩
        · cases h
      · rintro ⟨n, hz, hn⟩
        cases hz
        have hindex : (((n + 1 : Nat) : Int) - 1).toNat = n := by omega
        rw [if_pos (by omega), hindex]
        exact hn

/-- A choice among the events on a date picks the one with its number. -/
theorem pick?_indicesOn_eq_some_iff {b : EventBook} {d : Date} {line : String} {i : Nat} :
    pick? (b.indicesOn d) line = some i ↔
      ∃ p : b.Place, p.event.date = d ∧ p.index = i ∧
        leadingInt? line.toList = some (p.number : Int) := by
  rw [pick?_eq_some_iff]
  constructor
  · rintro ⟨n, hread, hn⟩
    obtain ⟨p, hdate, hindex, hnumber⟩ := EventBook.getElem?_indicesOn_eq_some_iff.1 hn
    exact ⟨p, hdate, hindex, by rw [hread, hnumber]⟩
  · rintro ⟨p, hdate, hindex, hread⟩
    refine ⟨p.number - 1, ?_, EventBook.getElem?_indicesOn_eq_some_iff.2 ⟨p, hdate, hindex, ?_⟩⟩
    · rw [hread]
      rfl
    · rfl

/-! ## Commands and their answers -/

section Answers

variable {b : EventBook} {m : Month} {line : String} {used : List String} {events : List Event}

theorem ne_nil_of_makes {c : Errand} (h : Makes b m c used events) : used ≠ [] := by
  cases h with
  | added date _ => simp
  | carried chosen _ => cases chosen <;> simp

theorem ofText?_empty : DateParts.ofText? "" = none := by decide

/-- A date that is typed is followed by a description, and no date by a day and a description. -/
theorem makes_add_cons_iff :
    Makes b m .add (line :: used) events ↔
      ∃ d description, description ≠ "" ∧
        events = b.events ++ [⟨d, String.ofList (description.toList.take 127)⟩] ∧
        ((DateParts.ofText? line = some (DateParts.ofDate d) ∧ used = [description]) ∨
          (line = "" ∧ ∃ day, used = [day, description] ∧
            leadingInt? day.toList = some (d.day : Int) ∧ d.year = m.year ∧
              d.month = m.number)) := by
  constructor
  · intro h
    generalize hall : line :: used = all at h
    cases h with
    | added date ne_empty =>
        cases date with
        | typed reads =>
            cases hall
            exact ⟨_, _, ne_empty, rfl, .inl ⟨reads, rfl⟩⟩
        | ofMonth reads year month =>
            cases hall
            exact ⟨_, _, ne_empty, rfl, .inr ⟨rfl, _, rfl, reads, year, month⟩⟩
  · rintro ⟨d, description, hne, rfl, ⟨hreads, rfl⟩ | ⟨rfl, day, rfl, hreads, hyear, hmonth⟩⟩
    · exact .added (.typed hreads) hne
    · exact .added (.ofMonth hreads hyear hmonth) hne

variable {purpose : Purpose}

/-- The date of an event is followed by a choice, if the event is not the only one on its date. -/
theorem makes_choose_cons_iff :
    Makes b m (.choose purpose) (line :: used) events ↔
      ∃ p : b.Place, DateParts.ofText? line = some (DateParts.ofDate p.event.date) ∧
        ((b.countOn p.event.date = 1 ∧ Carries p purpose used events) ∨
          (1 < b.countOn p.event.date ∧ ∃ choice rest, used = choice :: rest ∧
            leadingInt? choice.toList = some (p.number : Int) ∧
              Carries p purpose rest events)) := by
  constructor
  · intro h
    generalize hall : line :: used = all at h
    cases h with
    | carried chosen done =>
        cases chosen with
        | only reads alone =>
            cases hall
            exact ⟨_, reads, .inl ⟨alone, done⟩⟩
        | byNumber reads several number =>
            cases hall
            exact ⟨_, reads, .inr ⟨several, _, _, rfl, number, done⟩⟩
  · rintro ⟨p, reads, ⟨alone, done⟩ | ⟨several, choice, rest, rfl, number, done⟩⟩
    · exact .carried (.only reads alone) done
    · exact .carried (.byNumber reads several number) done

variable {d : Date} (hreads : DateParts.ofText? line = some (DateParts.ofDate d))

include hreads

theorem makes_choose_of_date :
    Makes b m (.choose purpose) (line :: used) events ↔
      ∃ p : b.Place, p.event.date = d ∧
        ((b.countOn d = 1 ∧ Carries p purpose used events) ∨
          (1 < b.countOn d ∧ ∃ choice rest, used = choice :: rest ∧
            leadingInt? choice.toList = some (p.number : Int) ∧
              Carries p purpose rest events)) := by
  rw [makes_choose_cons_iff]
  constructor
  · rintro ⟨p, hreads', h⟩
    rw [hreads] at hreads'
    cases DateParts.ofDate_inj.1 (Option.some.inj hreads')
    exact ⟨p, rfl, h⟩
  · rintro ⟨p, rfl, h⟩
    exact ⟨p, hreads, h⟩

theorem makes_choose_of_only {p : b.Place} (hdate : p.event.date = d) (honly : b.countOn d = 1) :
    Makes b m (.choose purpose) (line :: used) events ↔ Carries p purpose used events := by
  subst hdate
  rw [makes_choose_of_date hreads]
  constructor
  · rintro ⟨q, hdate, ⟨-, hdone⟩ | ⟨hseveral, -⟩⟩
    · have hq : q = p := EventBook.Place.eq_of_number_eq hdate <| by
        rw [EventBook.Place.number_eq_one honly,
          EventBook.Place.number_eq_one (by rw [hdate]; exact honly)]
      rwa [hq] at hdone
    · omega
  · exact fun hdone => ⟨p, rfl, .inl ⟨honly, hdone⟩⟩

theorem makes_choose_of_several (hseveral : 1 < b.countOn d) :
    Makes b m (.choose purpose) (line :: used) events ↔
      ∃ choice rest, used = choice :: rest ∧ ∃ p : b.Place, p.event.date = d ∧
        leadingInt? choice.toList = some (p.number : Int) ∧ Carries p purpose rest events := by
  rw [makes_choose_of_date hreads]
  constructor
  · rintro ⟨p, hdate, ⟨honly, -⟩ | ⟨-, choice, rest, hused, hnumber, hdone⟩⟩
    · omega
    · exact ⟨choice, rest, hused, p, hdate, hnumber, hdone⟩
  · rintro ⟨choice, rest, hused, p, hdate, hnumber, hdone⟩
    exact ⟨p, hdate, .inr ⟨hseveral, choice, rest, hused, hnumber, hdone⟩⟩

end Answers

/-! ## The questions, from the last one to the first -/

section Questions

variable {look : Look} {root : String} {t : FileTree}

theorem settles_chosen (s : State) (purpose : Purpose) (p : s.book.Place) :
    Settles look root s.book s.month t (s.chosen look purpose p.index) (Carries p purpose) := by
  cases purpose with
  | edit =>
      refine .ask _ (by simp) (by rintro _ ⟨⟩) fun line => ?_
      show Settles look root s.book s.month t
        (State.hearNewDescription look { s with question := _ } p.index line) _
      unfold State.hearNewDescription
      split
      · next hempty =>
          refine .unchanged _ ?_
          rintro used events ⟨hne⟩
          exact hne hempty
      · next hne =>
          refine .changed _ _ fun used events => ?_
          rw [p.events_describe_index, clip_eq]
          constructor
          · rintro ⟨-⟩
            exact ⟨rfl, rfl⟩
          · rintro ⟨rfl, rfl⟩
            exact .edit hne
  | delete =>
      refine .changed _ _ fun used events => ?_
      rw [p.events_erase_index]
      constructor
      · rintro ⟨⟩
        exact ⟨rfl, rfl⟩
      · rintro ⟨rfl, rfl⟩
        exact .delete

/-- A choice among the events on a date is one by number. -/
theorem settles_hearChoice (s : State) (purpose : Purpose) (d : Date) (line : String) :
    Settles look root s.book s.month t (s.hearChoice look purpose (s.book.indicesOn d) line)
      fun used events => ∃ p : s.book.Place, p.event.date = d ∧
        leadingInt? line.toList = some (p.number : Int) ∧ Carries p purpose used events := by
  unfold State.hearChoice
  cases hpick : pick? (s.book.indicesOn d) line with
  | none =>
      refine .unchanged _ ?_
      rintro used events ⟨p, hdate, hnumber, -⟩
      have hp := pick?_indicesOn_eq_some_iff.2 ⟨p, hdate, rfl, hnumber⟩
      rw [hpick] at hp
      cases hp
  | some i =>
      obtain ⟨p, hdate, rfl, hnumber⟩ := pick?_indicesOn_eq_some_iff.1 hpick
      refine (settles_chosen s purpose p).congr fun used events => ?_
      constructor
      · rintro ⟨q, hq, hnumber', hdone⟩
        -- the number picks one index only
        have hsame := pick?_indicesOn_eq_some_iff.2 ⟨q, hq, rfl, hnumber'⟩
        rw [hpick] at hsame
        rwa [EventBook.Place.eq_of_index_eq (Option.some.inj hsame)]
      · exact fun hdone => ⟨p, hdate, hnumber, hdone⟩

/-- The date of an event is followed by a choice, if the event is not the only one on its date. -/
theorem settles_hearExistingDate_of_date (s : State) (purpose : Purpose) {line : String} {d : Date}
    (hreads : DateParts.ofText? line = some (DateParts.ofDate d)) :
    Settles look root s.book s.month t (s.hearExistingDate look purpose line)
      fun used => Makes s.book s.month (.choose purpose) (line :: used) := by
  have hcount := s.book.length_indicesOn d
  unfold State.hearExistingDate
  rw [hreads]
  simp only [DateParts.toDate?_ofDate, Option.map_some, Option.getD_some]
  -- no event on the date ends the question, one is taken at once, and several need a choice
  cases hindices : s.book.indicesOn d with
  | nil =>
      refine .unchanged _ fun used events h => ?_
      obtain ⟨p, rfl, -⟩ := (makes_choose_of_date hreads).1 h
      exact p.indicesOn_ne_nil hindices
  | cons index more =>
      cases more with
      | nil =>
          have honly : (s.book.indicesOn d)[0]? = some index := by
            rw [hindices]
            rfl
          obtain ⟨p, rfl, rfl, -⟩ := EventBook.getElem?_indicesOn_eq_some_iff.1 honly
          rw [hindices] at hcount
          exact (settles_chosen s purpose p).congr fun used events =>
            makes_choose_of_only hreads rfl hcount.symm
      | cons second more =>
          rw [hindices, List.length_cons, List.length_cons] at hcount
          have hseveral : 1 < s.book.countOn d := by omega
          refine .ask _ (by simp) ?_ fun choice => ?_
          · intro events h
            obtain ⟨choice, rest, hnil, -⟩ := (makes_choose_of_several hreads hseveral).1 h
            cases hnil
          · rw [← hindices]
            refine (settles_hearChoice { s with question := _ } purpose d choice).congr
              fun used events => ?_
            rw [makes_choose_of_several hreads hseveral]
            constructor
            · rintro ⟨_, _, hused, hpicked⟩
              cases hused
              exact hpicked
            · exact fun hpicked => ⟨choice, used, rfl, hpicked⟩

theorem settles_hearExistingDate (s : State) (purpose : Purpose) (line : String) :
    Settles look root s.book s.month t (s.hearExistingDate look purpose line)
      fun used => Makes s.book s.month (.choose purpose) (line :: used) := by
  by_cases hdate : ∃ d, DateParts.ofText? line = some (DateParts.ofDate d)
  · obtain ⟨d, hreads⟩ := hdate
    exact settles_hearExistingDate_of_date s purpose hreads
  · -- no event has the date that is typed, if it is one at all
    have hnone : ∀ used events, ¬ Makes s.book s.month (.choose purpose) (line :: used) events := by
      intro used events h
      obtain ⟨p, hreads, -⟩ := makes_choose_cons_iff.1 h
      exact hdate ⟨p.event.date, hreads⟩
    unfold State.hearExistingDate
    cases hparts : DateParts.ofText? line with
    | none => exact .unchanged _ hnone
    | some parts =>
        simp only
        cases htoDate : parts.toDate? with
        | none => exact .unchanged _ hnone
        | some d =>
            rw [DateParts.toDate?_eq_some_iff] at htoDate
            subst htoDate
            exact absurd ⟨d, hparts⟩ hdate

theorem settles_choose (s : State) (purpose : Purpose) :
    Settles look root s.book s.month t (s.choose look purpose)
      (Makes s.book s.month (.choose purpose)) := by
  unfold State.choose
  split
  · next hempty =>
      refine .unchanged _ fun used events h => ?_
      cases h with
      | @carried _ _ p _ _ _ _ =>
          rw [EventBook.isEmpty, p.events_eq] at hempty
          simp at hempty
  · exact .ask _ (by simp) (fun events h => ne_nil_of_makes h rfl) fun line =>
      settles_hearExistingDate { s with question := _ } _ line

theorem settles_describeNew (s : State) (date? : Option Date) :
    Settles look root s.book s.month t (s.describeNew look date?) fun used events =>
      ∃ d description, date? = some d ∧ used = [description] ∧ description ≠ "" ∧
        events = s.book.events ++ [⟨d, String.ofList (description.toList.take 127)⟩] := by
  cases date? with
  | none =>
      refine .unchanged _ ?_
      rintro used events ⟨d, -, hdate, -⟩
      cases hdate
  | some d =>
      refine .ask _ (by simp) (by simp) fun line => ?_
      show Settles look root s.book s.month t
        (State.hearDescription look { s with question := _ } d line) _
      unfold State.hearDescription
      split
      · next hempty =>
          refine .unchanged _ ?_
          rintro used events ⟨_, _, -, hline, hne, -⟩
          cases hline
          exact hne hempty
      · next hne =>
          have hadd : (s.book.add (.clipped d line)).events
              = s.book.events ++ [⟨d, String.ofList (line.toList.take 127)⟩] := by
            rw [← clip_eq]
            rfl
          refine .changed _ _ fun used events => ?_
          rw [hadd]
          constructor
          · rintro ⟨_, _, hdate, hline, -, hevents⟩
            cases hdate
            cases hline
            exact ⟨rfl, hevents⟩
          · rintro ⟨rfl, hevents⟩
            exact ⟨d, line, rfl, rfl, hne, hevents⟩

theorem settles_hearEventDay (s : State) (day : String) :
    Settles look root s.book s.month t (s.hearEventDay look day)
      fun used => Makes s.book s.month .add ("" :: day :: used) := by
  refine (settles_describeNew s _).congr fun used events => ?_
  rw [makes_add_cons_iff]
  constructor
  · rintro ⟨d, description, hne, hevents, ⟨hreads, -⟩ | ⟨-, _, hused, hday⟩⟩
    · rw [ofText?_empty] at hreads
      cases hreads
    · cases hused
      exact ⟨d, description, Month.day?_leadingInt?_eq_some_iff.2 hday, rfl, hne, hevents⟩
  · rintro ⟨d, description, hday, rfl, hne, hevents⟩
    exact ⟨d, description, hne, hevents,
      .inr ⟨rfl, day, rfl, Month.day?_leadingInt?_eq_some_iff.1 hday⟩⟩

theorem settles_hearEventDate (s : State) (line : String) :
    Settles look root s.book s.month t (s.hearEventDate look line)
      fun used => Makes s.book s.month .add (line :: used) := by
  unfold State.hearEventDate
  split
  · next hempty =>
      subst hempty
      refine .ask _ (by simp) ?_ fun day => settles_hearEventDay { s with question := _ } day
      intro events h
      obtain ⟨d, description, -, -, ⟨hreads, -⟩ | ⟨-, day, hnil, -⟩⟩ := makes_add_cons_iff.1 h
      · rw [ofText?_empty] at hreads
        cases hreads
      · cases hnil
  · next hline =>
      split
      · next parts hparts =>
          refine (settles_describeNew s _).congr fun used events => ?_
          rw [makes_add_cons_iff]
          constructor
          · rintro ⟨d, description, hne, hevents, ⟨hreads, hused⟩ | ⟨hempty, -⟩⟩
            · rw [hparts] at hreads
              exact ⟨d, description, DateParts.toDate?_eq_some_iff.2 (Option.some.inj hreads),
                hused, hne, hevents⟩
            · exact absurd hempty hline
          · rintro ⟨d, description, hdate, hused, hne, hevents⟩
            rw [DateParts.toDate?_eq_some_iff] at hdate
            subst hdate
            exact ⟨d, description, hne, hevents, .inl ⟨hparts, hused⟩⟩
      · next hparts =>
          refine .unchanged _ fun used events h => ?_
          obtain ⟨d, description, -, -, ⟨hreads, -⟩ | ⟨hempty, -⟩⟩ := makes_add_cons_iff.1 h
          · rw [hparts] at hreads
            cases hreads
          · exact hline hempty

theorem settles_hearCommand (s : State) {c : Errand} {line : String} (h : c.GivenBy line) :
    Settles look root s.book s.month t (s.hearCommand look line) (Makes s.book s.month c) := by
  unfold Errand.GivenBy at h
  unfold State.hearCommand
  cases hwords : words line.toList with
  | nil =>
      rw [hwords] at h
      cases h
  | cons word arguments =>
      rw [hwords] at h
      have hword : lower (String.ofList word) = c.word := Option.some.inj h
      simp only [List.map_cons, hword]
      cases c with
      | add =>
          exact .ask _ (by simp) (fun events h => ne_nil_of_makes h rfl) fun line =>
            settles_hearEventDate { s with question := _ } line
      | choose purpose =>
          cases purpose with
          | edit => exact settles_choose s .edit
          | delete => exact settles_choose s .delete

end Questions

/-! ## A command from its first line to its end -/

/-- **A command that changes one event, or nothing.** Whatever is typed after it, the session comes
to where the command is over. If the first of the lines that were typed are answers that make other
events of the book, then these are the events of the book, and it is written to its file; if there
are no such answers, then the book and the files are as they were. -/
theorem settled_of_errand (look : Look) (root : String) (t : FileTree) {s : State}
    (hs : s.question = .command) {c : Errand} {line : String} (hline : c.GivenBy line)
    (raws : List RawLine) :
    let h := conclude look root t (s.hear look line) raws
    (∀ raw : RawLine, raw.text? = some line → ∃ written,
      (dialogue look).run root s t (raw :: raws)
        = ((dialogue look).run root h.state h.tree h.unread).after written) ∧
    Settled root s.book s.month t (Makes s.book s.month c) raws h := by
  have hcommand : s.hear look line = s.hearCommand look line := by
    rw [State.hear, hs]
  have hsettles : Settles look root s.book s.month t (s.hear look line)
      (Makes s.book s.month c) := by
    rw [hcommand]
    exact settles_hearCommand s hline
  obtain ⟨hresumes, hsettled⟩ := hsettles raws
  exact ⟨fun raw htext => hresumes.exists_run htext, hsettled⟩

/-- The second of two events on a day is described anew, by a character more than count; it stands
third in the book. -/
theorem settled_of_edit :
    let look : Look := ⟨⟨2024, 2, 20, by decide⟩, .plain⟩
    let t : FileTree := ⟨["w"], [(["w"], .directory), (["w", "home"], .directory),
      (["w", "home", "user"], .directory)]⟩
    let lunch : Event := ⟨⟨2024, 2, 14, by decide⟩, "Lunch"⟩
    let walk : Event := ⟨⟨2024, 3, 1, by decide⟩, "Walk"⟩
    let dinner : Event := ⟨⟨2024, 2, 14, by decide⟩, "Dinner"⟩
    let s : State := { book := ⟨[lunch, walk, dinner]⟩, month := .containing look.today }
    let long (n : Nat) : String := String.ofList (List.replicate n 'z')
    let raws : List RawLine := ["2024-02-14", "2", long 128, "view"].map typedLine
    let h := conclude look "." t (s.hear look "EDIT") raws
    h.state.book.events = [lunch, walk, { dinner with description := long 127 }] ∧
      h.unread = ["view"].map typedLine ∧
      Sandbox.read "." h.tree EventBook.path = .ok h.state.book.toText := by
  intro look t lunch walk dinner s long raws h
  have hline : Errand.GivenBy (.choose .edit) "EDIT" := by decide
  have hlong : String.ofList ((long 128).toList.take 127) = long 127 := by
    simp [long]
  have hmakes : Makes s.book s.month (.choose .edit) ["2024-02-14", "2", long 128]
      [lunch, walk, { dinner with description := long 127 }] := by
    let p : s.book.Place := ⟨[lunch, walk], dinner, [], rfl⟩
    rw [← hlong]
    exact .carried (.byNumber (p := p) (by decide) (by decide) (by decide))
      (.edit (by decide +kernel))
  have hprefix : ["2024-02-14", "2", long 128] <+: answers raws := by decide +kernel
  have hsettled : Settled "." s.book s.month t (Makes s.book s.month (.choose .edit)) raws h :=
    (settled_of_errand look "." t rfl hline raws).2
  obtain ⟨hbook, -, hunread, -, hread⟩ := hsettled.changed _ _ hprefix hmakes
  have hwrite (text : String) : (Sandbox.write "." t EventBook.path text).2 = .ok () := by rfl
  exact ⟨hbook, hunread, hread (hwrite _)⟩

end DeskShell.Calendar
