import DeskShell.Calendar.EventBook
import Mathlib.Data.List.Basic

/-!
# The events of a day

An event of a day can be named in two ways: by its index in the book, and by its number among the
events of that day. `EventBook.getElem?_indicesOn_eq_some_iff` translates one into the other, and
says both without an index: what counts is how many events of the day stand in front of it.
-/

set_option autoImplicit false

namespace DeskShell.Calendar

/-! ## Filtered indices -/

section Indices

variable {α : Type} (p : α → Bool)

/-- The indices, counted from `start`, of the elements with a property. -/
def indicesFrom (start : Nat) (xs : List α) : List Nat :=
  ((xs.zipIdx start).filter fun x => p x.1).map (·.2)

theorem indicesFrom_cons (start : Nat) (x : α) (xs : List α) :
    indicesFrom p start (x :: xs)
      = if p x = true then start :: indicesFrom p (start + 1) xs
        else indicesFrom p (start + 1) xs := by
  rw [indicesFrom, List.zipIdx_cons, List.filter_cons]
  split <;> rfl

theorem length_indicesFrom (start : Nat) (xs : List α) :
    (indicesFrom p start xs).length = xs.countP p := by
  induction xs generalizing start with
  | nil => rfl
  | cons x xs ih =>
      rw [indicesFrom_cons, List.countP_cons]
      split
      · rw [List.length_cons, ih]
      · rw [ih, Nat.add_zero]

/-- **The index of the `n`-th element with a property**, counted from 0: `n` elements with the
property stand in front of it. -/
theorem getElem?_indicesFrom_eq_some_iff {start n i : Nat} {xs : List α} :
    (indicesFrom p start xs)[n]? = some i ↔ ∃ before x after,
      xs = before ++ x :: after ∧ start + before.length = i ∧ p x = true ∧
        before.countP p = n := by
  induction xs generalizing start n with
  | nil => simp [indicesFrom]
  | cons y xs ih =>
      -- either the element is `y`, or `y` is the first one in front of it
      have hsplit : (∃ before x after, y :: xs = before ++ x :: after ∧
          start + before.length = i ∧ p x = true ∧ before.countP p = n) ↔
          (start = i ∧ p y = true ∧ n = 0) ∨ ∃ before x after, xs = before ++ x :: after ∧
            start + 1 + before.length = i ∧ p x = true ∧
              before.countP p + (if p y = true then 1 else 0) = n := by
        constructor
        · rintro ⟨before, x, after, hxs, hi, hx, hn⟩
          cases before with
          | nil =>
              cases hxs
              exact .inl ⟨hi, hx, hn.symm⟩
          | cons z before =>
              cases hxs
              rw [List.length_cons] at hi
              rw [List.countP_cons] at hn
              exact .inr ⟨before, x, after, rfl, by omega, hx, hn⟩
        · rintro (⟨hi, hy, hn⟩ | ⟨before, x, after, rfl, hi, hx, hn⟩)
          · exact ⟨[], y, xs, rfl, hi, hy, hn.symm⟩
          · refine ⟨y :: before, x, after, rfl, ?_, hx, ?_⟩
            · rw [List.length_cons]
              omega
            · rw [List.countP_cons]
              exact hn
      rw [hsplit, indicesFrom_cons]
      by_cases hy : p y = true
      · simp only [hy, if_pos]
        cases n with
        | zero => simp
        | succ n =>
            rw [List.getElem?_cons_succ, ih]
            simp
      · simp only [hy, Bool.false_eq_true, if_false, false_and, and_false, false_or, Nat.add_zero]
        exact ih

/-- The elements at the filtered indices are the filtered elements. -/
theorem filterMap_indicesFrom (xs : List α) :
    (indicesFrom p 0 xs).filterMap (fun i => xs[i]?) = xs.filter p := by
  have hfound : ∀ x ∈ (xs.zipIdx 0).filter (fun x => p x.1),
      ((fun i => xs[i]?) ∘ fun x : α × Nat => x.2) x = (some ∘ Prod.fst) x :=
    fun x hx => List.mem_zipIdx_iff_getElem?.1 (List.mem_of_mem_filter hx)
  have hfilter := List.filter_map (f := Prod.fst) (p := p) (l := xs.zipIdx 0)
  rw [List.zipIdx_map_fst] at hfilter
  rw [indicesFrom, List.filterMap_map, List.filterMap_congr hfound, List.filterMap_eq_map, hfilter]
  rfl

end Indices

/-! ## Events on a date -/

namespace EventBook

def countOn (b : EventBook) (d : Date) : Nat := b.events.countP fun e => e.date == d

theorem length_indicesOn (b : EventBook) (d : Date) : (b.indicesOn d).length = b.countOn d :=
  length_indicesFrom (fun e : Event => e.date == d) 0 b.events

theorem mem_indicesOn_iff {b : EventBook} {d : Date} {i : Nat} :
    i ∈ b.indicesOn d ↔ ∃ e, b.get? i = some e ∧ e.date = d := by
  simp only [indicesOn, get?, List.mem_map, List.mem_filter, beq_iff_eq, Prod.exists,
    List.mem_zipIdx_iff_getElem?]
  constructor
  · rintro ⟨e, _, ⟨he, hdate⟩, rfl⟩
    exact ⟨e, he, hdate⟩
  · rintro ⟨e, he, hdate⟩
    exact ⟨e, i, ⟨he, hdate⟩, rfl⟩

theorem pairwise_indicesOn (b : EventBook) (d : Date) : (b.indicesOn d).Pairwise (· < ·) := by
  have hall : (b.events.zipIdx.map (·.2)).Pairwise (· < ·) := by
    rw [List.zipIdx_map_snd]
    exact List.pairwise_lt_range'
  exact hall.sublist (List.filter_sublist.map _)

theorem filterMap_indicesOn (b : EventBook) (d : Date) :
    (b.indicesOn d).filterMap b.get? = b.events.filter fun e => e.date == d :=
  filterMap_indicesFrom (fun e : Event => e.date == d) b.events

/-- An event of the book, the events in front of it and those behind it. -/
structure Place (b : EventBook) where
  before : List Event
  event : Event
  after : List Event
  events_eq : b.events = before ++ event :: after

namespace Place

variable {b : EventBook} (p : b.Place)

def index : Nat := p.before.length

/-- The number of the event among those of its day, from 1. -/
def number : Nat := (p.before.countP fun e => e.date == p.event.date) + 1

theorem number_le : p.number ≤ b.countOn p.event.date := by
  rw [countOn, p.events_eq, List.countP_append, List.countP_cons_of_pos (by simp), number]
  omega

theorem indicesOn_ne_nil : b.indicesOn p.event.date ≠ [] := by
  intro hnone
  have hnumber := p.number_le
  rw [← length_indicesOn, hnone] at hnumber
  exact absurd hnumber (Nat.not_succ_le_zero _)

theorem events_describe_index (description : String) :
    (b.describe p.index description).events
      = p.before ++ { p.event with description := clip description } :: p.after := by
  rw [events_describe, p.events_eq]
  exact List.modifyTailIdx_add _ 0 p.before (p.event :: p.after)

theorem events_erase_index : (b.erase p.index).events = p.before ++ p.after := by
  rw [events_erase, p.events_eq, index, List.eraseIdx_append_of_length_le (Nat.le_refl _),
    Nat.sub_self, List.eraseIdx_cons_zero]

theorem eq_of_index_eq {p q : b.Place} (h : p.index = q.index) : p = q := by
  obtain ⟨before, event, after, hp⟩ := p
  obtain ⟨before', event', after', hq⟩ := q
  obtain ⟨rfl, hrest⟩ := List.append_inj (hp.symm.trans hq) h
  cases hrest
  rfl

end Place

/-- **The `n`-th event on a date**, counted from 0. -/
theorem getElem?_indicesOn_eq_some_iff {b : EventBook} {d : Date} {n i : Nat} :
    (b.indicesOn d)[n]? = some i ↔
      ∃ p : b.Place, p.event.date = d ∧ p.index = i ∧ p.number = n + 1 := by
  have hindices : b.indicesOn d = indicesFrom (fun e => e.date == d) 0 b.events := rfl
  rw [hindices, getElem?_indicesFrom_eq_some_iff]
  constructor
  · rintro ⟨before, x, after, hevents, hi, hx, hn⟩
    have hdate : x.date = d := by simpa using hx
    subst hdate
    refine ⟨⟨before, x, after, hevents⟩, rfl, ?_, congrArg (· + 1) hn⟩
    rw [← hi, Nat.zero_add]
    rfl
  · rintro ⟨p, rfl, rfl, hn⟩
    exact ⟨p.before, p.event, p.after, p.events_eq, Nat.zero_add _, by simp,
      Nat.succ.inj hn⟩

namespace Place

variable {b : EventBook} {p q : b.Place}

/-- Events on one date are told apart by their numbers. -/
theorem eq_of_number_eq (hdate : p.event.date = q.event.date) (hnumber : p.number = q.number) :
    p = q := by
  have hp := getElem?_indicesOn_eq_some_iff.2 ⟨p, hdate, rfl, rfl⟩
  have hq := getElem?_indicesOn_eq_some_iff.2 ⟨q, rfl, rfl, hnumber.symm⟩
  rw [hp] at hq
  exact eq_of_index_eq (Option.some.inj hq)

theorem number_eq_one (h : b.countOn p.event.date = 1) : p.number = 1 :=
  Nat.le_antisymm (Nat.le_trans p.number_le (Nat.le_of_eq h)) (Nat.succ_le_succ (Nat.zero_le _))

end Place

end EventBook

end DeskShell.Calendar
