import DeskShell.Proofs.Expression.Adjacency
import DeskShell.Proofs.Expression.Grouping

/-!
# Owners of an operand

A number in parentheses is the number, as far as the machine is concerned, except that what owns the
parentheses goes to the output with them and not with the next token (`Arranger.feed_released`).
The two come to the same unless the owner would have waited: the sign of an operand waits for a
factorial, which then belongs to the operand, and does not wait where it owns a group. So in `2*-3!`
the factorial is taken first and in `2*-(3)!` the sign.
-/

set_option autoImplicit false

namespace DeskShell.Expression

/-! ## Owners -/

/-- Whether a token that follows the end of an operand sends a held operator to the output. -/
def Token.releases : Token → Held → Bool
  | operator op, h => h.yieldsTo (some op)
  | factorial, h => h.yieldsTo none
  | closing, h => h != .opening
  | _, _ => false

/-- What follows an operand releases its owner, unless that is a sign and the operand is marked. -/
theorem Token.releases_of_ownsGroup {t : Token} {owner : Held} (howns : owner.ownsGroup = true)
    (ht : t.startsOperand = false) (hsign : owner = .operandSign → t ≠ .factorial) :
    t.releases owner = true := by
  cases owner with
  | operator op | factorial | groupSign | opening => cases howns
  | function f => cases t <;> simp_all [releases, startsOperand, Held.yieldsTo]
  | operandSign => cases t <;> simp_all [releases, startsOperand, Held.yieldsTo]

namespace Arranger

section Released

variable {output : List Token} {h : Held} {below : List Held} {b : Bool}

/-- A held operator that is released may go to the output beforehand. -/
theorem release_cons {p : Held → Bool} (hp : p h = true) :
    release ⟨output, h :: below, b⟩ p = release ⟨output ++ [h.token], below, b⟩ p := by
  have hroom : output.length + ((below.takeWhile p).length + 1)
      = output.length + 1 + (below.takeWhile p).length := by omega
  simp only [release, emit, List.takeWhile_cons, List.dropWhile_cons, hp, if_true, List.map_cons,
    List.length_cons, List.length_map, List.length_append, List.length_nil, Nat.zero_add, hroom,
    List.append_assoc, List.singleton_append]

/-- **A held operator that the next token releases** may go to the output before that token. -/
theorem feed_released {t : Token} (ht : t.releases h = true) :
    feed ⟨output, h :: below, b⟩ t = feed ⟨output ++ [h.token], below, b⟩ t := by
  cases t with
  | operator op =>
      exact congrArg (·.bind fun s => s.hold (.operator op)) (release_cons (b := true) ht)
  | factorial =>
      exact congrArg (·.bind fun s => s.hold .factorial) (release_cons (b := false) ht)
  | closing =>
      have hp : (h != .opening) = true := ht
      show close ⟨output, h :: below, false⟩ = close ⟨output ++ [h.token], below, false⟩
      rw [close, close, release_cons (p := (· != .opening)) hp]
  | number v | function f | neg | opening => cases ht

theorem finish_released (hopening : h ≠ .opening) :
    finish ⟨output, h :: below, b⟩ = finish ⟨output ++ [h.token], below, b⟩ := by
  have hp : (h != .opening) = true := by simpa using hopening
  rw [finish, finish, release_cons (p := (· != .opening)) hp]

/-- What is left of a run comes to the same. -/
theorem run_released {tokens : List Token} (hopening : h ≠ .opening)
    (hnext : ∀ t ∈ tokens.head?, t.releases h = true) :
    (feedAll ⟨output, h :: below, b⟩ tokens).bind finish
      = (feedAll ⟨output ++ [h.token], below, b⟩ tokens).bind finish := by
  cases tokens with
  | nil => exact finish_released hopening
  | cons t rest => rw [feedAll_cons, feedAll_cons, feed_released (hnext t rfl)]

end Released

/-! ## Signs of operands -/

section Flag

variable {s s' : Arranger} {t : Token}

theorem afterOperator_close (h : s.close = .ok s') : s'.afterOperator = s.afterOperator := by
  obtain ⟨r, top, outer, hrelease, -, hrest⟩ := close_cases h
  obtain rfl := eq_of_emit hrelease
  rcases releaseOwner_cases hrest with rfl | ⟨owner, rest, -, -, rfl⟩
  · rfl
  · rfl

/-- The flag is set by a binary operator, and kept by a sign behind one. -/
theorem token_of_afterOperator (h : s.feed t = .ok s') (hflag : s'.afterOperator = true) :
    (∃ op, t = .operator op) ∨ t = .neg ∧ s.afterOperator = true := by
  cases t with
  | operator op => exact .inl ⟨op, rfl⟩
  | neg =>
      by_cases hb : s.afterOperator = true
      · exact .inr ⟨rfl, hb⟩
      · simp only [feed, hb] at h
        obtain rfl := eq_of_hold h
        cases hflag
  | number v =>
      obtain rfl := eq_of_emit (s := { s with afterOperator := false }) h
      cases hflag
  | function f | opening =>
      obtain rfl := eq_of_hold (s := { s with afterOperator := false }) h
      cases hflag
  | factorial =>
      obtain ⟨r, hrelease, hhold⟩ := bind_eq_ok h
      obtain rfl := eq_of_emit hrelease
      obtain rfl := eq_of_hold hhold
      cases hflag
  | closing =>
      rw [afterOperator_close (s := { s with afterOperator := false }) h] at hflag
      cases hflag

/-- Where no operand has ended, the sign of an operand is on the top of the stack only if it has
just been put there. -/
theorem token_of_operandSign (h : s.feed t = .ok s') (hends : t.endsOperand = false)
    (htop : s'.held.head? = some .operandSign) : t = .neg ∧ s.afterOperator = true := by
  cases t with
  | number v | factorial | closing => cases hends
  | operator op =>
      obtain ⟨r, -, hhold⟩ := bind_eq_ok h
      obtain rfl := eq_of_hold hhold
      cases htop
  | function f | opening =>
      obtain rfl := eq_of_hold (s := { s with afterOperator := false }) h
      cases htop
  | neg =>
      by_cases hb : s.afterOperator = true
      · exact ⟨rfl, hb⟩
      · simp only [feed, hb] at h
        obtain rfl := eq_of_hold h
        cases htop

end Flag

end Arranger

open Arranger

/-- Whether a list of tokens ends in the sign of an operand: in signs behind a binary operator. -/
def EndsInOperandSign (tokens : List Token) : Prop :=
  ∃ before op k, tokens = before ++ .operator op :: List.replicate (k + 1) .neg

section Tokens

variable {tokens first second : List Token} {s : Arranger} {v : Float}

/-- The flag tells that the tokens end in a binary operator, or in signs behind one. -/
theorem exists_of_afterOperator (h : feedAll {} tokens = .ok s) (hflag : s.afterOperator = true) :
    ∃ before op k, tokens = before ++ .operator op :: List.replicate k .neg := by
  induction tokens using List.reverseRecOn generalizing s with
  | nil =>
      cases h
      cases hflag
  | append_singleton tokens t ih =>
      rw [feedAll_append] at h
      obtain ⟨r, hrun, hlast⟩ := bind_eq_ok h
      rw [feedAll_singleton] at hlast
      rcases token_of_afterOperator hlast hflag with ⟨op, rfl⟩ | ⟨rfl, hkept⟩
      · exact ⟨tokens, op, 0, rfl⟩
      · obtain ⟨before, op, k, rfl⟩ := ih hrun hkept
        exact ⟨before, op, k + 1, by simp [List.replicate_succ']⟩

theorem endsInOperandSign_of_feedAll (h : feedAll {} tokens = .ok s)
    (hends : Token.lastEndsOperand false tokens = false)
    (htop : s.held.head? = some .operandSign) : EndsInOperandSign tokens := by
  rcases tokens.eq_nil_or_concat' with rfl | ⟨part, t, rfl⟩
  · cases h
    cases htop
  · rw [feedAll_append] at h
    obtain ⟨r, hrun, hlast⟩ := bind_eq_ok h
    rw [feedAll_singleton] at hlast
    have hlast' : t.endsOperand = false := by simpa [Token.lastEndsOperand] using hends
    obtain ⟨rfl, hflag⟩ := token_of_operandSign hlast hlast' htop
    obtain ⟨before, op, k, rfl⟩ := exists_of_afterOperator hrun hflag
    exact ⟨before, op, k, by simp [List.replicate_succ']⟩

/-- **A number in parentheses** comes to the same as the number alone, unless it is marked by a
factorial and has a sign that follows a binary operator. -/
theorem reversePolish_parenthesised (hfirst : Token.lastEndsOperand false first = false)
    (hsecond : ∀ t ∈ second.head?, t.startsOperand = false)
    (hsign : EndsInOperandSign first → second.head? ≠ some .factorial)
    (hlength : first.length + second.length + 3 ≤ maxTokens) :
    reversePolish (first ++ .opening :: .number v :: .closing :: second)
      = reversePolish (first ++ .number v :: second) := by
  show (feedAll {} _).bind finish = (feedAll {} _).bind finish
  rw [feedAll_append, feedAll_append]
  cases hrun : feedAll {} first with
  | error fault => rfl
  | ok s =>
      have hload : s.load ≤ 0 + first.length := load_feedAll hrun
      have hroom : s.load + 3 ≤ maxOutput := by
        unfold maxTokens at hlength
        unfold maxOutput
        omega
      have hnumber := feed_number (s := s) v (by omega)
      have hcontent : Content [.number v] [.number v] := .of_reversePolish rfl
      have hgroup := hcontent.feedAll (s := s) hroom
      have hsplit : Token.opening :: Token.number v :: Token.closing :: second
          = (Token.opening :: ([Token.number v] ++ [Token.closing])) ++ second := rfl
      show (feedAll s _).bind finish = (feedAll s _).bind finish
      -- a closing parenthesis releases the owner at once; without it the next token or the end does
      rw [hsplit, feedAll_append, hgroup, feedAll_cons_of_ok hnumber]
      cases hheld : s.held with
      | nil =>
          rw [releaseOwner_of_head (by simp)]
          rfl
      | cons owner below =>
          by_cases howns : owner.ownsGroup = true
          · have hkept : (s.output ++ [Token.number v]).length + below.length < maxOutput := by
              simp only [load, hheld, List.length_cons] at hroom
              simp only [List.length_append, List.length_singleton]
              omega
            rw [releaseOwner_cons howns hkept]
            refine (run_released ?_ fun t ht => ?_).symm
            · rintro rfl
              cases howns
            · refine Token.releases_of_ownsGroup howns (hsecond t ht) fun howner hmark => ?_
              refine hsign (endsInOperandSign_of_feedAll hrun hfirst ?_) (hmark ▸ ht)
              rw [hheld, howner, List.head?_cons]
          · rw [releaseOwner_of_head (by simpa using howns)]
            rfl

end Tokens

end DeskShell.Expression
