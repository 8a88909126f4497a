import DeskShell.Expression.ReversePolish
import DeskShell.Proofs.Expression.Failing

/-!
# The stack machine of the reverse Polish form

Equations for the steps of the `Arranger`. Each token adds at most one to the tokens in the output
and on the stack together (`load`), so a state that has room for the tokens that follow never runs
into a bound; where there is room, releasing the top of the stack is the equation
`release_append`.
-/

set_option autoImplicit false

namespace DeskShell.Expression

namespace Arranger

/-- The number of tokens in the output and on the stack. -/
def load (s : Arranger) : Nat := s.output.length + s.held.length

/-! ## Running -/

@[simp] theorem feedAll_nil (s : Arranger) : s.feedAll [] = .ok s := rfl

theorem feedAll_cons (s : Arranger) (token : Token) (tokens : List Token) :
    s.feedAll (token :: tokens) = (s.feed token).bind fun s' => s'.feedAll tokens := rfl

theorem feedAll_append (s : Arranger) (first second : List Token) :
    s.feedAll (first ++ second) = (s.feedAll first).bind fun s' => s'.feedAll second :=
  List.foldlM_append

theorem feedAll_singleton (s : Arranger) (token : Token) : s.feedAll [token] = s.feed token := by
  rw [feedAll_cons]
  cases s.feed token <;> rfl

theorem feedAll_cons_of_ok {s s' : Arranger} {token : Token} (h : s.feed token = .ok s')
    (tokens : List Token) : s.feedAll (token :: tokens) = s'.feedAll tokens := by
  rw [feedAll_cons, h]
  rfl

theorem feedAll_append_of_ok {s s' : Arranger} {first : List Token}
    (h : s.feedAll first = .ok s') (second : List Token) :
    s.feedAll (first ++ second) = s'.feedAll second := by
  rw [feedAll_append, h]
  rfl

/-! ## Room -/

theorem eq_of_emit {s s' : Arranger} {tokens : List Token} (h : s.emit tokens = .ok s') :
    s' = { s with output := s.output ++ tokens } := by
  unfold emit at h
  split at h
  · cases h
    rfl
  · cases h

theorem eq_of_hold {s s' : Arranger} {held : Held} (h : s.hold held = .ok s') :
    s' = { s with held := held :: s.held } := by
  unfold hold at h
  split at h
  · cases h
    rfl
  · cases h

theorem emit_of_load {s : Arranger} {tokens : List Token}
    (h : s.load + tokens.length ≤ maxOutput) :
    s.emit tokens = .ok { s with output := s.output ++ tokens } := by
  have hroom : s.output.length + tokens.length ≤ maxOutput := by
    unfold load at h
    omega
  rw [emit, if_pos hroom]

theorem hold_of_load {s : Arranger} {h : Held} (hroom : s.load < maxOutput) :
    s.hold h = .ok { s with held := h :: s.held } := by
  have hheld : s.held.length < maxHeld := by
    unfold load at hroom
    unfold maxOutput at hroom
    unfold maxHeld
    omega
  rw [hold, if_pos hheld]

/-- The owner of a group that has been closed goes to the output, if there is one. -/
theorem releaseOwner_cases {s s' : Arranger} (h : s.releaseOwner = .ok s') :
    s' = s ∨ ∃ top rest, s.held = top :: rest ∧ top.ownsGroup = true ∧
      s' = { s with output := s.output ++ [top.token], held := rest } := by
  unfold releaseOwner at h
  split at h
  · next top rest hheld =>
      split at h
      · next howns => exact .inr ⟨top, rest, hheld, howns, eq_of_emit h⟩
      · cases h
        exact .inl rfl
  · cases h
    exact .inl rfl

/-- Closing a group releases what it holds, takes its parenthesis off, and releases its owner. -/
theorem close_cases {s s' : Arranger} (h : s.close = .ok s') :
    ∃ r top outer, s.release (· != .opening) = .ok r ∧ r.held = top :: outer ∧
      releaseOwner { r with held := outer } = .ok s' := by
  obtain ⟨r, hrelease, hrest⟩ := bind_eq_ok h
  split at hrest
  · cases hrest
  · next top outer hheld => exact ⟨r, top, outer, hrelease, hheld, hrest⟩

/-- Releasing sends the top of the stack to the output, up to the first held operator that does
not yield. -/
theorem release_append {s : Arranger} {p : Held → Bool} {kept below : List Held}
    (hheld : s.held = kept ++ below) (hkept : ∀ h ∈ kept, p h = true)
    (hbelow : ∀ h ∈ below.head?, p h = false) (hload : s.load ≤ maxOutput) :
    s.release p
      = .ok { s with output := s.output ++ kept.map Held.token, held := below } := by
  have htake : below.takeWhile p = [] ∧ below.dropWhile p = below := by
    cases below with
    | nil => exact ⟨rfl, rfl⟩
    | cons h rest =>
        have hp : p h = false := hbelow h rfl
        simp [hp]
  have htop : s.held.takeWhile p = kept := by
    rw [hheld, List.takeWhile_append_of_pos hkept, htake.1, List.append_nil]
  have hrest : s.held.dropWhile p = below := by
    rw [hheld, List.dropWhile_append_of_pos hkept, htake.2]
  have hroom : ({ s with held := below } : Arranger).load + (kept.map Held.token).length
      ≤ maxOutput := by
    simp only [load, hheld, List.length_append, List.length_map] at hload ⊢
    omega
  rw [release, htop, hrest, emit_of_load hroom]

/-! ## The load grows by one -/

theorem load_emit {s s' : Arranger} {tokens : List Token} (h : s.emit tokens = .ok s') :
    s'.load = s.load + tokens.length := by
  unfold emit at h
  split at h
  · cases h
    simp only [load, List.length_append]
    omega
  · cases h

theorem load_hold {s s' : Arranger} {held : Held} (h : s.hold held = .ok s') :
    s'.load = s.load + 1 := by
  unfold hold at h
  split at h
  · cases h
    simp only [load, List.length_cons]
    omega
  · cases h

/-- Releasing moves tokens from the stack to the output. -/
theorem load_release {s s' : Arranger} {p : Held → Bool} (h : s.release p = .ok s') :
    s'.load = s.load := by
  have hemit := load_emit h
  have hsplit := congrArg List.length (List.takeWhile_append_dropWhile (p := p) (l := s.held))
  simp only [load, List.length_map, List.length_append] at hemit hsplit ⊢
  omega

theorem load_releaseOwner {s s' : Arranger} (h : s.releaseOwner = .ok s') : s'.load = s.load := by
  rcases releaseOwner_cases h with rfl | ⟨top, rest, hheld, -, rfl⟩
  · rfl
  · simp only [load, hheld, List.length_append, List.length_cons, List.length_nil]
    omega

theorem load_close {s s' : Arranger} (h : s.close = .ok s') : s'.load < s.load := by
  obtain ⟨r, top, outer, hrelease, hheld, hrest⟩ := close_cases h
  have hload := load_release hrelease
  have howner := load_releaseOwner hrest
  simp only [load, hheld, List.length_cons] at hload howner ⊢
  omega

theorem load_release_hold {s s' : Arranger} {p : Held → Bool} {held : Held}
    (h : (s.release p).bind (fun r => r.hold held) = .ok s') : s'.load = s.load + 1 := by
  obtain ⟨r, hrelease, hhold⟩ := bind_eq_ok h
  rw [load_hold hhold, load_release hrelease]

theorem load_feed {s s' : Arranger} {token : Token} (h : s.feed token = .ok s') :
    s'.load ≤ s.load + 1 := by
  -- the flag of the state plays no part in its load
  have hflag : ∀ b, load { s with afterOperator := b } = s.load := fun _ => rfl
  cases token with
  | number v => exact Nat.le_of_eq (load_emit (s := { s with afterOperator := false }) h)
  | operator op =>
      exact Nat.le_of_eq (load_release_hold (s := { s with afterOperator := true }) h)
  | factorial => exact Nat.le_of_eq (load_release_hold (s := { s with afterOperator := false }) h)
  | function f => exact Nat.le_of_eq (load_hold (s := { s with afterOperator := false }) h)
  | neg =>
      simp only [feed] at h
      split at h
      · exact Nat.le_of_eq ((load_hold h).trans (congrArg (· + 1) (hflag true)))
      · exact Nat.le_of_eq ((load_hold h).trans (congrArg (· + 1) (hflag false)))
  | opening => exact Nat.le_of_eq (load_hold (s := { s with afterOperator := false }) h)
  | closing =>
      have hclose := load_close (s := { s with afterOperator := false }) h
      rw [hflag] at hclose
      omega

theorem load_feedAll {s s' : Arranger} {tokens : List Token} (h : s.feedAll tokens = .ok s') :
    s'.load ≤ s.load + tokens.length := by
  induction tokens generalizing s with
  | nil =>
      cases h
      exact Nat.le_refl _
  | cons token rest ih =>
      rw [feedAll_cons] at h
      obtain ⟨r, hfeed, hrest⟩ := bind_eq_ok h
      have hstep := load_feed hfeed
      have hlater := ih hrest
      rw [List.length_cons]
      omega

end Arranger

end DeskShell.Expression
