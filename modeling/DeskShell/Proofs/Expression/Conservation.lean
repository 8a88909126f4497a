import DeskShell.Expression.Reading
import DeskShell.Proofs.Expression.Arranger
import Mathlib.Data.List.Count

/-!
# Every token counts once

Whatever list of tokens the stack machine takes in, each of its tokens that is no parenthesis is in
the output or waits on the stack (`Arranger.content`), and each group that is open has its
parenthesis on the stack (`Arranger.depth`). So the machine fails on parentheses exactly where they
are not balanced, its output is the tokens in another order, and it finds no room only behind more
tokens than there may be (`reversePolish_cases`).
-/

set_option autoImplicit false

namespace DeskShell.Expression

def Token.isNumber : Token → Bool
  | .number _ => true
  | _ => false

/-- Whether the parentheses of a list of tokens are balanced: none is closed before it is opened,
and all are closed. -/
structure Balanced (tokens : List Token) : Prop where
  nested : ∀ part, part <+: tokens → part.count .closing ≤ part.count .opening
  closed : tokens.count .closing = tokens.count .opening

theorem Balanced.append {first second : List Token} (h : Balanced first) (h' : Balanced second) :
    Balanced (first ++ second) where
  nested part hpart := by
    obtain ⟨rest, hrest⟩ := hpart
    rcases List.append_eq_append_iff.1 hrest with ⟨more, hfirst, -⟩ | ⟨more, rfl, hsecond⟩
    · exact h.nested part ⟨more, hfirst.symm⟩
    · have hclosed := h.closed
      have hnested := h'.nested more ⟨rest, hsecond.symm⟩
      rw [List.count_append, List.count_append]
      omega
  closed := by rw [List.count_append, List.count_append, h.closed, h'.closed]

/-- What stands behind as many closing as opening parentheses is balanced on its own. -/
theorem Balanced.of_append {first second : List Token} (h : Balanced (first ++ second))
    (hfirst : first.count .closing = first.count .opening) : Balanced second where
  nested part hpart := by
    have hnested := h.nested (first ++ part) ((List.prefix_append_right_inj first).2 hpart)
    rw [List.count_append, List.count_append] at hnested
    omega
  closed := by
    have hclosed := h.closed
    rw [List.count_append, List.count_append] at hclosed
    omega

theorem balanced_of_isParenthesis {tokens : List Token}
    (h : ∀ t ∈ tokens, t.isParenthesis = false) : Balanced tokens := by
  have hnone (part : List Token) (hpart : part <+: tokens) (t : Token)
      (ht : t.isParenthesis = true) : part.count t = 0 := by
    refine List.count_eq_zero.2 fun hmem => ?_
    rw [h t (hpart.subset hmem)] at ht
    cases ht
  refine ⟨fun part hpart => ?_, ?_⟩
  · rw [hnone part hpart .closing rfl]
    exact Nat.zero_le _
  · rw [hnone tokens (List.prefix_refl _) .closing rfl,
      hnone tokens (List.prefix_refl _) .opening rfl]

theorem filter_isNumber_map_token (held : List Held) :
    (held.map Held.token).filter Token.isNumber = [] := by
  refine List.filter_eq_nil_iff.2 fun token htoken => ?_
  obtain ⟨h, -, rfl⟩ := List.mem_map.1 htoken
  cases h <;> simp [Held.token, Token.isNumber]

namespace Arranger

/-! ## What a state holds -/

/-- The held operators that go to the output in the end, as tokens. -/
def waiting (s : Arranger) : List Token := (s.held.filter (· != .opening)).map Held.token

def content (s : Arranger) : List Token := s.output ++ s.waiting

def depth (s : Arranger) : Nat := s.held.count .opening

variable {s s' : Arranger}

/-- The top of the stack goes to the output: nothing is lost, as long as it opens no group. -/
theorem content_of_released {kept below : List Held} {b : Bool} (hheld : s.held = kept ++ below)
    (hkept : ∀ h ∈ kept, h ≠ .opening) :
    content ⟨s.output ++ kept.map Held.token, below, b⟩ = s.content ∧
      depth ⟨s.output ++ kept.map Held.token, below, b⟩ = s.depth := by
  have hall : kept.filter (· != .opening) = kept :=
    List.filter_eq_self.2 fun h hh => by simpa using hkept h hh
  have hnone : kept.count .opening = 0 :=
    List.count_eq_zero.2 fun hmem => hkept _ hmem rfl
  constructor
  · show s.output ++ kept.map Held.token ++ (below.filter (· != .opening)).map Held.token
      = s.output ++ (s.held.filter (· != .opening)).map Held.token
    rw [hheld, List.filter_append, hall, List.map_append, List.append_assoc]
  · show below.count .opening = s.held.count .opening
    rw [hheld, List.count_append, hnone, Nat.zero_add]

theorem content_release {p : Held → Bool} (hp : p .opening = false)
    (h : s.release p = .ok s') : s'.content = s.content ∧ s'.depth = s.depth := by
  obtain rfl := eq_of_emit h
  have hkept : ∀ x ∈ s.held.takeWhile p, x ≠ .opening := by
    rintro x hx rfl
    have hall := List.all_eq_true.1 List.all_takeWhile _ hx
    rw [hp] at hall
    cases hall
  exact content_of_released (s := s) (b := s.afterOperator)
    List.takeWhile_append_dropWhile.symm hkept

/-- A release up to the end of a group stops at the parenthesis of the group. -/
theorem head_of_release {top : Held} {below : List Held}
    (h : s.release (· != .opening) = .ok s') (hheld : s'.held = top :: below) :
    top = .opening := by
  obtain rfl := eq_of_emit h
  have hdropped : s.held.dropWhile (· != .opening) = top :: below := hheld
  have hhead := List.head?_dropWhile_not (· != .opening) s.held
  rw [hdropped] at hhead
  simpa using hhead

theorem content_releaseOwner (h : s.releaseOwner = .ok s') :
    s'.content = s.content ∧ s'.depth = s.depth := by
  rcases releaseOwner_cases h with rfl | ⟨top, rest, hheld, howns, rfl⟩
  · exact ⟨rfl, rfl⟩
  · have hkept : ∀ x ∈ [top], x ≠ .opening := by
      intro x hx
      rw [List.mem_singleton.1 hx]
      rintro rfl
      cases howns
    exact content_of_released (s := s) (b := s.afterOperator) hheld hkept

/-- Closing a group takes its parenthesis off the stack, and nothing else. -/
theorem content_close (h : s.close = .ok s') :
    s'.content = s.content ∧ s'.depth + 1 = s.depth := by
  obtain ⟨r, top, outer, hrelease, hheld, hrest⟩ := close_cases h
  obtain ⟨hcontent, hdepth⟩ := content_release (by rfl) hrelease
  have htop := head_of_release hrelease hheld
  obtain ⟨hcontent', hdepth'⟩ := content_releaseOwner hrest
  rw [← hcontent, ← hdepth, hcontent', hdepth']
  simp [content, waiting, depth, hheld, htop]

/-! ## Taking in tokens -/

/-- The state `s'` holds what `s` holds and the tokens besides, the numbers among them in their
order, and as many more groups are open as the tokens open and do not close. -/
structure Gains (s : Arranger) (tokens : List Token) (s' : Arranger) : Prop where
  perm : s'.content.Perm (s.content ++ tokens.filter (!·.isParenthesis))
  numbers : s'.content.filter Token.isNumber
    = s.content.filter Token.isNumber ++ tokens.filter Token.isNumber
  depth_eq : s'.depth + tokens.count .closing = s.depth + tokens.count .opening

theorem Gains.refl (s : Arranger) : Gains s [] s := by
  refine ⟨?_, ?_, rfl⟩
  · simp
  · simp

theorem Gains.trans {r : Arranger} {first second : List Token} (h : Gains s first r)
    (h' : Gains r second s') : Gains s (first ++ second) s' := by
  refine ⟨?_, ?_, ?_⟩
  · rw [List.filter_append, ← List.append_assoc]
    exact h'.perm.trans (h.perm.append_right _)
  · rw [h'.numbers, h.numbers, List.filter_append, List.append_assoc]
  · have hfirst := h.depth_eq
    have hsecond := h'.depth_eq
    rw [List.count_append, List.count_append]
    omega

theorem Gains.of_flag {tokens : List Token} {b : Bool}
    (h : Gains { s with afterOperator := b } tokens s') : Gains s tokens s' :=
  ⟨h.perm, h.numbers, h.depth_eq⟩

/-- A token that is put between the output and what waits on the stack. -/
theorem gains_of_content {r : Arranger} {token : Token} (hr : r.content = s.content ∧
    r.depth = s.depth) (htoken : token.isParenthesis = false)
    (hcontent : s'.content = r.output ++ token :: r.waiting) (hdepth : s'.depth = r.depth) :
    Gains s [token] s' := by
  have hnumbers : r.waiting.filter Token.isNumber = [] := filter_isNumber_map_token _
  refine ⟨?_, ?_, ?_⟩
  · have hperm : (r.output ++ token :: r.waiting).Perm (r.content ++ [token]) :=
      List.perm_middle.trans (List.perm_append_singleton token r.content).symm
    simpa [hcontent, htoken, ← hr.1] using hperm
  · rw [hcontent, ← hr.1]
    simp [content, List.filter_cons, hnumbers]
  · have hclosing : token ≠ .closing := by
      rintro rfl
      cases htoken
    have hopening : token ≠ .opening := by
      rintro rfl
      cases htoken
    simp [hclosing, hopening, hdepth, hr.2]

theorem gains_hold {r : Arranger} {h : Held} (hr : r.content = s.content ∧ r.depth = s.depth)
    (hopening : h ≠ .opening) (hhold : r.hold h = .ok s') : Gains s [h.token] s' := by
  obtain rfl := eq_of_hold hhold
  refine gains_of_content hr ?_ ?_ ?_
  · cases h <;> simp_all [Held.token, Token.isParenthesis]
  · simp [content, waiting, hopening]
  · simp [depth, hopening]

/-- **One token.** -/
theorem gains_feed {token : Token} (h : s.feed token = .ok s') : Gains s [token] s' := by
  cases token with
  | number v =>
      obtain rfl := eq_of_emit (s := { s with afterOperator := false }) h
      refine gains_of_content (r := s) ⟨rfl, rfl⟩ rfl ?_ rfl
      simp [content, waiting]
  | operator op =>
      obtain ⟨r, hrelease, hhold⟩ := bind_eq_ok h
      exact (gains_hold (content_release (by rfl) hrelease) (by simp) hhold).of_flag
  | factorial =>
      obtain ⟨r, hrelease, hhold⟩ := bind_eq_ok h
      exact (gains_hold (content_release (by rfl) hrelease) (by simp) hhold).of_flag
  | function f =>
      exact (gains_hold (s := { s with afterOperator := false }) ⟨rfl, rfl⟩ (by simp) h).of_flag
  | neg =>
      simp only [feed] at h
      split at h
      · exact (gains_hold (s := { s with afterOperator := true }) ⟨rfl, rfl⟩ (by simp) h).of_flag
      · exact (gains_hold (s := { s with afterOperator := false }) ⟨rfl, rfl⟩ (by simp) h).of_flag
  | opening =>
      obtain rfl := eq_of_hold (s := { s with afterOperator := false }) h
      refine ⟨?_, ?_, ?_⟩
      · simp [content, waiting, Token.isParenthesis]
      · simp [content, waiting, Token.isNumber]
      · simp [depth]
  | closing =>
      obtain ⟨hcontent, hdepth⟩ := content_close (s := { s with afterOperator := false }) h
      have hcontent' : s'.content = s.content := hcontent
      have hdepth' : s'.depth + 1 = s.depth := hdepth
      refine ⟨?_, ?_, ?_⟩
      · simp [hcontent', Token.isParenthesis]
      · simp [hcontent', Token.isNumber]
      · simpa using hdepth'

/-- **A run.** -/
theorem gains_feedAll {tokens : List Token} (h : s.feedAll tokens = .ok s') :
    Gains s tokens s' := by
  induction tokens generalizing s with
  | nil =>
      cases h
      exact .refl _
  | cons token rest ih =>
      rw [feedAll_cons] at h
      obtain ⟨r, hfeed, hrest⟩ := bind_eq_ok h
      exact (gains_feed hfeed).trans (ih hrest)

/-! ## Faults -/

theorem fault_of_emit {tokens : List Token} {fault : Fault} (h : s.emit tokens = .error fault) :
    fault = .tooComplex ∧ maxOutput < s.output.length + tokens.length := by
  unfold emit at h
  split at h
  · cases h
  · next hroom =>
      cases h
      exact ⟨rfl, Nat.lt_of_not_le hroom⟩

theorem fault_of_hold {x : Held} {fault : Fault} (h : s.hold x = .error fault) :
    fault = .tooComplex ∧ maxOutput ≤ s.load := by
  unfold hold at h
  split at h
  · cases h
  · next hroom =>
      cases h
      unfold maxHeld at hroom
      unfold maxOutput load
      exact ⟨rfl, by omega⟩

theorem fault_of_release {p : Held → Bool} {fault : Fault} (h : s.release p = .error fault) :
    fault = .tooComplex ∧ maxOutput < s.load := by
  obtain ⟨hfault, hroom⟩ := fault_of_emit h
  have htaken : (s.held.takeWhile p).length ≤ s.held.length :=
    (List.takeWhile_prefix p).length_le
  simp only [List.length_map] at hroom
  unfold load
  exact ⟨hfault, by omega⟩

theorem fault_of_releaseOwner {fault : Fault} (h : s.releaseOwner = .error fault) :
    fault = .tooComplex ∧ maxOutput < s.load := by
  unfold releaseOwner at h
  split at h
  · next top rest hheld =>
      split at h
      · obtain ⟨hfault, hroom⟩ := fault_of_emit h
        simp only [List.length_singleton] at hroom
        refine ⟨hfault, ?_⟩
        simp only [load, hheld, List.length_cons]
        omega
      · cases h
  · cases h

theorem fault_of_release_hold {p : Held → Bool} {x : Held} {fault : Fault}
    (h : (s.release p).bind (fun r => r.hold x) = .error fault) :
    fault = .tooComplex ∧ maxOutput ≤ s.load := by
  rcases bind_eq_error h with hrelease | ⟨r, hrelease, hhold⟩
  · obtain ⟨hfault, hload⟩ := fault_of_release hrelease
    exact ⟨hfault, Nat.le_of_lt hload⟩
  · rw [← load_release hrelease]
    exact fault_of_hold hhold

theorem fault_of_close {fault : Fault} (h : s.close = .error fault) :
    fault = .tooComplex ∧ maxOutput ≤ s.load ∨
      fault = .mismatchedParentheses ∧ s.depth = 0 := by
  rcases bind_eq_error h with hrelease | ⟨r, hrelease, hrest⟩
  · obtain ⟨hfault, hload⟩ := fault_of_release hrelease
    exact .inl ⟨hfault, Nat.le_of_lt hload⟩
  · obtain ⟨-, hdepth⟩ := content_release (by rfl) hrelease
    have hload := load_release hrelease
    split at hrest
    · next hheld =>
        cases hrest
        refine .inr ⟨rfl, ?_⟩
        rw [← hdepth, depth, hheld]
        rfl
    · next top outer hheld =>
        obtain ⟨hfault, howner⟩ := fault_of_releaseOwner hrest
        refine .inl ⟨hfault, ?_⟩
        simp only [load, hheld, List.length_cons] at hload howner ⊢
        omega

/-- **One token that is refused** finds no room, or closes a group where none is open. -/
theorem fault_of_feed {token : Token} {fault : Fault} (h : s.feed token = .error fault) :
    fault = .tooComplex ∧ maxOutput ≤ s.load ∨
      fault = .mismatchedParentheses ∧ token = .closing ∧ s.depth = 0 := by
  cases token with
  | number v =>
      obtain ⟨hfault, hroom⟩ := fault_of_emit (s := { s with afterOperator := false }) h
      simp only [List.length_singleton] at hroom
      refine .inl ⟨hfault, ?_⟩
      unfold load
      omega
  | operator op =>
      exact .inl (fault_of_release_hold (s := { s with afterOperator := true }) h)
  | factorial => exact .inl (fault_of_release_hold (s := { s with afterOperator := false }) h)
  | function f => exact .inl (fault_of_hold (s := { s with afterOperator := false }) h)
  | neg =>
      simp only [feed] at h
      split at h
      · exact .inl (fault_of_hold (s := { s with afterOperator := true }) h)
      · exact .inl (fault_of_hold (s := { s with afterOperator := false }) h)
  | opening => exact .inl (fault_of_hold (s := { s with afterOperator := false }) h)
  | closing =>
      rcases fault_of_close (s := { s with afterOperator := false }) h with hroom | ⟨hfault, hdepth⟩
      · exact .inl hroom
      · exact .inr ⟨hfault, rfl, hdepth⟩

/-- **The end of a run** sends all that waits to the output, unless a group is still open. -/
theorem finish_cases (s : Arranger) :
    (s.finish = .ok s.content ∧ s.depth = 0) ∨
      (s.finish = .error .tooComplex ∧ maxOutput < s.load) ∨
      (s.finish = .error .mismatchedParentheses ∧ 0 < s.depth) := by
  cases hrelease : s.release (· != .opening) with
  | error fault =>
      obtain ⟨rfl, hload⟩ := fault_of_release hrelease
      refine .inr (.inl ⟨?_, hload⟩)
      rw [finish, hrelease]
      rfl
  | ok r =>
      obtain ⟨hcontent, hdepth⟩ := content_release (by rfl) hrelease
      have hfinish : s.finish
          = if r.held.isEmpty then .ok r.output else .error .mismatchedParentheses := by
        rw [finish, hrelease]
        rfl
      rw [hfinish, ← hcontent, ← hdepth]
      cases hheld : r.held with
      | nil => exact .inl (by simp [content, waiting, depth, hheld])
      | cons top below =>
          have htop := head_of_release hrelease hheld
          exact .inr (.inr (by simp [depth, hheld, htop]))

theorem split_of_feedAll {tokens : List Token} {fault : Fault}
    (h : s.feedAll tokens = .error fault) : ∃ part token rest r,
      tokens = part ++ token :: rest ∧ s.feedAll part = .ok r ∧ r.feed token = .error fault := by
  induction tokens generalizing s with
  | nil => cases h
  | cons token rest ih =>
      rw [feedAll_cons] at h
      rcases bind_eq_error h with hfeed | ⟨next, hfeed, hrest⟩
      · exact ⟨[], token, rest, s, rfl, rfl, hfeed⟩
      · obtain ⟨part, token', rest', r, rfl, hpart, hrefused⟩ := ih hrest
        exact ⟨token :: part, token', rest', r, rfl, by rw [feedAll_cons_of_ok hfeed, hpart],
          hrefused⟩

end Arranger

open Arranger

/-! ## Lists of tokens -/

section Run

variable {tokens : List Token}

/-- Where a run comes to its end, no group has been closed that was not open. -/
theorem nested_of_feedAll {s : Arranger} (h : feedAll {} tokens = .ok s) (part : List Token)
    (hpart : part <+: tokens) : part.count .closing ≤ part.count .opening := by
  obtain ⟨rest, rfl⟩ := hpart
  rw [feedAll_append] at h
  obtain ⟨r, hrun, -⟩ := bind_eq_ok h
  have hdepth := (gains_feedAll hrun).depth_eq
  have hstart : depth {} = 0 := rfl
  omega

/-- A run that fails has taken in more tokens than there may be, or closes a group that is not
open. -/
theorem fault_of_feedAll {fault : Fault} (h : feedAll {} tokens = .error fault) :
    fault = .tooComplex ∧ maxTokens < tokens.length ∨
      fault = .mismatchedParentheses ∧ ¬ Balanced tokens := by
  obtain ⟨part, token, rest, r, rfl, hpart, hrefused⟩ := split_of_feedAll h
  rcases fault_of_feed hrefused with ⟨hfault, hload⟩ | ⟨hfault, rfl, hdepth⟩
  · refine .inl ⟨hfault, ?_⟩
    have hgrows := load_feedAll hpart
    have hstart : load {} = 0 := rfl
    unfold maxOutput at hload
    unfold maxTokens
    simp only [List.length_append, List.length_cons]
    omega
  · refine .inr ⟨hfault, fun hbalanced => ?_⟩
    -- the part with the parenthesis that is refused closes one group too many
    have hprefix : part ++ [.closing] <+: part ++ .closing :: rest := ⟨rest, by simp⟩
    have hnested := hbalanced.nested _ hprefix
    have hgains := (gains_feedAll hpart).depth_eq
    have hstart : depth {} = 0 := rfl
    simp only [List.count_append, List.count_singleton_self] at hnested
    have hother : [Token.closing].count .opening = 0 := by decide
    omega

/-- **What comes of a list of tokens**: its other tokens in another order, the numbers in theirs, if
the parentheses are balanced; and where a bound is reached, there are too many tokens. -/
theorem reversePolish_cases (tokens : List Token) :
    (∃ listing, reversePolish tokens = .ok listing ∧ Balanced tokens ∧
      listing.Perm (tokens.filter (!·.isParenthesis)) ∧
      listing.filter Token.isNumber = tokens.filter Token.isNumber) ∨
    (reversePolish tokens = .error .tooComplex ∧ maxTokens < tokens.length) ∨
    (reversePolish tokens = .error .mismatchedParentheses ∧ ¬ Balanced tokens) := by
  cases hrun : feedAll {} tokens with
  | error fault =>
      have hpolish : reversePolish tokens = .error fault := by
        rw [reversePolish, hrun]
        rfl
      rcases fault_of_feedAll hrun with ⟨rfl, hlong⟩ | ⟨rfl, hbalanced⟩
      · exact .inr (.inl ⟨hpolish, hlong⟩)
      · exact .inr (.inr ⟨hpolish, hbalanced⟩)
  | ok s =>
      have hpolish : reversePolish tokens = s.finish := by
        rw [reversePolish, hrun]
        rfl
      have hgains := gains_feedAll hrun
      have hopen : s.depth + tokens.count .closing = 0 + tokens.count .opening := hgains.depth_eq
      rw [hpolish]
      rcases s.finish_cases with ⟨hfinish, hdepth⟩ | ⟨hfinish, hload⟩ | ⟨hfinish, hdepth⟩
      · exact .inl ⟨s.content, hfinish, ⟨nested_of_feedAll hrun, by omega⟩, hgains.perm,
          hgains.numbers⟩
      · have hgrows : s.load ≤ 0 + tokens.length := load_feedAll hrun
        have hlong : maxTokens < tokens.length :=
          calc maxTokens = maxOutput := rfl
            _ < s.load := hload
            _ ≤ tokens.length := by omega
        exact .inr (.inl ⟨hfinish, hlong⟩)
      · refine .inr (.inr ⟨hfinish, fun hbalanced => ?_⟩)
        have hclosed := hbalanced.closed
        omega

theorem balanced_of_reversePolish {listing : List Token}
    (h : reversePolish tokens = .ok listing) : Balanced tokens := by
  rcases reversePolish_cases tokens with ⟨other, -, hbalanced, -⟩ | ⟨hfault, -⟩ | ⟨hfault, -⟩
  · exact hbalanced
  · rw [hfault] at h
    cases h
  · rw [hfault] at h
    cases h

theorem exists_of_balanced (h : Balanced tokens) (hlength : tokens.length ≤ maxTokens) :
    ∃ listing, reversePolish tokens = .ok listing := by
  rcases reversePolish_cases tokens with ⟨listing, hok, -⟩ | ⟨-, hlong⟩ | ⟨-, hunbalanced⟩
  · exact ⟨listing, hok⟩
  · omega
  · exact absurd h hunbalanced

end Run

end DeskShell.Expression
