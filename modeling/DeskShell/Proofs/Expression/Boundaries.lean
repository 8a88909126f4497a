import DeskShell.Proofs.Expression.Lexing

/-!
# Between lexemes

A text can be cut at every point that no lexeme runs over (`Apart`): the lexemes of the whole are
those of the first part and those of the second, each at its place (`Lexeme.scan_append`). A lexeme
is as long as it can be and so looks ahead; what has to be shown is that it is still read where all
that stands behind it is missing (`StopsAlike`).

The other way round, a text may be continued by a mark without a change to the lexemes that it has,
as long as it can be read (`Lexeme.cut_append_mark`). A sign behind `2e` would be part of an
exponent, but `e` is no word.
-/

set_option autoImplicit false

namespace DeskShell.Expression

open Text

/-! ## Reading a part of a text -/

/-- A reader that stops in front of a part of the text stops at the same point, with the same
result, where that part is missing. -/
def StopsAlike {α : Type} (read : List Char → α × List Char) : Prop :=
  ∀ cs more rest a, read (cs ++ more) = (a, rest ++ more) → read cs = (a, rest)

theorem eq_nil_of_append_suffix {rest more : List Char} (h : rest ++ more <:+ more) :
    rest = [] := by
  have hlength := h.length_le
  rw [List.length_append] at hlength
  exact List.eq_nil_of_length_eq_zero (by omega)

section Runs

variable {p : Char → Bool} {cs more rest : List Char}

theorem dropWhile_of_append (h : (cs ++ more).dropWhile p = rest ++ more) :
    cs.dropWhile p = rest := by
  induction cs with
  | nil =>
      have hsuffix : rest ++ more <:+ more := h ▸ List.dropWhile_suffix p
      rw [eq_nil_of_append_suffix hsuffix, List.dropWhile_nil]
  | cons c cs ih =>
      rw [List.cons_append, List.dropWhile_cons] at h
      rw [List.dropWhile_cons]
      split at h
      · next hc => rw [if_pos hc, ih h]
      · next hc =>
          rw [if_neg hc]
          exact List.append_cancel_right h

theorem takeWhile_of_append (h : (cs ++ more).dropWhile p = rest ++ more) :
    (cs ++ more).takeWhile p = cs.takeWhile p := by
  have hpart := List.takeWhile_append_dropWhile (p := p) (l := cs)
  have hwhole := List.takeWhile_append_dropWhile (p := p) (l := cs ++ more)
  rw [h, ← List.append_assoc] at hwhole
  rw [dropWhile_of_append h] at hpart
  exact List.append_cancel_right ((List.append_cancel_right hwhole).trans hpart.symm)

theorem takeWhile_eq_nil_of_append (h : (cs ++ more).takeWhile p = []) : cs.takeWhile p = [] := by
  cases cs with
  | nil => rfl
  | cons c cs =>
      rw [List.cons_append, List.takeWhile_cons] at h
      rw [List.takeWhile_cons]
      split at h
      · cases h
      · next hc => rw [if_neg hc]

end Runs

theorem Exponent.sign?_suffix (cs : List Char) : (sign? cs).2 <:+ cs := ⟨_, sign?_text cs⟩

theorem Exponent.read_suffix (cs : List Char) : (read cs).2 <:+ cs := ⟨_, read_text cs⟩

theorem Numeral.readFraction_suffix (cs : List Char) : (readFraction cs).2 <:+ cs :=
  ⟨_, readFraction_text cs⟩

theorem Numeral.stopsAlike_readFraction : StopsAlike readFraction := by
  intro cs more rest fraction h
  cases cs with
  | nil =>
      have hsuffix : rest ++ more <:+ more := ⟨_, h ▸ readFraction_text more⟩
      obtain rfl := eq_nil_of_append_suffix hsuffix
      cases more with
      | nil => exact h
      | cons c more =>
          by_cases hc : c = '.'
          · subst hc
            have hlength := (List.dropWhile_suffix Char.isDigit (l := more)).length_le
            have hrest := congrArg List.length (congrArg Prod.snd h)
            simp [readFraction] at hrest
            omega
          · rw [List.nil_append, readFraction_of_ne hc] at h
            exact congrArg (·.1, ([] : List Char)) h
  | cons c cs =>
      by_cases hc : c = '.'
      · subst hc
        simp only [List.cons_append, readFraction, Prod.mk.injEq] at h ⊢
        rw [takeWhile_of_append h.2] at h
        exact ⟨h.1, dropWhile_of_append h.2⟩
      · rw [List.cons_append, readFraction_of_ne hc, ← List.cons_append] at h
        rw [readFraction_of_ne hc]
        obtain ⟨rfl, hrest⟩ := Prod.mk.inj h
        rw [List.append_cancel_right hrest]

theorem Exponent.length_read_lt {cs rest : List Char} {e : Exponent}
    (h : read cs = (some e, rest)) : rest.length < cs.length := by
  have htext := congrArg List.length (read_text cs)
  rw [h] at htext
  simp only [Option.elim, text, List.cons_append, List.length_cons, List.length_append] at htext
  omega

theorem Exponent.sign?_append_of_ne_nil {cs : List Char} (h : cs ≠ []) (more : List Char) :
    sign? (cs ++ more) = ((sign? cs).1, (sign? cs).2 ++ more) := by
  cases cs with
  | nil => exact absurd rfl h
  | cons c cs =>
      simp only [List.cons_append, sign?]
      split <;> rfl

theorem Exponent.stopsAlike_read : StopsAlike read := by
  intro cs more rest exponent h
  cases cs with
  | nil =>
      have hsuffix : rest ++ more <:+ more := ⟨_, h ▸ read_text more⟩
      obtain rfl := eq_nil_of_append_suffix hsuffix
      cases exponent with
      | none => rfl
      | some e => exact absurd (length_read_lt h) (Nat.lt_irrefl _)
  | cons marker cs =>
      by_cases hcs : cs = []
      · subst hcs
        have hnone : read [marker] = (none, [marker]) := by simp [read, sign?]
        rw [hnone]
        simp only [List.singleton_append, read] at h
        split at h
        · next htaken =>
            -- the digits of an exponent would have to stand in `more`, which is all left
            obtain ⟨-, hrest⟩ := Prod.mk.inj h
            have hsign := (sign?_suffix more).length_le
            have hdigits := congrArg List.length
              (List.takeWhile_append_dropWhile (p := Char.isDigit) (l := (sign? more).2))
            rw [hrest, List.length_append, List.length_append] at hdigits
            exact absurd (List.eq_nil_of_length_eq_zero (by omega)) htaken.2
        · obtain ⟨rfl, hrest⟩ := Prod.mk.inj h
          have hmarker : [marker] ++ more = rest ++ more := hrest
          rw [List.append_cancel_right hmarker]
      · simp only [List.cons_append, read, sign?_append_of_ne_nil hcs] at h ⊢
        split at h
        · next htaken =>
            obtain ⟨rfl, hrest⟩ := Prod.mk.inj h
            rw [takeWhile_of_append hrest] at htaken ⊢
            rw [if_pos htaken, dropWhile_of_append hrest]
        · next hnone =>
            obtain ⟨rfl, hrest⟩ := Prod.mk.inj h
            have hnone' : ¬ ((marker = 'e' ∨ marker = 'E') ∧
                (sign? cs).2.takeWhile Char.isDigit ≠ []) := by
              intro htaken
              exact hnone ⟨htaken.1, fun hnil => htaken.2 (takeWhile_eq_nil_of_append hnil)⟩
            have hall : (marker :: cs) ++ more = rest ++ more := hrest
            rw [if_neg hnone', List.append_cancel_right hall]

/-- The rest of a stage that leaves `rest ++ more` for the next one ends in `more`. -/
theorem exists_append_of_suffix {read rest more : List Char} (h : rest ++ more <:+ read) :
    ∃ middle, read = middle ++ more := by
  obtain ⟨before, rfl⟩ := h
  exact ⟨before ++ rest, (List.append_assoc ..).symm⟩

theorem Numeral.stopsAlike_read : StopsAlike read := by
  intro cs more rest n h
  simp only [read, Prod.mk.injEq] at h ⊢
  obtain ⟨hn, hrest⟩ := h
  -- each of the three stages leaves `more` for the next one
  obtain ⟨middle, hmiddle⟩ := exists_append_of_suffix (hrest ▸ Exponent.read_suffix _)
  obtain ⟨behind, hbehind⟩ := exists_append_of_suffix (hmiddle ▸ readFraction_suffix _)
  have hfraction := stopsAlike_readFraction behind more middle _ (Prod.ext rfl (hbehind ▸ hmiddle))
  have hexponent := Exponent.stopsAlike_read middle more rest _ (Prod.ext rfl (hmiddle ▸ hrest))
  rw [hmiddle, hbehind, takeWhile_of_append hbehind] at hn
  rw [dropWhile_of_append hbehind, hfraction, hexponent]
  exact ⟨hn, rfl⟩

/-- The first lexeme of a text is the same where what it leaves is cut short. -/
theorem Lexeme.next_of_append {c : Char} {cs more rest : List Char} {l : Lexeme}
    (h : next c (cs ++ more) = (l, rest ++ more)) : next c cs = (l, rest) := by
  unfold next at h ⊢
  split at h
  · next hstart =>
      rw [if_pos hstart]
      obtain ⟨hnumeral, hrest⟩ := Prod.mk.inj h
      have hread := Numeral.stopsAlike_read (c :: cs) more rest _ (Prod.ext rfl hrest)
      simp only [hread]
      exact Prod.ext hnumeral rfl
  · next hstart =>
      rw [if_neg hstart]
      split at h
      · next hletter =>
          obtain ⟨hword, hrest⟩ := Prod.mk.inj h
          rw [if_pos hletter, ← takeWhile_of_append hrest, hword, dropWhile_of_append hrest]
      · next hletter =>
          obtain ⟨hmark, hrest⟩ := Prod.mk.inj h
          rw [if_neg hletter, hmark, List.append_cancel_right hrest]

/-! ## Extent -/

theorem byteCount_pos {cs : List Char} (h : cs ≠ []) : 0 < byteCount cs := by
  cases cs with
  | nil => exact absurd rfl h
  | cons c cs =>
      have hc := c.utf8Size_pos
      rw [byteCount]
      omega

/-- Of two starts of one text, the one that takes fewer bytes is a start of the other. -/
theorem exists_append_of_byteCount_le {xs ys zs ws : List Char} (h : xs ++ ys = zs ++ ws)
    (hle : byteCount xs ≤ byteCount zs) : ∃ more, zs = xs ++ more ∧ ys = more ++ ws := by
  rcases List.append_eq_append_iff.1 h with ⟨more, rfl, rfl⟩ | ⟨more, rfl, rfl⟩
  · exact ⟨more, rfl, rfl⟩
  · have hmore : more = [] := by
      by_contra hne
      have hpos := byteCount_pos hne
      rw [byteCount_append] at hle
      omega
    exact ⟨[], by simp [hmore], by simp [hmore]⟩

/-! ## Boundaries -/

/-- No lexeme of a text, of whose two parts the first one starts at the byte offset `position`, runs
over the point between the parts. -/
def Apart (position : Nat) (first second : List Char) : Prop :=
  ∀ x ∈ Lexeme.scan position (first ++ second),
    x.1 + x.2.size ≤ position + byteCount first ∨ position + byteCount first ≤ x.1

instance (position : Nat) (first second : List Char) : Decidable (Apart position first second) := by
  unfold Apart
  infer_instance

/-- **A text falls apart** at every point that lies in no lexeme. -/
theorem Lexeme.scan_append {position : Nat} {first second : List Char}
    (h : Apart position first second) :
    scan position (first ++ second)
      = scan position first ++ scan (position + byteCount first) second := by
  induction hlength : first.length using Nat.strongRecOn generalizing position first with
  | ind n ih =>
      cases first with
      | nil => simp [scan, byteCount]
      | cons c first =>
          unfold Apart at h
          rw [List.cons_append] at h ⊢
          rw [List.length_cons] at hlength
          by_cases hblank : isAsciiBlank c = true
          · have hbytes : position + byteCount (c :: first) = position + 1 + byteCount first := by
              rw [byteCount, isAsciiBlank_utf8Size hblank]
              omega
            rw [scan_blank hblank, hbytes] at h ⊢
            rw [scan_blank hblank, ih first.length (by omega) h rfl]
          · have hblank' : isAsciiBlank c = false := by simpa using hblank
            rw [scan_cons hblank'] at h ⊢
            rw [scan_cons hblank']
            obtain ⟨hfirst, hrest⟩ := List.forall_mem_cons.1 h
            have htext := next_text c (first ++ second)
            -- the first lexeme ends in the first part, and so is a lexeme of that part alone
            have hsize : (next c (first ++ second)).1.size ≤ byteCount (c :: first) := by
              have hpos := byteCount_pos (List.cons_ne_nil c first)
              dsimp only at hfirst
              omega
            obtain ⟨more, hmore, hafter⟩ := exists_append_of_byteCount_le
              (htext.trans (List.cons_append).symm) hsize
            have hnext := next_of_append (Prod.ext rfl hafter :
              next c (first ++ second) = ((next c (first ++ second)).1, more ++ second))
            have hbytes : position + byteCount (c :: first)
                = position + (next c (first ++ second)).1.size + byteCount more := by
              rw [hmore, byteCount_append, Nat.add_assoc]
              rfl
            have hshorter : more.length < n := by
              have hchars := congrArg List.length hmore
              have hne := List.length_pos_iff.2 (text_next_ne_nil c (first ++ second))
              simp only [List.length_cons, List.length_append] at hchars
              omega
            rw [hafter, hbytes] at hrest
            rw [hafter, hbytes, hnext, ih more.length hshorter hrest rfl, List.cons_append]

theorem Lexeme.cut_append_of_apart {first second : List Char} (h : Apart 0 first second) :
    cut (first ++ second) = cut first ++ cut second := by
  rw [cut, scan_append h, List.map_append, scan_map_snd, scan_map_snd]

theorem Lexeme.le_of_mem_scan {position : Nat} {cs : List Char} {x : Nat × Lexeme}
    (h : x ∈ scan position cs) : position ≤ x.1 := by
  fun_induction scan position cs with
  | case1 => cases h
  | case2 position c rest hblank ih => exact Nat.le_of_succ_le (ih h)
  | case3 position c rest hblank ih =>
      rcases List.mem_cons.1 h with rfl | h
      · exact Nat.le_refl _
      · exact Nat.le_trans (Nat.le_add_right ..) (ih h)

/-- **Every lexeme stands somewhere in the text**: it is what is read at its position, and no lexeme
runs over its start. -/
theorem Lexeme.exists_of_mem_scan {position : Nat} {cs : List Char} {x : Nat × Lexeme}
    (h : x ∈ scan position cs) :
    ∃ before after, cs = before ++ (x.2.text ++ after) ∧ x.1 = position + byteCount before ∧
      x.2.text ≠ [] ∧ Apart position before (x.2.text ++ after) ∧
      ∀ p, scan p (x.2.text ++ after) = (p, x.2) :: scan (p + x.2.size) after := by
  fun_induction scan position cs with
  | case1 => cases h
  | case2 position c rest hblank ih =>
      obtain ⟨before, after, rfl, hposition, hspelled, hapart, hscan⟩ := ih h
      have hbytes : position + byteCount (c :: before) = position + 1 + byteCount before := by
        rw [byteCount, isAsciiBlank_utf8Size hblank]
        omega
      refine ⟨c :: before, after, rfl, hposition.trans hbytes.symm, hspelled, ?_, hscan⟩
      unfold Apart
      rwa [List.cons_append, scan_blank hblank, hbytes]
  | case3 position c rest hblank ih =>
      have hblank' : isAsciiBlank c = false := by simpa using hblank
      have htext := next_text c rest
      rcases List.mem_cons.1 h with rfl | h
      · refine ⟨[], (next c rest).2, htext.symm, rfl, text_next_ne_nil c rest,
          fun y hy => .inr (le_of_mem_scan hy), fun p => ?_⟩
        rw [htext, scan_cons hblank']
      · obtain ⟨before, after, hrest, hposition, hspelled, hapart, hscan⟩ := ih h
        have hbytes : position + byteCount ((next c rest).1.text ++ before)
            = position + (next c rest).1.size + byteCount before := by
          rw [byteCount_append, Nat.add_assoc]
          rfl
        refine ⟨(next c rest).1.text ++ before, after, ?_, hposition.trans hbytes.symm, hspelled,
          ?_, hscan⟩
        · rw [← htext, hrest, List.append_assoc]
        · unfold Apart
          rw [List.append_assoc, ← hrest, htext, scan_cons hblank', hbytes, List.forall_mem_cons]
          exact ⟨.inl (Nat.le_add_right ..), hrest ▸ hapart⟩

theorem Lexeme.lt_of_mem_scan {position : Nat} {cs : List Char} {x : Nat × Lexeme}
    (h : x ∈ scan position cs) : x.1 < position + byteCount cs := by
  obtain ⟨before, after, rfl, hposition, hspelled, -, -⟩ := exists_of_mem_scan h
  have hpos := byteCount_pos hspelled
  rw [byteCount_append, byteCount_append]
  omega

/-- **A text falls apart at a lexeme** that stands in it, and the lexeme is all that is read from
its own spelling. -/
theorem Lexeme.scan_of_mem_scan {before after : List Char} {l : Lexeme}
    (h : (byteCount before, l) ∈ scan 0 (before ++ (l.text ++ after))) :
    scan 0 (before ++ (l.text ++ after)) = scan 0 before
        ++ (byteCount before, l) :: scan (byteCount before + l.size) after ∧
      l.text ≠ [] ∧ ∀ p, scan p l.text = [(p, l)] := by
  obtain ⟨before', after', hcs, hposition, hspelled, hapart, hscan⟩ := exists_of_mem_scan h
  have hbytes : byteCount before' = byteCount before := by omega
  obtain ⟨more, rfl, hmore⟩ := exists_append_of_byteCount_le hcs (Nat.le_of_eq hbytes.symm)
  have hnone : more = [] := by
    by_contra hne
    have hpos := byteCount_pos hne
    rw [byteCount_append] at hbytes
    omega
  subst hnone
  obtain rfl := List.append_cancel_left hmore
  rw [List.append_nil] at hapart
  refine ⟨by rw [scan_append hapart, hscan, Nat.zero_add], hspelled, fun p => ?_⟩
  have hlexeme : Apart p l.text after := by
    unfold Apart
    rw [hscan, List.forall_mem_cons]
    exact ⟨.inl (Nat.le_refl _), fun x hx => .inr (le_of_mem_scan hx)⟩
  exact List.append_cancel_right ((scan_append hlexeme).symm.trans (hscan p))

/-! ## Signs behind a text that can be read -/

/-- A sign that ends a text belongs to the exponent of a numeral only if it stands directly behind
the letter of that exponent. -/
theorem Exponent.read_append_sign {s : Char} (hs : s = '+' ∨ s = '-') {cs : List Char}
    (he : cs ≠ ['e']) (hE : cs ≠ ['E']) (more : List Char) :
    Exponent.read (cs ++ s :: more)
      = ((Exponent.read cs).1, (Exponent.read cs).2 ++ s :: more) := by
  have hdigit : s.isDigit = false := by rcases hs with rfl | rfl <;> rfl
  cases cs with
  | nil =>
      have hmarker : ¬ (s = 'e' ∨ s = 'E') := by rcases hs with rfl | rfl <;> decide
      simp [Exponent.read, hmarker]
  | cons marker cs =>
      by_cases hcs : cs = []
      · subst hcs
        have hmarker : ¬ (marker = 'e' ∨ marker = 'E') := by
          rintro (rfl | rfl)
          · exact he rfl
          · exact hE rfl
        simp [Exponent.read, hmarker]
      · simp only [List.cons_append, Exponent.read, Exponent.sign?_append_of_ne_nil hcs,
          takeWhile_append_cons hdigit, dropWhile_append_cons hdigit]
        split <;> rfl

theorem Numeral.read_append_sign {s : Char} (hs : s = '+' ∨ s = '-') {cs : List Char}
    (he : (Numeral.read cs).2 ≠ ['e']) (hE : (Numeral.read cs).2 ≠ ['E']) (more : List Char) :
    Numeral.read (cs ++ s :: more)
      = ((Numeral.read cs).1, (Numeral.read cs).2 ++ s :: more) := by
  have hdigit : s.isDigit = false := by rcases hs with rfl | rfl <;> rfl
  have hpoint : s ≠ '.' := by rcases hs with rfl | rfl <;> decide
  have hlone (marker : Char) (h : (Numeral.read cs).2 ≠ [marker]) :
      (Numeral.readFraction (cs.dropWhile Char.isDigit)).2 ≠ [marker] := by
    intro heq
    refine h ?_
    simp [Numeral.read, heq, Exponent.read, Exponent.sign?]
  simp only [Numeral.read, takeWhile_append_cons hdigit, dropWhile_append_cons hdigit,
    Numeral.readFraction_append hdigit hpoint,
    Exponent.read_append_sign hs (hlone 'e' he) (hlone 'E' hE)]

theorem Lexeme.next_append_sign {s : Char} (hs : s = '+' ∨ s = '-') {c : Char} {cs : List Char}
    (he : (Lexeme.next c cs).2 ≠ ['e']) (hE : (Lexeme.next c cs).2 ≠ ['E']) (more : List Char) :
    Lexeme.next c (cs ++ s :: more)
      = ((Lexeme.next c cs).1, (Lexeme.next c cs).2 ++ s :: more) := by
  have hletter : isLetter s = false := by rcases hs with rfl | rfl <;> rfl
  unfold Lexeme.next at he hE ⊢
  split
  · next hstart =>
      simp only [if_pos hstart] at he hE
      simp only [← List.cons_append, Numeral.read_append_sign hs he hE]
  · next hstart =>
      simp only [takeWhile_append_cons hletter, dropWhile_append_cons hletter]
      split <;> rfl

/-- No word is the letter of an exponent. -/
theorem read?_marker {marker : Char} (h : marker = 'e' ∨ marker = 'E') (afterOperand : Bool) :
    read? afterOperand (Lexeme.cut [marker]) = none := by
  have hletters : ∀ c ∈ [marker], isLetter c = true := by
    rcases h with rfl | rfl <;> simp [isLetter]
  have hcut : Lexeme.cut ([marker] ++ []) = .word [marker] :: Lexeme.cut [] :=
    Lexeme.cut_word (by simp) hletters (by simp)
  rw [List.append_nil, Lexeme.cut_nil] at hcut
  rw [hcut]
  rcases h with rfl | rfl <;> cases afterOperand <;> rfl

theorem exists_read?_of_cons {l : Lexeme} {lexemes : List Lexeme} {afterOperand : Bool}
    {tokens : List Token} (h : read? afterOperand (l :: lexemes) = some tokens) :
    ∃ before rest, read? before lexemes = some rest := by
  rw [read?] at h
  split at h
  · cases h
  · exact ⟨_, _, h⟩
  · obtain ⟨rest, hrest, -⟩ := Option.map_eq_some_iff.1 h
    exact ⟨_, _, hrest⟩

/-- **A text that can be read falls apart** in front of every mark: if it ends in a numeral, what
stands behind it is no beginning of an exponent. -/
theorem Lexeme.cut_append_mark {cs : List Char} {afterOperand : Bool} {tokens : List Token}
    (h : read? afterOperand (cut cs) = some tokens) {s : Char} (hs : IsMark s)
    (more : List Char) : cut (cs ++ s :: more) = cut cs ++ cut (s :: more) := by
  obtain ⟨hblank, hdigit, hpoint, hletter⟩ := hs
  by_cases hsign : s = '+' ∨ s = '-'
  · induction hlength : cs.length using Nat.strongRecOn generalizing cs afterOperand tokens with
    | ind n ih =>
        cases cs with
        | nil => simp
        | cons c cs =>
            rw [List.cons_append]
            by_cases hc : isAsciiBlank c = true
            · rw [cut_blank hc] at h ⊢
              rw [cut_blank hc]
              exact ih cs.length (by simp [← hlength]) h rfl
            · have hc' : isAsciiBlank c = false := by simpa using hc
              rw [cut_cons hc'] at h
              obtain ⟨before, rest, hrest⟩ := exists_read?_of_cons h
              have hlone (marker : Char) (hmarker : marker = 'e' ∨ marker = 'E') :
                  (next c cs).2 ≠ [marker] := by
                intro heq
                rw [heq, read?_marker hmarker] at hrest
                cases hrest
              have hshort := length_next_lt c cs
              rw [cut_cons hc', cut_cons hc',
                next_append_sign hsign (hlone 'e' (.inl rfl)) (hlone 'E' (.inr rfl)),
                List.cons_append, ih _ (by omega) hrest rfl]
  · exact cut_append ⟨hdigit, hletter, hpoint, fun h => hsign (.inl h), fun h => hsign (.inr h)⟩
      cs more

end DeskShell.Expression
