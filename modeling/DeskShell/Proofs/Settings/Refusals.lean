import DeskShell.Proofs.Settings.Directives

/-!
# Lines that are refused

A line of a settings file that is refused leaves nothing behind but its notice
(`refused_lines_isolated`). One fact about a single line does the work (`follow_cases`): it is
refused whatever the settings are, or leaves them alone, or changes one of them to a value that does
not depend on them. So the settings after a file are a fold over its lines (`settings_ofText`) in
which a refused line counts as an empty one, and each setting has the value of the last line for
it.
-/

set_option autoImplicit false

namespace DeskShell.Settings

open Text

/-! ## Single settings -/

/-- One of the settings. -/
inductive Entry
  | root
  | color
  | log
  deriving Repr, DecidableEq

namespace Entry

/-- The setting that a name stands for, in any case; there are two names for the color. -/
def ofName? (name : String) : Option Entry :=
  match lower name with
  | "root" => some root
  | "color" | "colour" => some color
  | "log" => some log
  | _ => none

/-- Whether one of the settings has the same value in both. -/
def Agrees (e : Entry) (s s' : Settings) : Prop :=
  match e with
  | root => s.root = s'.root
  | color => s.color = s'.color
  | log => s.log = s'.log

@[simp]
theorem Agrees.refl (e : Entry) (s : Settings) : e.Agrees s s := by
  cases e <;> rfl

theorem Agrees.symm {e : Entry} {s s' : Settings} (h : e.Agrees s s') : e.Agrees s' s := by
  cases e with
  | root => exact Eq.symm h
  | color => exact Eq.symm h
  | log => exact Eq.symm h

theorem Agrees.trans {e : Entry} {s s' s'' : Settings} (h : e.Agrees s s') (h' : e.Agrees s' s'') :
    e.Agrees s s'' := by
  cases e with
  | root => exact Eq.trans h h'
  | color => exact Eq.trans h h'
  | log => exact Eq.trans h h'

/-- Settings with the value that other settings have of one of them. -/
def copy (e : Entry) (source s : Settings) : Settings :=
  match e with
  | root => { s with root := source.root }
  | color => { s with color := source.color }
  | log => { s with log := source.log }

theorem agrees_copy (e : Entry) (source s : Settings) : e.Agrees (e.copy source s) source := by
  cases e <;> rfl

theorem agrees_copy_of_ne {e e' : Entry} (h : e' ≠ e) (source s : Settings) :
    e'.Agrees (e.copy source s) s := by
  cases e with
  | root =>
      cases e' with
      | root => exact absurd rfl h
      | color => rfl
      | log => rfl
  | color =>
      cases e' with
      | root => rfl
      | color => exact absurd rfl h
      | log => rfl
  | log =>
      cases e' with
      | root => rfl
      | color => rfl
      | log => exact absurd rfl h

end Entry

/-- **A change by name** is refused whatever the settings are and leaves them alone, or gives the
setting of that name a value that does not depend on them. -/
theorem set_cases (name value : String) :
    (∃ fault, ∀ s : Settings, s.set name value = (s, .error fault)) ∨
      ∃ e source, Entry.ofName? name = some e ∧
        ∀ s : Settings, s.set name value = (e.copy source s, .ok ()) := by
  unfold set
  split
  · next hname =>
      have hentry : Entry.ofName? name = some .root := by simp only [Entry.ofName?, hname]
      exact .inr ⟨.root, { root := nonEmpty? value }, hentry, fun _ => rfl⟩
  · next hname =>
      have hentry : Entry.ofName? name = some .color := by simp only [Entry.ofName?, hname]
      cases Terminal.Coloring.ofWord? value with
      | none => exact .inl ⟨_, fun _ => rfl⟩
      | some color => exact .inr ⟨.color, { color }, hentry, fun _ => rfl⟩
  · next hname =>
      have hentry : Entry.ofName? name = some .color := by simp only [Entry.ofName?, hname]
      cases Terminal.Coloring.ofWord? value with
      | none => exact .inl ⟨_, fun _ => rfl⟩
      | some color => exact .inr ⟨.color, { color }, hentry, fun _ => rfl⟩
  · next hname =>
      have hentry : Entry.ofName? name = some .log := by simp only [Entry.ofName?, hname]
      exact .inr ⟨.log, { log := nonEmpty? value }, hentry, fun _ => rfl⟩
  · exact .inl ⟨_, fun _ => rfl⟩

/-! ## Single lines -/

def target? (line : List Char) : Option Entry :=
  ((arguments? line).bind assignment?).bind fun (name, _) => Entry.ofName? name

/-- **A line** is refused whatever the settings are, or asks for nothing, and leaves them alone in
both cases; or it changes the setting that it asks to change. -/
theorem follow_cases (line : List Char) :
    (∃ fault, ∀ s : Settings, s.follow line = (s, .error fault)) ∨
      (target? line = none ∧ ∀ s : Settings, s.follow line = (s, .ok ())) ∨
      ∃ e source, target? line = some e ∧
        ∀ s : Settings, s.follow line = (e.copy source s, .ok ()) := by
  unfold follow target?
  cases arguments? line with
  | none => exact .inr (.inl ⟨rfl, fun _ => rfl⟩)
  | some ws =>
      simp only [Option.bind_some]
      cases assignment? ws with
      | none => exact .inl ⟨.missingName, fun _ => rfl⟩
      | some assignment =>
          obtain ⟨name, value⟩ := assignment
          exact (set_cases name value).imp_right .inr

/-- The settings after a line, whether it is refused or not. -/
def after (s : Settings) (line : List Char) : Settings := (s.follow line).1

/-- The fault for which a line is refused, if it is. -/
def fault? (line : List Char) : Option Fault :=
  match (follow {} line).2 with
  | .ok _ => none
  | .error fault => some fault

theorem snd_follow_eq_error_iff {s : Settings} {line : List Char} {fault : Fault} :
    (s.follow line).2 = .error fault ↔ fault? line = some fault := by
  unfold fault?
  rcases follow_cases line with ⟨other, h⟩ | ⟨-, h⟩ | ⟨e, source, -, h⟩
  · simp [h]
  · simp [h]
  · simp [h]

theorem after_of_fault? {line : List Char} {fault : Fault} (h : fault? line = some fault)
    (s : Settings) : s.after line = s := by
  rw [← snd_follow_eq_error_iff (s := s)] at h
  rcases follow_cases line with ⟨_, hline⟩ | ⟨-, hline⟩ | ⟨e, source, -, hline⟩
  · rw [after, hline]
  · rw [after, hline]
  · rw [hline] at h
    cases h

theorem after_nil (s : Settings) : s.after [] = s := rfl

theorem fault?_nil : fault? [] = none := rfl

/-- A line that is not refused gives its setting the value that it gives it alone. -/
theorem agrees_after {line : List Char} (hfault : fault? line = none) {e : Entry}
    (htarget : target? line = some e) (s : Settings) : e.Agrees (s.after line) (after {} line) := by
  rcases follow_cases line with ⟨fault, h⟩ | ⟨hnone, -⟩ | ⟨e', source, hsome, h⟩
  · rw [snd_follow_eq_error_iff.1 (congrArg Prod.snd (h {}))] at hfault
    cases hfault
  · rw [hnone] at htarget
    cases htarget
  · rw [hsome] at htarget
    cases htarget
    simp only [after, h]
    exact (e.agrees_copy source s).trans (e.agrees_copy source {}).symm

/-- Any other line leaves a setting alone. -/
theorem agrees_after_of_ne {line : List Char} {e : Entry}
    (hne : fault? line = none → target? line ≠ some e) (s : Settings) :
    e.Agrees (s.after line) s := by
  rcases follow_cases line with ⟨fault, h⟩ | ⟨-, h⟩ | ⟨e', source, hsome, h⟩
  · rw [after, h]
    exact .refl e s
  · rw [after, h]
    exact .refl e s
  · have hfault : fault? line = none := by rw [fault?, h]
    have hother : e ≠ e' := fun heq => hne hfault (heq ▸ hsome)
    rw [after, h]
    exact Entry.agrees_copy_of_ne hother source s

/-! ## Lists of lines -/

/-- The notices on lines that are numbered from `number` on. -/
def noticesOf (number : Nat) (ls : List (List Char)) : List Notice :=
  (ls.zipIdx number).filterMap fun (line, n) => (fault? line).map fun fault => ⟨n, fault⟩

theorem noticesOf_cons (number : Nat) (line : List Char) (ls : List (List Char)) :
    noticesOf number (line :: ls)
      = (fault? line).toList.map (fun fault => ⟨number, fault⟩) ++ noticesOf (number + 1) ls := by
  cases hfault : fault? line <;> simp [noticesOf, hfault]

/-- The settings after lines are a fold over the lines, and the notices do not depend on them. -/
theorem followAll_eq (s : Settings) (number : Nat) (ls : List (List Char)) :
    s.followAll number ls = (ls.foldl after s, noticesOf number ls) := by
  induction ls generalizing s number with
  | nil => rfl
  | cons line ls ih =>
      rw [followAll, List.foldl_cons]
      rcases hline : s.follow line with ⟨s', result⟩
      have hafter : s.after line = s' := by rw [after, hline]
      cases result with
      | ok _ =>
          have hfault : fault? line = none := by
            rw [Option.eq_none_iff_forall_ne_some]
            intro fault hfault
            rw [← snd_follow_eq_error_iff (s := s), hline] at hfault
            cases hfault
          rw [noticesOf_cons, hfault, hafter]
          exact ih s' (number + 1)
      | error fault =>
          have hfault : fault? line = some fault :=
            snd_follow_eq_error_iff.1 (congrArg Prod.snd hline)
          simp only [ih, noticesOf_cons, hfault, hafter]
          rfl

theorem followAll_of_set_error {s : Settings} {name value : String} {fault : Fault}
    (hset : (s.set name value).2 = .error fault) {line : List Char}
    (hline : (arguments? line).bind assignment? = some (name, value)) (number : Nat)
    (rest : List (List Char)) :
    s.followAll number (line :: rest)
      = ((s.followAll (number + 1) rest).1,
          ⟨number, fault⟩ :: (s.followAll (number + 1) rest).2) := by
  obtain ⟨ws, harguments, hassignment⟩ := Option.bind_eq_some_iff.1 hline
  have hfollow : s.follow line = (s, .error fault) := by
    simp only [follow, harguments, hassignment]
    exact Prod.ext (fst_set_of_error hset) hset
  rw [followAll, hfollow]

theorem settings_ofText (text : String) :
    ofText text = ((lines text.toList).foldl after {}, noticesOf 1 (lines text.toList)) :=
  followAll_eq {} 1 _

/-- The notices are on lines of the text, in their order. -/
theorem sublist_noticesOf (number : Nat) (ls : List (List Char)) :
    ((noticesOf number ls).map Notice.line).Sublist (List.range' number ls.length) := by
  induction ls generalizing number with
  | nil => exact List.Sublist.refl []
  | cons line ls ih =>
      rw [noticesOf_cons, List.length_cons, List.range'_succ]
      cases fault? line with
      | none => exact (ih (number + 1)).cons number
      | some fault => exact (ih (number + 1)).cons_cons number

theorem mem_noticesOf_iff {number n : Nat} {fault : Fault} {ls : List (List Char)} :
    (⟨n, fault⟩ : Notice) ∈ noticesOf number ls ↔
      number ≤ n ∧ ∃ line, ls[n - number]? = some line ∧ fault? line = some fault := by
  unfold noticesOf
  simp only [List.mem_filterMap, Prod.exists, List.mk_mem_zipIdx_iff_le_and_getElem?_sub,
    Option.map_eq_some_iff, Notice.mk.injEq]
  constructor
  · rintro ⟨line, n', ⟨hle, hline⟩, fault', hfault, rfl, rfl⟩
    exact ⟨hle, line, hline, hfault⟩
  · rintro ⟨hle, line, hline, hfault⟩
    exact ⟨line, n, ⟨hle, hline⟩, fault, hfault, rfl, rfl⟩

/-! ## Lines left empty -/

/-- Lines that are numbered from `number` on, those that `p` picks by their numbers left empty. -/
def blanked (p : Nat → Bool) (number : Nat) : List (List Char) → List (List Char)
  | [] => []
  | line :: ls => (if p number then [] else line) :: blanked p (number + 1) ls

/-- A text whose lines are numbered from `number` on, without the characters of those that `p`
picks. The ends of the lines stay. -/
def emptied (p : Nat → Bool) (number : Nat) : List Char → List Char
  | [] => []
  | '\n' :: rest => '\n' :: emptied p (number + 1) rest
  | '\r' :: '\n' :: rest => '\r' :: '\n' :: emptied p (number + 1) rest
  | c :: rest => if p number then emptied p number rest else c :: emptied p number rest

section Emptied

variable {p : Nat → Bool} {number : Nat}

/-- A line that stays keeps its first character, or its end if it has none. -/
theorem head?_emptied (h : p number = false) (cs : List Char) :
    (emptied p number cs).head? = cs.head? := by
  fun_cases emptied p number cs with
  | case1 => rfl
  | case2 rest => rfl
  | case3 rest => rfl
  | case4 c rest _ _ hp => simp [h] at hp
  | case5 c rest _ _ hp => rfl

/-- **Emptying lines of a text** is emptying them among its lines, except that an empty line at the
end is no line where its end is missing. -/
theorem exists_lines_emptied (p : Nat → Bool) (number : Nat) (cs : List Char) :
    ∃ n, blanked p number (lines cs) = lines (emptied p number cs) ++ List.replicate n [] := by
  fun_induction emptied p number cs with
  | case1 number => exact ⟨0, rfl⟩
  | case2 number rest ih =>
      obtain ⟨n, ih⟩ := ih
      exact ⟨n, by simp [lines, blanked, ih]⟩
  | case3 number rest ih =>
      obtain ⟨n, ih⟩ := ih
      exact ⟨n, by simp [lines, blanked, ih]⟩
  | case4 number c rest hc hr hp ih =>
      obtain ⟨n, ih⟩ := ih
      rw [lines_cons hc (fun others hc' hrest => hr others hc' hrest)]
      cases hlines : lines rest with
      | nil =>
          -- the line was the last one, and its end is missing
          rw [hlines] at ih
          obtain ⟨hnil, -⟩ := List.append_eq_nil_iff.1 ih.symm
          exact ⟨1, by simp [blanked, hp, hnil]⟩
      | cons line others =>
          rw [hlines] at ih
          exact ⟨n, by simpa [blanked, hp] using ih⟩
  | case5 number c rest hc hr hp ih =>
      obtain ⟨n, ih⟩ := ih
      have hp : p number = false := by simpa using hp
      have hrest : ∀ others, c = '\r' → emptied p number rest ≠ '\n' :: others := by
        intro others hc' heq
        have hhead := head?_emptied hp rest
        rw [heq, List.head?_cons] at hhead
        obtain ⟨behind, hbehind⟩ := List.head?_eq_some_iff.1 hhead.symm
        exact hr behind hc' hbehind
      rw [lines_cons hc (fun others hc' hrest => hr others hc' hrest), lines_cons hc hrest]
      cases hlines : lines rest with
      | nil =>
          rw [hlines] at ih
          obtain ⟨hnil, -⟩ := List.append_eq_nil_iff.1 ih.symm
          exact ⟨0, by simp [blanked, hp, hnil]⟩
      | cons line others =>
          rw [hlines, blanked, hp] at ih
          cases hemptied : lines (emptied p number rest) with
          | nil =>
              rw [hemptied, List.nil_append] at ih
              cases n with
              | zero => cases ih
              | succ n =>
                  rw [List.replicate_succ] at ih
                  obtain ⟨hline, hothers⟩ := List.cons.inj ih
                  exact ⟨n, by simpa [blanked, hp, hothers] using hline⟩
          | cons line' others' =>
              rw [hemptied, List.cons_append] at ih
              obtain ⟨hline, hothers⟩ := List.cons.inj ih
              exact ⟨n, by simpa [blanked, hp, hothers] using hline⟩

end Emptied

/-- Lines that are refused may as well be empty. -/
theorem foldl_blanked {p : Nat → Bool} {number : Nat} {ls : List (List Char)}
    (h : ∀ i line, ls[i]? = some line → p (number + i) = true → (fault? line).isSome = true)
    (s : Settings) : (blanked p number ls).foldl after s = ls.foldl after s := by
  induction ls generalizing s number with
  | nil => rfl
  | cons line ls ih =>
      have hrest : ∀ i line, ls[i]? = some line → p (number + 1 + i) = true →
          (fault? line).isSome = true := by
        intro i other hother hpicked
        exact h (i + 1) other hother (by rwa [Nat.add_assoc, Nat.add_comm 1 i] at hpicked)
      rw [blanked, List.foldl_cons, List.foldl_cons, ih hrest]
      split
      · next hpicked =>
          obtain ⟨fault, hfault⟩ := Option.isSome_iff_exists.1 (h 0 line rfl hpicked)
          rw [after_nil, after_of_fault? hfault]
      · rfl

/-- Where all lines that are refused are left empty, no line is refused. -/
theorem noticesOf_blanked {p : Nat → Bool} {number : Nat} {ls : List (List Char)}
    (h : ∀ i line, ls[i]? = some line → (fault? line).isSome = true → p (number + i) = true)
    (first : Nat) : noticesOf first (blanked p number ls) = [] := by
  induction ls generalizing number first with
  | nil => rfl
  | cons line ls ih =>
      have hrest : ∀ i line, ls[i]? = some line → (fault? line).isSome = true →
          p (number + 1 + i) = true := by
        intro i other hother hfault
        have hpicked := h (i + 1) other hother hfault
        rwa [Nat.add_comm i 1, ← Nat.add_assoc] at hpicked
      have hline : fault? (if p number then [] else line) = none := by
        split
        · exact fault?_nil
        · next hstays =>
            rw [← Option.not_isSome_iff_eq_none]
            exact fun hfault => hstays (h 0 line rfl hfault)
      rw [blanked, noticesOf_cons, hline, ih hrest]
      rfl

/-! ## The last line for a setting -/

/-- **Each setting is that of the last line for it** that is not refused, and stays where there is
none. -/
theorem foldl_after_cases (e : Entry) (ls : List (List Char)) (s : Settings) :
    ((∀ line ∈ ls, fault? line = none → target? line ≠ some e) ∧ e.Agrees (ls.foldl after s) s) ∨
      ∃ before line behind, ls = before ++ line :: behind ∧ fault? line = none ∧
        target? line = some e ∧ (∀ other ∈ behind, fault? other = none → target? other ≠ some e) ∧
        e.Agrees (ls.foldl after s) (after {} line) := by
  induction ls generalizing s with
  | nil => exact .inl ⟨by simp, .refl e s⟩
  | cons line ls ih =>
      rw [List.foldl_cons]
      rcases ih (s.after line) with
        ⟨hnone, hstays⟩ | ⟨before, last, behind, rfl, hfault, htarget, hbehind, hagrees⟩
      · by_cases hline : fault? line = none ∧ target? line = some e
        · exact .inr ⟨[], line, ls, rfl, hline.1, hline.2, hnone,
            hstays.trans (agrees_after hline.1 hline.2 s)⟩
        · have hne : fault? line = none → target? line ≠ some e := fun hfault htarget =>
            hline ⟨hfault, htarget⟩
          exact .inl ⟨List.forall_mem_cons.2 ⟨hne, hnone⟩,
            hstays.trans (agrees_after_of_ne hne s)⟩
      · exact .inr ⟨line :: before, last, behind, rfl, hfault, htarget, hbehind, hagrees⟩

/-! ## Texts -/

section Texts

variable {text : String}

def reported (text : String) : List Nat := (ofText text).2.map Notice.line

/-- Whether a line of a text, counted from 0, asks to change a setting and is not reported. -/
def Changes (text : String) (e : Entry) (i : Nat) (line : List Char) : Prop :=
  (lines text.toList)[i]? = some line ∧ target? line = some e ∧ i + 1 ∉ reported text

theorem mem_ofText_iff {i : Nat} {line : List Char} {fault : Fault}
    (h : (lines text.toList)[i]? = some line) :
    (⟨i + 1, fault⟩ : Notice) ∈ (ofText text).2 ↔ fault? line = some fault := by
  rw [settings_ofText, mem_noticesOf_iff, Nat.add_sub_cancel, h]
  constructor
  · rintro ⟨-, line', hline, hfault⟩
    cases hline
    exact hfault
  · exact fun hfault => ⟨Nat.le_add_left 1 i, line, rfl, hfault⟩

theorem mem_reported_iff {i : Nat} {line : List Char} (h : (lines text.toList)[i]? = some line) :
    i + 1 ∈ reported text ↔ (fault? line).isSome = true := by
  rw [Option.isSome_iff_exists, reported, List.mem_map]
  constructor
  · rintro ⟨⟨n, fault⟩, hmem, rfl⟩
    exact ⟨fault, (mem_ofText_iff h).1 hmem⟩
  · rintro ⟨fault, hfault⟩
    exact ⟨_, (mem_ofText_iff h).2 hfault, rfl⟩

theorem changes_iff {e : Entry} {i : Nat} {line : List Char} :
    Changes text e i line ↔
      (lines text.toList)[i]? = some line ∧ target? line = some e ∧ fault? line = none := by
  refine and_congr_right fun h => and_congr_right fun _ => ?_
  rw [mem_reported_iff h, Option.not_isSome_iff_eq_none]

theorem ofText_line {line : List Char} (h : line ∈ lines text.toList) :
    ofText (String.ofList line)
      = (after {} line, (fault? line).toList.map fun fault => ⟨1, fault⟩) := by
  cases line with
  | nil => rfl
  | cons c cs =>
      rw [settings_ofText, String.toList_ofList,
        lines_of_newline_notMem (List.cons_ne_nil c cs) (newline_notMem_of_mem_lines h)]
      rw [noticesOf_cons, List.foldl_cons, List.foldl_nil]
      exact congrArg _ (List.append_nil _)

/-- A text whose lines are those of another one, with the reported ones left empty, and perhaps
some empty lines more at the end. -/
theorem ofText_of_blanked {other : String} {n : Nat}
    (h : blanked (· ∈ reported text) 1 (lines text.toList)
      = lines other.toList ++ List.replicate n []) :
    ofText other = ((ofText text).1, []) := by
  have hkept : ∀ (m : Nat) (s : Settings), (List.replicate m []).foldl after s = s := by
    intro m
    induction m with
    | zero => exact fun _ => rfl
    | succ m ih => exact fun s => ih s
  have hfold : (blanked (· ∈ reported text) 1 (lines text.toList)).foldl after {}
      = (lines text.toList).foldl after {} := by
    refine foldl_blanked (fun i line hline hpicked => (mem_reported_iff hline).1 ?_) {}
    simpa [Nat.add_comm 1 i] using hpicked
  have hnotices : noticesOf 1 (blanked (· ∈ reported text) 1 (lines text.toList)) = [] := by
    refine noticesOf_blanked (fun i line hline hfault => ?_) 1
    simpa [Nat.add_comm 1 i] using (mem_reported_iff hline).2 hfault
  rw [h] at hfold hnotices
  rw [List.foldl_append, hkept] at hfold
  rw [noticesOf, List.zipIdx_append, List.filterMap_append, List.append_eq_nil_iff] at hnotices
  rw [settings_ofText other, settings_ofText text, hfold]
  exact congrArg _ hnotices.1

/-- **Each setting of a text** is what the last line for it that is not reported gives alone. -/
theorem ofText_cases (e : Entry) :
    ((∀ i line, ¬ Changes text e i line) ∧ e.Agrees (ofText text).1 {}) ∨
      ∃ i line, Changes text e i line ∧ (∀ j other, Changes text e j other → j ≤ i) ∧
        e.Agrees (ofText text).1 (ofText (String.ofList line)).1 := by
  rw [settings_ofText]
  rcases foldl_after_cases e (lines text.toList) {} with
    ⟨hnone, hstays⟩ | ⟨before, line, behind, hlines, hfault, htarget, hbehind, hagrees⟩
  · refine .inl ⟨fun i line h => ?_, hstays⟩
    obtain ⟨hline, htarget, hfault⟩ := changes_iff.1 h
    exact hnone line (List.mem_of_getElem? hline) hfault htarget
  · have hline : (lines text.toList)[before.length]? = some line := by simp [hlines]
    refine .inr ⟨before.length, line, changes_iff.2 ⟨hline, htarget, hfault⟩, ?_, ?_⟩
    · intro j other h
      obtain ⟨hother, htarget', hfault'⟩ := changes_iff.1 h
      -- a later line would be one of those behind
      by_contra hlater
      rw [hlines, List.getElem?_append_right (by omega)] at hother
      obtain ⟨k, hk⟩ : ∃ k, j - before.length = k + 1 := ⟨j - before.length - 1, by omega⟩
      rw [hk, List.getElem?_cons_succ] at hother
      exact hbehind other (List.mem_of_getElem? hother) hfault' htarget'
    · rw [ofText_line (List.mem_of_getElem? hline)]
      exact hagrees

end Texts

/-- **Lines that are refused are isolated.** The notices on a text are on different lines of it, in
their order, and each is on a line that is refused alone, for the same fault. With these lines left
empty, whether their ends stay or other ends are put, the text gives the same settings without a
notice. Each setting is that which the last line for it that is not reported gives alone, or the
first value where there is no such line. A change that is refused leaves all settings alone. -/
theorem refused_lines_isolated (text : String) :
    ((reported text).Pairwise (· < ·) ∧
      ∀ n ∈ reported text, 1 ≤ n ∧ n ≤ (lines text.toList).length) ∧
    (∀ i line fault, (lines text.toList)[i]? = some line →
      ((⟨i + 1, fault⟩ : Notice) ∈ (ofText text).2 ↔
        (ofText (String.ofList line)).2 = [⟨1, fault⟩])) ∧
    ofText (String.ofList (emptied (· ∈ reported text) 1 text.toList)) = ((ofText text).1, []) ∧
    (∀ other : String,
      lines other.toList = blanked (· ∈ reported text) 1 (lines text.toList) →
      ofText other = ((ofText text).1, [])) ∧
    (∀ e : Entry, ((∀ i line, ¬ Changes text e i line) ∧ e.Agrees (ofText text).1 {}) ∨
      ∃ i line, Changes text e i line ∧ (∀ j other, Changes text e j other → j ≤ i) ∧
        e.Agrees (ofText text).1 (ofText (String.ofList line)).1) ∧
    ∀ (s : Settings) (name value : String) (fault : Fault),
      (s.set name value).2 = .error fault → (s.set name value).1 = s ∧
      ∀ line number rest, (arguments? line).bind assignment? = some (name, value) →
      s.followAll number (line :: rest)
        = ((s.followAll (number + 1) rest).1,
            ⟨number, fault⟩ :: (s.followAll (number + 1) rest).2) := by
  -- there is at most one notice for each line, so the numbers are a part of `1, 2, …`
  have hsublist := sublist_noticesOf 1 (lines text.toList)
  have hreported : reported text = (noticesOf 1 (lines text.toList)).map Notice.line := by
    rw [reported, settings_ofText]
  rw [← hreported] at hsublist
  refine ⟨⟨?_, ?_⟩, ?_, ?_, ?_, ?_, ?_⟩
  · exact List.Pairwise.sublist hsublist List.pairwise_lt_range'
  · intro n hn
    have hrange := List.mem_range'_1.1 (hsublist.subset hn)
    omega
  · intro i line fault h
    rw [mem_ofText_iff h, ofText_line (List.mem_of_getElem? h)]
    cases fault? line with
    | none => simp
    | some other => simp
  · obtain ⟨n, h⟩ := exists_lines_emptied (· ∈ reported text) 1 text.toList
    exact ofText_of_blanked (n := n) (by rw [String.toList_ofList]; exact h)
  · intro other h
    exact ofText_of_blanked (n := 0) (by rw [h]; exact (List.append_nil _).symm)
  · exact ofText_cases
  · exact fun s name value fault hset => ⟨fst_set_of_error hset,
      fun line number rest hline => followAll_of_set_error hset hline number rest⟩

/-- Three lines that are refused around two for the color, of which the second is reported. -/
theorem refused_lines_isolated_of_colors :
    let text := "/set color=on\r\n/set shape=round\n/set COLOUR purple\n/set"
    let other := "/set color=on\n\r\n\n\n"
    reported text = [2, 3, 4] ∧ 1 ≤ 4 ∧ 4 ≤ (lines text.toList).length ∧
      (lines text.toList)[2]? = some "/set COLOUR purple".toList ∧
      ((⟨3, .invalidColor "purple"⟩ : Notice) ∈ (ofText text).2 ↔
        (ofText (String.ofList "/set COLOUR purple".toList)).2
          = [⟨1, .invalidColor "purple"⟩]) ∧
      ofText (String.ofList (emptied (· ∈ reported text) 1 text.toList))
        = ((ofText text).1, []) ∧
      lines other.toList = blanked (· ∈ reported text) 1 (lines text.toList) ∧
      ofText other = ((ofText text).1, []) ∧
      (ofText text).1 = { color := .always } ∧
      (set {} "color" "purple").2 = .error (.invalidColor "purple") ∧
      (set {} "color" "purple").1 = {} ∧
      followAll {} 7 ["/set color purple".toList] = ({}, [⟨7, .invalidColor "purple"⟩]) := by
  intro text other
  have h := refused_lines_isolated text
  have hreported : reported text = [2, 3, 4] := by decide +kernel
  have hbounds := h.1.2 4 (by rw [hreported]; decide)
  have hline : (lines text.toList)[2]? = some "/set COLOUR purple".toList := by decide +kernel
  have hother : lines other.toList = blanked (· ∈ reported text) 1 (lines text.toList) := by
    decide +kernel
  have hset : (set {} "color" "purple").2 = .error (.invalidColor "purple") := by rfl
  have hrefused := h.2.2.2.2.2 {} "color" "purple" _ hset
  exact ⟨hreported, hbounds.1, hbounds.2, hline, h.2.1 2 _ _ hline, h.2.2.1, hother,
    h.2.2.2.1 other hother, by decide +kernel, hset, hrefused.1,
    hrefused.2 _ 7 [] (by decide +kernel)⟩

end DeskShell.Settings
