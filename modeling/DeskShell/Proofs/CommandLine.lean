import DeskShell.CommandLine
import Mathlib.Data.String.Basic

/-!
# Spellings of a command line

Letters that need no value may share a word or stand apart, a value may stand behind its letter or
in the next word, and what follows the first word of the command is never read as options
(`spellings_read_alike`). All of this rests on `read_append`: words that are options, each with its
value, are read as a whole, whatever stands behind them. No others are (`options_iff`).
-/

set_option autoImplicit false

namespace DeskShell.CommandLine

/-! ## Words of options -/

/-- Whether a word holds options: a dash with something behind it, other than `--`. -/
def IsOptionWord (word : String) : Prop :=
  word ≠ "--" ∧ ∃ c rest, word.toList = '-' :: c :: rest

/-- Whether a word of options ends in an option that takes its value from the next word: the letters
in front of it need no value. -/
def Awaits (word : String) (option : Valued) : Prop :=
  ∃ flags, (∀ c ∈ flags, c = 'd' ∨ c = 'q') ∧ word.toList = '-' :: (flags ++ [option.letter])

/-- Words that hold options, each of them followed by its value if it takes one from the next
word. -/
inductive Options : List String → Prop
  | nil : Options []
  | alone {word : String} {rest : List String} (isOptionWord : IsOptionWord word)
      (closed : ∀ option, ¬ Awaits word option) (h : Options rest) : Options (word :: rest)
  | valued {word : String} {option : Valued} (value : String) {rest : List String}
      (isOptionWord : IsOptionWord word) (awaits : Awaits word option) (h : Options rest) :
      Options (word :: value :: rest)

/-! ## Reading letters -/

theorem letters?_eq_some_iff {word : String} {letters : List Char} :
    letters? word = some letters ↔ letters ≠ [] ∧ word.toList = '-' :: letters := by
  unfold letters?
  split
  · next c rest h =>
      constructor
      · intro heq
        cases heq
        exact ⟨List.cons_ne_nil c rest, h⟩
      · rintro ⟨-, heq⟩
        rw [h] at heq
        rw [(List.cons.inj heq).2]
  · next h =>
      refine iff_of_false (by simp) ?_
      rintro ⟨hne, heq⟩
      obtain ⟨c, rest, rfl⟩ := List.exists_cons_of_ne_nil hne
      exact h c rest heq

theorem eq_of_attach {a a' : CommandLine} {option waiting : Valued} {value : List Char}
    (h : a.attach option value = (a', some waiting)) : value = [] ∧ waiting = option := by
  unfold attach at h
  split at h
  · next hempty =>
      cases h
      exact ⟨List.isEmpty_iff.1 hempty, rfl⟩
  · cases h

theorem attach_of_ne_nil (a : CommandLine) (option : Valued) {value : List Char}
    (h : value ≠ []) : a.attach option value = (a.put option (String.ofList value), none) := by
  rw [attach, if_neg (by simpa using h)]

theorem readLetters_valued (a : CommandLine) (option : Valued) (value : List Char) :
    a.readLetters (option.letter :: value) = .ok (a.attach option value) := by
  cases option <;> rfl

/-- An option that waits for its value is the last letter of its word, and the letters in front of
it need none. -/
theorem exists_of_readLetters {a a' : CommandLine} {letters : List Char} {option : Valued}
    (h : a.readLetters letters = .ok (a', some option)) :
    ∃ flags, (∀ c ∈ flags, c = 'd' ∨ c = 'q') ∧ letters = flags ++ [option.letter] := by
  fun_induction readLetters a letters with
  | case1 => cases h
  | case2 a rest ih =>
      obtain ⟨flags, hflags, rfl⟩ := ih h
      exact ⟨'d' :: flags, List.forall_mem_cons.2 ⟨.inl rfl, hflags⟩, rfl⟩
  | case3 a rest ih =>
      obtain ⟨flags, hflags, rfl⟩ := ih h
      exact ⟨'q' :: flags, List.forall_mem_cons.2 ⟨.inr rfl, hflags⟩, rfl⟩
  | case4 => cases h
  | case5 a value =>
      obtain ⟨rfl, rfl⟩ := eq_of_attach (Except.ok.inj h)
      exact ⟨[], by simp, rfl⟩
  | case6 a value =>
      obtain ⟨rfl, rfl⟩ := eq_of_attach (Except.ok.inj h)
      exact ⟨[], by simp, rfl⟩
  | case7 => cases h

/-- Letters that need no value, and then one that does, are read with no fault. -/
theorem readLetters_flags {flags : List Char} (h : ∀ c ∈ flags, c = 'd' ∨ c = 'q')
    (a : CommandLine) (option : Valued) :
    ∃ a', a.readLetters (flags ++ [option.letter]) = .ok (a', some option) := by
  induction flags generalizing a with
  | nil => exact ⟨a, readLetters_valued a option []⟩
  | cons c flags ih =>
      obtain ⟨rfl | rfl, hflags⟩ := List.forall_mem_cons.1 h
      · exact ih hflags _
      · exact ih hflags _

/-! ## Reading words -/

theorem read_optionWord {word : String} (h : IsOptionWord word) {letters : List Char}
    (hletters : word.toList = '-' :: letters) (a : CommandLine) (rest : List String) :
    a.read none (word :: rest)
      = (a.readLetters letters).bind fun (a', waiting) => a'.read waiting rest := by
  obtain ⟨hne, c, more, hword⟩ := h
  have hsome : letters? word = some letters := by
    refine letters?_eq_some_iff.2 ⟨?_, hletters⟩
    rintro rfl
    rw [hletters] at hword
    cases hword
  rw [read, if_neg hne, hsome]
  simp only
  cases a.readLetters letters <;> rfl

/-- **Options are read as a whole**, whatever stands behind them. -/
theorem read_append {pre : List String} (h : Options pre) (a : CommandLine) (post : List String) :
    a.read none (pre ++ post) = (a.read none pre).bind fun a' => a'.read none post := by
  induction h generalizing a with
  | nil => rfl
  | @alone word rest isOptionWord closed h ih =>
      obtain ⟨c, more, hword⟩ := isOptionWord.2
      rw [List.cons_append, read_optionWord isOptionWord hword, read_optionWord isOptionWord hword]
      cases hletters : a.readLetters (c :: more) with
      | error fault => rfl
      | ok result =>
          obtain ⟨a', waiting⟩ := result
          cases waiting with
          | none => exact ih a'
          | some option =>
              obtain ⟨flags, hflags, heq⟩ := exists_of_readLetters hletters
              exact absurd ⟨flags, hflags, by rw [hword, heq]⟩ (closed option)
  | @valued word option value rest isOptionWord awaits h ih =>
      obtain ⟨flags, hflags, hword⟩ := awaits
      obtain ⟨a', hletters⟩ := readLetters_flags hflags a option
      rw [List.cons_append, read_optionWord isOptionWord hword, read_optionWord isOptionWord hword,
        hletters]
      exact ih (a'.put option value)

/-- An option that waits is read so whatever the settings of the command line are. -/
theorem closed_of_readLetters {a a' : CommandLine} {word : String} {letters : List Char}
    (hword : word.toList = '-' :: letters) (h : a.readLetters letters = .ok (a', none))
    (option : Valued) : ¬ Awaits word option := by
  rintro ⟨flags, hflags, heq⟩
  obtain ⟨a'', hwaits⟩ := readLetters_flags hflags a option
  rw [← (List.cons.inj (hword.symm.trans heq)).2, h] at hwaits
  cases hwaits

/-- Words that are read with no fault are options, each with its value, if a fault behind them is
found: words that are a command hide it. -/
theorem options_of_read {a a' : CommandLine} {waiting : Option Valued} {pre : List String}
    (hread : a.read waiting pre = .ok a') (hfault : ∀ b, a.read waiting (pre ++ ["-z"]) ≠ .ok b) :
    (waiting = none → Options pre) ∧
      (waiting ≠ none → ∃ value rest, pre = value :: rest ∧ Options rest) := by
  fun_induction read a waiting pre with
  | case1 => exact ⟨fun _ => .nil, fun h => absurd rfl h⟩
  | case2 => cases hread
  | case3 a option value rest ih =>
      exact ⟨fun h => absurd h (Option.some_ne_none option),
        fun _ => ⟨value, rest, rfl, (ih hread hfault).1 rfl⟩⟩
  | case4 a rest => exact absurd rfl (hfault _)
  | case5 a word rest hne hnone =>
      rw [List.cons_append, read, if_neg hne, hnone] at hfault
      exact absurd rfl (hfault _)
  | case6 => cases hread
  | case7 a word rest hne letters hletters a₁ waiting hread₁ ih =>
      obtain ⟨hnonempty, hword⟩ := letters?_eq_some_iff.1 hletters
      obtain ⟨c, more, rfl⟩ := List.exists_cons_of_ne_nil hnonempty
      have hoption : IsOptionWord word := ⟨hne, c, more, hword⟩
      have hrest : ∀ b, a₁.read waiting (rest ++ ["-z"]) ≠ .ok b := by
        intro b heq
        rw [List.cons_append, read_optionWord hoption hword, hread₁] at hfault
        exact hfault b heq
      obtain ⟨hnone, hsome⟩ := ih hread hrest
      refine ⟨fun _ => ?_, fun h => absurd rfl h⟩
      cases waiting with
      | none => exact .alone hoption (closed_of_readLetters hword hread₁) (hnone rfl)
      | some option =>
          obtain ⟨value, rest, rfl, h⟩ := hsome (Option.some_ne_none option)
          obtain ⟨flags, hflags, heq⟩ := exists_of_readLetters hread₁
          exact .valued value hoption ⟨flags, hflags, by rw [hword, heq]⟩ h

/-- **Reading starts anew exactly behind options**, each with its value, that are read with no
fault. -/
theorem options_iff {pre : List String} {a : CommandLine} :
    (Options pre ∧ ∃ a' : CommandLine, a.read none pre = .ok a') ↔
      ∃ a' : CommandLine, ∀ post, a.read none (pre ++ post) = a'.read none post := by
  constructor
  · rintro ⟨h, a', hread⟩
    exact ⟨a', fun post => by rw [read_append h, hread]; rfl⟩
  · rintro ⟨a', h⟩
    have hread : a.read none pre = .ok a' := by
      have hself := h []
      rwa [List.append_nil] at hself
    have hfault : ∀ b, a.read none (pre ++ ["-z"]) ≠ .ok b := by
      intro b heq
      rw [h] at heq
      cases heq
    exact ⟨(options_of_read hread hfault).1 rfl, a', hread⟩

/-- Words from one on that holds no options are the command. -/
theorem read_command {word : String} (h : word.toList.head? ≠ some '-' ∨ word = "-")
    (a : CommandLine) (rest : List String) :
    a.read none (word :: rest)
      = .ok { a with command := some (" ".intercalate (word :: rest)) } := by
  have hne : word ≠ "--" := by
    rintro rfl
    rcases h with h | h
    · exact h rfl
    · exact absurd h (by decide)
  have hnone : letters? word = none := by
    rw [Option.eq_none_iff_forall_ne_some]
    intro letters hsome
    obtain ⟨hletters, hword⟩ := letters?_eq_some_iff.1 hsome
    rcases h with h | rfl
    · exact h (by rw [hword, List.head?_cons])
    · exact hletters (List.cons.inj hword).2.symm
  rw [read, if_neg hne, hnone]
  rfl

theorem read_afterDashes {ws : List String} (h : ws ≠ []) (a : CommandLine) :
    a.read none ("--" :: ws) = .ok { a with command := some (" ".intercalate ws) } := by
  rw [read, if_pos rfl, withCommand, if_neg (by simpa using h)]

/-- A letter that is no option is found whatever follows. -/
theorem read_append_of_unknownOption {a : CommandLine} {waiting : Option Valued} {ws : List String}
    {letter : Char} (h : a.read waiting ws = .error (.unknownOption letter)) (more : List String) :
    a.read waiting (ws ++ more) = .error (.unknownOption letter) := by
  fun_induction read a waiting ws with
  | case1 => cases h
  | case2 => cases h
  | case3 a option value rest ih => exact ih h
  | case4 => cases h
  | case5 => cases h
  | case6 a word rest hne letters hletters fault hfault =>
      rw [List.cons_append, read, if_neg hne, hletters]
      simp only [hfault]
      exact h
  | case7 a word rest hne letters hletters a' waiting hread ih =>
      rw [List.cons_append, read, if_neg hne, hletters]
      simp only [hread]
      exact ih h

/-! ## Spellings -/

section Spellings

variable (a : CommandLine) (post : List String)

/-- A letter that needs no value may share its word with what follows it, unless that is a dash,
which would end the options on its own. -/
theorem read_flag {flag : Char} (hflag : flag = 'd' ∨ flag = 'q') {letters : List Char}
    (hne : letters ≠ []) (hdash : letters ≠ ['-']) :
    a.read none (String.ofList ('-' :: flag :: letters) :: post)
      = a.read none (String.ofList ['-', flag] :: String.ofList ('-' :: letters) :: post) := by
  obtain ⟨c, rest, rfl⟩ := List.exists_cons_of_ne_nil hne
  have hword : ∀ cs : List Char, cs ≠ ['-'] → String.ofList ('-' :: cs) ≠ "--" := by
    intro cs hcs heq
    have hlist := congrArg String.toList heq
    rw [String.toList_ofList] at hlist
    exact hcs (List.cons.inj hlist).2
  have hshared : IsOptionWord (String.ofList ('-' :: flag :: c :: rest)) :=
    ⟨hword _ (by simp), flag, c :: rest, String.toList_ofList⟩
  have hsingle : IsOptionWord (String.ofList ['-', flag]) := by
    refine ⟨hword _ ?_, flag, [], String.toList_ofList⟩
    rcases hflag with rfl | rfl <;> decide
  have hapart : IsOptionWord (String.ofList ('-' :: c :: rest)) :=
    ⟨hword _ hdash, c, rest, String.toList_ofList⟩
  rw [read_optionWord hshared String.toList_ofList, read_optionWord hsingle String.toList_ofList]
  rcases hflag with rfl | rfl
  · exact (read_optionWord hapart String.toList_ofList { a with debug := true } post).symm
  · exact (read_optionWord hapart String.toList_ofList { a with quiet := true } post).symm

/-- A value may stand behind its letter or in the next word. -/
theorem read_value (option : Valued) {value : List Char} (hne : value ≠ []) :
    a.read none (String.ofList ('-' :: option.letter :: value) :: post)
      = a.read none (String.ofList ['-', option.letter] :: String.ofList value :: post) := by
  have hword : ∀ cs : List Char, IsOptionWord (String.ofList ('-' :: option.letter :: cs)) := by
    intro cs
    refine ⟨fun heq => ?_, option.letter, cs, String.toList_ofList⟩
    have hlist := congrArg String.toList heq
    rw [String.toList_ofList] at hlist
    cases option <;> exact absurd (List.cons.inj (List.cons.inj hlist).2).1 (by decide)
  rw [read_optionWord (hword value) String.toList_ofList,
    read_optionWord (hword []) String.toList_ofList, readLetters_valued, readLetters_valued,
    attach_of_ne_nil a option hne]
  rfl

end Spellings

/-- **Spellings that are read alike.** Words are options, each with its value, exactly if reading
starts anew behind them, unless they have a fault. Behind such words: a letter that needs no value
may share a word with what follows it, and a value may stand behind its letter or in the next word;
words from the first one on that holds no options, or from a `--` on, are the command, and change
nothing else. A letter that is no option is the fault whatever follows it. -/
theorem spellings_read_alike :
    (∀ pre, (Options pre ∧ ∃ a, ofWords pre = .ok a) ↔
      ∃ a : CommandLine, ∀ post, ofWords (pre ++ post) = a.read none post) ∧
    (∀ pre post, Options pre → ∀ flag letters, flag = 'd' ∨ flag = 'q' → letters ≠ [] →
      letters ≠ ['-'] →
      ofWords (pre ++ String.ofList ('-' :: flag :: letters) :: post)
        = ofWords (pre ++ String.ofList ['-', flag] :: String.ofList ('-' :: letters) :: post)) ∧
    (∀ pre post, Options pre → ∀ (option : Valued) value, value ≠ [] →
      ofWords (pre ++ String.ofList ('-' :: option.letter :: value) :: post)
        = ofWords (pre ++ String.ofList ['-', option.letter] :: String.ofList value :: post)) ∧
    (∀ pre, Options pre → ∀ word rest, word.toList.head? ≠ some '-' ∨ word = "-" →
      ofWords (pre ++ word :: rest) = (ofWords pre).map fun a =>
        { a with command := some (" ".intercalate (word :: rest)) }) ∧
    (∀ pre, Options pre → ∀ ws, ws ≠ [] →
      ofWords (pre ++ "--" :: ws) = (ofWords pre).map fun a =>
        { a with command := some (" ".intercalate ws) }) ∧
    ∀ pre letter, ofWords pre = .error (.unknownOption letter) →
      ∀ more, ofWords (pre ++ more) = .error (.unknownOption letter) := by
  refine ⟨fun pre => options_iff, ?_, ?_, ?_, ?_,
    fun pre letter h more => read_append_of_unknownOption h more⟩
  · intro pre post hpre flag letters hflag hne hdash
    simp only [ofWords, read_append hpre, read_flag _ post hflag hne hdash]
  · intro pre post hpre option value hne
    simp only [ofWords, read_append hpre, read_value _ post option hne]
  · intro pre hpre word rest hword
    simp only [ofWords, read_append hpre, read_command hword]
    rfl
  · intro pre hpre ws hws
    simp only [ofWords, read_append hpre, read_afterDashes hws]
    rfl

/-- Options of which one takes a word that looks like options, in front of each spelling. -/
theorem spellings_read_alike_of_dashes :
    let pre := ["-dr", "-q"]
    Options pre ∧
      ofWords (pre ++ "-qc" :: ["-d", "ls"]) = ofWords (pre ++ "-q" :: "-c" :: ["-d", "ls"]) ∧
      ofWords (pre ++ "-r-" :: ["-z"]) = ofWords (pre ++ "-r" :: "-" :: ["-z"]) ∧
      ofWords (pre ++ "-" :: ["-q", "--"])
        = .ok { root := some "-q", debug := true, command := some "- -q --" } ∧
      ofWords (pre ++ "--" :: ["-q", "--"])
        = .ok { root := some "-q", debug := true, command := some "-q --" } ∧
      ofWords ["-dz"] = .error (.unknownOption 'z') ∧
      ofWords (["-dz"] ++ ["-c", "ls"]) = .error (.unknownOption 'z') := by
  intro pre
  have hawaits : Awaits "-dr" .root := ⟨['d'], by simp, rfl⟩
  have hpre : Options pre := .valued "-q" ⟨by decide, 'd', ['r'], rfl⟩ hawaits .nil
  have hunknown : ofWords ["-dz"] = .error (.unknownOption 'z') := by decide
  obtain ⟨-, hflag, hvalue, hcommand, hdashes, hfault⟩ := spellings_read_alike
  exact ⟨hpre, hflag pre ["-d", "ls"] hpre 'q' ['c'] (.inr rfl) (by decide) (by decide),
    hvalue pre ["-z"] hpre .root ['-'] (by decide),
    hcommand pre hpre "-" ["-q", "--"] (.inr rfl), hdashes pre hpre ["-q", "--"] (by decide),
    hunknown, hfault _ _ hunknown _⟩

end DeskShell.CommandLine
