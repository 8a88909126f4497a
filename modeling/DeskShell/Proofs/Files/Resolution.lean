import DeskShell.Proofs.Files.Places

/-!
# What a path in the sandbox resolves to

Only some of the pieces of a path lead anywhere (`Path.moves`). Two conditions on them say all about
its resolution, and neither speaks of a scan: whether they climb above the place where they start
(`Path.Climbs`), and which names remain when every `..` has cancelled the nearest name before it
(`Path.Remains`). The scan of `Sandbox.cancel` fails exactly where they climb and gives exactly the
names that remain (`cancel_eq_none_iff`, `cancel_eq_some_iff`), so a path that is not refused is one
of the names below the root, and the names are all that counts (`resolve_confined`).
-/

set_option autoImplicit false

namespace DeskShell.Text

/-- The pieces between the occurrences of one character are those of the library. -/
theorem pieces_eq_splitOn (c : Char) (cs : List Char) : pieces (· == c) cs = cs.splitOn c := by
  induction cs with
  | nil => rfl
  | cons d rest ih =>
      rw [pieces, List.splitOn, List.splitOnP_cons_eq_if_modifyHead, ← List.splitOn, ih]
      split
      · rfl
      · cases hrest : rest.splitOn c with
        | nil => exact absurd (ih.trans hrest) (pieces_ne_nil _ rest)
        | cons piece others => rfl

end DeskShell.Text

namespace DeskShell.Files

namespace Path

/-! ## Pieces that lead anywhere -/

/-- The pieces between the slashes of a path that lead anywhere: those that are not empty and not
`.`. -/
def moves (path : String) : List String :=
  ((path.toList.splitOn '/').map String.ofList).filter fun piece => piece != "" && piece != here

/-- Whether some pieces lead above the place where they start: the first ones of them go up more
often than down. -/
def Climbs (ps : List String) : Prop :=
  ∃ part, part <+: ps ∧ part.countP (· != up) < part.count up

/-- The names that remain of some pieces when every `..` has cancelled the nearest name before it
that is not cancelled yet. -/
inductive Remains : List String → List String → Prop
  | names {names : List String} (h : up ∉ names) : Remains names names
  | cancelled {before after names : List String} {name : String} (hname : name ≠ up)
      (h : Remains (before ++ after) names) : Remains (before ++ name :: up :: after) names

theorem moves_eq (path : String) : moves path = (pieces path).filter (· != here) := by
  have hempty (cs : List Char) : (String.ofList cs != "") = !cs.isEmpty := by
    cases cs <;> simp
  rw [moves, pieces, Text.pieces_eq_splitOn, List.filter_map, List.filter_map, List.filter_filter]
  congr 2
  funext cs
  simp only [Function.comp_apply, hempty, Bool.and_comm]

theorem here_notMem_moves (path : String) : here ∉ moves path := by
  rw [moves_eq]
  simp

theorem exists_join_eq (path relative : String) : ∃ text, join path relative = path ++ text := by
  unfold join
  split
  · exact ⟨relative, rfl⟩
  · exact ⟨"/" ++ relative, String.append_assoc⟩

end Path

namespace Sandbox

/-! ## The scan -/

section Scan

variable (taken rest : List String)

@[simp]
theorem cancel_here : cancel taken (Path.here :: rest) = cancel taken rest := by
  rw [cancel.eq_def]
  simp

@[simp]
theorem cancel_up_nil : cancel [] (Path.up :: rest) = none := by
  rw [cancel.eq_def]
  simp [Path.here, Path.up]

@[simp]
theorem cancel_up_cons (last : String) :
    cancel (last :: taken) (Path.up :: rest) = cancel taken rest := by
  rw [cancel.eq_def]
  simp [Path.here, Path.up]

theorem cancel_name {name : String} (hhere : name ≠ Path.here) (hup : name ≠ Path.up) :
    cancel taken (name :: rest) = cancel (name :: taken) rest := by
  rw [cancel.eq_def]
  simp [hhere, hup]

end Scan

theorem cancel_filter (taken ps : List String) :
    cancel taken (ps.filter (· != Path.here)) = cancel taken ps := by
  induction ps generalizing taken with
  | nil => rfl
  | cons piece rest ih =>
      by_cases hhere : piece = Path.here
      · rw [List.filter_cons_of_neg (by simp [hhere]), hhere, cancel_here, ih]
      · rw [List.filter_cons_of_pos (by simp [hhere])]
        by_cases hup : piece = Path.up
        · subst hup
          cases taken with
          | nil => rw [cancel_up_nil, cancel_up_nil]
          | cons last before => rw [cancel_up_cons, cancel_up_cons, ih]
        · rw [cancel_name _ _ hhere hup, cancel_name _ _ hhere hup, ih]

theorem names?_eq (path : String) :
    names? path = if Path.isAbsolute path then none else cancel [] (Path.moves path) := by
  rw [names?, Path.moves_eq, cancel_filter]

/-- **The scan fails** exactly if the pieces climb above the names that are taken already. -/
theorem cancel_eq_none_iff {ps : List String} (hhere : Path.here ∉ ps) (taken : List String) :
    cancel taken ps = none ↔
      ∃ part, part <+: ps ∧ taken.length + part.countP (· != Path.up) < part.count Path.up := by
  induction ps generalizing taken with
  | nil =>
      constructor
      · intro h
        cases h
      · rintro ⟨part, hpart, hcount⟩
        rw [List.prefix_nil.1 hpart] at hcount
        exact absurd hcount (Nat.not_lt_zero _)
  | cons piece rest ih =>
      obtain ⟨hpiece, hrest⟩ := not_or.1 (fun h => hhere (List.mem_cons.2 h))
      -- a part that climbs is not empty, and what is left of it climbs from the next step on
      have hfirst : (∃ part, part <+: piece :: rest ∧
            taken.length + part.countP (· != Path.up) < part.count Path.up) ↔
          ∃ part, part <+: rest ∧
            taken.length + (piece :: part).countP (· != Path.up)
              < (piece :: part).count Path.up := by
        constructor
        · rintro ⟨part, hpart, hcount⟩
          rcases List.prefix_cons_iff.1 hpart with rfl | ⟨part', rfl, hpart'⟩
          · exact absurd hcount (Nat.not_lt_zero _)
          · exact ⟨part', hpart', hcount⟩
        · rintro ⟨part, hpart, hcount⟩
          exact ⟨piece :: part, List.cons_prefix_cons.2 ⟨rfl, hpart⟩, hcount⟩
      rw [hfirst]
      by_cases hup : piece = Path.up
      · subst hup
        cases taken with
        | nil =>
            -- this very step climbs
            exact ⟨fun _ => ⟨[], List.nil_prefix, by decide⟩, fun _ => cancel_up_nil rest⟩
        | cons last before =>
            rw [cancel_up_cons, ih hrest]
            refine exists_congr fun part => and_congr_right fun _ => ?_
            rw [List.count_cons_self, List.countP_cons_of_neg (by simp), List.length_cons]
            omega
      · rw [cancel_name _ _ (Ne.symm hpiece) hup, ih hrest]
        refine exists_congr fun part => and_congr_right fun _ => ?_
        rw [List.count_cons_of_ne hup, List.countP_cons_of_pos (by simpa using hup),
          List.length_cons]
        omega

/-- What the scan gives are the names that remain. -/
theorem remains_of_cancel {ps names taken : List String} (hhere : Path.here ∉ ps)
    (htaken : Path.up ∉ taken) (h : cancel taken ps = some names) :
    Path.Remains (taken.reverse ++ ps) names := by
  induction ps generalizing taken with
  | nil =>
      rw [cancel, Option.some.injEq] at h
      rw [List.append_nil, ← h]
      exact .names (by rwa [List.mem_reverse])
  | cons piece rest ih =>
      obtain ⟨hpiece, hrest⟩ := not_or.1 (fun h => hhere (List.mem_cons.2 h))
      by_cases hup : piece = Path.up
      · subst hup
        cases taken with
        | nil =>
            rw [cancel_up_nil] at h
            cases h
        | cons last before =>
            rw [cancel_up_cons] at h
            obtain ⟨hlast, hbefore⟩ := not_or.1 (fun h => htaken (List.mem_cons.2 h))
            -- the name taken last stands right in front of this `..`
            rw [List.reverse_cons, List.append_assoc]
            exact .cancelled (Ne.symm hlast) (ih hrest hbefore h)
      · rw [cancel_name _ _ (Ne.symm hpiece) hup] at h
        have htaken' : Path.up ∉ piece :: taken := by
          simp only [List.mem_cons, not_or]
          exact ⟨Ne.symm hup, htaken⟩
        have hremains := ih hrest htaken' h
        rwa [List.reverse_cons, List.append_assoc] at hremains

theorem cancel_cancelled {name : String} (hhere : name ≠ Path.here) (hup : name ≠ Path.up)
    (taken before after : List String) :
    cancel taken (before ++ name :: Path.up :: after) = cancel taken (before ++ after) := by
  induction before generalizing taken with
  | nil => rw [List.nil_append, List.nil_append, cancel_name _ _ hhere hup, cancel_up_cons]
  | cons piece rest ih =>
      rw [List.cons_append, List.cons_append]
      by_cases hpieceHere : piece = Path.here
      · rw [hpieceHere, cancel_here, cancel_here, ih]
      · by_cases hpieceUp : piece = Path.up
        · subst hpieceUp
          cases taken with
          | nil => rw [cancel_up_nil, cancel_up_nil]
          | cons last below => rw [cancel_up_cons, cancel_up_cons, ih]
        · rw [cancel_name _ _ hpieceHere hpieceUp, cancel_name _ _ hpieceHere hpieceUp, ih]

theorem cancel_names {names : List String} (hhere : Path.here ∉ names) (hup : Path.up ∉ names)
    (taken : List String) : cancel taken names = some (taken.reverse ++ names) := by
  induction names generalizing taken with
  | nil => rw [cancel, List.append_nil]
  | cons name rest ih =>
      obtain ⟨hnameHere, hrestHere⟩ := not_or.1 (fun h => hhere (List.mem_cons.2 h))
      obtain ⟨hnameUp, hrestUp⟩ := not_or.1 (fun h => hup (List.mem_cons.2 h))
      rw [cancel_name _ _ (Ne.symm hnameHere) (Ne.symm hnameUp), ih hrestHere hrestUp,
        List.reverse_cons, List.append_assoc]
      rfl

/-- **The scan gives** exactly the names that remain; so there is one answer at most. -/
theorem cancel_eq_some_iff {ps names : List String} (hhere : Path.here ∉ ps) :
    cancel [] ps = some names ↔ Path.Remains ps names := by
  constructor
  · intro h
    exact remains_of_cancel hhere List.not_mem_nil h
  · intro h
    -- the induction follows the cancellations, not the pieces: none of them changes the answer
    induction h with
    | names hup => exact cancel_names hhere hup []
    | @cancelled before after names name hname h ih =>
        have hnameHere : name ≠ Path.here := by
          rintro rfl
          exact hhere (by simp)
        have hrest : Path.here ∉ before ++ after := by
          intro hmem
          rcases List.mem_append.1 hmem with hmem | hmem
          · exact hhere (List.mem_append_left _ hmem)
          · exact hhere (List.mem_append_right _ (by simp [hmem]))
        rw [cancel_cancelled hnameHere hname, ih hrest]

/-! ## Resolution -/

section Resolve

variable {root path : String}

/-- A path is refused exactly if it starts at the top or climbs. -/
theorem resolve_eq_outside_iff (root path : String) :
    resolve root path = .error (.outside path) ↔
      Path.isAbsolute path = true ∨ Path.Climbs (Path.moves path) := by
  have hclimbs : cancel [] (Path.moves path) = none ↔ Path.Climbs (Path.moves path) := by
    rw [cancel_eq_none_iff (Path.here_notMem_moves path)]
    simp only [List.length_nil, Nat.zero_add, Path.Climbs]
  rw [resolve, names?_eq]
  cases Path.isAbsolute path with
  | true => simp
  | false =>
      rw [← hclimbs]
      cases cancel [] (Path.moves path) <;> simp

theorem resolve_eq_ok_iff {fullPath : String} :
    resolve root path = .ok fullPath ↔
      ∃ names, names? path = some names ∧ fullPath = target root names := by
  unfold resolve
  cases names? path with
  | none => simp
  | some names => simp [target, eq_comm]

/-- A path stands for names exactly if it is relative and they remain of it. -/
theorem names?_eq_some_iff {names : List String} :
    names? path = some names ↔
      Path.isAbsolute path = false ∧ Path.Remains (Path.moves path) names := by
  rw [names?_eq, ← cancel_eq_some_iff (Path.here_notMem_moves path)]
  cases Path.isAbsolute path <;> simp

theorem under_root_of_resolve {fullPath : String} (h : resolve root path = .ok fullPath) :
    ∃ names, Path.pieces fullPath = Path.pieces root ++ names ∧ Path.up ∉ names ∧
      (∃ text, fullPath = root ++ text) ∧
      ∀ t : FileTree, t.place fullPath = t.place root ++ names := by
  obtain ⟨names, hnames, rfl⟩ := resolve_eq_ok_iff.1 h
  have hisName := isName_of_mem_names? hnames
  have hup : Path.up ∉ names := by
    intro hmem
    exact (hisName Path.up hmem).ne_up rfl
  exact ⟨names, pieces_target hisName root, hup, Path.exists_join_eq _ _,
    fun t => place_target hisName t root⟩

end Resolve

/-! ## Operations -/

/-- Two answers that are the same but for the path that a fault names. -/
def SameAnswer {α : Type} (path other : String) (first second : Except Refusal α) : Prop :=
  ∃ answer, first = blame path answer ∧ second = blame other answer

theorem sameAnswer_of_resolve {root path other fullPath : String}
    (hpath : resolve root path = .ok fullPath) (hother : resolve root other = .ok fullPath)
    (t : FileTree) :
    SameAnswer path other (list root t path) (list root t other) ∧
    SameAnswer path other (read root t path) (read root t other) ∧
    (∀ text, (write root t path text).1 = (write root t other text).1 ∧
      SameAnswer path other (write root t path text).2 (write root t other text).2) ∧
    pathExists root t path = pathExists root t other := by
  unfold list read write pathExists
  rw [hpath, hother]
  exact ⟨⟨t.list fullPath, rfl, rfl⟩, ⟨t.readText fullPath, rfl, rfl⟩,
    fun text => ⟨rfl, (t.writeText fullPath text).2, rfl, rfl⟩, rfl⟩

/-- **Resolution keeps a path in the root.** A path is refused if and only if it starts with a slash
or climbs. Else it is resolved to the root joined with the names that remain of it, of which there
is one list; so what it is resolved to never has a `..` below the root and lies under it. Two such
paths of which the same names remain denote the same file. -/
theorem resolve_confined (root path : String) :
    (resolve root path = .error (.outside path) ↔
      path.toList.head? = some '/' ∨ Path.Climbs (Path.moves path)) ∧
    (¬ (path.toList.head? = some '/' ∨ Path.Climbs (Path.moves path)) →
      ∃ names, Path.Remains (Path.moves path) names ∧
        (∀ others, Path.Remains (Path.moves path) others → others = names) ∧
        resolve root path = .ok (Path.join root ("/".intercalate names))) ∧
    (∀ fullPath, resolve root path = .ok fullPath →
      ∃ names, Path.pieces fullPath = Path.pieces root ++ names ∧ Path.up ∉ names ∧
        (∃ text, fullPath = root ++ text) ∧
        ∀ t : FileTree, t.place fullPath = t.place root ++ names) ∧
    (∀ other names, path.toList.head? ≠ some '/' → other.toList.head? ≠ some '/' →
      Path.Remains (Path.moves path) names → Path.Remains (Path.moves other) names →
      ∀ t : FileTree,
        SameAnswer path other (list root t path) (list root t other) ∧
        SameAnswer path other (read root t path) (read root t other) ∧
        (∀ text, (write root t path text).1 = (write root t other text).1 ∧
          SameAnswer path other (write root t path text).2 (write root t other text).2) ∧
        pathExists root t path = pathExists root t other) := by
  have htop (p : String) : Path.isAbsolute p = true ↔ p.toList.head? = some '/' := by
    rw [Path.isAbsolute, beq_iff_eq]
  have hrelative {p : String} (h : p.toList.head? ≠ some '/') : Path.isAbsolute p = false := by
    rw [← Bool.not_eq_true, htop]
    exact h
  refine ⟨?_, ?_, fun fullPath h => under_root_of_resolve h, ?_⟩
  · rw [resolve_eq_outside_iff, htop]
  · intro h
    rw [← htop, ← resolve_eq_outside_iff root] at h
    cases hnames : names? path with
    | none => exact absurd (by rw [resolve, hnames]) h
    | some names =>
        obtain ⟨habsolute, hremains⟩ := names?_eq_some_iff.1 hnames
        refine ⟨names, hremains, fun others hothers => ?_, by rw [resolve, hnames]⟩
        -- what remains is what resolution finds, which is one list
        have hothers' := names?_eq_some_iff.2 ⟨habsolute, hothers⟩
        rw [hnames] at hothers'
        exact (Option.some.inj hothers').symm
  · intro other names hpath hother hremains hremains' t
    have hpathNames := names?_eq_some_iff.2 ⟨hrelative hpath, hremains⟩
    have hotherNames := names?_eq_some_iff.2 ⟨hrelative hother, hremains'⟩
    exact sameAnswer_of_resolve (resolve_eq_ok_iff.2 ⟨names, hpathNames, rfl⟩)
      (resolve_eq_ok_iff.2 ⟨names, hotherNames, rfl⟩) t

/-- A path that goes back and forth, and one that does not, of which the same names remain; a path
that climbs on its way, though it has as many names as steps up. -/
theorem resolve_confined_of_detour :
    let t : FileTree := ⟨["w"], [(["w"], .directory), (["w", "a"], .file ⟨#[104]⟩)]⟩
    resolve "." "b/.././/a" = .ok (Path.join "." "a") ∧
      SameAnswer "b/.././/a" "a" (read "." t "b/.././/a") (read "." t "a") ∧
      read "." t "a" = .ok "h" ∧
      resolve "." "../b/../a" = .error (.outside "../b/../a") := by
  intro t
  have hmoves : Path.moves "b/.././/a" = ["b", "..", "a"] ∧ Path.moves "a" = ["a"] ∧
      Path.moves "../b/../a" = ["..", "b", "..", "a"] := by decide +kernel
  obtain ⟨hdetour, hstraight, hclimbing⟩ := hmoves
  have hdetourNames : Path.Remains (Path.moves "b/.././/a") ["a"] := by
    rw [hdetour]
    have hcancelled : Path.Remains ([] ++ "b" :: Path.up :: ["a"]) ["a"] :=
      .cancelled (by decide) (.names (by decide))
    exact hcancelled
  have hstraightNames : Path.Remains (Path.moves "a") ["a"] := by
    rw [hstraight]
    exact .names (by decide)
  have hclimbs : Path.Climbs (Path.moves "../b/../a") := by
    rw [hclimbing]
    exact ⟨[".."], ⟨["b", "..", "a"], rfl⟩, by decide⟩
  have hsame := (resolve_confined "." "b/.././/a").2.2.2 "a" ["a"] (by decide) (by decide)
    hdetourNames hstraightNames t
  have hinside : resolve "." "b/.././/a" ≠ .error (.outside "b/.././/a") := by decide +kernel
  obtain ⟨names, -, hunique, hresolve⟩ := (resolve_confined "." "b/.././/a").2.1
    fun h => hinside ((resolve_confined "." "b/.././/a").1.2 h)
  rw [← hunique _ hdetourNames] at hresolve
  exact ⟨hresolve, hsame.2.1, by decide +kernel,
    (resolve_confined "." "../b/../a").1.2 (.inr hclimbs)⟩

end Sandbox

end DeskShell.Files
