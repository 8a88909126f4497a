import DeskShell.Files.Sandbox
import DeskShell.Proofs.Files.Writing
import Mathlib.Data.List.Basic

/-!
# The place of a path

Where no link can lead elsewhere, the place of a path is told by its text alone: `locate` drops a
name for each `..` and adds one for each name. A walk may fail on its way, but if it arrives, it is
there (`locate_of_walk`). A path that is put together from pieces has these pieces
(`pieces_ofPieces`), so the parent of a path is told by its pieces too (`pieces_parent`), and what a
path in the sandbox stands for is found below the root by its names (`place_target`).
-/

set_option autoImplicit false

namespace DeskShell.Text

theorem cut_eq_false_of_mem_pieces {cut : Char → Bool} {cs piece : List Char}
    (h : piece ∈ pieces cut cs) : ∀ c ∈ piece, cut c = false := by
  induction cs generalizing piece with
  | nil =>
      rw [pieces, List.mem_singleton] at h
      subst h
      exact fun c hc => absurd hc List.not_mem_nil
  | cons d cs ih =>
      rw [pieces] at h
      by_cases hd : cut d = true
      · rw [if_pos hd] at h
        rcases List.mem_cons.1 h with rfl | h
        · exact fun c hc => absurd hc List.not_mem_nil
        · exact ih h
      · rw [if_neg hd] at h
        cases hrest : pieces cut cs with
        | nil => exact absurd hrest (pieces_ne_nil cut cs)
        | cons first others =>
            rw [hrest] at h ih
            rcases List.mem_cons.1 h with rfl | h
            · intro c hc
              rcases List.mem_cons.1 hc with rfl | hc
              · simpa using hd
              · exact ih (List.mem_cons_self ..) c hc
            · exact ih (List.mem_cons_of_mem _ h)

end DeskShell.Text

namespace DeskShell.Files

open Text

namespace Path

/-! ## Pieces -/

/-- A text that can be a piece of a path. -/
structure IsPiece (piece : String) : Prop where
  ne_empty : piece ≠ ""
  slash_notMem : '/' ∉ piece.toList

theorem isPiece_of_mem_pieces {path piece : String} (h : piece ∈ pieces path) : IsPiece piece := by
  obtain ⟨cs, hcs, rfl⟩ := List.mem_map.1 h
  obtain ⟨hmem, hne⟩ := List.mem_filter.1 hcs
  refine ⟨by simpa using hne, ?_⟩
  rw [String.toList_ofList]
  intro hslash
  simpa using cut_eq_false_of_mem_pieces hmem '/' hslash

theorem pieces_of_isPiece {piece : String} (h : IsPiece piece) : pieces piece = [piece] := by
  have hcut : ∀ c ∈ piece.toList, (c == '/') = false := by
    intro c hc
    have hne : c ≠ '/' := by
      rintro rfl
      exact h.slash_notMem hc
    simpa using hne
  have hne : piece.toList ≠ [] := by simpa using h.ne_empty
  rw [pieces, pieces_of_no_slash hcut]
  simp [hne, String.ofList_toList]

theorem pieces_append_slash (path relative : String) :
    pieces (path ++ "/" ++ relative) = pieces path ++ pieces relative := by
  have hboth : (path ++ "/" ++ relative).toList = path.toList ++ '/' :: relative.toList := by
    simp [String.toList_append]
  rw [pieces_eq hboth, String.ofList_toList, String.ofList_toList]

theorem pieces_intercalate {ps : List String} (h : ∀ p ∈ ps, IsPiece p) :
    pieces ("/".intercalate ps) = ps := by
  induction ps with
  | nil => rfl
  | cons p ps ih =>
      have hp := pieces_of_isPiece (h p (List.mem_cons_self ..))
      have hps := ih fun q hq => h q (List.mem_cons_of_mem _ hq)
      cases ps with
      | nil => simpa using hp
      | cons q qs =>
          rw [String.intercalate_cons_cons, pieces_append_slash, hp, hps]
          rfl

/-- A path that is put together from pieces starts at the top only if it is told to. -/
theorem isAbsolute_intercalate {ps : List String} (h : ∀ p ∈ ps, IsPiece p) :
    isAbsolute ("/".intercalate ps) = false := by
  cases ps with
  | nil => rfl
  | cons p ps =>
      have hp := h p (List.mem_cons_self ..)
      have hhead : ("/".intercalate (p :: ps)).toList.head? = p.toList.head? := by
        have hne : p.toList ≠ [] := by simpa using hp.ne_empty
        cases ps with
        | nil => simp
        | cons q qs =>
            rw [String.intercalate_cons_cons, String.toList_append, String.toList_append,
              List.append_assoc, List.head?_append_of_ne_nil _ hne]
      rw [isAbsolute, hhead, beq_eq_false_iff_ne]
      intro hslash
      exact hp.slash_notMem (List.mem_of_mem_head? hslash)

theorem pieces_ofPieces (absolute : Bool) {ps : List String} (h : ∀ p ∈ ps, IsPiece p) :
    pieces (ofPieces absolute ps) = ps := by
  have hps := pieces_intercalate h
  cases absolute with
  | false => simpa [ofPieces] using hps
  | true =>
      have hslash := pieces_append_slash "" ("/".intercalate ps)
      rw [hps] at hslash
      -- in front of the first separator there is no piece
      simpa [ofPieces, pieces, Text.pieces] using hslash

theorem isAbsolute_ofPieces (absolute : Bool) {ps : List String} (h : ∀ p ∈ ps, IsPiece p) :
    isAbsolute (ofPieces absolute ps) = absolute := by
  cases absolute with
  | false => simpa [ofPieces] using isAbsolute_intercalate h
  | true => simp [ofPieces, isAbsolute, String.toList_append]

theorem isAbsolute_join {path relative : String} (h : isAbsolute relative = false) :
    isAbsolute (join path relative) = isAbsolute path := by
  by_cases hempty : path = ""
  · rw [join, if_pos (by simp [hempty]), hempty, String.empty_append, h]
    rfl
  · have hne : path.toList ≠ [] := by simpa using hempty
    unfold join isAbsolute
    split
    · rw [String.toList_append, List.head?_append_of_ne_nil _ hne]
    · rw [String.append_assoc, String.toList_append, List.head?_append_of_ne_nil _ hne]

end Path

/-! ## Locations -/

/-- Where pieces lead from a location by their text alone. -/
def locate (base : Location) : List String → Location
  | [] => base
  | piece :: rest =>
      if piece = Path.here then locate base rest
      else if piece = Path.up then locate base.dropLast rest
      else locate (base ++ [piece]) rest

theorem locate_append (base : Location) (first second : List String) :
    locate base (first ++ second) = locate (locate base first) second := by
  induction first generalizing base with
  | nil => rfl
  | cons piece rest ih =>
      rw [List.cons_append, locate, locate]
      split
      · exact ih base
      · split
        · exact ih _
        · exact ih _

theorem locate_filter (base : Location) (ps : List String) :
    locate base (ps.filter (· != Path.here)) = locate base ps := by
  induction ps generalizing base with
  | nil => rfl
  | cons piece rest ih =>
      by_cases hhere : piece = Path.here
      · rw [List.filter_cons_of_neg (by simp [hhere]), locate, if_pos hhere, ih]
      · rw [List.filter_cons_of_pos (by simp [hhere]), locate, locate, if_neg hhere, if_neg hhere,
          ih, ih]

namespace FileTree

/-- A first step succeeds from a directory, to the place that its text tells. -/
theorem walk_cons_eq_ok_iff {t : FileTree} {base place : Location} {piece : String}
    {rest : List String} :
    t.walk base (piece :: rest) = .ok place ↔ t.get? base = some .directory ∧
      piece.utf8ByteSize ≤ maxName ∧ t.walk (locate base [piece]) rest = .ok place := by
  have hhere : Path.here.utf8ByteSize ≤ maxName := by decide
  have hup : Path.up.utf8ByteSize ≤ maxName := by decide
  have hne : ¬ Path.up = Path.here := by decide
  rw [walk, locate, locate, locate, locate]
  cases hbase : t.get? base with
  | none => simp
  | some entry =>
      cases entry with
      | file bytes => simp
      | directory =>
          by_cases hpieceHere : piece = Path.here
          · simp [hpieceHere, hhere]
          · by_cases hpieceUp : piece = Path.up
            · simp [hpieceUp, hup, hne]
            · by_cases hlong : maxName < piece.utf8ByteSize
              · simp [hpieceHere, hpieceUp, hlong, Nat.not_le.2 hlong]
              · simp [hpieceHere, hpieceUp, hlong, Nat.le_of_not_lt hlong]

/-- A walk that arrives is where the text says. -/
theorem locate_of_walk {t : FileTree} {base place : Location} {steps : List String}
    (h : t.walk base steps = .ok place) : place = locate base steps := by
  induction steps generalizing base with
  | nil =>
      cases h
      rfl
  | cons piece rest ih =>
      obtain ⟨-, -, hrest⟩ := walk_cons_eq_ok_iff.1 h
      rw [ih hrest, ← locate_append]
      rfl

end FileTree

/-- The location that a path names. -/
def FileTree.place (t : FileTree) (path : String) : Location :=
  locate (t.start path) (Path.pieces path)

/-- The locations that the beginnings of a list of pieces lead to. -/
def OnTheWay (base : Location) (ps : List String) (place : Location) : Prop :=
  ∃ part, part ≠ [] ∧ part <+: ps ∧ place = locate base part

theorem OnTheWay.mono {base place : Location} {ps qs : List String} (h : OnTheWay base ps place)
    (hps : ps <+: qs) : OnTheWay base qs place := by
  obtain ⟨part, hne, hpart, hplace⟩ := h
  exact ⟨part, hne, hpart.trans hps, hplace⟩

/-- On the way is where the first piece leads to, and what is on the way behind it. -/
theorem onTheWay_cons {base place : Location} {piece : String} {rest : List String} :
    OnTheWay base (piece :: rest) place ↔
      place = locate base [piece] ∨ OnTheWay (locate base [piece]) rest place := by
  have hpart (part : List String) :
      locate base (piece :: part) = locate (locate base [piece]) part :=
    locate_append base [piece] part
  constructor
  · rintro ⟨part, hne, hprefix, hplace⟩
    rcases List.prefix_cons_iff.1 hprefix with rfl | ⟨part', rfl, hprefix'⟩
    · exact absurd rfl hne
    · by_cases hnone : part' = []
      · exact .inl (by rw [hplace, hnone])
      · exact .inr ⟨part', hnone, hprefix', by rw [hplace, hpart]⟩
  · rintro (rfl | ⟨part, -, hprefix, hplace⟩)
    · exact ⟨[piece], by simp, List.cons_prefix_cons.2 ⟨rfl, List.nil_prefix⟩, rfl⟩
    · refine ⟨piece :: part, by simp, List.cons_prefix_cons.2 ⟨rfl, hprefix⟩, ?_⟩
      exact hplace.trans (hpart part).symm

/-- Dropping the piece for the directory reached so far leads past no other location. -/
theorem OnTheWay.of_filter {base place : Location} {ps : List String}
    (h : OnTheWay base (ps.filter (· != Path.here)) place) : OnTheWay base ps place := by
  obtain ⟨part, hne, ⟨behind, hbehind⟩, hplace⟩ := h
  obtain ⟨first, second, hps, hfirst, -⟩ := List.filter_eq_append_iff.1 hbehind.symm
  refine ⟨first, ?_, ⟨second, hps.symm⟩, ?_⟩
  · rintro rfl
    exact hne hfirst.symm
  · rw [hplace, ← hfirst, locate_filter]

/-! ## The parent of a path -/

namespace Path

/-- The pieces that matter among those of a path. -/
def essential (absolute : Bool) : List String → List String
  | [] => []
  | first :: rest =>
      -- in front of a relative path the piece is kept
      if first = here && absolute then rest.filter (· != here)
      else first :: rest.filter (· != here)

theorem components_eq (path : String) :
    components path = essential (isAbsolute path) (pieces path) := by
  unfold components
  cases pieces path <;> rfl

theorem essential_subset (absolute : Bool) (ps : List String) : essential absolute ps ⊆ ps := by
  have hsub (qs : List String) : qs.filter (· != here) ⊆ qs := fun p hp => (List.mem_filter.1 hp).1
  cases ps with
  | nil => exact List.nil_subset _
  | cons first rest =>
      rw [essential]
      split
      · exact List.subset_cons_of_subset _ (hsub rest)
      · exact List.cons_subset_cons _ (hsub rest)

theorem essential_append (absolute : Bool) (ps : List String) {names : List String}
    (h : ∀ name ∈ names, name ≠ here) :
    essential absolute (ps ++ names) = essential absolute ps ++ names := by
  have hkeep : ∀ qs : List String, (∀ q ∈ qs, q ≠ here) → qs.filter (· != here) = qs :=
    fun qs hqs => List.filter_eq_self.2 fun q hq => by simpa using hqs q hq
  cases ps with
  | nil =>
      cases names with
      | nil => rfl
      | cons first rest =>
          have hfirst := h first (List.mem_cons_self ..)
          have hrest := hkeep rest fun q hq => h q (List.mem_cons_of_mem _ hq)
          simp [essential, hfirst, hrest]
  | cons first rest =>
      simp only [List.cons_append, essential, List.filter_append, hkeep names h]
      split <;> rfl

end Path

theorem locate_essential (absolute : Bool) (base : Location) (ps : List String) :
    locate base (Path.essential absolute ps) = locate base ps := by
  rw [← locate_filter base ps, ← locate_filter base (Path.essential absolute ps)]
  congr 1
  cases ps with
  | nil => rfl
  | cons first rest =>
      rw [Path.essential]
      split
      · next hfirst =>
          rw [Bool.and_eq_true, decide_eq_true_eq] at hfirst
          rw [List.filter_cons_of_neg (by simp [hfirst.1])]
          simp [List.filter_filter]
      · simp [List.filter_cons, List.filter_filter]

/-- The pieces that matter lead past no other location. -/
theorem OnTheWay.of_essential {absolute : Bool} {base place : Location} {ps : List String}
    (h : OnTheWay base (Path.essential absolute ps) place) : OnTheWay base ps place := by
  cases ps with
  | nil => exact h
  | cons first rest =>
      rw [Path.essential] at h
      split at h
      · next hfirst =>
          rw [Bool.and_eq_true, decide_eq_true_eq] at hfirst
          refine OnTheWay.of_filter ?_
          rwa [List.filter_cons_of_neg (by simp [hfirst.1])]
      · rw [onTheWay_cons] at h ⊢
        exact h.imp_right OnTheWay.of_filter

/-- **The parent of a path** starts where the path does; its pieces are those of the path that
matter, but the last one. -/
theorem pieces_parent {path parent : String} (h : Path.parent? path = some parent) :
    Path.isAbsolute parent = Path.isAbsolute path ∧
      Path.pieces parent
        = (Path.essential (Path.isAbsolute path) (Path.pieces path)).dropLast := by
  rw [Path.parent?, Path.components_eq] at h
  split at h
  · cases h
  · have hisPiece : ∀ p ∈ (Path.essential (Path.isAbsolute path) (Path.pieces path)).dropLast,
        Path.IsPiece p := fun p hp =>
      Path.isPiece_of_mem_pieces (Path.essential_subset _ _ (List.dropLast_subset _ hp))
    rw [← Option.some.inj h, Path.isAbsolute_ofPieces _ hisPiece, Path.pieces_ofPieces _ hisPiece]
    exact ⟨rfl, rfl⟩

theorem pieces_parent_of_concat {path parent : String} {ps : List String} {name : String}
    (hpieces : Path.pieces path = ps ++ [name]) (hname : name ≠ Path.here)
    (hparent : Path.parent? path = some parent) :
    Path.isAbsolute parent = Path.isAbsolute path ∧
      Path.pieces parent = Path.essential (Path.isAbsolute path) ps := by
  obtain ⟨habsolute, hparentPieces⟩ := pieces_parent hparent
  refine ⟨habsolute, ?_⟩
  rw [hparentPieces, hpieces, Path.essential_append _ _ (by simpa using hname),
    List.dropLast_concat]

/-! ## Paths in the sandbox -/

/-- A piece that stands for itself. -/
structure Path.IsName (name : String) : Prop extends Path.IsPiece name where
  ne_here : name ≠ Path.here
  ne_up : name ≠ Path.up

theorem locate_of_isName (base : Location) {names : List String}
    (h : ∀ name ∈ names, Path.IsName name) : locate base names = base ++ names := by
  induction names generalizing base with
  | nil => exact (List.append_nil base).symm
  | cons name rest ih =>
      have hname := h name (List.mem_cons_self ..)
      rw [locate, if_neg hname.ne_here, if_neg hname.ne_up,
        ih _ fun other hother => h other (List.mem_cons_of_mem _ hother), List.append_assoc]
      rfl

namespace Sandbox

theorem isName_of_mem_cancel {taken ps names : List String} (h : cancel taken ps = some names)
    (htaken : ∀ name ∈ taken, Path.IsName name) (hps : ∀ p ∈ ps, Path.IsPiece p) :
    ∀ name ∈ names, Path.IsName name := by
  induction ps generalizing taken with
  | nil =>
      rw [cancel, Option.some.injEq] at h
      rw [← h]
      exact fun name hname => htaken name (List.mem_reverse.1 hname)
  | cons piece rest ih =>
      have hrest : ∀ p ∈ rest, Path.IsPiece p := fun p hp => hps p (List.mem_cons_of_mem _ hp)
      unfold cancel at h
      split at h
      · exact ih h htaken hrest
      · next hhere =>
          split at h
          · cases taken with
            | nil => cases h
            | cons last before =>
                exact ih h (fun name hname => htaken name (List.mem_cons_of_mem _ hname)) hrest
          · next hup =>
              refine ih h ?_ hrest
              intro name hname
              rcases List.mem_cons.1 hname with rfl | hname
              · exact ⟨hps _ (List.mem_cons_self ..), hhere, hup⟩
              · exact htaken name hname

/-- The names that a path stands for stand for themselves. -/
theorem isName_of_mem_names? {path : String} {names : List String} (h : names? path = some names) :
    ∀ name ∈ names, Path.IsName name := by
  unfold names? at h
  split at h
  · cases h
  · exact isName_of_mem_cancel h (fun name hname => absurd hname List.not_mem_nil)
      fun p hp => Path.isPiece_of_mem_pieces hp

/-- The path on the file system of names below the root. -/
def target (root : String) (names : List String) : String := Path.join root ("/".intercalate names)

section Target

variable {names : List String} (h : ∀ name ∈ names, Path.IsName name)
include h

theorem pieces_target (root : String) :
    Path.pieces (target root names) = Path.pieces root ++ names := by
  rw [target, Path.pieces_join, Path.pieces_intercalate fun name hname => (h name hname).toIsPiece]

theorem start_target (t : FileTree) (root : String) :
    t.start (target root names) = t.start root := by
  have hrelative := Path.isAbsolute_intercalate fun name hname => (h name hname).toIsPiece
  rw [FileTree.start, FileTree.start, target, Path.isAbsolute_join hrelative]

theorem place_target (t : FileTree) (root : String) :
    t.place (target root names) = t.place root ++ names := by
  rw [FileTree.place, start_target h, pieces_target h, locate_append, locate_of_isName _ h]
  rfl

end Target

end Sandbox

end DeskShell.Files
