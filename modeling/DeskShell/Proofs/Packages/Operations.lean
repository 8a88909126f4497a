import DeskShell.Proofs.Packages.Storable

/-!
# The registry as a map

A registry that can be stored is a map from names up to case, in the order of installation
(`Registry.Storable.isMap`): a name is added if it is not there, and one name is taken out if it is,
the one that is the same up to case. Whatever is done with a registry that has been read keeps it
so, and the registry is dirty exactly as long as a change has not been written (`course_isMap`).
Both are proved for one operation (`Course.Sound.perform`), with what has been done so far, and from
there for any number of them.
-/

set_option autoImplicit false

namespace DeskShell.Packages

open Text Terminal Files

namespace Registry

/-! ## Maps -/

/-- Whether a registry is a map from names up to case, in the order of installation. -/
structure IsMap (r : Registry) : Prop where
  /-- No two names are the same up to case. -/
  distinct : r.names.Pairwise fun a b => sameLetters a b = false
  /-- A name can be installed exactly if it is not there, and stands at the end then. -/
  install : ∀ name, ((r.install? name).isSome = true ↔ r.contains name = false) ∧
    ∀ r', r.install? name = some r' → r'.names = r.names ++ [name]
  /-- A name can be removed exactly if it is there; one name goes then, and no other one. -/
  remove : ∀ name, ((r.remove? name).isSome = true ↔ r.contains name = true) ∧
    ∀ r', r.remove? name = some r' → ∃ before own after,
      r.names = before ++ own :: after ∧ sameLetters own name = true ∧
        r'.names = before ++ after ∧ r'.contains name = false ∧
        ∀ other, sameLetters other name = false → r'.contains other = r.contains other
  /-- The text of the registry holds the same names, in the same order and spelling. -/
  stored : (ofText r.toText).names = r.names

/-- **A name that is removed** is gone, and no other one is, since no two names are the same. -/
theorem Distinct.exists_of_remove? {r r' : Registry} (h : r.Distinct) {name : String}
    (hremove : r.remove? name = some r') :
    ∃ before own after, r.names = before ++ own :: after ∧ sameLetters own name = true ∧
      r'.names = before ++ after ∧ r'.contains name = false ∧
      ∀ other, sameLetters other name = false → r'.contains other = r.contains other := by
  unfold remove? at hremove
  split at hremove
  · next hthere =>
      obtain ⟨found, hmem, hfound⟩ := List.any_eq_true.1 hthere
      obtain ⟨own, before, after, -, hown, hnames, herase⟩ :=
        List.exists_of_eraseP (p := fun n => sameLetters n name) hmem hfound
      cases hremove
      rw [Distinct, hnames, List.pairwise_append, List.pairwise_cons] at h
      obtain ⟨-, ⟨hafter, -⟩, hbefore⟩ := h
      have hlower := sameLetters_iff.1 hown
      refine ⟨before, own, after, hnames, hown, herase, ?_, fun other hother => ?_⟩
      · -- what is left differs from the name that went, which is the same as the one asked for
        refine contains_eq_false_iff.2 fun left hleft => ?_
        rw [herase] at hleft
        rcases List.mem_append.1 hleft with hleft | hleft
        · have hne := hbefore left hleft own (List.mem_cons_self ..)
          rwa [sameLetters, hlower] at hne
        · have hne := hafter left hleft
          rw [sameLetters, hlower] at hne
          rwa [sameLetters, Bool.beq_comm]
      · have hne : sameLetters own other = false := by
          rw [sameLetters, hlower]
          rwa [sameLetters, Bool.beq_comm] at hother
        show (r.names.eraseP _).any _ = r.names.any _
        rw [herase, hnames, List.any_append, List.any_append, List.any_cons, hne, Bool.false_or]
  · cases hremove

theorem Storable.isMap {r : Registry} (h : r.Storable) : r.IsMap where
  distinct := h.distinct
  install := by
    intro name
    unfold install?
    cases r.contains name with
    | true => simp
    | false => simp
  remove := by
    intro name
    refine ⟨?_, fun r' hremove => h.distinct.exists_of_remove? hremove⟩
    unfold remove?
    cases r.contains name with
    | true => simp
    | false => simp
  stored := names_ofText_toText h

end Registry

/-! ## Operations -/

/-- What can be done with a registry that is held. -/
inductive Operation
  | install (name : String)
  | remove (name : String)
  | save
  | load
  /-- The files become others, by somebody else. -/
  | disturb (t : FileTree)

/-- An operation that has been done, and whether it answered with success. -/
structure Done where
  operation : Operation
  success : Bool

def Done.changes : Done → Bool
  | ⟨.install _, success⟩ => success
  | ⟨.remove _, success⟩ => success
  | _ => false

/-- Whether the registry and its file were brought together by it. -/
def Done.settles : Done → Bool
  | ⟨.save, success⟩ => success
  | ⟨.load, _⟩ => true
  | _ => false

/-- Whether there was a change behind which nothing has settled the registry. -/
def Unsaved (past : List Done) : Prop :=
  ∃ before change after, past = before ++ change :: after ∧ change.changes = true ∧
    ∀ done ∈ after, done.settles = false

/-- Do an operation with a registry and files; whether it answers with success. -/
def Operation.run (root : String) (r : Registry) (t : FileTree) :
    Operation → (Registry × Bool) × FileTree
  | .install name =>
      match r.install? name with
      | some r' => ((r', true), t)
      | none => ((r, false), t)
  | .remove name =>
      match r.remove? name with
      | some r' => ((r', true), t)
      | none => ((r, false), t)
  | .save =>
      let saved := r.save.run root t
      ((saved.1.1, saved.1.2.toBool), saved.2)
  | .load =>
      let loaded := Registry.load.run root t
      ((loaded.1, true), loaded.2)
  | .disturb others => ((r, true), others)

/-- A registry in use: the files, and what has been done so far. -/
structure Course where
  registry : Registry
  tree : FileTree
  past : List Done

def Course.perform (root : String) (c : Course) (op : Operation) : Course :=
  let ran := op.run root c.registry c.tree
  { registry := ran.1.1, tree := ran.2, past := c.past ++ [⟨op, ran.1.2⟩] }

/-- Read a registry from a text and do operations with it, one after the other. -/
def course (root text : String) (t : FileTree) (ops : List Operation) : Course :=
  ops.foldl (Course.perform root) ⟨Registry.ofText text, t, []⟩

/-! ## What an operation preserves -/

/-- One more operation: it changes the registry, or it leaves the changes that there were, or it
settles the registry. -/
theorem unsaved_concat {past : List Done} {done : Done} :
    Unsaved (past ++ [done]) ↔ done.changes = true ∨ done.settles = false ∧ Unsaved past := by
  constructor
  · rintro ⟨before, change, after, hpast, hchange, hafter⟩
    rcases List.eq_nil_or_concat' after with rfl | ⟨rest, last, rfl⟩
    · obtain ⟨-, hdone⟩ := List.append_inj' hpast rfl
      rw [(List.cons.inj hdone).1]
      exact .inl hchange
    · have hsplit : past ++ [done] = (before ++ change :: rest) ++ [last] := by simp [hpast]
      obtain ⟨rfl, hdone⟩ := List.append_inj' hsplit rfl
      obtain ⟨hrest, hlast⟩ := List.forall_mem_append.1 hafter
      refine .inr ⟨?_, before, change, rest, rfl, hchange, hrest⟩
      rw [(List.cons.inj hdone).1]
      exact hlast last (List.mem_singleton_self _)
  · rintro (hchange | ⟨hsettles, before, change, after, rfl, hchange, hafter⟩)
    · exact ⟨past, done, [], rfl, hchange, fun _ h => absurd h List.not_mem_nil⟩
    · refine ⟨before, change, after ++ [done], by simp, hchange, ?_⟩
      refine List.forall_mem_append.2 ⟨hafter, fun other hother => ?_⟩
      rwa [List.mem_singleton.1 hother]

/-- Whether the registry can be stored, and its mark tells if there are changes to be stored. -/
structure Course.Sound (c : Course) : Prop where
  storable : c.registry.Storable
  dirty_iff : c.registry.dirty = true ↔ Unsaved c.past

theorem Course.sound_start (text : String) (t : FileTree) :
    Course.Sound ⟨Registry.ofText text, t, []⟩ := by
  refine ⟨Registry.storable_ofText text, ?_⟩
  have hnone : ¬ Unsaved [] := by
    rintro ⟨before, change, after, hpast, -⟩
    cases before <;> cases hpast
  simpa [Registry.dirty_ofText text] using hnone

theorem Registry.Storable.of_install? {r r' : Registry} (h : r.Storable) {name : String}
    (hname : IsName name) (hinstall : r.install? name = some r') : r'.Storable := by
  unfold Registry.install? at hinstall
  split at hinstall
  · cases hinstall
  · next hthere =>
      cases hinstall
      exact h.concat hname (by simpa using hthere) true

theorem Registry.Storable.of_remove? {r r' : Registry} (h : r.Storable) {name : String}
    (hremove : r.remove? name = some r') : r'.Storable := by
  unfold Registry.remove? at hremove
  split at hremove
  · cases hremove
    exact h.of_sublist List.eraseP_sublist
  · cases hremove

section Run

variable (root : String) {r : Registry} (t : FileTree)

/-- A registry that can be stored remains so, if what is installed can be a name. -/
theorem storable_run (h : r.Storable) {op : Operation}
    (hop : ∀ name, op = .install name → IsName name) : (op.run root r t).1.1.Storable := by
  cases op with
  | install name =>
      rw [Operation.run]
      cases hinstall : r.install? name with
      | none => exact h
      | some r' => exact h.of_install? (hop name rfl) hinstall
  | remove name =>
      rw [Operation.run]
      cases hremove : r.remove? name with
      | none => exact h
      | some r' => exact h.of_remove? hremove
  | save =>
      obtain ⟨hnames, -⟩ := run_save r root t
      rw [Operation.run]
      generalize r.save.run root t = saved at hnames
      refine h.of_sublist ?_
      rw [hnames]
  | load =>
      rw [Operation.run, (run_load root t).1]
      exact Registry.storable_stored root t
  | disturb others => exact h

/-- A registry is dirty after a change, and else if it was and has not been settled. -/
theorem dirty_run (op : Operation) :
    (op.run root r t).1.1.dirty = (Done.changes ⟨op, (op.run root r t).1.2⟩ ||
      !Done.settles ⟨op, (op.run root r t).1.2⟩ && r.dirty) := by
  cases op with
  | install name =>
      rw [Operation.run, Registry.install?]
      cases r.contains name <;> simp [Done.changes, Done.settles]
  | remove name =>
      rw [Operation.run, Registry.remove?]
      cases r.contains name <;> simp [Done.changes, Done.settles]
  | save =>
      rw [Operation.run, Registry.save]
      simp only [Access.run_bind, Access.run_writeText]
      cases (Sandbox.write root t Registry.path r.toText).2 with
      | ok _ => rfl
      | error refusal => simp [Done.changes, Done.settles, Except.toBool]
  | load =>
      rw [Operation.run, (run_load root t).1, Registry.dirty_stored]
      rfl
  | disturb others => simp [Operation.run, Done.changes, Done.settles]

end Run

/-- **One operation** keeps the registry fit to be stored and its mark true. -/
theorem Course.Sound.perform {c : Course} (h : c.Sound) (root : String) {op : Operation}
    (hop : ∀ name, op = .install name → IsName name) : (c.perform root op).Sound := by
  refine ⟨storable_run root c.tree h.storable hop, ?_⟩
  have hdirty : (c.perform root op).registry.dirty = _ := dirty_run root c.tree op
  rw [hdirty, Bool.or_eq_true, Bool.and_eq_true, Bool.not_eq_true', h.dirty_iff]
  exact unsaved_concat.symm

/-- **Any number of operations** do. -/
theorem Course.Sound.foldl {c : Course} (h : c.Sound) (root : String) {ops : List Operation}
    (hops : ∀ name, .install name ∈ ops → IsName name) :
    (ops.foldl (Course.perform root) c).Sound := by
  induction ops generalizing c with
  | nil => exact h
  | cons op ops ih =>
      have hfirst : (c.perform root op).Sound :=
        h.perform root fun name hname => hops name (hname ▸ List.mem_cons_self ..)
      exact ih hfirst fun name hname => hops name (List.mem_cons_of_mem _ hname)

/-- **The registry is a map**, whatever text it was read from and whatever has been done with it
since, as long as what is installed can be a name; and it is dirty exactly if there was a change
since it was read, loaded or saved last. -/
theorem course_isMap (root text : String) (t : FileTree) {ops : List Operation}
    (hops : ∀ name, .install name ∈ ops → IsName name) :
    (course root text t ops).registry.IsMap ∧
      ((course root text t ops).registry.dirty = true ↔ Unsaved (course root text t ops).past) := by
  have hsound : (course root text t ops).Sound := (Course.sound_start text t).foldl root hops
  exact ⟨hsound.storable.isMap, hsound.dirty_iff⟩

/-- A text with a name in two spellings; a name that is removed in another case than it stands in; a
save that succeeds, and one that finds a file in its way. -/
theorem course_isMap_of_saves :
    let t : FileTree := ⟨["w"], [(["w"], .directory)]⟩
    let others : FileTree := ⟨["w"], [(["w"], .directory), (["w", "system"], .file ⟨#[]⟩)]⟩
    let saved := [.install "C", .remove "B", .save]
    let unsaved := saved ++ [.remove "c", .disturb others, .save]
    (∀ name, .install name ∈ unsaved → IsName name) ∧
      (course "" "a\nA\n b \n" t saved).registry.names = ["a", "C"] ∧
      ¬ Unsaved (course "" "a\nA\n b \n" t saved).past ∧
      (Registry.ofText (course "" "a\nA\n b \n" t unsaved).registry.toText).names = ["a"] ∧
      Unsaved (course "" "a\nA\n b \n" t unsaved).past := by
  intro t others saved unsaved
  have hunsaved : ∀ name, .install name ∈ unsaved → IsName name := by
    intro name hname
    obtain rfl : name = "C" := by simpa [unsaved, saved] using hname
    exact ⟨by decide, by decide, by decide⟩
  have hsaved : ∀ name, .install name ∈ saved → IsName name := fun name hname =>
    hunsaved name (List.mem_append_left _ hname)
  have hclean : (course "" "a\nA\n b \n" t saved).registry.dirty = false := by decide +kernel
  have hnames : (course "" "a\nA\n b \n" t unsaved).registry.names = ["a"] := by decide +kernel
  refine ⟨hunsaved, by decide +kernel, ?_, ?_, ?_⟩
  · rw [← (course_isMap "" "a\nA\n b \n" t hsaved).2, hclean]
    decide
  · rw [(course_isMap "" "a\nA\n b \n" t hunsaved).1.stored, hnames]
  · exact (course_isMap "" "a\nA\n b \n" t hunsaved).2.1 (by decide +kernel)

end DeskShell.Packages
