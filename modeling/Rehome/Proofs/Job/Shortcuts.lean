import Rehome.Proofs.Job.Attending
import Rehome.Proofs.Specifier.Verbatim
import Rehome.Job.Search

/-!
# Looks at the bare text

Before a text is parsed for a value, a look at it may tell that no literal can have the value. The
look spares work and is not seen in any answer: a text that it rules out has no such specifier, so
asking for a specifier, replacing one and searching texts for one do what they would do without it.
-/
namespace Rehome

open Specifier

/-! ## States of an index -/

namespace Index

/-- The states an index can come to: it starts with nothing kept, and steps of jobs and texts to
forget follow in any order. What was found in texts may be taken over by an index of another tree. -/
inductive Reached (f : Finder) : Index → Prop
  | new (tree : FileTree) (settings : ScanSettings) : Reached f (new tree settings)
  | perform {β : Type} {i : Index} (op : FileOp β) (before : Reached f i) :
      Reached f (i.perform f op).2
  | invalidate {i : Index} (path : String) (before : Reached f i) : Reached f (i.invalidate path)
  | renew {i : Index} (tree : FileTree) (settings : ScanSettings) (before : Reached f i) :
      Reached f { new tree settings with
        parsed := i.parsed, readings := i.readings, parses := i.parses }

variable {f : Finder} {i : Index}

/-- A step of a job keeps the texts right, and the touched paths in order. -/
theorem keepsTexts_perform (h : KeepsTexts f i) (ordered : i.touched.Pairwise (· < ·)) {β : Type}
    (op : FileOp β) :
    KeepsTexts f (i.perform f op).2 ∧ (i.perform f op).2.touched.Pairwise (· < ·) := by
  cases op with
  | exist path =>
    rw [Index.perform, exist]
    cases i.existence.get? path with
    | some known => exact ⟨h, ordered⟩
    | none => exact ⟨h.of_same rfl rfl rfl rfl, ordered⟩
  | read path =>
    obtain ⟨-, keeps, asked, texts, readings, frame⟩ := read_spec h path
    exact ⟨keeps, by simpa only [Index.perform, frame] using ordered⟩
  | write path text => exact ⟨h.write path text, Names.insert_ordered ordered⟩
  | delete path => exact ⟨h.delete path, Names.insert_ordered ordered⟩
  | sourceFiles root =>
    obtain ⟨asked, lists, endless, frame⟩ := i.sourceFiles_frame root
    simp only [Index.perform, frame]
    exact ⟨h.of_same rfl rfl rfl rfl, ordered⟩
  | relist root old new? =>
    rw [Index.perform, relist]
    cases i.lists.get? root with
    | none => exact ⟨h, ordered⟩
    | some list => exact ⟨h.of_same rfl rfl rfl rfl, ordered⟩
  | specifiers path =>
    obtain ⟨-, keeps, asked, texts, parsed, readings, parses, frame⟩ := specifiers_spec h path
    exact ⟨keeps, by simpa only [Index.perform, frame] using ordered⟩
  | touched => exact ⟨h, ordered⟩

/-- In every state that an index can come to, it answers about texts as its tree does. -/
theorem Reached.mirrors (reached : Reached f i) : i.Mirrors f (fun _ => False) i.plain := by
  suffices both : KeepsTexts f i ∧ i.touched.Pairwise (· < ·) from
    ⟨both.1, .refl (fun _ => False.elim) both.2⟩
  induction reached with
  | new tree settings => exact ⟨keepsTexts_new f tree settings, .nil⟩
  | perform op _ ih => exact keepsTexts_perform ih.1 ih.2 op
  | invalidate path _ ih => exact ⟨ih.1.invalidate path, ih.2⟩
  | renew tree settings _ ih =>
    exact ⟨⟨by simp [Index.new], by simp [Index.new], ih.1.parsed, by simp [Index.new]⟩, .nil⟩

end Index

/-! ## Jobs with and without the look -/

theorem Specifier.replace?_of_same {found : List Occurrence} {text : List Char}
    {chosen : String → Bool} {change : String → String}
    (same : ∀ o ∈ found, chosen o.value = true → change o.value = o.value) :
    replace? found text chosen change = none := by
  rw [replace?]
  refine if_pos (List.isEmpty_iff.2 (List.filterMap_eq_nil_iff.2 fun o kept => ?_))
  obtain ⟨member, picked⟩ := List.mem_filter.1 kept
  exact if_pos (same o member picked)

namespace Job

variable {f : Finder}

theorem edits_hasSpecifierWhere (path : String) (chosen : String → Bool) :
    Edits path false (hasSpecifierWhere path chosen) :=
  .bind (edits_specifiers path) fun _ => .done _

theorem refers_eq_any (verbatim : f.IsVerbatim) (q : Query) (path text : String) :
    Search.refers f q path text = (f.occurrences path text).any (q.matches ·.value) := by
  unfold Search.refers
  cases found : (f.occurrences path text).any (q.matches ·.value) with
  | false => rw [Bool.and_false]
  | true => rw [mayContain_of_matches verbatim found, Bool.and_true]

/-- A file whose text is ruled out has no specifier with the value. -/
theorem absent_of_not_mayHold (verbatim : f.IsVerbatim) {t : FileTree} {path value : String}
    (ruled : (t.text? path).any (fun text => mayContain text.toList value) = false) :
    ∀ o ∈ t.specifiers f path, o.value ≠ value := by
  unfold FileTree.specifiers
  cases shown : t.text? path with
  | none => simp
  | some text =>
    rintro o member rfl
    have found : (f.occurrences path text).any ((Query.exact o.value).matches ·.value) = true :=
      List.any_eq_true.2 ⟨o, member, by simp [Query.matches]⟩
    have may := mayContain_of_matches verbatim found
    rw [shown, Option.any_some] at ruled
    exact absurd may (Bool.eq_false_iff.1 ruled)

section

variable (s : ScanSettings) (v : Plain) (path : String)

theorem run_hasSpecifierWhere (chosen : String → Bool) :
    (hasSpecifierWhere path chosen).run (Plain.perform f s) v =
      ((v.tree.specifiers f path).any (chosen ·.value), v) := rfl

theorem run_hasSpecifier_eq (verbatim : f.IsVerbatim) (value : String) :
    (hasSpecifier path value).run (Plain.perform f s) v =
      (hasSpecifierWhere path (· = value)).run (Plain.perform f s) v := by
  rw [hasSpecifier, run_bind, run_mayHold]
  cases may : (v.tree.text? path).any fun text => mayContain text.toList value with
  | true => rfl
  | false =>
    have absent := absent_of_not_mayHold verbatim may
    rw [run_hasSpecifierWhere, List.any_eq_false.2 fun o member => by simp [absent o member]]
    rfl

/-- Nothing is written if no specifier would get another value. -/
theorem run_replaceWhere_idle {chosen : String → Bool} {change : String → String}
    (same : ∀ o ∈ v.tree.specifiers f path, chosen o.value = true → change o.value = o.value) :
    (replaceWhere path chosen change).run (Plain.perform f s) v = (false, v) := by
  rw [replaceWhere, run_editFile]
  unfold FileTree.specifiers at same
  cases shown : v.tree.text? path with
  | none => rfl
  | some text =>
    rw [shown] at same
    rw [Option.bind_some, replace?_of_same same]

theorem run_replaceSpecifier_eq (verbatim : f.IsVerbatim) (old new : String) :
    (replaceSpecifier path old new).run (Plain.perform f s) v =
      (replaceWhere path (· = old) fun _ => new).run (Plain.perform f s) v := by
  rw [run_replaceSpecifier]
  split
  · rfl
  next idle =>
    refine (run_replaceWhere_idle s v path fun o member chosen => ?_).symm
    have here : o.value = old := of_decide_eq_true chosen
    by_contra differs
    rw [here] at differs
    have ruled : (v.tree.text? path).any (fun text => mayContain text.toList old) = false :=
      Bool.eq_false_iff.2 fun may => idle ⟨Ne.symm differs, may⟩
    exact absent_of_not_mayHold verbatim ruled o member here

end

/-- What a job on one file answers and leaves, in any state of an index, is what it answers and
leaves on the index's tree. -/
theorem run_of_reached {i : Index} (reached : Index.Reached f i) {α : Type} {j : Job α}
    {path : String} (edits : Edits path false j) :
    let plain := j.run (Plain.perform f i.settings) i.plain
    (i.run f j).1 = plain.1 ∧ (i.run f j).2.tree.files = plain.2.tree.files ∧
      (i.run f j).2.tree.changes = plain.2.tree.changes ∧
      (i.run f j).2.touched = plain.2.touched := by
  intro plain
  obtain ⟨v, mirrors, same⟩ := edits.does i.settings (Index.mirrors_answers f _) (fun _ => trivial)
    id i.plain (fun known => by cases known) i reached.mirrors
  have answer : (i.run f j).1 = plain.1 := congrArg Prod.fst same
  have left : v = plain.2 := congrArg Prod.snd same
  rw [← left]
  exact ⟨answer, mirrors.agree.files_eq, mirrors.agree.changes_eq, mirrors.agree.touched_eq⟩

/-- The look at the bare text is not seen: it never rules out a text that has the value, or a value
below the alias, among its specifiers; so in every state of an index a file has a specifier by the
look exactly if it has it, a specifier is replaced with the look as without it, and a text refers to
what a query asks for exactly if one of its specifiers answers the query. -/
theorem bare_look_unobserved {i : Index} (reached : Index.Reached .modules i) :
    (∀ (path text value : String) (found : List Occurrence),
      occurrences? path text.toList = some found →
      (∃ o ∈ found, o.value = value ∨ isUnderAlias value o.value = true) →
        mayContain text.toList value = true) ∧
    (∀ path value : String, (i.run .modules (hasSpecifier path value)).1 =
      (i.run .modules (hasSpecifierWhere path (· = value))).1) ∧
    (∀ path old new : String,
      let short := i.run .modules (replaceSpecifier path old new)
      let long := i.run .modules (replaceWhere path (· = old) fun _ => new)
      short.1 = long.1 ∧ short.2.tree.files = long.2.tree.files ∧
        short.2.tree.changes = long.2.tree.changes ∧ short.2.touched = long.2.touched) ∧
    ∀ (q : Query) (path text : String), Search.refers .modules q path text =
      (Finder.modules.occurrences path text).any (q.matches ·.value) := by
  refine ⟨?_, fun path value => ?_, fun path old new => ?_,
    refers_eq_any Finder.modules_isVerbatim⟩
  · rintro path text value found parsed ⟨o, member, asked⟩
    by_cases plain : '\\' ∈ text.toList
    · simp [mayContain, plain]
    · have under : (Query.aliased value).matches o.value = true := by
        rcases asked with rfl | below
        · simp [Query.matches, isUnderAlias]
        · exact below
      have inside : value.toList <:+: text.toList :=
        (Query.text_isInfix under).trans (value_isInfix plain parsed member)
      rw [mayContain, Text.contains_iff.2 inside, Bool.true_or]
  · have short := run_of_reached reached (edits_hasSpecifier path value)
    have long := run_of_reached reached (edits_hasSpecifierWhere path (· = value))
    rw [short.1, long.1, run_hasSpecifier_eq _ _ _ Finder.modules_isVerbatim]
  · have short := run_of_reached reached (edits_replaceSpecifier path old new)
    have long := run_of_reached reached (edits_replaceWhere path (· = old) fun _ => new)
    rw [run_replaceSpecifier_eq _ _ _ Finder.modules_isVerbatim] at short
    exact ⟨short.1.trans long.1.symm, short.2.1.trans long.2.1.symm,
      short.2.2.1.trans long.2.2.1.symm, short.2.2.2.trans long.2.2.2.symm⟩

/-- A literal that is written with an escape is found and replaced, although its value does not stand
in the text. The file was parsed and then written. -/
theorem bare_look_unobserved_escaped :
    let main := "libs/a/main.ts"
    let text := "import '\\x40org/a/z';\n"
    let t := FileTree.ofList [(main, "import '@org/b';\n")]
    let opened := ((Index.new t (.standard 1)).perform .modules (.specifiers main)).2
    let i := (opened.perform .modules (.write main text)).2
    let after := (i.run .modules (replaceSpecifier main "@org/a/z" "@org/c")).2.tree
    let after' := (i.run .modules (replaceWhere main (· = "@org/a/z") fun _ => "@org/c")).2.tree
    mayContain text.toList "@org/a" = true ∧
    (i.run .modules (hasSpecifier main "@org/a/z")).1 = true ∧
    (i.run .modules (hasSpecifierWhere main (· = "@org/a/z"))).1 = true ∧
    after.text? main = some "import '@org/c';\n" ∧ after'.text? main = after.text? main ∧
    Search.refers .modules (.aliased "@org/a") main text = true := by
  intro main text t opened i after after'
  have reached : Index.Reached .modules i := .perform _ (.perform _ (.new t _))
  obtain ⟨look, has, replaced, refers⟩ := bare_look_unobserved reached
  have found : (i.run .modules (hasSpecifierWhere main (· = "@org/a/z"))).1 = true := by
    decide +kernel
  refine ⟨?_, (has _ _).trans found, found, by decide +kernel, ?_, ?_⟩
  · have under : ((occurrences? main text.toList).any fun list =>
        list.any fun o => isUnderAlias "@org/a" o.value) = true := by
      decide +kernel
    cases parsed : occurrences? main text.toList with
    | none =>
      rw [parsed] at under
      cases under
    | some list =>
      rw [parsed, Option.any_some] at under
      obtain ⟨o, member, below⟩ := List.any_eq_true.1 under
      exact look main text _ list parsed ⟨o, member, .inr below⟩
  · exact congrArg (·.get? main) (replaced main "@org/a/z" "@org/c").2.1.symm
  · rw [refers]
    decide +kernel

end Job
end Rehome
