import Rehome.Proofs.Path.Canonical
import Rehome.Proofs.Workspace.Longest
import Rehome.Proofs.Workspace.Ownership

/-!
# Who publishes an alias

The alias of a mapping goes to the project with the longest root around the first file it is mapped
to. That need not be the owner of the file, who may claim it by a source root. Of several aliases of
one project the last one counts; since no name is mapped twice, the first one counts only where it
is the only one.
-/
namespace Rehome.Tsconfig

open JsonValue (Record)

/-! ## No name is mapped twice -/

theorem map_putPair {α : Type} (name : String) (value : α) (l : List (String × α)) :
    (putPair name value l).map (·.1) =
      if name ∈ l.map (·.1) then l.map (·.1) else l.map (·.1) ++ [name] := by
  induction l with
  | nil => simp [putPair]
  | cons e rest ih =>
    rw [putPair]
    by_cases same : e.1 = name
    · simp [same]
    · simp only [if_neg same, List.map_cons, ih, List.mem_cons, Ne.symm same, false_or]
      split <;> simp

theorem nodup_putPair {α : Type} (name : String) (value : α) {l : List (String × α)}
    (distinct : (l.map (·.1)).Nodup) : ((putPair name value l).map (·.1)).Nodup := by
  rw [map_putPair]
  split
  next => exact distinct
  next absent => exact List.nodup_append_comm.1 (List.nodup_cons.2 ⟨absent, distinct⟩)

theorem nodup_foldl_putPair {α : Type} (pairs : List (String × α)) {l : List (String × α)}
    (distinct : (l.map (·.1)).Nodup) :
    ((pairs.foldl (fun l e => putPair e.1 e.2 l) l).map (·.1)).Nodup := by
  induction pairs generalizing l with
  | nil => exact distinct
  | cons e rest ih => exact ih (nodup_putPair e.1 e.2 distinct)

theorem nodup_pathsOf? {j : JsonValue} {paths : List (String × List String)}
    (read : pathsOf? j = some paths) : (paths.map (·.1)).Nodup := by
  obtain ⟨members, -, read⟩ := Option.bind_eq_some_iff.1 read
  obtain ⟨pairs, -, read⟩ := Option.bind_eq_some_iff.1 read
  rw [← Option.some.inj read]
  exact nodup_foldl_putPair pairs List.nodup_nil

/-- An optional field that is there was read from some value. -/
theorem of_optionalField {α : Type} {r : Record} {name : String} {read : JsonValue → Option α} {a : α}
    (found : optionalField r name read = some (some a)) : ∃ j, read j = some a := by
  have nullable : ∀ j, JsonValue.nullable? read j = some (some a) → read j = some a := by
    intro j given
    unfold JsonValue.nullable? at given
    split at given
    · cases given
    · simpa using given
  unfold optionalField Record.required Record.optional at found
  cases there : r.get? name with
  | none => simp [there] at found
  | some j => exact ⟨j, nullable j (by simpa [there] using found)⟩

theorem nodup_optionsOf? {j : JsonValue} {m : Mappings} (read : optionsOf? j = some m) :
    (m.paths.map (·.1)).Nodup := by
  obtain ⟨r, -, read⟩ := Option.bind_eq_some_iff.1 read
  obtain ⟨base, -, read⟩ := Option.bind_eq_some_iff.1 read
  obtain ⟨paths, given, read⟩ := Option.bind_eq_some_iff.1 read
  rw [← Option.some.inj read]
  cases paths with
  | none => exact List.nodup_nil
  | some paths =>
    obtain ⟨j, read⟩ := of_optionalField given
    exact nodup_pathsOf? read

theorem nodup_mappings? {text : String} {m : Mappings} (read : mappings? text = some m) :
    (m.paths.map (·.1)).Nodup := by
  obtain ⟨j, -, read⟩ := Option.bind_eq_some_iff.1 read
  obtain ⟨r, -, read⟩ := Option.bind_eq_some_iff.1 read
  obtain ⟨options, given, read⟩ := Option.bind_eq_some_iff.1 read
  rw [← Option.some.inj read]
  cases options with
  | none => exact List.nodup_nil
  | some options =>
    obtain ⟨j, read⟩ := of_optionalField given
    exact nodup_optionsOf? read

/-! ## The pairs of projects and aliases -/

variable {w : Workspace} {m : Mappings}

theorem publisher?_eq (w : Workspace) (base : String) (mapping : String × List String) :
    publisher? w base mapping = if '*' ∈ mapping.1.toList then none else
      mapping.2.head?.bind fun first => (Path.normalize? (Path.join base first)).bind fun file =>
        deepest? (w.projects.filter (·.contains file)) := by
  unfold publisher?
  by_cases wild : '*' ∈ mapping.1.toList
  · simp [wild]
  · simp [wild]

theorem publisher?_eq_some_iff {base name : String} {targets : List String} {p : Project} :
    publisher? w base (name, targets) = some p ↔
      '*' ∉ name.toList ∧ ∃ first file, targets.head? = some first ∧
        Path.normalize? (Path.join base first) = some file ∧ w.IsDeepest file p := by
  rw [publisher?_eq]
  by_cases wild : '*' ∈ name.toList
  · simp [wild]
  · simp [wild, Option.bind_eq_some_iff, deepest?_eq_some_iff]

theorem mem_aliases_iff {project name : String} :
    (project, name) ∈ aliases w m ↔ ∃ targets p, (name, targets) ∈ m.paths ∧
      publisher? w m.base (name, targets) = some p ∧ p.name = project := by
  simp only [aliases, List.mem_filterMap, Option.map_eq_some_iff, Prod.exists, Prod.mk.injEq]
  constructor
  · rintro ⟨_, targets, mapped, p, found, rfl, rfl⟩
    exact ⟨targets, p, mapped, found, rfl⟩
  · rintro ⟨targets, p, mapped, found, rfl⟩
    exact ⟨name, targets, mapped, p, found, rfl, rfl⟩

/-- The aliases stand in the order of the mappings. -/
theorem aliases_sublist : ((aliases w m).map (·.2)).Sublist (m.paths.map (·.1)) := by
  unfold aliases
  induction m.paths with
  | nil => exact .slnil
  | cons mapping rest ih =>
    rw [List.filterMap_cons]
    cases publisher? w m.base mapping with
    | none => exact ih.cons mapping.1
    | some p => exact ih.cons_cons mapping.1

/-- If the owner claims a file by its root, and every source root around the file is at least as long
as its project's root, then no other project around the file has so long a root. -/
theorem isDeepest_of_owner {file : String} {p : Project} (owned : w.owner file = .ok p)
    (modest : ∀ q ∈ w.projects, ∀ dir, q.sourceRoot? = some dir → Path.isWithin file dir = true →
      q ≠ p ∧ q.root.utf8ByteSize ≤ dir.utf8ByteSize) : w.IsDeepest file p := by
  have best := Workspace.bestClaimants_eq_singleton_iff.1 (Workspace.owner_eq_ok_iff.1 owned)
  obtain ⟨member, s, scored, greatest⟩ := (best p).2 rfl
  cases scored with
  | sources declared within => exact absurd rfl (modest p member _ declared within).1
  | root outside within =>
    refine ⟨member, within, fun q other around => ?_⟩
    by_cases bySources : ∃ dir, q.sourceRoot? = some dir ∧ Path.isWithin file dir = true
    · obtain ⟨dir, declared, inside⟩ := bySources
      have bound := greatest q other _ (.sources declared inside)
      have longer := (modest q other dir declared inside).2
      rw [Prod.Lex.toLex_le_toLex] at bound
      rcases bound with less | ⟨-, impossible⟩
      · exact .inl (lt_of_le_of_lt longer less)
      · exact absurd impossible (by simp)
    · have apart : ∀ dir, q.sourceRoot? = some dir → Path.isWithin file dir = false :=
        fun dir declared => Bool.eq_false_iff.2 fun inside => bySources ⟨dir, declared, inside⟩
      have scored : q.Scores file _ := .root apart around
      have bound := greatest q other _ scored
      rw [Prod.Lex.toLex_le_toLex] at bound
      rcases bound with less | ⟨equal, -⟩
      · exact .inl less
      · dsimp only at equal
        have same : q = p := (best q).1 ⟨other, _, scored, by rw [equal]; exact greatest⟩
        exact .inr ⟨equal, by rw [same]⟩

/-- A project around a file that has no other project within has the longest root around the file. -/
theorem isDeepest_of_innermost {file : String} {p : Project} (member : p ∈ w.projects)
    (around : p.contains file = true)
    (innermost : ∀ q ∈ w.projects, q ≠ p → Path.isWithin q.root p.root = false) :
    w.IsDeepest file p := by
  refine ⟨member, around, fun q other around' => ?_⟩
  by_cases same : q = p
  · exact .inr (by rw [same]; exact ⟨rfl, le_rfl⟩)
  · rcases Path.isWithin_total around' around with inside | outside
    · rw [innermost q other same] at inside
      cases inside
    · exact .inl (Path.utf8ByteSize_lt_of_isWithin outside (innermost q other same))

/-- The alias of a mapping without a wildcard goes to the project with the longest root around the
first file, and of several to the one with the last name, whoever owns the file. This is the owner
if the owner's root contains the file and no other project, or if the owner claims the file by its
root, and no source root around the file is shorter than its project's root. -/
theorem alias_goes_to_deepest (w : Workspace) {text : String} {m : Mappings} {name first file : String}
    {targets : List String} {p : Project} (read : mappings? text = some m)
    (mapped : (name, targets) ∈ m.paths) (exact : '*' ∉ name.toList)
    (ahead : targets.head? = some first)
    (clean : Path.normalize? (Path.join m.base first) = some file) (owned : w.owner file = .ok p) :
    ∃ pairs, aliases? w text = some pairs ∧
      (∀ q ∈ w.projects, (q.name, name) ∈ pairs ↔ w.IsDeepest file q) ∧
      ((p.contains file = true ∧ ∀ q ∈ w.projects, q ≠ p → Path.isWithin q.root p.root = false) ∨
        (∀ q ∈ w.projects, ∀ dir, q.sourceRoot? = some dir → Path.isWithin file dir = true →
          q ≠ p ∧ q.root.utf8ByteSize ≤ dir.utf8ByteSize) → (p.name, name) ∈ pairs) := by
  have goes : ∀ q ∈ w.projects, (q.name, name) ∈ aliases w m ↔ w.IsDeepest file q := by
    intro q member
    rw [mem_aliases_iff]
    constructor
    · rintro ⟨others, r, mapped', found, named⟩
      have distinct := nodup_mappings? read
      have same := List.inj_on_of_nodup_map distinct mapped' mapped rfl
      obtain rfl : others = targets := congrArg Prod.snd same
      obtain ⟨-, first', file', ahead', clean', deepest⟩ := publisher?_eq_some_iff.1 found
      obtain rfl := Option.some.inj (ahead'.symm.trans ahead)
      obtain rfl := Option.some.inj (clean'.symm.trans clean)
      rwa [Workspace.eq_of_name_eq member deepest.1 named.symm]
    · intro deepest
      exact ⟨targets, q, mapped,
        publisher?_eq_some_iff.2 ⟨exact, first, file, ahead, clean, deepest⟩, rfl⟩
  have member := Workspace.owner_mem owned
  refine ⟨aliases w m, by rw [aliases?, read]; rfl, goes, fun plain => (goes p member).2 ?_⟩
  rcases plain with ⟨around, innermost⟩ | modest
  · exact isDeepest_of_innermost member around innermost
  · exact isDeepest_of_owner owned modest

/-- What a text maps, if that is known of its parts. -/
theorem mappings?_of_parts {text base : String} {paths : List (String × List String)}
    (parts : (mappings? text).map (fun m => (m.base, m.paths)) = some (base, paths)) :
    mappings? text = some ⟨base, paths⟩ := by
  obtain ⟨m, read, same⟩ := Option.map_eq_some_iff.1 parts
  cases m
  cases same
  exact read

/-- A project inside another one owns the file by its source root. -/
theorem alias_goes_to_inner_owner :
    let project (name root : String) (sources : Option String) : Project :=
      ⟨name, root, sources, .library, []⟩
    let inner := project "inner" "libs/x" (some "libs/x/src")
    let w := [inner, project "outer" "libs" (some "libs")].foldl Workspace.addProject .empty
    let text := "\x7b\"compilerOptions\":\x7b\"baseUrl\":\"libs\"," ++
      "\"paths\":\x7b\"@x\":[\"./x/src/i.ts\"]\x7d\x7d\x7d"
    mappings? text = some ⟨"libs", [("@x", ["./x/src/i.ts"])]⟩ ∧
      w.owner "libs/x/src/i.ts" = .ok inner ∧
      ∃ pairs, aliases? w text = some pairs ∧ ("inner", "@x") ∈ pairs := by
  intro project inner w text
  have read : mappings? text = some ⟨"libs", [("@x", ["./x/src/i.ts"])]⟩ :=
    mappings?_of_parts (by decide +kernel)
  have owned : w.owner "libs/x/src/i.ts" = .ok inner := by decide +kernel
  obtain ⟨pairs, declared, -, agree⟩ := alias_goes_to_deepest w read List.mem_cons_self
    (by decide +kernel) rfl (by decide +kernel) owned
  refine ⟨read, owned, pairs, declared, agree (.inl ?_)⟩
  decide +kernel

/-- A file in the source root of one project also lies in another project, whose root is longer than
the first one's. The first one owns the file, and the second one publishes the alias. -/
theorem alias_goes_past_owner :
    let project (name root : String) (sources : Option String) : Project :=
      ⟨name, root, sources, .library, []⟩
    let outer := project "outer" "libs" (some "libs/x/src")
    let w := [project "inner" "libs/x" none, outer].foldl Workspace.addProject .empty
    let text := "\x7b\"compilerOptions\":\x7b\"paths\":\x7b\"@x\":[\"libs/x/src/i.ts\"]\x7d\x7d\x7d"
    mappings? text = some ⟨".", [("@x", ["libs/x/src/i.ts"])]⟩ ∧
      Path.normalize? (Path.join "." "libs/x/src/i.ts") = some "libs/x/src/i.ts" ∧
      w.owner "libs/x/src/i.ts" = .ok outer ∧ aliases? w text = some [("inner", "@x")] := by
  intro project outer w text
  have read : mappings? text = some ⟨".", [("@x", ["libs/x/src/i.ts"])]⟩ :=
    mappings?_of_parts (by decide +kernel)
  have pairs : aliases w ⟨".", [("@x", ["libs/x/src/i.ts"])]⟩ = [("inner", "@x")] := by
    simp only [aliases, publisher?_eq]
    decide +kernel
  refine ⟨read, by decide +kernel, by decide +kernel, ?_⟩
  rw [aliases?, read, Option.map_some, pairs]

/-! ## Publishing -/

theorem alias?_setAlias (w : Workspace) (project name other : String) :
    (w.setAlias project name).alias? other = if project = other then some name else w.alias? other :=
  Table.get?_insert ..

/-- After aliases are published, each project has the last one of its own, and without any the one it
had before. -/
theorem alias?_publish (w : Workspace) (pairs : List (String × String)) (project : String) :
    (publish w pairs).alias? project =
      ((pairs.filter (·.1 = project)).map (·.2)).getLast?.or (w.alias? project) := by
  induction pairs generalizing w with
  | nil => rfl
  | cons e rest ih =>
    have step : publish w (e :: rest) = publish (w.setAlias e.1 e.2) rest := rfl
    rw [step, ih, alias?_setAlias]
    by_cases same : e.1 = project
    · rw [if_pos same, List.filter_cons_of_pos (by simpa using same), List.map_cons,
        List.getLast?_cons]
      cases ((rest.filter (·.1 = project)).map (·.2)).getLast? <;> rfl
    · rw [if_neg same, List.filter_cons_of_neg (by simpa using same)]

theorem getLast?_eq_head?_iff {l : List String} (distinct : l.Nodup) (filled : l ≠ []) :
    l.getLast? = l.head? ↔ l.length = 1 := by
  cases l with
  | nil => exact absurd rfl filled
  | cons name rest =>
    rcases List.eq_nil_or_concat rest with rfl | ⟨rest, last, rfl⟩
    · simp
    · have differs : last ≠ name := by
        rintro rfl
        simp at distinct
      simp [List.getLast?_cons, differs]

/-- The last of a project's aliases counts, in the order of the mappings, and a project without any
keeps the one it had. The first one counts exactly if it is the only one. -/
theorem last_alias_counts (w : Workspace) {text : String} {pairs : List (String × String)}
    (declared : aliases? w text = some pairs) (project : String) :
    let own := (pairs.filter (·.1 = project)).map (·.2)
    (publish w pairs).alias? project = own.getLast?.or (w.alias? project) ∧
      (own ≠ [] → ((publish w pairs).alias? project = own.head? ↔ own.length = 1)) := by
  intro own
  have after : (publish w pairs).alias? project = own.getLast?.or (w.alias? project) :=
    alias?_publish w pairs project
  refine ⟨after, fun filled => ?_⟩
  have distinct : own.Nodup := by
    obtain ⟨m, read, rfl⟩ := Option.map_eq_some_iff.1 declared
    have kept : own.Sublist ((aliases w m).map (·.2)) := List.filter_sublist.map _
    exact (nodup_mappings? read).sublist (kept.trans aliases_sublist)
  rw [after, ← getLast?_eq_head?_iff distinct filled, List.getLast?_eq_some_getLast filled,
    Option.some_or]

/-- Two names are mapped into one project, with another one between them. -/
theorem last_alias_counts_of_two :
    let project (name root : String) : Project := ⟨name, root, none, .library, []⟩
    let w := [project "a" "libs/a", project "b" "libs/b"].foldl Workspace.addProject .empty
    let text := "\x7b\"compilerOptions\":\x7b\"paths\":\x7b\"@a\":[\"libs/a/i\"]," ++
      "\"@b\":[\"libs/b/i\"],\"@a/t\":[\"libs/a/t\"]\x7d\x7d\x7d"
    let pairs := [("a", "@a"), ("b", "@b"), ("a", "@a/t")]
    aliases? w text = some pairs ∧ (publish w pairs).alias? "a" = some "@a/t" ∧
      (publish w pairs).alias? "b" = some "@b" := by
  intro project w text pairs
  have read : mappings? text = some ⟨".", [("@a", ["libs/a/i"]), ("@b", ["libs/b/i"]),
      ("@a/t", ["libs/a/t"])]⟩ := mappings?_of_parts (by decide +kernel)
  have found : aliases w ⟨".", [("@a", ["libs/a/i"]), ("@b", ["libs/b/i"]),
      ("@a/t", ["libs/a/t"])]⟩ = pairs := by
    simp only [aliases, publisher?_eq]
    decide +kernel
  have declared : aliases? w text = some pairs := by rw [aliases?, read, Option.map_some, found]
  exact ⟨declared, (last_alias_counts w declared "a").1,
    ((last_alias_counts w declared "b").2 (by decide)).2 rfl⟩

/-- The first of two aliases of a project gives way to the second. -/
theorem first_alias_gives_way :
    let w := Workspace.empty.addProject ⟨"a", "libs/a", none, .library, []⟩
    let text := "\x7b\"compilerOptions\":\x7b\"paths\":\x7b" ++
      "\"@a\":[\"libs/a/i.ts\"],\"@a/t\":[\"libs/a/t.ts\"]\x7d\x7d\x7d"
    aliases? w text = some [("a", "@a"), ("a", "@a/t")] ∧
      (publish w [("a", "@a"), ("a", "@a/t")]).alias? "a" = some "@a/t" := by
  intro w text
  have read : mappings? text = some ⟨".", [("@a", ["libs/a/i.ts"]), ("@a/t", ["libs/a/t.ts"])]⟩ :=
    mappings?_of_parts (by decide +kernel)
  have found : aliases w ⟨".", [("@a", ["libs/a/i.ts"]), ("@a/t", ["libs/a/t.ts"])]⟩ =
      [("a", "@a"), ("a", "@a/t")] := by
    simp only [aliases, publisher?_eq]
    decide +kernel
  exact ⟨by rw [aliases?, read, Option.map_some, found], by decide +kernel⟩

end Rehome.Tsconfig
