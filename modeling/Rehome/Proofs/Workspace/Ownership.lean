import Rehome.Proofs.Workspace.Claims
import Mathlib.Data.Prod.Lex

/-!
# The project with the best score

The score of a project for a path is the length of the directory by which it claims the path, and
whether that is its source root; scores are compared in this order. A path belongs to the project with
the best score if there is one such project alone.
-/
namespace Rehome

/-- The score of a project for a path: the length of its source root, if the path lies within that, or
else the length of its root. Of two that are as long the source root is better. -/
inductive Project.Scores (p : Project) (path : String) : ℕ ×ₗ Bool → Prop
  | sources {dir : String} (declared : p.sourceRoot? = some dir)
      (within : Path.isWithin path dir = true) : Scores p path (toLex (dir.utf8ByteSize, true))
  | root (outside : ∀ dir, p.sourceRoot? = some dir → Path.isWithin path dir = false)
      (within : Path.isWithin path p.root = true) :
      Scores p path (toLex (p.root.utf8ByteSize, false))

/-- A claim as a score. -/
def Claim.score (c : Claim) : ℕ ×ₗ Bool := toLex (c.length, c.bySources)

theorem Claim.rank_le_rank_iff {c d : Claim} : c.rank ≤ d.rank ↔ c.score ≤ d.score := by
  obtain ⟨m, b⟩ := c
  obtain ⟨n, b'⟩ := d
  rw [score, score, Prod.Lex.toLex_le_toLex]
  have strict : ¬ true ≤ false := by decide
  cases b <;> cases b' <;> simp [rank, strict] <;> omega

namespace Project

variable {p : Project} {path : String}

theorem claim?_of_sources {dir : String} (declared : p.sourceRoot? = some dir)
    (within : Path.isWithin path dir = true) :
    p.claim? path = some ⟨dir.utf8ByteSize, true⟩ := by
  simp only [claim?, declared, Option.filter_some_pos within]

theorem claim?_of_outside
    (outside : ∀ dir, p.sourceRoot? = some dir → Path.isWithin path dir = false) :
    p.claim? path =
      if Path.isWithin path p.root = true then some ⟨p.root.utf8ByteSize, false⟩ else none := by
  have none : p.sourceRoot?.filter (Path.isWithin path ·) = none := by
    cases declared : p.sourceRoot? with
    | none => rfl
    | some dir => exact Option.filter_some_neg (by simp [outside dir declared])
  simp only [claim?, none]
  rfl

/-- The scores of a project are its claims. -/
theorem scores_iff {s : ℕ ×ₗ Bool} :
    p.Scores path s ↔ ∃ c, p.claim? path = some c ∧ c.score = s := by
  constructor
  · rintro (⟨declared, within⟩ | ⟨outside, within⟩)
    · exact ⟨_, claim?_of_sources declared within, rfl⟩
    · exact ⟨_, by rw [claim?_of_outside outside, if_pos within], rfl⟩
  · rintro ⟨c, claimed, rfl⟩
    by_cases inside : ∃ dir, p.sourceRoot? = some dir ∧ Path.isWithin path dir = true
    · obtain ⟨dir, declared, within⟩ := inside
      rw [claim?_of_sources declared within] at claimed
      cases claimed
      exact .sources declared within
    · have outside : ∀ dir, p.sourceRoot? = some dir → Path.isWithin path dir = false :=
        fun dir declared => Bool.eq_false_iff.2 fun within => inside ⟨dir, declared, within⟩
      rw [claim?_of_outside outside] at claimed
      split at claimed
      next within =>
        cases claimed
        exact .root outside within
      next => cases claimed

end Project

namespace Workspace

variable {w : Workspace} {path : String} {p : Project}

/-- A project whose score no other exceeds. -/
def IsBest (w : Workspace) (path : String) (p : Project) : Prop :=
  p ∈ w.projects ∧ ∃ s, p.Scores path s ∧ ∀ q ∈ w.projects, ∀ t, q.Scores path t → t ≤ s

/-- The listed projects are those that no score exceeds. -/
theorem mem_bestClaimants : p ∈ w.bestClaimants path ↔ w.IsBest path p := by
  rw [mem_bestClaimants_iff]
  constructor
  · rintro ⟨c, ⟨member, claimed⟩, best⟩
    refine ⟨member, c.score, Project.scores_iff.2 ⟨c, claimed, rfl⟩, fun q other t scored => ?_⟩
    obtain ⟨d, claimed', rfl⟩ := Project.scores_iff.1 scored
    exact Claim.rank_le_rank_iff.1 (best ▸ rank_le_bestRank other claimed')
  · rintro ⟨member, s, scored, greatest⟩
    obtain ⟨c, claimed, rfl⟩ := Project.scores_iff.1 scored
    refine ⟨c, ⟨member, claimed⟩, le_antisymm (rank_le_bestRank member claimed)
      (bestRank_le_iff.2 ?_)⟩
    intro q other d claimed'
    exact Claim.rank_le_rank_iff.2 (greatest q other _ (Project.scores_iff.2 ⟨d, claimed', rfl⟩))

theorem bestClaimants_ordered (w : Workspace) (path : String) :
    (w.bestClaimants path).Pairwise fun p q => p.name < q.name := by
  have claims : (w.claims path).Pairwise fun a b => a.2.name < b.2.name := by
    refine w.projects_ordered.filterMap _ fun p q less a first b second => ?_
    obtain ⟨c, -, rfl⟩ := Option.map_eq_some_iff.1 first
    obtain ⟨d, -, rfl⟩ := Option.map_eq_some_iff.1 second
    exact less
  exact List.pairwise_map.2 (claims.filter _)

/-- Some project has the best claim, unless no project has a claim at all. -/
theorem bestClaimants_eq_nil_iff :
    w.bestClaimants path = [] ↔ ∀ q ∈ w.projects, ∀ s, ¬ q.Scores path s := by
  constructor
  · intro empty q member s scored
    obtain ⟨c, claimed, rfl⟩ := Project.scores_iff.1 scored
    have less : ∀ q ∈ w.projects, ∀ c, q.claim? path = some c → c.rank < w.bestRank path := by
      intro q member c claimed
      refine lt_of_le_of_ne (rank_le_bestRank member claimed) fun best => ?_
      have listed : q ∈ w.bestClaimants path :=
        mem_bestClaimants_iff.2 ⟨c, ⟨member, claimed⟩, best⟩
      rw [empty] at listed
      cases listed
    -- otherwise the best rank could be lowered
    have lower : w.bestRank path ≤ w.bestRank path - 1 :=
      bestRank_le_iff.2 fun q member c claimed => Nat.le_sub_one_of_lt (less q member c claimed)
    have positive := less q member c claimed
    omega
  · intro silent
    rw [List.eq_nil_iff_forall_not_mem]
    intro p listed
    obtain ⟨member, s, scored, -⟩ := mem_bestClaimants.1 listed
    exact silent p member s scored

theorem claimed_by_both_ne (a b : String) :
    "claimed by both " ++ a ++ " and " ++ b ≠ "no project contains it" := by
  intro same
  have first := congrArg (fun s => s.toList.head?) same
  simp at first

theorem owner_eq_unclaimed_iff :
    w.owner path = .error (.ambiguousProject path "no project contains it") ↔
      w.bestClaimants path = [] := by
  rw [owner_eq]
  split
  next none => simp [none]
  next single => simp [single]
  next several => simp [several, claimed_by_both_ne]

/-- One project alone has the best score if it is the only one listed. -/
theorem bestClaimants_eq_singleton_iff :
    w.bestClaimants path = [p] ↔ ∀ q, w.IsBest path q ↔ q = p := by
  simp only [← mem_bestClaimants]
  constructor
  · intro single q
    rw [single, List.mem_singleton]
  · intro only
    refine eq_of_names_increasing (w.bestClaimants_ordered path) (List.pairwise_singleton _ p) ?_
    intro q
    rw [only, List.mem_singleton]

/-- The last one of projects in order has the greatest name. -/
theorem name_le_getLast {l : List Project} (ordered : l.Pairwise fun p q => p.name < q.name)
    (filled : l ≠ []) (member : p ∈ l) : p.name ≤ (l.getLast filled).name := by
  rw [← List.dropLast_append_getLast filled] at ordered member
  rcases List.mem_append.1 member with before | last
  · exact le_of_lt ((List.pairwise_append.1 ordered).2.2 p before _ List.mem_cons_self)
  · rw [List.mem_singleton.1 last]

/-- If several projects are listed, the refusal names the first and the last one. -/
theorem owner_of_several {first second : Project} {rest : List Project}
    (listed : w.bestClaimants path = first :: second :: rest) :
    ∃ last ∈ w.bestClaimants path, first.name < last.name ∧
      (∀ p ∈ w.bestClaimants path, first.name ≤ p.name ∧ p.name ≤ last.name) ∧
      w.owner path = .error (.ambiguousProject path
        ("claimed by both " ++ first.name ++ " and " ++ last.name)) := by
  have ordered := w.bestClaimants_ordered path
  rw [listed] at ordered ⊢
  have ahead := (List.pairwise_cons.1 ordered).1
  have last := List.getLast_mem (List.cons_ne_nil second rest)
  refine ⟨(second :: rest).getLast (by simp), List.mem_cons_of_mem first last, ahead _ last, ?_,
    by rw [owner_eq, listed]⟩
  intro p member
  constructor
  · rcases List.mem_cons.1 member with rfl | later
    · exact le_rfl
    · exact le_of_lt (ahead p later)
  · rw [← List.getLast_cons (a := first) (by simp)]
    exact name_le_getLast ordered (by simp) member

/-- A path belongs to the one project with the best score. Without any score the path is refused, and
if several projects have the best score, the refusal names the first and the last of them. -/
theorem owner_has_best_score (w : Workspace) (path : String) :
    (∀ p, w.owner path = .ok p ↔ ∀ q, w.IsBest path q ↔ q = p) ∧
    (w.owner path = .error (.ambiguousProject path "no project contains it") ↔
      ∀ p ∈ w.projects, ∀ s, ¬ p.Scores path s) ∧
    ((∃ p ∈ w.projects, ∃ s, p.Scores path s) → (¬ ∃ p, ∀ q, w.IsBest path q ↔ q = p) →
      ∃ first last, w.IsBest path first ∧ w.IsBest path last ∧ first.name < last.name ∧
        (∀ p, w.IsBest path p → first.name ≤ p.name ∧ p.name ≤ last.name) ∧
        w.owner path = .error (.ambiguousProject path
          ("claimed by both " ++ first.name ++ " and " ++ last.name))) := by
  refine ⟨fun p => ?_, ?_, ?_⟩
  · rw [owner_eq_ok_iff, bestClaimants_eq_singleton_iff]
  · rw [owner_eq_unclaimed_iff, bestClaimants_eq_nil_iff]
  · rintro ⟨p, member, s, scored⟩ shared
    simp only [← mem_bestClaimants]
    cases listed : w.bestClaimants path with
    | nil => exact absurd scored (bestClaimants_eq_nil_iff.1 listed p member s)
    | cons first others =>
      cases others with
      | nil => exact absurd ⟨first, bestClaimants_eq_singleton_iff.1 listed⟩ shared
      | cons second rest =>
        obtain ⟨last, inside, between, bounds, refused⟩ := owner_of_several listed
        rw [listed] at inside bounds
        exact ⟨first, last, List.mem_cons_self, inside, between, bounds, refused⟩

/-- Three projects share a root; the source root of a fourth one is longer, but only starts with the
same letters. -/
theorem owner_among_triplets :
    let project (name root : String) (sources : Option String) : Project :=
      ⟨name, root, sources, .library, []⟩
    let w := [project "one" "libs/x" none, project "outer" "libs" (some "libs/x/a.t"),
      project "three" "libs/x" none, project "two" "libs/x" none].foldl Workspace.addProject .empty
    let path := "libs/x/a.ts"
    w.owner path = .error (.ambiguousProject path "claimed by both one and two") ∧
      ∃ first last, w.IsBest path first ∧ w.IsBest path last ∧ first.name < last.name ∧
        (∀ p, w.IsBest path p → first.name ≤ p.name ∧ p.name ≤ last.name) ∧
        w.owner path = .error (.ambiguousProject path
          ("claimed by both " ++ first.name ++ " and " ++ last.name)) := by
  intro project w path
  have refused : w.owner path = .error (.ambiguousProject path "claimed by both one and two") := by
    decide +kernel
  have member : project "one" "libs/x" none ∈ w.projects := by decide +kernel
  have scored : (project "one" "libs/x" none).Scores path (toLex (6, false)) :=
    .root (fun dir declared => by cases declared) (by decide +kernel)
  obtain ⟨unique, -, shared⟩ := owner_has_best_score w path
  refine ⟨refused, shared ⟨_, member, _, scored⟩ ?_⟩
  rintro ⟨p, only⟩
  have owned := (unique p).2 only
  rw [refused] at owned
  cases owned

end Workspace
end Rehome
