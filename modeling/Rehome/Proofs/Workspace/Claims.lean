import Rehome.Proofs.Workspace.Projects

/-!
# The best claims to a path

The owner of a path is found in one pass over the projects, which keeps the best claim so far, the
first project that makes it and the last one that makes it again. Here this is compared with a
search in several passes: take all claims, look for the greatest rank, and list the projects that
reach it.
-/
namespace Rehome

/-- Better claims rank higher. -/
def Claim.rank (c : Claim) : Nat := 2 * c.length + c.bySources.toNat

namespace Claim

variable {c d : Claim}

theorem rank_injective (same : c.rank = d.rank) : c = d := by
  obtain ⟨m, b⟩ := c
  obtain ⟨n, b'⟩ := d
  cases b <;> cases b' <;> simp [rank] at same ⊢ <;> omega

theorem isBelow_iff : c.isBelow d = true ↔ c.rank < d.rank := by
  obtain ⟨m, b⟩ := c
  obtain ⟨n, b'⟩ := d
  cases b <;> cases b' <;> simp [isBelow, rank] <;> omega

end Claim

/-- The claims that projects make to a path, in their order. -/
def Project.claimsTo (path : String) (ps : List Project) : List (Claim × Project) :=
  ps.filterMap fun p => (p.claim? path).map (·, p)

namespace Standing

open Project (claimsTo)

variable {path : String} {ps : List Project} {s : Standing}

theorem claimsTo_concat (path : String) (ps : List Project) (q : Project) : claimsTo path (ps ++ [q]) =
    claimsTo path ps ++ ((q.claim? path).map (·, q)).toList := by
  rw [claimsTo, List.filterMap_append]
  cases claimed : q.claim? path <;> simp [claimsTo, claimed]

/-- What the standing after some projects says of their claims: no claim exceeds the best one, and
of the projects that make that claim the first one is kept, and the last one if it is another. -/
inductive Sums (path : String) (ps : List Project) : Standing → Prop
  | unclaimed (silent : claimsTo path ps = []) : Sums path ps ⟨none, none⟩
  | claimed {c : Claim} {p : Project} {others : List Project}
      (greatest : ∀ e ∈ claimsTo path ps, e.1.rank ≤ c.rank)
      (alike : ((claimsTo path ps).filter (·.1 = c)).map (·.2) = p :: others) :
      Sums path ps ⟨some (c, p), others.getLast?⟩

theorem Sums.alone {c : Claim} {p : Project} (greatest : ∀ e ∈ claimsTo path ps, e.1.rank ≤ c.rank)
    (alike : ((claimsTo path ps).filter (·.1 = c)).map (·.2) = [p]) :
    Sums path ps ⟨some (c, p), none⟩ :=
  have summed := Sums.claimed greatest alike
  summed

/-- One more project. Its claim is none, worse than the best one, the same, or better. -/
theorem Sums.next (h : Sums path ps s) (q : Project) : Sums path (ps ++ [q]) (s.next path q) := by
  have concat := claimsTo_concat path ps q
  unfold Standing.next
  cases found : q.claim? path with
  | none =>
    rw [found, Option.map_none, Option.toList_none, List.append_nil] at concat
    cases h with
    | unclaimed silent => exact .unclaimed (concat.trans silent)
    | claimed greatest alike => exact .claimed (concat ▸ greatest) (concat ▸ alike)
  | some d =>
    rw [found, Option.map_some, Option.toList_some] at concat
    cases h with
    | unclaimed silent =>
      rw [silent, List.nil_append] at concat
      exact .alone (by simp [concat]) (by simp [concat])
    | @claimed c p others greatest alike =>
      have bound (n : ℕ) (old : c.rank ≤ n) (new : d.rank ≤ n) :
          ∀ e ∈ claimsTo path (ps ++ [q]), e.1.rank ≤ n := by
        rw [concat, List.forall_mem_append, List.forall_mem_singleton]
        exact ⟨fun e member => (greatest e member).trans old, new⟩
      dsimp only
      split
      next below =>
        have less := Claim.isBelow_iff.1 below
        have differs : d ≠ c := fun same => by simp [same] at less
        exact .claimed (bound c.rank le_rfl less.le) (by simp [concat, differs, alike])
      next reaches =>
        split
        next same =>
          subst same
          have listed : ((claimsTo path (ps ++ [q])).filter (·.1 = d)).map (·.2) =
              p :: (others ++ [q]) := by simp [concat, alike]
          have last : some q = (others ++ [q]).getLast? := by simp
          rw [last]
          exact .claimed (bound d.rank le_rfl le_rfl) listed
        next differs =>
          have notBelow : ¬ d.rank < c.rank := fun less => reaches (Claim.isBelow_iff.2 less)
          have notSame : d.rank ≠ c.rank := fun same => differs (Claim.rank_injective same)
          have alone : (claimsTo path ps).filter (·.1 = d) = [] :=
            List.filter_eq_nil_iff.2 fun e member same => by
              have least := greatest e member
              rw [of_decide_eq_true same] at least
              omega
          exact .alone (bound d.rank (by omega) le_rfl) (by simp [concat, alone])

/-- The pass goes on with more projects. -/
theorem Sums.foldl (h : Sums path ps s) (later : List Project) :
    Sums path (ps ++ later) (later.foldl (Standing.next path) s) := by
  induction later generalizing ps s with
  | nil => rwa [List.append_nil]
  | cons q later ih =>
    have step := ih (h.next q)
    rwa [List.append_assoc] at step

/-- The whole pass. -/
theorem sums_foldl (path : String) (ps : List Project) :
    Sums path ps (ps.foldl (Standing.next path) start) :=
  have nothing : Sums path [] start := .unclaimed rfl
  nothing.foldl ps

end Standing

namespace Workspace

variable {w : Workspace} {path : String} {p : Project}

/-- The claims to a path in the order of the projects' names. -/
def claims (w : Workspace) (path : String) : List (Claim × Project) :=
  Project.claimsTo path w.projects

/-- The rank of the best claim to a path. -/
def bestRank (w : Workspace) (path : String) : Nat :=
  ((w.claims path).map (·.1.rank)).foldl max 0

/-- The projects whose claim no other exceeds. -/
def bestClaimants (w : Workspace) (path : String) : List Project :=
  ((w.claims path).filter (·.1.rank = w.bestRank path)).map (·.2)

theorem mem_claims {c : Claim} :
    (c, p) ∈ w.claims path ↔ p ∈ w.projects ∧ p.claim? path = some c := by
  simp [claims, Project.claimsTo, List.mem_filterMap]

theorem foldl_max_le_iff {l : List ℕ} {a n : ℕ} : l.foldl max a ≤ n ↔ a ≤ n ∧ ∀ m ∈ l, m ≤ n := by
  induction l generalizing a with
  | nil => simp
  | cons m l ih => simp [ih, and_assoc]

/-- The best rank is the least bound of all ranks. -/
theorem bestRank_le_iff {n : ℕ} :
    w.bestRank path ≤ n ↔ ∀ q ∈ w.projects, ∀ c, q.claim? path = some c → c.rank ≤ n := by
  unfold bestRank
  rw [foldl_max_le_iff, and_iff_right (Nat.zero_le n), List.forall_mem_map, Prod.forall]
  simp only [mem_claims, and_imp]
  exact ⟨fun h q member c => h c q member, fun h c q member => h q member c⟩

theorem rank_le_bestRank {c : Claim} (member : p ∈ w.projects) (claimed : p.claim? path = some c) :
    c.rank ≤ w.bestRank path :=
  bestRank_le_iff.1 le_rfl p member c claimed

/-- A claim that is made and that no other exceeds has the best rank. -/
theorem bestClaimants_eq_of_greatest {c : Claim} (greatest : ∀ e ∈ w.claims path, e.1.rank ≤ c.rank)
    (member : (c, p) ∈ w.claims path) :
    w.bestClaimants path = ((w.claims path).filter (·.1 = c)).map (·.2) := by
  obtain ⟨registered, claimed⟩ := mem_claims.1 member
  have best : w.bestRank path = c.rank :=
    le_antisymm (bestRank_le_iff.2 fun q other d claimed' => greatest _ (mem_claims.2 ⟨other, claimed'⟩))
      (rank_le_bestRank registered claimed)
  rw [bestClaimants, best]
  congr 2
  funext e
  exact decide_eq_decide.2 ⟨Claim.rank_injective, congrArg Claim.rank⟩

/-- The one pass gives the best claimant if there is one, and else names the first and the last. -/
theorem owner_eq (w : Workspace) (path : String) : w.owner path =
    match w.bestClaimants path with
    | [] => .error (.ambiguousProject path "no project contains it")
    | [p] => .ok p
    | p :: q :: rest =>
      .error (.ambiguousProject path
        ("claimed by both " ++ p.name ++ " and " ++ ((q :: rest).getLast (by simp)).name)) := by
  have pass : Standing.Sums path w.projects (w.projects.foldl (Standing.next path) .start) :=
    Standing.sums_foldl path w.projects
  unfold owner
  generalize w.projects.foldl (Standing.next path) .start = standing at pass
  cases pass with
  | unclaimed silent =>
    have empty : w.bestClaimants path = [] := by simp [bestClaimants, claims, silent]
    simp [empty]
  | @claimed c p others greatest alike =>
    have made : ∃ e ∈ w.claims path, e.1 = c := by
      have first : p ∈ ((w.claims path).filter (·.1 = c)).map (·.2) := by
        rw [claims, alike]
        exact List.mem_cons_self
      obtain ⟨e, member, -⟩ := List.mem_map.1 first
      exact ⟨e, (List.mem_filter.1 member).1, of_decide_eq_true (List.mem_filter.1 member).2⟩
    obtain ⟨⟨_, q⟩, member, rfl⟩ := made
    rw [bestClaimants_eq_of_greatest greatest member, claims, alike]
    cases others with
    | nil => rfl
    | cons q rest => rw [List.getLast?_eq_some_getLast (List.cons_ne_nil q rest)]

theorem mem_bestClaimants_iff : p ∈ w.bestClaimants path ↔
    ∃ c, (p ∈ w.projects ∧ p.claim? path = some c) ∧ c.rank = w.bestRank path := by
  simp [bestClaimants, List.mem_map, mem_claims]

theorem owner_eq_ok_iff : w.owner path = .ok p ↔ w.bestClaimants path = [p] := by
  rw [owner_eq]
  split
  next none => simp [none]
  next q single => simp [single]
  next several => simp [several]

/-- The owner of a path is a registered project. -/
theorem owner_mem (h : w.owner path = .ok p) : p ∈ w.projects := by
  have chosen : p ∈ w.bestClaimants path := by
    rw [owner_eq_ok_iff.1 h]
    exact List.mem_singleton_self p
  obtain ⟨c, ⟨member, -⟩, -⟩ := mem_bestClaimants_iff.1 chosen
  exact member

end Workspace
end Rehome
