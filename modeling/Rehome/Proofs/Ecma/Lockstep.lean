import Mathlib.Data.List.TakeWhile
import Rehome.Proofs.Ecma.Misses
import Rehome.Proofs.Ecma.Relabel

/-!
# Two texts read in step

A rule looks at the kinds of tokens only. Followed through two texts that are the same but for some
string literals, it does the same in both, with other literals in their places, as long as it never
looks at a token that runs across such a literal. A reading that counts cannot do so and still find
the literal. So only tokens that were looked at in readings that were given up can make a difference,
and without types no reading is given up.
-/
namespace Rehome.Ecma

open Text (width)

/-! ## What a rule looks at -/

/-- A token that was looked at, and where the reader stood. -/
structure Glance where
  offset : Nat
  lexeme : Lexeme

/-- The token is read from before a place, and runs across it. -/
def Glance.Crosses (g : Glance) (s : Nat) : Prop := g.offset ≤ s ∧ g.lexeme.Overruns s

instance (g : Glance) (s : Nat) : Decidable (g.Crosses s) :=
  inferInstanceAs (Decidable (_ ∧ _))

/-- How a rule ends, all that it looked at on its way, and what of it in readings that it gave up. -/
structure Watched (α : Type) where
  outcome : Outcome α
  seen : List Glance
  givenUp : List Glance

namespace Watched

/-- What was looked at before comes first. -/
def after {α β : Type} (first : Watched α) (second : Watched β) : Watched β :=
  { second with seen := first.seen ++ second.seen, givenUp := first.givenUp ++ second.givenUp }

/-- A second reading after a first one that was given up. -/
def instead {α β : Type} (first : Watched α) (second : Watched β) : Watched β :=
  { second with seen := first.seen ++ second.seen, givenUp := first.seen ++ second.givenUp }

/-- Repeats a step with what it answered before, until it answers nothing. -/
def iterate {σ : Type} (step : σ → Reader → Watched (Option σ)) : Nat → σ → Reader → Watched σ
  | 0, _, r => ⟨.failed r, [], []⟩
  | n + 1, s, r =>
    let first := step s r
    match first.outcome with
    | .ok (some s) r' =>
      if r'.left < r.left then first.after (iterate step n s r')
      else ⟨.failed r', first.seen, first.givenUp⟩
    | .ok none r => ⟨.ok s r, first.seen, first.givenUp⟩
    | .failed r => ⟨.failed r, first.seen, first.givenUp⟩

end Watched

/-- The look at the next token. -/
def Reader.glance (r : Reader) : Glance := ⟨r.offset, r.next⟩

/-- The looks at the next two tokens. -/
def Reader.glancesAhead (r : Reader) : List Glance :=
  r.glance :: if r.next.token.kind.leadsOn then [⟨r.next.token.stop, r.ahead⟩] else []

namespace Rule

variable {N : Type}

/-- Follows a rule and watches what it looks at. -/
def watch (follow : N → Context → Reader → Watched Unit) :
    {α : Type} → Rule N α → Context → Reader → Watched α
  | _, done a, _, r => ⟨.ok a r, [], []⟩
  | _, andThen p k, c, r =>
    let first := watch follow p c r
    match first.outcome with
    | .ok a r => first.after (watch follow (k a) c r)
    | .failed r => ⟨.failed r, first.seen, first.givenUp⟩
  | _, fail, _, r => ⟨.failed r, [], []⟩
  | _, look, _, r => ⟨.ok r.look r, [r.glance], []⟩
  | _, lookAhead, _, r => ⟨.ok r.lookAhead r, r.glancesAhead, []⟩
  | _, take mode, _, r =>
    ⟨if r.next.token.kind.isPresent then .ok () (r.take mode) else .failed r, [r.glance], []⟩
  | _, rescan mode, _, r => ⟨.ok () (r.rescan mode), [r.glance], []⟩
  | _, mark, _, r => ⟨.ok r.height r, [], []⟩
  | _, wrap kind height, _, r => ⟨.ok () (r.wrap kind height), [], []⟩
  | _, forget height, _, r => ⟨.ok () (r.forget height), [], []⟩
  | _, ask query, _, r => ⟨.ok (r.ask query) r, [], []⟩
  | _, context, c, r => ⟨.ok c r, [], []⟩
  | _, within change p, c, r => watch follow p (c.change change) r
  | _, attempt p q, c, r =>
    if c.typescript then
      let first := watch follow p c r
      match first.outcome with
      | .ok _ _ => first
      | .failed _ => first.instead (watch follow q c r)
    else watch follow q c r
  | _, recover p q, c, r =>
    let first := watch follow p c r
    match first.outcome with
    | .ok _ _ => first
    | .failed r => first.after (watch follow q c r)
  | _, probe p, c, r =>
    if c.typescript then
      let first := watch follow p c r
      match first.outcome with
      | .ok b _ => first.instead ⟨.ok b r, [], []⟩
      | .failed _ => first.instead ⟨.ok false r, [], []⟩
    else ⟨.ok false r, [], []⟩
  | _, call n, c, r => follow n c r
  | _, iterate body s, c, r => Watched.iterate (fun s => watch follow (body s) c) r.left s r

/-- Follows a nonterminal, and those that its rule calls, and watches what is looked at. -/
def enterWatched (rules : N → Rule N Unit) (deeper : N → Context → Reader → Watched Unit) :
    Nat → N → Context → Reader → Watched Unit
  | 0, _, _, r => ⟨.failed r, [], []⟩
  | n + 1, m, c, r =>
    (rules m).watch (fun m c r' =>
      if r'.left < r.left then deeper m c r' else enterWatched rules deeper n m c r') c r

/-- Follows a nonterminal where at most `n` tokens are left, and watches what is looked at. -/
def followWatched (rules : N → Rule N Unit) : Nat → N → Context → Reader → Watched Unit
  | 0, _, _, r => ⟨.failed r, [], []⟩
  | n + 1, m, c, r => enterWatched rules (followWatched rules n) chainLimit m c r

end Rule

theorem Watched.outcome_iterate {σ : Type} {step : σ → Reader → Watched (Option σ)}
    {step' : σ → Reader → Outcome (Option σ)} (same : ∀ s r, (step s r).outcome = step' s r)
    (n : Nat) (s : σ) (r : Reader) :
    (Watched.iterate step n s r).outcome = Outcome.iterate step' n s r := by
  induction n generalizing s r with
  | zero => rfl
  | succ n ih =>
    rw [Watched.iterate, Outcome.iterate, ← same]
    cases (step s r).outcome with
    | failed r' => rfl
    | ok again r' =>
      cases again with
      | none => rfl
      | some s' =>
        dsimp only
        split
        · exact ih s' r'
        · rfl

namespace Rule

variable {N : Type}

/-- Watching changes nothing. -/
theorem outcome_watch {follow : N → Context → Reader → Watched Unit}
    {follow' : N → Context → Reader → Outcome Unit}
    (same : ∀ n c r, (follow n c r).outcome = follow' n c r) {α : Type} (p : Rule N α) (c : Context)
    (r : Reader) : (p.watch follow c r).outcome = p.run follow' c r := by
  induction p generalizing c r with
  | andThen p k ihp ihk =>
    rw [watch, run, ← ihp]
    cases (p.watch follow c r).outcome with
    | failed r => rfl
    | ok a r => exact ihk a c r
  | within change p ih => exact ih (c.change change) r
  | attempt p q ihp ihq =>
    rw [watch, run, ← ihp]
    split
    · dsimp only
      cases answered : (p.watch follow c r).outcome with
      | failed r' => exact ihq c r
      | ok a r' => exact answered
    · exact ihq c r
  | recover p q ihp ihq =>
    rw [watch, run, ← ihp]
    cases answered : (p.watch follow c r).outcome with
    | failed r' => exact ihq c r'
    | ok a r' => exact answered
  | probe p ih =>
    rw [watch, run, ← ih]
    split
    · dsimp only
      cases (p.watch follow c r).outcome with
      | failed r' => rfl
      | ok b r' => rfl
    · rfl
  | call n => exact same n c r
  | iterate body s ih => exact Watched.outcome_iterate (fun s r => ih s c r) r.left s r
  | _ => rfl

theorem outcome_enterWatched (rules : N → Rule N Unit)
    {deeper : N → Context → Reader → Watched Unit} {deeper' : N → Context → Reader → Outcome Unit}
    (same : ∀ m c r, (deeper m c r).outcome = deeper' m c r) (n : Nat) (m : N) (c : Context)
    (r : Reader) : (enterWatched rules deeper n m c r).outcome = enter rules deeper' n m c r := by
  induction n generalizing m c r with
  | zero => rfl
  | succ n ih =>
    refine outcome_watch (fun m c r' => ?_) (rules m) c r
    split
    · exact same m c r'
    · exact ih m c r'

theorem outcome_followWatched (rules : N → Rule N Unit) (n : Nat) (m : N) (c : Context)
    (r : Reader) : (followWatched rules n m c r).outcome = follow rules n m c r := by
  induction n generalizing m c r with
  | zero => rfl
  | succ n ih => exact outcome_enterWatched rules ih chainLimit m c r

/-- Without types no reading is given up. -/
theorem givenUp_watch {follow : N → Context → Reader → Watched Unit}
    (calls : ∀ n c r, c.typescript = false → (follow n c r).givenUp = []) {α : Type} (p : Rule N α)
    (c : Context) (r : Reader) (plain : c.typescript = false) :
    (p.watch follow c r).givenUp = [] := by
  induction p generalizing c r with
  | andThen p k ihp ihk =>
    have first := ihp c r plain
    rw [watch]
    split
    · simp [Watched.after, first, ihk _ c _ plain]
    · exact first
  | within change p ih => exact ih (c.change change) r plain
  | attempt p q ihp ihq =>
    rw [watch, if_neg (by simp [plain])]
    exact ihq c r plain
  | recover p q ihp ihq =>
    have first := ihp c r plain
    rw [watch]
    split
    · exact first
    · simp [Watched.after, first, ihq c _ plain]
  | probe p ih => rw [watch, if_neg (by simp [plain])]
  | call n => exact calls n c r plain
  | iterate body s ih =>
    rw [watch]
    generalize r.left = n
    induction n generalizing s r with
    | zero => rfl
    | succ n more =>
      have first := ih s c r plain
      rw [Watched.iterate]
      split
      · split
        · simp [Watched.after, first, more]
        · exact first
      · exact first
      · exact first
  | _ => rfl

theorem givenUp_enterWatched (rules : N → Rule N Unit)
    {deeper : N → Context → Reader → Watched Unit}
    (calls : ∀ m c r, c.typescript = false → (deeper m c r).givenUp = []) (n : Nat) (m : N)
    (c : Context) (r : Reader) (plain : c.typescript = false) :
    (enterWatched rules deeper n m c r).givenUp = [] := by
  induction n generalizing m c r with
  | zero => rfl
  | succ n ih =>
    refine givenUp_watch (fun m c r' plain => ?_) (rules m) c r plain
    split
    · exact calls m c r' plain
    · exact ih m c r' plain

theorem givenUp_followWatched (rules : N → Rule N Unit) (n : Nat) (m : N) (c : Context)
    (r : Reader) (plain : c.typescript = false) : (followWatched rules n m c r).givenUp = [] := by
  induction n generalizing m c r with
  | zero => rfl
  | succ n ih => exact givenUp_enterWatched rules ih chainLimit m c r plain

end Rule

/-! ## Two readers -/

/-- Two readers that have taken corresponding tokens and stand at corresponding places of two texts
that are the same but for swapped literals. They have taken equally many tokens since `m` and `m'`
were left. -/
structure Reader.InStep (place : Nat → Prop) (f : Token → Token) (m m' : Nat) (r r' : Reader) :
    Prop where
  texts : ∃ ps tail, r.input = Swap.source ps tail ∧ r'.input = Swap.result ps tail ∧
    Swap.Aligned place f r.offset r'.offset ps tail
  modes : ∃ mode, r.next = Lexeme.read mode r.offset r.input ∧
    r'.next = Lexeme.read mode r'.offset r'.input
  stack : r'.stack = r.stack.map (Tree.map f)
  height : r'.height = r.height
  passed : ∀ t ∈ r.tokens, t.stop ≤ r.offset
  lefts : ∃ k, r.left + k = m ∧ r'.left + k = m'
  room : r.input.length < r.left
  room' : r'.input.length < r'.left

/-- What was looked at and matters: all of it in a reading that is given up. -/
def Watched.weighed {α : Type} (strict : Bool) (w : Watched α) : List Glance :=
  if strict then w.seen else w.givenUp

/-- What was looked at runs across no place of an old literal. -/
def Spared (place : Nat → Prop) (gs : List Glance) : Prop := ∀ g ∈ gs, ∀ s, place s → ¬ g.Crosses s

namespace Reader.InStep

variable {place : Nat → Prop} {f : Token → Token} {m m' : Nat} {r r' s s' : Reader}

/-- The tokens may be counted from where the readers stand. -/
theorem rebase (step : r.InStep place f m m' r') : r.InStep place f r.left r'.left r' :=
  { step with lefts := ⟨0, rfl, rfl⟩ }

/-- Readers that are in step since two others in step have been so as long as those. -/
theorem since (later : s.InStep place f r.left r'.left s') (step : r.InStep place f m m' r') :
    s.InStep place f m m' s' := by
  obtain ⟨k, left, left'⟩ := step.lefts
  obtain ⟨j, more, more'⟩ := later.lefts
  exact { later with lefts := ⟨j + k, by omega, by omega⟩ }

/-- One of the readers has taken a token since if the other one has. -/
theorem left_lt_iff (later : s.InStep place f m m' s') (step : r.InStep place f m m' r') :
    s'.left < r'.left ↔ s.left < r.left := by
  obtain ⟨k, left, left'⟩ := step.lefts
  obtain ⟨j, more, more'⟩ := later.lefts
  omega

theorem misses (step : r.InStep place f m m' r') {s : Nat} (crosses : r.glance.Crosses s) :
    r.Misses s := by
  obtain ⟨mode, next, -⟩ := step.modes
  refine ⟨⟨mode, next⟩, fun t member _ _ => ?_, .inr (.inl crosses.2)⟩
  exact Nat.le_trans (step.passed t member) crosses.1

/-- The next tokens correspond, or the first reader misses a literal. -/
theorem next (step : r.InStep place f m m' r') :
    (∃ s, place s ∧ r.glance.Crosses s) ∨ Lexeme.Aligned place f r.next r'.next := by
  obtain ⟨ps, tail, input, input', aligned⟩ := step.texts
  obtain ⟨mode, next, next'⟩ := step.modes
  rw [next, next', input, input']
  refine (aligned.read mode).imp_left ?_
  rintro ⟨s, here, after, overruns⟩
  exact ⟨s, here, after, by simpa [glance, next, input] using overruns⟩

/-- In a reading where the look at the next token matters, the tokens correspond. -/
theorem next_or (step : r.InStep place f m m' r') {α : Type} {strict : Bool} {w : Watched α}
    (spared : Spared place (w.weighed strict)) (looked : r.glance ∈ w.seen) :
    Lexeme.Aligned place f r.next r'.next ∨ strict = false ∧ ∃ s, place s ∧ r.Misses s := by
  rcases step.next with ⟨s, here, crosses⟩ | aligned
  · cases strict with
    | true => exact absurd crosses (spared _ looked s here)
    | false => exact .inr ⟨rfl, s, here, step.misses crosses⟩
  · exact .inl aligned

/-- The same for the tokens after them, if the next token leads on. -/
theorem ahead (step : r.InStep place f m m' r') (aligned : Lexeme.Aligned place f r.next r'.next)
    (leads : r.next.token.kind.leadsOn = true) :
    (∃ s, place s ∧ (⟨r.next.token.stop, r.ahead⟩ : Glance).Crosses s ∧ r.Misses s) ∨
      Lexeme.Aligned place f r.ahead r'.ahead := by
  obtain ⟨mode, next, -⟩ := step.modes
  have start := Lexeme.le_start mode r.offset r.input
  have stop := Lexeme.start_le_stop mode r.offset r.input
  rw [← next] at start stop
  obtain ⟨ps, tail, rest, rest', later⟩ := aligned.rest
  rcases later.read .plain with ⟨s, here, after, overruns⟩ | alike
  · left
    have overrun : r.ahead.Overruns s := by
      unfold Reader.ahead
      rwa [rest]
    refine ⟨s, here, ⟨after, overrun⟩, ⟨mode, next⟩, fun t member _ _ => ?_,
      .inr (.inr (.inr ⟨leads, overrun⟩))⟩
    have before := step.passed t member
    omega
  · right
    unfold Reader.ahead
    rwa [rest, rest']

theorem look (aligned : Lexeme.Aligned place f r.next r'.next) : r'.look = r.look := by
  rw [Reader.look, Reader.look, aligned.kind, aligned.newline]

/-- A look ahead gives the same answer, or meets a token that runs across a literal. -/
theorem lookAhead (step : r.InStep place f m m' r') (aligned : Lexeme.Aligned place f r.next r'.next) :
    (∃ s, place s ∧ ∃ g ∈ r.glancesAhead, g.Crosses s ∧ r.Misses s) ∨
      r'.lookAhead = r.lookAhead := by
  unfold Reader.lookAhead
  rw [aligned.kind]
  by_cases leads : r.next.token.kind.leadsOn = true
  · rw [if_pos leads, if_pos leads]
    rcases step.ahead aligned leads with ⟨s, here, crosses, missed⟩ | later
    · exact .inl ⟨s, here, _, by simp [glancesAhead, leads], crosses, missed⟩
    · exact .inr (by rw [later.kind, later.newline])
  · rw [if_neg leads, if_neg leads]
    exact .inr rfl

theorem take (step : r.InStep place f m m' r') (aligned : Lexeme.Aligned place f r.next r'.next)
    (present : r.next.token.kind.isPresent = true) (mode : ScanMode) :
    (r.take mode).InStep place f m m' (r'.take mode) := by
  obtain ⟨current, next, next'⟩ := step.modes
  obtain ⟨k, left, left'⟩ := step.lefts
  have start := Lexeme.le_start current r.offset r.input
  have stop := Lexeme.start_le_stop current r.offset r.input
  have present' : r'.next.token.kind.isPresent = true := aligned.kind ▸ present
  have shorter : r.next.rest.length < r.input.length := by
    rw [next] at present ⊢
    exact Lexeme.rest_length_lt present
  have shorter' : r'.next.rest.length < r'.input.length := by
    rw [next'] at present' ⊢
    exact Lexeme.rest_length_lt present'
  have room := step.room
  have room' := step.room'
  rw [← next] at start stop
  refine ⟨aligned.rest, ⟨mode.after r.next.token.kind, rfl, ?_⟩, ?_, ?_, ?_, ⟨k + 1, ?_, ?_⟩, ?_, ?_⟩
  · simp only [Reader.take, aligned.kind]
  · simp only [Reader.take, List.map_cons, Tree.map, step.stack, aligned.token]
  · simp only [Reader.take, step.height]
  · intro t member
    rw [tokens_take, List.mem_append, List.mem_singleton] at member
    simp only [Reader.take]
    rcases member with old | rfl
    · have before := step.passed t old
      omega
    · exact Nat.le_refl _
  all_goals
    simp only [Reader.take]
    omega

theorem rescan (step : r.InStep place f m m' r') (aligned : Lexeme.Aligned place f r.next r'.next)
    (mode : ScanMode) : (r.rescan mode).InStep place f m m' (r'.rescan mode) := by
  unfold Reader.rescan
  rw [aligned.kind]
  split
  · exact { step with modes := ⟨mode, rfl, rfl⟩ }
  · exact step

theorem wrap (step : r.InStep place f m m' r') (kind : NodeKind) (height : Nat) :
    (r.wrap kind height).InStep place f m m' (r'.wrap kind height) := by
  refine ⟨step.texts, step.modes, ?_, ?_, ?_, step.lefts, step.room, step.room'⟩
  · simp only [Reader.wrap, step.stack, step.height, List.map_cons, Tree.map, Tree.mapAll_eq,
      List.map_reverse, List.map_take, List.map_drop]
  · simp only [Reader.wrap, step.height]
  · rw [tokens_wrap]
    exact step.passed

theorem forget (step : r.InStep place f m m' r') (height : Nat) :
    (r.forget height).InStep place f m m' (r'.forget height) := by
  refine ⟨step.texts, step.modes, ?_, ?_, ?_, step.lefts, step.room, step.room'⟩
  · simp only [Reader.forget, step.stack, step.height, List.map_drop]
  · simp only [Reader.forget, step.height]
  · exact fun t member => step.passed t ((r.tokens_forget height).subset member)

theorem ask (step : r.InStep place f m m' r') (kinds : ∀ t, (f t).kind = t.kind) (query : Query) :
    r'.ask query = r.ask query := by
  unfold Reader.ask
  rw [step.stack]
  cases r.stack with
  | nil => rfl
  | cons t ts => exact query.holds_map kinds t

end Reader.InStep

/-! ## Two runs -/

/-- Two outcomes that agree, with readers in step. -/
inductive Outcome.InStep (place : Nat → Prop) (f : Token → Token) (m m' : Nat) {α : Type} :
    Outcome α → Outcome α → Prop
  | ok (a : α) {r r' : Reader} (step : r.InStep place f m m' r') :
      InStep place f m m' (.ok a r) (.ok a r')
  | failed {r r' : Reader} (step : r.InStep place f m m' r') :
      InStep place f m m' (.failed r) (.failed r')

/-- Two outcomes that agree, unless the first reading counts and has missed a literal. -/
def Outcome.Parallel (place : Nat → Prop) (f : Token → Token) (m m' : Nat) (strict : Bool)
    {α : Type} (first second : Outcome α) : Prop :=
  first.InStep place f m m' second ∨ strict = false ∧ ∃ s, place s ∧ first.reader.Misses s

/-- A reading that is given up may not miss a literal. -/
theorem Outcome.Parallel.inStep {place : Nat → Prop} {f : Token → Token} {m m' : Nat} {α : Type}
    {first second : Outcome α} (parallel : first.Parallel place f m m' true second) :
    first.InStep place f m m' second := by
  rcases parallel with agree | ⟨loose, -⟩
  · exact agree
  · cases loose

theorem Outcome.Parallel.since {place : Nat → Prop} {f : Token → Token} {m m' : Nat} {strict : Bool}
    {α : Type} {first second : Outcome α} {r r' : Reader}
    (parallel : first.Parallel place f r.left r'.left strict second)
    (step : r.InStep place f m m' r') : first.Parallel place f m m' strict second := by
  refine parallel.imp_left fun agree => ?_
  cases agree with
  | ok a later => exact .ok a (later.since step)
  | failed later => exact .failed (later.since step)

namespace Rule

variable {N : Type} {place : Nat → Prop} {f : Token → Token}
  {follow : N → Context → Reader → Watched Unit}

/-- No rule that is watched brings a missed literal back. -/
theorem watch_misses {s : Nat} (calls : ∀ n c r, r.Misses s → (follow n c r).outcome.reader.Misses s)
    {α : Type} (p : Rule N α) (c : Context) (r : Reader) (missed : r.Misses s) :
    (p.watch follow c r).outcome.reader.Misses s := by
  rw [outcome_watch fun _ _ _ => rfl]
  exact Rule.run_keeps (Reader.lasting_misses s) calls p c r missed

end Rule

theorem Spared.mono {place : Nat → Prop} {gs hs : List Glance} (spared : Spared place hs)
    (fewer : gs ⊆ hs) : Spared place gs :=
  fun g member => spared g (fewer member)

namespace Watched

variable {α β : Type} (strict : Bool) (first : Watched α) (second : Watched β)

theorem weighed_after :
    (first.after second).weighed strict = first.weighed strict ++ second.weighed strict := by
  cases strict <;> rfl

theorem weighed_instead :
    (first.instead second).weighed strict = first.weighed true ++ second.weighed strict := by
  cases strict <;> rfl

theorem weighed_iterate {σ : Type} (step : σ → Reader → Watched (Option σ)) (n : Nat) (s : σ)
    (r : Reader) : (step s r).weighed strict ⊆ (Watched.iterate step (n + 1) s r).weighed strict := by
  rw [Watched.iterate]
  split
  · split
    · rw [weighed_after]
      exact List.subset_append_left ..
    · exact List.Subset.refl _
  · exact List.Subset.refl _
  · exact List.Subset.refl _

end Watched

/-- Two readers in step stay in step while a step is repeated. -/
theorem Watched.iterate_parallel {place : Nat → Prop} {f : Token → Token} {m m' : Nat}
    {strict : Bool} {σ : Type} {step step' : σ → Reader → Watched (Option σ)}
    (once : ∀ s r r', r.InStep place f m m' r' → Spared place ((step s r).weighed strict) →
      (step s r).outcome.Parallel place f m m' strict (step' s r').outcome)
    (keeps : ∀ k s r, r.Misses k → (step s r).outcome.reader.Misses k) {n n' : Nat} (s : σ)
    {r r' : Reader} (together : r.InStep place f m m' r') (enough : r.left ≤ n)
    (enough' : r'.left ≤ n') (spared : Spared place ((Watched.iterate step n s r).weighed strict)) :
    (Watched.iterate step n s r).outcome.Parallel place f m m' strict
      (Watched.iterate step' n' s r').outcome := by
  have lasts : ∀ (k n : Nat) (s : σ) (r : Reader), r.Misses k →
      (Watched.iterate step n s r).outcome.reader.Misses k := by
    intro k n s r missed
    rw [Watched.outcome_iterate fun _ _ => rfl]
    exact Outcome.iterate_keeps (keeps k) n s r missed
  -- A reader has room for a token as long as the step goes on, so neither count comes to its end.
  induction n generalizing n' s r r' with
  | zero => exact absurd together.room (by omega)
  | succ n ih =>
    obtain ⟨n', rfl⟩ : ∃ k, n' = k + 1 :=
      Nat.exists_eq_add_one_of_ne_zero (by have := together.room'; omega)
    have first := once s r r' together (spared.mono (weighed_iterate strict step n s r))
    rw [Watched.iterate] at spared
    rw [Watched.iterate, Watched.iterate]
    generalize step s r = w at first spared ⊢
    generalize step' s r' = w' at first ⊢
    obtain ⟨o, seen, givenUp⟩ := w
    obtain ⟨o', seen', givenUp'⟩ := w'
    rcases first with agree | ⟨loose, k, here, missed⟩
    · cases agree with
      | failed later => exact .inl (.failed later)
      | ok again later =>
        cases again with
        | none => exact .inl (.ok s later)
        | some next =>
          dsimp only at spared ⊢
          have alike := later.left_lt_iff together
          split at spared
          next taken =>
            rw [if_pos taken, if_pos (alike.2 taken)]
            refine ih next later (by omega) (by have := alike.2 taken; omega) (spared.mono ?_)
            rw [Watched.weighed_after]
            exact List.subset_append_right ..
          next idle =>
            rw [if_neg idle, if_neg (mt alike.1 idle)]
            exact .inl (.failed later)
    · refine .inr ⟨loose, k, here, ?_⟩
      cases o with
      | failed r => exact missed
      | ok again r =>
        cases again with
        | none => exact missed
        | some next =>
          dsimp only
          split
          · exact lasts k n next r missed
          · exact missed

namespace Rule

variable {N : Type} {place : Nat → Prop} {f : Token → Token}
  {m m' : Nat} {follow follow' : N → Context → Reader → Watched Unit}

theorem weighed_andThen (strict : Bool) {α β : Type} (p : Rule N α) (k : α → Rule N β) (c : Context)
    (r : Reader) :
    (p.watch follow c r).weighed strict ⊆ ((andThen p k).watch follow c r).weighed strict := by
  rw [watch]
  split
  · rw [Watched.weighed_after]
    exact List.subset_append_left ..
  · exact List.Subset.refl _

theorem weighed_recover (strict : Bool) {α : Type} (p q : Rule N α) (c : Context) (r : Reader) :
    (p.watch follow c r).weighed strict ⊆ ((recover p q).watch follow c r).weighed strict := by
  rw [watch]
  split
  · exact List.Subset.refl _
  · rw [Watched.weighed_after]
    exact List.subset_append_left ..

/-- Two readers in step stay in step along every rule, unless a reading that counts misses a
literal. -/
theorem watch_parallel (kinds : ∀ t, (f t).kind = t.kind)
    (keeps : ∀ s n c r, r.Misses s → (follow n c r).outcome.reader.Misses s)
    (calls : ∀ strict n c r r', r.InStep place f m m' r' → Spared place ((follow n c r).weighed strict) →
      (follow n c r).outcome.Parallel place f m m' strict (follow' n c r').outcome)
    {α : Type} (p : Rule N α) (strict : Bool) (c : Context) {r r' : Reader}
    (step : r.InStep place f m m' r') (spared : Spared place ((p.watch follow c r).weighed strict)) :
    (p.watch follow c r).outcome.Parallel place f m m' strict (p.watch follow' c r').outcome := by
  induction p generalizing strict c r r' with
  | done a => exact .inl (.ok a step)
  | andThen p k ihp ihk =>
    have first := ihp strict c step (spared.mono (weighed_andThen strict p k c r))
    rw [watch] at spared
    rw [watch, watch]
    generalize p.watch follow c r = w at first spared ⊢
    generalize p.watch follow' c r' = w' at first ⊢
    obtain ⟨o, seen, givenUp⟩ := w
    obtain ⟨o', seen', givenUp'⟩ := w'
    rcases first with agree | ⟨loose, s, here, missed⟩
    · cases agree with
      | ok a later =>
        refine ihk a strict c later (spared.mono ?_)
        rw [Watched.weighed_after]
        exact List.subset_append_right ..
      | failed later => exact .inl (.failed later)
    · refine .inr ⟨loose, s, here, ?_⟩
      cases o with
      | ok a r => exact watch_misses (keeps s) (k a) c r missed
      | failed r => exact missed
  | fail => exact .inl (.failed step)
  | look =>
    rcases step.next_or spared List.mem_cons_self with aligned | ⟨loose, s, here, missed⟩
    · have same : (watch follow' look c r').outcome = .ok r.look r' := by
        rw [watch, Reader.InStep.look aligned]
      rw [same]
      exact .inl (.ok _ step)
    · exact .inr ⟨loose, s, here, missed⟩
  | lookAhead =>
    rcases step.next_or spared List.mem_cons_self with aligned | ⟨loose, s, here, missed⟩
    · rcases step.lookAhead aligned with ⟨s, here, g, looked, crosses, missed⟩ | same
      · cases strict with
        | true => exact absurd crosses (spared g looked s here)
        | false => exact .inr ⟨rfl, s, here, missed⟩
      · have answers : (watch follow' lookAhead c r').outcome = .ok r.lookAhead r' := by
          rw [watch, same]
        rw [answers]
        exact .inl (.ok _ step)
    · exact .inr ⟨loose, s, here, missed⟩
  | take mode =>
    rcases step.next_or spared List.mem_cons_self with aligned | ⟨loose, s, here, missed⟩
    · left
      rw [watch, watch, aligned.kind]
      dsimp only
      split
      next present => exact .ok () (step.take aligned present mode)
      next => exact .failed step
    · exact .inr ⟨loose, s, here, watch_misses (keeps s) (take mode) c r missed⟩
  | rescan mode =>
    rcases step.next_or spared List.mem_cons_self with aligned | ⟨loose, s, here, missed⟩
    · exact .inl (.ok () (step.rescan aligned mode))
    · exact .inr ⟨loose, s, here, missed.rescan mode⟩
  | mark =>
    have same : (watch follow' mark c r').outcome = .ok r.height r' := by rw [watch, step.height]
    rw [same]
    exact .inl (.ok _ step)
  | wrap kind height => exact .inl (.ok () (step.wrap kind height))
  | forget height => exact .inl (.ok () (step.forget height))
  | ask query =>
    have same : (watch follow' (ask query) c r').outcome = .ok (r.ask query) r' := by
      rw [watch, step.ask kinds]
    rw [same]
    exact .inl (.ok _ step)
  | context => exact .inl (.ok c step)
  | within change p ih => exact ih strict (c.change change) step spared
  | attempt p q ihp ihq =>
    have counts := ihp strict c step
    have givenUp := ihp true c step
    rw [watch] at spared
    rw [watch, watch]
    by_cases typed : c.typescript = true
    · rw [if_pos typed] at spared ⊢
      rw [if_pos typed]
      generalize p.watch follow c r = w at counts givenUp spared ⊢
      generalize p.watch follow' c r' = w' at counts givenUp ⊢
      obtain ⟨o, seen, lost⟩ := w
      obtain ⟨o', seen', lost'⟩ := w'
      -- the first reading counts if it succeeds, and is given up if it fails
      cases o with
      | ok a r₁ =>
        rcases counts spared with agree | missed
        · cases agree with
          | ok _ later => exact .inl (.ok a later)
        · exact .inr missed
      | failed r₁ =>
        rw [Watched.weighed_instead] at spared
        cases (givenUp (spared.mono (List.subset_append_left ..))).inStep with
        | failed _ => exact ihq strict c step (spared.mono (List.subset_append_right ..))
    · rw [if_neg typed] at spared ⊢
      rw [if_neg typed]
      exact ihq strict c step spared
  | recover p q ihp ihq =>
    have first := ihp strict c step (spared.mono (weighed_recover strict p q c r))
    rw [watch] at spared
    rw [watch, watch]
    generalize p.watch follow c r = w at first spared ⊢
    generalize p.watch follow' c r' = w' at first ⊢
    obtain ⟨o, seen, givenUp⟩ := w
    obtain ⟨o', seen', givenUp'⟩ := w'
    rcases first with agree | ⟨loose, s, here, missed⟩
    · cases agree with
      | ok a later => exact .inl (.ok a later)
      | failed later =>
        refine ihq strict c later (spared.mono ?_)
        rw [Watched.weighed_after]
        exact List.subset_append_right ..
    · refine .inr ⟨loose, s, here, ?_⟩
      cases o with
      | ok a r => exact missed
      | failed r => exact watch_misses (keeps s) q c r missed
  | probe p ih =>
    have givenUp := ih true c step
    rw [watch] at spared
    rw [watch, watch]
    by_cases typed : c.typescript = true
    · rw [if_pos typed] at spared ⊢
      rw [if_pos typed]
      generalize p.watch follow c r = w at givenUp spared ⊢
      generalize p.watch follow' c r' = w' at givenUp ⊢
      obtain ⟨o, seen, lost⟩ := w
      obtain ⟨o', seen', lost'⟩ := w'
      have agree : o.InStep place f m m' o' := by
        refine (givenUp (spared.mono ?_)).inStep
        cases o <;> dsimp only <;> rw [Watched.weighed_instead] <;> exact List.subset_append_left ..
      cases agree with
      | ok b _ => exact .inl (.ok b step)
      | failed _ => exact .inl (.ok false step)
    · rw [if_neg typed, if_neg typed]
      exact .inl (.ok false step)
  | call n => exact calls strict n c r r' step spared
  | iterate body s ih =>
    exact Watched.iterate_parallel (fun s _ _ together free => ih s strict c together free)
      (fun k s r missed => watch_misses (keeps k) (body s) c r missed) s step (Nat.le_refl _)
      (Nat.le_refl _) spared

theorem followWatched_misses {rules : N → Rule N Unit} {n s : Nat} (m : N) (c : Context)
    (r : Reader) (missed : r.Misses s) : (followWatched rules n m c r).outcome.reader.Misses s := by
  rw [outcome_followWatched]
  exact Rule.follow_keeps (Reader.lasting_misses s) rules n m c r missed

theorem enterWatched_misses {rules : N → Rule N Unit} {n k s : Nat} (m : N) (c : Context)
    (r : Reader) (missed : r.Misses s) :
    (enterWatched rules (followWatched rules n) k m c r).outcome.reader.Misses s := by
  rw [outcome_enterWatched rules (outcome_followWatched rules n)]
  exact Rule.enter_keeps (Reader.lasting_misses s) rules
    (Rule.follow_keeps (Reader.lasting_misses s) rules n) k m c r missed

section

variable (kinds : ∀ t, (f t).kind = t.kind) (rules : N → Rule N Unit)
include kinds

/-- Two readers in step stay in step along every nonterminal, if they do so along those that are
followed once a token has been taken. -/
theorem enterWatched_parallel {n n' : Nat}
    (deeper : ∀ strict k c m m' r r', r.InStep place f m m' r' → r.left ≤ n → r'.left ≤ n' →
      Spared place ((followWatched rules n k c r).weighed strict) →
        (followWatched rules n k c r).outcome.Parallel place f m m' strict
          (followWatched rules n' k c r').outcome)
    (limit : Nat) (strict : Bool) (k : N) (c : Context) {m m' : Nat} {r r' : Reader}
    (step : r.InStep place f m m' r') (enough : r.left ≤ n + 1) (enough' : r'.left ≤ n' + 1)
    (spared : Spared place
      ((enterWatched rules (followWatched rules n) limit k c r).weighed strict)) :
    (enterWatched rules (followWatched rules n) limit k c r).outcome.Parallel place f m m' strict
      (enterWatched rules (followWatched rules n') limit k c r').outcome := by
  induction limit generalizing strict k c m m' r r' with
  | zero => exact .inl (.failed step)
  | succ limit ih =>
    refine Outcome.Parallel.since (watch_parallel kinds ?_ ?_ (rules k) strict c step.rebase
      spared) step
    · intro place k c s missed
      split
      · exact followWatched_misses k c s missed
      · exact enterWatched_misses k c s missed
    · intro strict k c s s' later free
      obtain ⟨j, left, left'⟩ := later.lefts
      have alike := later.left_lt_iff step.rebase
      by_cases taken : s.left < r.left
      · rw [if_pos taken] at free ⊢
        rw [if_pos (alike.2 taken)]
        exact deeper strict k c _ _ s s' later (by omega) (by have := alike.2 taken; omega) free
      · rw [if_neg taken] at free ⊢
        rw [if_neg (mt alike.1 taken)]
        exact ih strict k c later (by omega) (by omega) free

/-- Two readers in step stay in step along every nonterminal. -/
theorem followWatched_parallel {n n' : Nat} (strict : Bool) (k : N) (c : Context) {m m' : Nat}
    {r r' : Reader} (step : r.InStep place f m m' r') (enough : r.left ≤ n) (enough' : r'.left ≤ n')
    (spared : Spared place ((followWatched rules n k c r).weighed strict)) :
    (followWatched rules n k c r).outcome.Parallel place f m m' strict
      (followWatched rules n' k c r').outcome := by
  induction n generalizing n' strict k c m m' r r' with
  | zero => exact absurd step.room (by omega)
  | succ n ih =>
    obtain ⟨n', rfl⟩ : ∃ j, n' = j + 1 :=
      Nat.exists_eq_add_one_of_ne_zero (by have := step.room'; omega)
    exact enterWatched_parallel kinds rules (fun strict k c m m' r r' => ih strict k c)
      chainLimit strict k c step enough enough' spared

end

end Rule

/-! ## Two modules -/

namespace Module

/-- What is looked at in readings of a module that are given up. -/
def givenUp (d : Dialect) (text : List Char) : List Glance :=
  let (offset, body) := skipInterpreter text
  let start := Reader.start offset body
  (Rule.followWatched Nonterminal.rule start.left .program (context d) start).givenUp

theorem givenUp_eq_nil {d : Dialect} (plain : d.typescript = false) (text : List Char) :
    givenUp d text = [] :=
  Rule.givenUp_followWatched Nonterminal.rule _ .program (context d) _ plain

/-- A first line that names an interpreter ends at a line break, or with the text. -/
theorem skipInterpreter_line {line cs : List Char} (stays : ∀ c ∈ line, Character.isLineBreak c = false)
    (ends : ∀ c ∈ cs.head?, Character.isLineBreak c = true) :
    skipInterpreter ('#' :: '!' :: line ++ cs) = (2 + width line, cs) := by
  have whole : (line ++ cs).takeWhile (!Character.isLineBreak ·) = line := by
    rw [List.takeWhile_append_of_pos fun c member => by simp [stays c member]]
    cases cs with
    | nil => simp
    | cons c cs => simp [ends c rfl]
  simp only [List.cons_append, skipInterpreter, whole, List.drop_left]

/-- A line that names an interpreter ends before the texts part. -/
theorem skipInterpreter_fork {x y line cs ds : List Char} (f : Fork x y cs ds)
    (split : skipInterpreter (line ++ cs) = (width line, cs)) :
    skipInterpreter (line ++ ds) = (width line, ds) := by
  generalize text : line ++ cs = zs at split
  unfold skipInterpreter at split
  split at split
  next zs =>
    obtain ⟨size, rest⟩ := Prod.mk.inj split
    have parts := List.prefix_iff_eq_append.1 (List.takeWhile_prefix (!Character.isLineBreak ·) (l := zs))
    have dropped : zs.dropWhile (!Character.isLineBreak ·) = cs := by
      rw [← rest]
      exact List.append_cancel_left (List.takeWhile_append_dropWhile.trans parts.symm)
    have named : line = '#' :: '!' :: zs.takeWhile (!Character.isLineBreak ·) := by
      rw [rest] at parts
      have same : line ++ cs = '#' :: '!' :: zs.takeWhile (!Character.isLineBreak ·) ++ cs := by
        rw [text, List.cons_append, List.cons_append, parts]
      exact List.append_cancel_right same
    have ends : ∀ c ∈ ds.head?, Character.isLineBreak c = true := by
      have first := List.head?_dropWhile_not (!Character.isLineBreak ·) zs
      rw [dropped] at first
      cases f with
      | here quote _ =>
        rw [List.head?_cons] at first
        simp [quote.not_lineBreak] at first
      | cons c later =>
        intro d head
        rw [List.head?_cons] at head first
        obtain rfl := Option.some.inj head
        simpa using first
    rw [named, skipInterpreter_line _ ends, ← named, ← size]
    intro c member
    simpa using List.mem_takeWhile_imp member
  next zs plain =>
    obtain ⟨size, rest⟩ := Prod.mk.inj split
    obtain rfl : line = [] := by
      have long := congrArg List.length (text.trans rest)
      simp only [List.length_append] at long
      exact List.length_eq_zero_iff.1 (by omega)
    have other : ∀ zs, ds ≠ '#' :: '!' :: zs := by
      rintro zs rfl
      obtain ⟨rest', same, -⟩ := f.exists_append ['#', '!'] (by simp [IsQuote])
      exact plain rest' (by rw [← text, same]; rfl)
    rw [List.nil_append]
    unfold skipInterpreter
    split
    next zs => exact absurd rfl (other zs)
    next => rfl

section

variable {d : Dialect} {o : Nat} {text text' tail : List Char} {ps : List Swap} {tree : Tree}

/-- A text with swapped literals gives the same tree with other tokens, if no reading that is given
up runs across one of the literals. -/
theorem parse?_swapped (split : skipInterpreter text = (o, Swap.source ps tail))
    (split' : skipInterpreter text' = (o, Swap.result ps tail)) (sound : Swap.Sound ps tail)
    (parsed : parse? d text = some tree)
    (found : ∀ s ∈ Swap.places o ps, ∃ t ∈ tree.tokens, t.kind = .str ∧ t.start = s ∧ s < t.stop)
    (spared : Spared (· ∈ Swap.places o ps) (givenUp d text)) :
    parse? d text' = some (tree.map (Swap.carry o o ps)) := by
  let before := Reader.start o (Swap.source ps tail)
  let after := Reader.start o (Swap.result ps tail)
  have start : before.InStep (· ∈ Swap.places o ps) (Swap.carry o o ps) before.left after.left
      after := by
    refine ⟨⟨ps, tail, rfl, rfl, sound, fun s member => member, Iff.rfl, fun t _ _ => rfl⟩,
      ⟨.plain, rfl, rfl⟩, rfl, rfl, fun t member => ?_, ⟨0, rfl, rfl⟩, Nat.lt_succ_self _,
      Nat.lt_succ_self _⟩
    cases member
  unfold givenUp at spared
  unfold parse? at parsed ⊢
  rw [split] at parsed spared
  rw [split']
  dsimp only at parsed spared ⊢
  have parallel := Rule.followWatched_parallel (Swap.carry_kind o o ps) Nonterminal.rule
    false .program (context d) start (Nat.le_refl _) (Nat.le_refl _) spared
  rw [Rule.outcome_followWatched, Rule.outcome_followWatched] at parallel
  generalize Rule.follow Nonterminal.rule before.left .program (context d) before = first
    at parsed parallel
  generalize Rule.follow Nonterminal.rule after.left .program (context d) after = second
    at parallel ⊢
  rcases parallel with agree | ⟨-, s, place, missed⟩
  · cases agree with
    | failed step => cases parsed
    | ok a step =>
      dsimp only at parsed ⊢
      rw [step.stack, List.head?_map, parsed, Option.map_some]
  · cases first with
    | failed r => cases parsed
    | ok a r =>
      obtain ⟨t, member, string, rfl, wide⟩ := found s place
      have inside := (Reader.tokens_of_head? parsed).subset member
      exact absurd (missed.tokens t inside string rfl) (by omega)

end

end Module

end Rehome.Ecma
