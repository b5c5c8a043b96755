import Prototypal.Proofs.Budget

/-!
# Prototypal — Proofs — Allowance

More attempts lose nothing.

Of two descents of one kind, let one be allowed more attempts than the other, and all else be the
same.  They take the same steps until the smaller allowance is spent (`Guard.Spent`): up to there an
attempt has the same answer under both, since a key that is being visited and a chain that is too
deep are denied alike.  From there on nothing is entered under the smaller one, while the other goes
on, and makes attempts that the first never makes.  So the guards are related by *lagging*
(`Guard.Lags`): they have the same keys always, and the same count until the first is spent.

What the two find is related in the same way (`Descent.Lags`): it is equal until then, and part of
what the other finds afterwards.  Fan-outs of descents of which this holds have it too
(`Yields.fanOut`), and so has every descent of the library.

* `attempts_only_add`: with the depth as it is, a question that is allowed more attempts answers at
  least what it answered, and a descriptor once given stays.

The depth is another matter: a deeper descent may spend on one prototype the attempts by which
another was reached.
-/

namespace Prototypal

/-! ### Guards -/

namespace Guard

variable {κ : Type} {g h : Guard κ} {k : κ}

/-- The attempts allowed are used up: the next one is denied. -/
def Spent (g : Guard κ) : Prop := g.limits.attempts < Count.next g.attempts

/-- `g` has the keys and the depth of `h` and no more attempts allowed, and until these are spent it
has made as many. -/
structure Lags (g h : Guard κ) : Prop where
  visiting : g.visiting = h.visiting
  depth : g.limits.depth = h.limits.depth
  allowed : g.limits.attempts ≤ h.limits.attempts
  attempts : ¬ g.Spent → g.attempts = h.attempts

/-- What is spent stays so: counts only grow. -/
theorem Spent.counted (hs : g.Spent) : g.counted.Spent :=
  Nat.lt_of_lt_of_le hs (Count.le_next (Count.next_le_top g.attempts))

theorem Admits.not_spent (ha : g.Admits k) : ¬ g.Spent :=
  Nat.not_lt.mpr ha.1

namespace Lags

theorem counted (hl : g.Lags h) : g.counted.Lags h.counted where
  visiting := hl.visiting
  depth := hl.depth
  allowed := hl.allowed
  attempts hs := congrArg Count.next (hl.attempts (mt Spent.counted hs))

theorem inside (hl : g.Lags h) (k : κ) : (g.inside k).Lags (h.inside k) where
  visiting := congrArg (k :: ·) hl.visiting
  depth := hl.depth
  allowed := hl.allowed
  attempts := hl.counted.attempts

/-- A guard that is spent lags behind the other however that goes on. -/
theorem of_spent (hl : g.Lags h) (hs : g.Spent) {i : Guard κ} (hc : h.Continues i) :
    g.Lags i where
  visiting := hl.visiting.trans hc.visiting.symm
  depth := hc.limits ▸ hl.depth
  allowed := hc.limits ▸ hl.allowed
  attempts hn := absurd hs hn

/-- **One attempt of both.**  Both admit the key, or both deny it, or it is denied because the
attempts are spent. -/
theorem enter_cases (hl : g.Lags h) (k : κ) :
    (g.Admits k ∧ h.Admits k) ∨ (¬ g.Admits k ∧ ¬ h.Admits k) ∨
      (¬ g.Admits k ∧ h.Admits k ∧ g.Spent) := by
  by_cases hs : g.Spent
  · have hn : ¬ g.Admits k := fun ha => ha.not_spent hs
    by_cases ha : h.Admits k
    · exact .inr (.inr ⟨hn, ha, hs⟩)
    · exact .inr (.inl ⟨hn, ha⟩)
  · -- neither count exceeds its allowance, and the other two reasons are the same
    have hg : Count.next g.attempts ≤ g.limits.attempts := Nat.not_lt.mp hs
    have hh : Count.next h.attempts ≤ h.limits.attempts :=
      hl.attempts hs ▸ Nat.le_trans hg hl.allowed
    have hiff : g.Admits k ↔ h.Admits k := by
      simp [Admits, hg, hh, hl.visiting, hl.depth, Guard.depth]
    by_cases ha : g.Admits k
    · exact .inl ⟨ha, hiff.mp ha⟩
    · exact .inr (.inl ⟨ha, mt hiff.mpr ha⟩)

/-- A guard that is spent goes on counting, and lags however the other goes on. -/
theorem counted_of_spent (hl : g.Lags h) (hs : g.Spent) {i : Guard κ} (hc : h.Continues i) :
    g.counted.Lags i :=
  hl.counted.of_spent hs.counted ⟨hc.limits, hc.visiting⟩

end Lags

variable [DecidableEq κ]

theorem eq_of_leave {i : Guard κ} (hl : g.leave k = .ok i) :
    i = { g with visiting := g.visiting.erase k } := by
  rw [leave] at hl
  split at hl
  · cases hl
    rfl
  · cases hl

theorem spent_of_leave {i : Guard κ} (hl : g.leave k = .ok i) : i.Spent ↔ g.Spent := by
  rw [eq_of_leave hl]
  rfl

theorem Lags.leave {i j : Guard κ} (hl : g.Lags h) (hi : g.leave k = .ok i)
    (hj : h.leave k = .ok j) : i.Lags j where
  visiting := by rw [eq_of_leave hi, eq_of_leave hj, hl.visiting]
  depth := by rw [eq_of_leave hi, eq_of_leave hj, hl.depth]
  allowed := by
    rw [eq_of_leave hi, eq_of_leave hj]
    exact hl.allowed
  attempts hs := by
    have hn : ¬ g.Spent := mt (spent_of_leave hi).mpr hs
    rw [eq_of_leave hi, eq_of_leave hj]
    exact hl.attempts hn

end Guard

/-! ### Descents -/

variable {α ι : Type} {R : α → α → Prop}

/-- The guard of `d` lags behind that of `e`; what `d` found is what `e` found until its guard is
spent, and is related to it by `R` in any case. -/
structure Descent.Lags (R : α → α → Prop) (d e : Descent α) : Prop where
  guard : d.guard.Lags e.guard
  result : R d.result e.result
  same : ¬ d.guard.Spent → d.result = e.result

/-- Descents under a guard that lags lag themselves. -/
def Yields (R : α → α → Prop) (visit : Guard ValueId → ι → Descent α) : Prop :=
  ∀ g h i, g.Lags h → (visit g i).Lags R (visit h i)

/-- **Fanning out lags** when descending into each value does, if merging keeps the relation and
never takes away. -/
theorem Yields.fanOut {visit : Guard ValueId → ValueId → Descent α} {merge : α → α → α}
    (hv : Yields R visit) (hb : Balanced visit)
    (hmerge : ∀ {x x' y y'}, R x x' → R y y' → R (merge x y) (merge x' y'))
    (hgrow : ∀ {x x'} y, R x x' → R x (merge x' y)) {acc acc' : α} {g h : Guard ValueId}
    (hl : g.Lags h) (hacc : R acc acc') (hsame : ¬ g.Spent → acc = acc') (vs : List ValueId) :
    (fanOut visit merge acc g vs).Lags R (Prototypal.fanOut visit merge acc' h vs) := by
  induction vs generalizing acc acc' g h with
  | nil => exact ⟨hl, hacc, hsame⟩
  | cons v vs ih =>
      rcases hl.enter_cases v with ⟨ha, ha'⟩ | ⟨hn, hn'⟩ | ⟨hn, ha', hs⟩
      · obtain ⟨i, -, hi, he⟩ := fanOut_of_admits merge hb ha acc vs
        obtain ⟨j, -, hj, he'⟩ := fanOut_of_admits merge hb ha' acc' vs
        have hfound := hv _ _ v (hl.inside v)
        have hrest := ih (hfound.guard.leave hi hj) (hmerge hacc hfound.result) fun hs => by
          rw [hsame ha.not_spent, hfound.same (mt (Guard.spent_of_leave hi).mpr hs)]
        rw [he, he']
        exact ⟨hrest.guard, hrest.result, hrest.same⟩
      · obtain ⟨_, -, he⟩ := fanOut_of_not_admits visit merge hn acc vs
        obtain ⟨_, -, he'⟩ := fanOut_of_not_admits visit merge hn' acc' vs
        have hrest := ih hl.counted hacc fun hs => hsame (mt Guard.Spent.counted hs)
        rw [he, he']
        exact ⟨hrest.guard, hrest.result, hrest.same⟩
      · -- the other guard goes on alone, and what it finds is added on its side only
        obtain ⟨_, -, he⟩ := fanOut_of_not_admits visit merge hn acc vs
        obtain ⟨j, hj, -, he'⟩ := fanOut_of_admits merge hb ha' acc' vs
        have hrest := ih (hl.counted_of_spent hs hj) (hgrow (visit (h.inside v) v).result hacc)
          fun hn => absurd hs.counted hn
        rw [he, he']
        exact ⟨hrest.guard, hrest.result, hrest.same⟩

/-- The same for one value, of which the last thing found counts. -/
theorem Yields.fanOut_singleton {visit : Guard ValueId → ValueId → Descent α}
    (hv : Yields R visit) (hb : Balanced visit) {x : α} (hx : ∀ y, R x y) {g h : Guard ValueId}
    (hl : g.Lags h) (v : ValueId) :
    (Prototypal.fanOut visit (fun _ found => found) x g [v]).Lags R
      (Prototypal.fanOut visit (fun _ found => found) x h [v]) := by
  rcases hl.enter_cases v with ⟨ha, ha'⟩ | ⟨hn, hn'⟩ | ⟨hn, ha', hs⟩
  · obtain ⟨i, -, hi, he⟩ := fanOut_of_admits (fun _ found => found) hb ha x []
    obtain ⟨j, -, hj, he'⟩ := fanOut_of_admits (fun _ found => found) hb ha' x []
    have hfound := hv _ _ v (hl.inside v)
    rw [he, he']
    exact ⟨hfound.guard.leave hi hj, hfound.result,
      fun hs => hfound.same (mt (Guard.spent_of_leave hi).mpr hs)⟩
  · obtain ⟨_, -, he⟩ := fanOut_of_not_admits visit (fun _ found => found) hn x []
    obtain ⟨_, -, he'⟩ := fanOut_of_not_admits visit (fun _ found => found) hn' x []
    rw [he, he']
    exact ⟨hl.counted, hx x, fun _ => rfl⟩
  · obtain ⟨_, -, he⟩ := fanOut_of_not_admits visit (fun _ found => found) hn x []
    obtain ⟨j, hj, -, he'⟩ := fanOut_of_admits (fun _ found => found) hb ha' x []
    rw [he, he']
    exact ⟨hl.counted_of_spent hs hj, hx _, fun hn => absurd hs.counted hn⟩

namespace ValueSet

variable {s s' t t' : ValueSet}

theorem union_subset_union (hs : s ⊆ s') (ht : t ⊆ t') : s ∪ t ⊆ s' ∪ t' := by
  intro w hw
  rcases mem_union.mp hw with hw | hw
  · exact mem_union.mpr (.inl (hs hw))
  · exact mem_union.mpr (.inr (ht hw))

theorem subset_union_of_subset (t : ValueSet) (hs : s ⊆ s') : s ⊆ s' ∪ t :=
  fun _ hw => mem_union.mpr (.inl (hs hw))

end ValueSet

namespace Analysis

variable {a : Analysis} {name : String}

/-! ### The descents of the library -/

theorem yields_exploreLevels (a : Analysis) (own : ValueId → ValueSet) (n : Nat) :
    Yields (· ⊆ ·) (a.exploreLevels own (· ∪ ·) n) := by
  induction n with
  | zero => exact fun g h v hl => ⟨hl, fun _ hw => hw, fun _ => rfl⟩
  | succ n ih =>
      intro g h v hl
      have hown : own v ⊆ own v := fun _ hw => hw
      have hbelow := ih.fanOut (balanced_exploreLevels n) ValueSet.union_subset_union
        ValueSet.subset_union_of_subset hl hown (fun _ => rfl) (a.prototypes v)
      exact ⟨hbelow.guard, hbelow.result, hbelow.same⟩

/-- A descriptor given is the other one. -/
def Confirms (x y : Option Descriptor) : Prop := ∀ d, x = some d → y = some d

theorem yields_describeLevels (a : Analysis) (name : String) (n : Nat) :
    Yields Confirms (a.describeLevels name n) := by
  intro g h v
  refine describeLevels_induction a name (motive := fun n g v d => ∀ h, g.Lags h →
    d.Lags Confirms (a.describeLevels name n h v)) ?_ ?_ ?_ n g v h
  · intro n g v found hs hf h hl
    obtain ⟨found', he, hf'⟩ := describeLevels_of_stops hs name n h
    obtain rfl : found' = found := Option.ext fun d => (hf' d).trans (hf d).symm
    rw [he]
    exact ⟨hl, fun _ hd => hd, fun _ => rfl⟩
  · intro g v p hp h hl
    rw [describeLevels_zero_of_defers hp]
    exact ⟨hl, nofun, fun _ => rfl⟩
  · intro n g v p hp ih h hl
    rw [describeLevels_succ_of_defers hp]
    have hv : Yields Confirms (a.describeLevels name n) := fun g h v => ih g v h
    have hnone : ∀ y, Confirms none y := fun _ _ hd => nomatch hd
    exact hv.fanOut_singleton (balanced_describeLevels n) hnone hl p

/-- What a prototype adds lags if the reading of its descriptor does. -/
theorem yields_contribution_of {n : Nat} (hr : Yields (· ⊆ ·) (a.evaluateLevels n)) :
    Yields (· ⊆ ·) (a.contribution name (a.evaluateLevels n)) := by
  intro g h p hl
  have hd : (a.describe name g p).Lags Confirms (a.describe name h p) :=
    a.yields_describeLevels name a.levels g h p hl
  cases hg : (a.describe name g p).result with
  | some d =>
      have hread := hr _ _ d hd.guard
      rw [contribution_of_some hg, contribution_of_some (hd.result d hg)]
      exact ⟨hread.guard, hread.result, hread.same⟩
  | none =>
      rw [contribution_of_none hg]
      cases hh : (a.describe name h p).result with
      | none =>
          rw [contribution_of_none hh]
          exact ⟨hd.guard, fun _ hw => hw, fun _ => rfl⟩
      | some d =>
          -- only a guard that is spent misses a descriptor
          have hs : (a.describe name g p).guard.Spent := by
            by_contra hs
            have := hd.same hs
            rw [hg, hh] at this
            cases this
          rw [contribution_of_some hh]
          exact ⟨hd.guard.of_spent hs (balanced_evaluateLevels n _ d),
            fun w hw => absurd hw (ValueSet.not_mem_empty w), fun hn => absurd hs hn⟩

theorem yields_evaluateLevels (a : Analysis) (n : Nat) :
    Yields (· ⊆ ·) (a.evaluateLevels n) := by
  induction n with
  | zero =>
      intro g h d hl
      cases d <;> exact ⟨hl, fun _ hw => hw, fun _ => rfl⟩
  | succ n ih =>
      intro g h d hl
      cases d with
      | stored v name => exact ⟨hl, fun _ hw => hw, fun _ => rfl⟩
      | merged v name =>
          exact (yields_contribution_of ih).fanOut (a.balanced_contribution name n)
            ValueSet.union_subset_union ValueSet.subset_union_of_subset hl (fun _ hw => hw)
            (fun _ => rfl) (a.prototypes v)

/-- Several names are explored under one guard.  What the first spends the others lack, but the
value itself is read for each of them. -/
theorem readAll_subset_of_lags (a : Analysis) (v : ValueId) {g h : Guard ValueId} (hl : g.Lags h)
    (names : List String) : (a.readAll v g names).result ⊆ (a.readAll v h names).result := by
  induction names generalizing g h with
  | nil => exact fun _ hw => hw
  | cons name names ih =>
      have hfirst := a.yields_exploreLevels (a.ownTypes · name) a.levels g h v hl
      rw [readAll_cons, readAll_cons]
      exact ValueSet.union_subset_union hfirst.result (ih hfirst.guard)

/-! ### Questions -/

theorem guard_lags (a : Analysis) (depth : Nat) {k k' : Nat} (hk : k ≤ k') :
    (a.withLimits ⟨depth, k⟩).guard.Lags (a.withLimits ⟨depth, k'⟩).guard :=
  ⟨rfl, rfl, hk, fun _ => rfl⟩

/-- **More attempts lose nothing.**  In every state and for every depth: what looking up, indexing
and reading a descriptor answer within some number of attempts is part of what they answer within a
greater one, and a descriptor that is given within some number of attempts is the one given within
every greater one. -/
theorem attempts_only_add (a : Analysis) (depth : Nat) {k k' : Nat} (hk : k ≤ k') :
    (∀ v name site, ((a.withLimits ⟨depth, k⟩).lookup v name site).answer ⊆
      ((a.withLimits ⟨depth, k'⟩).lookup v name site).answer) ∧
    (∀ v is site, ((a.withLimits ⟨depth, k⟩).index v is site).answer ⊆
      ((a.withLimits ⟨depth, k'⟩).index v is site).answer) ∧
    (∀ d site, ((a.withLimits ⟨depth, k⟩).propertyValue d site).answer ⊆
      ((a.withLimits ⟨depth, k'⟩).propertyValue d site).answer) ∧
    (∀ v name d, ((a.withLimits ⟨depth, k⟩).property v name).answer = some d →
      ((a.withLimits ⟨depth, k'⟩).property v name).answer = some d) := by
  have h : (a.withLimits ⟨depth, k⟩).Alike (a.withLimits ⟨depth, k'⟩) :=
    (a.alike_withLimits _).trans (a.alike_withLimits _).symm
  have hl := a.guard_lags depth hk
  refine ⟨fun v name site => ?_, fun v is site => ?_, fun d site => ?_, fun v name d => ?_⟩
  · rw [lookup, lookup, shown_readNames_answer, shown_readNames_answer, h.shown, h.readAll]
    exact shown_mono (readAll_subset_of_lags _ v hl _)
  · rcases (a.withLimits ⟨depth, k⟩).indexing_cases v with hm | ⟨f, hf⟩ | ⟨hm, hf⟩
    · rw [index_of_hasMembers is site hm, index_of_hasMembers is site (h.hasMembers_iff.mp hm),
        shown_readNames_answer, shown_readNames_answer, h.shown, h.readAll, h.indexNames]
      exact shown_mono (readAll_subset_of_lags _ v hl _)
    · rw [index_of_arguments is site hf, index_of_arguments is site (h.kind?_arguments hf)]
      exact fun _ hw => hw
    · rw [index_of_not is site hm hf]
      exact fun w hw => absurd hw (ValueSet.not_mem_empty w)
  · rw [propertyValue_answer, propertyValue_answer, h.shown, h.evaluate]
    exact shown_mono (yields_evaluateLevels _ _ _ _ d hl).result
  · rw [property, property, h.describe]
    exact (yields_describeLevels _ name _ _ _ v hl).result d

theorem attempts_only_add_crossedInheritors :
    2 ≤ 4 ∧
    ((crossedInheritors.withLimits ⟨3, 2⟩).lookup ⟨5⟩ "x" none).answer = .singleton ⟨1⟩ ∧
    ((crossedInheritors.withLimits ⟨3, 4⟩).lookup ⟨5⟩ "x" none).answer = .ofList [⟨0⟩, ⟨1⟩] ∧
    ((crossedInheritors.withLimits ⟨3, 2⟩).lookup ⟨5⟩ "x" none).answer ⊆
      ((crossedInheritors.withLimits ⟨3, 4⟩).lookup ⟨5⟩ "x" none).answer ∧
    ((crossedInheritors.withLimits ⟨3, 2⟩).property ⟨5⟩ "x").answer = some (.merged ⟨4⟩ "x") ∧
    ((crossedInheritors.withLimits ⟨3, 4⟩).property ⟨5⟩ "x").answer = some (.merged ⟨4⟩ "x") := by
  have hk : 2 ≤ 4 := by simp
  obtain ⟨hlookup, -, -, hproperty⟩ := attempts_only_add crossedInheritors 3 hk
  have hgiven : ((crossedInheritors.withLimits ⟨3, 2⟩).property ⟨5⟩ "x").answer =
      some (.merged ⟨4⟩ "x") := by decide +kernel
  exact ⟨hk, by decide +kernel, by decide +kernel, hlookup ⟨5⟩ "x" none, hgiven,
    hproperty ⟨5⟩ "x" _ hgiven⟩

end Analysis

end Prototypal
