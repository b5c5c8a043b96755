import Prototypal.Resolution.Descent

/-!
# Prototypal — Proofs — Descent

What a guarded descent does, apart from what it descends through.

The guard admits a key (`Guard.Admits`) or only counts the attempt.  A descent is *balanced* when it
hands back the guard with the keys it was given (`Balanced`); fanning out with a balanced descent is
balanced (`Balanced.fanOut`), so every sibling starts from the same keys, whatever happened below
the siblings before it.  `fanOut_steps_induction` says once what a fan-out does with each value of
its list; the statements below it follow from that.

* `exists_of_mem_visits_fanOut`, `mem_visits_fanOut`: what a fan-out visits is what the descents
  into the values it enters visit.
* `Collects.fanOut`: a property of results that a merged result has just when one of its parts does
  is had by the result of a fan-out just when some visited value gives it.
* `fanOut_map`: descents commute with maps that commute with merging.  Steps and guard do not depend
  on what is collected.
-/

namespace Prototypal

/-! ### The guard -/

namespace Guard

variable {κ : Type}

/-- The guard after an attempt that was denied. -/
def counted (g : Guard κ) : Guard κ := { g with attempts := Count.next g.attempts }

/-- The guard after entering `k`. -/
def inside (g : Guard κ) (k : κ) : Guard κ :=
  { g with visiting := k :: g.visiting, attempts := Count.next g.attempts }

/-- The next attempt to enter `k` will succeed. -/
def Admits (g : Guard κ) (k : κ) : Prop :=
  Count.next g.attempts ≤ g.limits.attempts ∧ k ∉ g.visiting ∧ g.depth < g.limits.depth

/-- `h` is `g` but for the count of attempts. -/
structure Continues (g h : Guard κ) : Prop where
  limits : h.limits = g.limits
  visiting : h.visiting = g.visiting

theorem Continues.refl (g : Guard κ) : g.Continues g := ⟨rfl, rfl⟩

theorem Continues.trans {g h i : Guard κ} (hgh : g.Continues h) (hhi : h.Continues i) :
    g.Continues i :=
  ⟨hhi.limits.trans hgh.limits, hhi.visiting.trans hgh.visiting⟩

theorem Continues.depth {g h : Guard κ} (hc : g.Continues h) : h.depth = g.depth :=
  congrArg List.length hc.visiting

theorem Continues.limits_inside {g h : Guard κ} (hc : g.Continues h) (k : κ) :
    (h.inside k).limits = g.limits := hc.limits

theorem Continues.visiting_inside {g h : Guard κ} (hc : g.Continues h) (k : κ) :
    (h.inside k).visiting = k :: g.visiting :=
  congrArg (k :: ·) hc.visiting

theorem Continues.depth_inside {g h : Guard κ} (hc : g.Continues h) (k : κ) :
    (h.inside k).depth = g.depth + 1 :=
  congrArg List.length (hc.visiting_inside k)

theorem continues_counted (g : Guard κ) : g.Continues g.counted := ⟨rfl, rfl⟩

/-- Where attempts have the budget that no count exceeds, a key is admitted unless it is being
visited or the chain is as deep as allowed. -/
theorem Continues.admits_iff {g h : Guard κ} {k : κ} (hc : g.Continues h)
    (hu : g.limits.attempts = Count.top) :
    h.Admits k ↔ k ∉ g.visiting ∧ g.depth < g.limits.depth := by
  have hn : Count.next h.attempts ≤ g.limits.attempts := hu ▸ Count.next_le_top _
  simp [Admits, hc.limits, hc.visiting, hc.depth, hn]

variable [DecidableEq κ]

theorem admission_eq_entered_iff {g : Guard κ} {k : κ} :
    g.admission k (Count.next g.attempts) = .entered ↔ g.Admits k := by
  unfold admission Admits
  split
  · next hn => exact ⟨nofun, fun h => absurd h.1 (Nat.not_le.mpr hn)⟩
  split
  · next hv => exact ⟨nofun, fun h => absurd hv h.2.1⟩
  split
  · next hd => exact ⟨nofun, fun h => absurd h.2.2 (Nat.not_lt.mpr hd)⟩
  · next hn hv hd => exact ⟨fun _ => ⟨Nat.not_lt.mp hn, hv, Nat.not_le.mp hd⟩, fun _ => rfl⟩

theorem enter_of_admits {g : Guard κ} {k : κ} (h : g.Admits k) :
    g.enter k = (.entered, g.inside k) := by
  simp only [enter, admission_eq_entered_iff.mpr h]
  rfl

theorem enter_of_not_admits {g : Guard κ} {k : κ} (h : ¬ g.Admits k) :
    ∃ denied, denied ≠ .entered ∧ g.enter k = (denied, g.counted) := by
  have ha : g.admission k (Count.next g.attempts) ≠ .entered :=
    fun he => h (admission_eq_entered_iff.mp he)
  refine ⟨_, ha, ?_⟩
  simp only [enter]
  rfl

theorem admits_of_enter {g h : Guard κ} {k : κ} (he : g.enter k = (.entered, h)) : g.Admits k := by
  refine Classical.byContradiction fun hn => ?_
  obtain ⟨denied, hne, hd⟩ := enter_of_not_admits hn
  exact hne (Prod.mk.inj (hd.symm.trans he)).1

/-- Leaving the key entered last. -/
theorem leave_of_visiting {g : Guard κ} {k : κ} {ks : List κ} (h : g.visiting = k :: ks) :
    g.leave k = .ok { g with visiting := ks } := by
  simp [leave, h]

end Guard

/-! ### Descents -/

/-- The value whose own members a step reads. -/
def Step.visited? : Step → Option ValueId
  | visit v => some v
  | _ => none

namespace Descent

variable {α β : Type}

/-- The values whose own members a descent reads, in order. -/
def visits (d : Descent α) : List ValueId := d.trace.filterMap Step.visited?

/-- The descent with its result mapped. -/
def map (d : Descent α) (f : α → β) : Descent β := { d with result := f d.result }

@[simp] theorem visits_map (d : Descent α) (f : α → β) : (d.map f).visits = d.visits := rfl

end Descent

variable {α β : Type}

/-- Descents with `visit` hand back the guard with the keys they were given. -/
def Balanced (visit : Guard ValueId → ValueId → Descent α) : Prop :=
  ∀ (g : Guard ValueId) (v : ValueId), g.Continues (visit g v).guard

section FanOut

variable {visit : Guard ValueId → ValueId → Descent α} {merge : α → α → α}

/-- A fan-out whose next value is admitted descends into it, leaves it, and goes on from the same
keys. -/
theorem fanOut_of_admits (merge : α → α → α) (hb : Balanced visit) {g : Guard ValueId} {v : ValueId}
    (hv : g.Admits v) (acc : α) (vs : List ValueId) :
    ∃ h, g.Continues h ∧ (visit (g.inside v) v).guard.leave v = .ok h ∧
      fanOut visit merge acc g (v :: vs) =
        ⟨(fanOut visit merge (merge acc (visit (g.inside v) v).result) h vs).result,
          .attempt v .entered (g.inside v).depth (g.inside v).attempts ::
            (visit (g.inside v) v).trace ++ .leave v ::
            (fanOut visit merge (merge acc (visit (g.inside v) v).result) h vs).trace,
          (fanOut visit merge (merge acc (visit (g.inside v) v).result) h vs).guard⟩ := by
  have hc := hb (g.inside v) v
  have hl := Guard.leave_of_visiting hc.visiting
  refine ⟨{ (visit (g.inside v) v).guard with visiting := g.visiting }, ⟨hc.limits, rfl⟩, hl, ?_⟩
  rw [fanOut, Guard.enter_of_admits hv]
  simp only [hl, Except.toOption, Option.getD_some]

/-- A fan-out whose next value is denied goes on with the others. -/
theorem fanOut_of_not_admits (visit : Guard ValueId → ValueId → Descent α) (merge : α → α → α)
    {g : Guard ValueId} {v : ValueId} (hv : ¬ g.Admits v) (acc : α) (vs : List ValueId) :
    ∃ denied, g.enter v = (denied, g.counted) ∧
      fanOut visit merge acc g (v :: vs) =
        ⟨(fanOut visit merge acc g.counted vs).result,
          .attempt v denied g.counted.depth g.counted.attempts ::
            (fanOut visit merge acc g.counted vs).trace,
          (fanOut visit merge acc g.counted vs).guard⟩ := by
  obtain ⟨denied, hne, he⟩ := Guard.enter_of_not_admits hv
  refine ⟨denied, he, ?_⟩
  rw [fanOut, he]
  cases denied with
  | entered => exact absurd rfl hne
  | cycle | tooDeep | tooMany => rfl

/-- **What a fan-out does with each value of its list**: it descends into the value, leaves it, and
merges what it found, if the guard admits the value, and passes over it otherwise.  The motive is
about a rest of the list, what it is started from, and its outcome with all its steps; the guard has
the keys that it had at first. -/
theorem fanOut_steps_induction (hb : Balanced visit) {g₀ : Guard ValueId} {vs₀ : List ValueId}
    {motive : α → Guard ValueId → List ValueId → Descent α → Prop}
    (nil : ∀ acc g, g₀.Continues g → motive acc g [] ⟨acc, [], g⟩)
    (entered : ∀ acc g h v vs rest, v ∈ vs₀ → g₀.Continues g → g.Admits v →
      (visit (g.inside v) v).guard.leave v = .ok h →
      motive (merge acc (visit (g.inside v) v).result) h vs rest →
      motive acc g (v :: vs) ⟨rest.result,
        .attempt v .entered (g.inside v).depth (g.inside v).attempts ::
          (visit (g.inside v) v).trace ++ .leave v :: rest.trace, rest.guard⟩)
    (denied : ∀ acc g v vs denied rest, v ∈ vs₀ → g₀.Continues g → ¬ g.Admits v →
      g.enter v = (denied, g.counted) → motive acc g.counted vs rest →
      motive acc g (v :: vs) ⟨rest.result,
        .attempt v denied g.counted.depth g.counted.attempts :: rest.trace, rest.guard⟩)
    (acc : α) : motive acc g₀ vs₀ (fanOut visit merge acc g₀ vs₀) := by
  have rest : ∀ acc g vs, g₀.Continues g → vs ⊆ vs₀ →
      motive acc g vs (fanOut visit merge acc g vs) := by
    intro acc g vs hg hvs
    induction vs generalizing acc g with
    | nil => exact nil acc g hg
    | cons v vs ih =>
        obtain ⟨hv, hvs⟩ := List.cons_subset.mp hvs
        by_cases ha : g.Admits v
        · obtain ⟨h, hc, hl, he⟩ := fanOut_of_admits merge hb ha acc vs
          rw [he]
          exact entered acc g h v vs _ hv hg ha hl (ih _ _ (hg.trans hc) hvs)
        · obtain ⟨d, hd, he⟩ := fanOut_of_not_admits visit merge ha acc vs
          rw [he]
          exact denied acc g v vs d _ hv hg ha hd (ih _ _ (hg.trans g.continues_counted) hvs)
  exact rest acc g₀ vs₀ (.refl g₀) (List.Subset.refl vs₀)

/-- The same for what a fan-out visits, whatever the steps in between. -/
theorem fanOut_induction (hb : Balanced visit) {g₀ : Guard ValueId} {vs₀ : List ValueId}
    {motive : α → Guard ValueId → List ValueId → α → List ValueId → Guard ValueId → Prop}
    (nil : ∀ acc g, g₀.Continues g → motive acc g [] acc [] g)
    (entered : ∀ acc g h v vs result visits guard, v ∈ vs₀ → g₀.Continues g → g.Admits v →
      motive (merge acc (visit (g.inside v) v).result) h vs result visits guard →
      motive acc g (v :: vs) result ((visit (g.inside v) v).visits ++ visits) guard)
    (denied : ∀ acc g v vs result visits guard, v ∈ vs₀ → g₀.Continues g → ¬ g.Admits v →
      motive acc g.counted vs result visits guard → motive acc g (v :: vs) result visits guard)
    (acc : α) :
    motive acc g₀ vs₀ (fanOut visit merge acc g₀ vs₀).result
      (fanOut visit merge acc g₀ vs₀).visits (fanOut visit merge acc g₀ vs₀).guard := by
  refine fanOut_steps_induction
    (motive := fun acc g vs d => motive acc g vs d.result d.visits d.guard) hb nil ?_ ?_ acc
  · intro acc g h v vs rest hv hg ha _ ih
    have ht := entered acc g h v vs _ _ _ hv hg ha ih
    simpa [Descent.visits, List.filterMap_append, List.filterMap_cons, Step.visited?] using ht
  · exact fun acc g v vs _ rest hv hg ha _ ih => denied acc g v vs _ _ _ hv hg ha ih

/-- **Fanning out is balanced** when descending into each value is. -/
theorem Balanced.fanOut (hb : Balanced visit) (acc : α) (g : Guard ValueId) (vs : List ValueId) :
    g.Continues (fanOut visit merge acc g vs).guard := by
  refine fanOut_induction (motive := fun _ _ _ _ _ h => g.Continues h) hb ?_ ?_ ?_ acc
  · exact fun _ _ hg => hg
  · exact fun _ _ _ _ _ _ _ _ _ _ _ ih => ih
  · exact fun _ _ _ _ _ _ _ _ _ _ ih => ih

/-- What a fan-out visits is visited by a descent into one of its values, which it entered. -/
theorem exists_of_mem_visits_fanOut (hb : Balanced visit) {acc : α} {g : Guard ValueId}
    {vs : List ValueId} {u : ValueId} (hu : u ∈ (fanOut visit merge acc g vs).visits) :
    ∃ p ∈ vs, ∃ h, g.Continues h ∧ h.Admits p ∧ u ∈ (visit (h.inside p) p).visits := by
  revert hu
  refine fanOut_induction (motive := fun _ _ _ _ visits _ => u ∈ visits →
    ∃ p ∈ vs, ∃ h, g.Continues h ∧ h.Admits p ∧ u ∈ (visit (h.inside p) p).visits)
    hb ?_ ?_ ?_ acc
  · intro _ _ _ hu
    cases hu
  · intro acc h _ v _ _ visits _ hv hg ha ih hu
    rcases List.mem_append.mp hu with hu | hu
    · exact ⟨v, hv, h, hg, ha, hu⟩
    · exact ih hu
  · exact fun _ _ _ _ _ _ _ _ _ _ ih => ih

/-- A fan-out visits what the descent into one of its values visits, if that value is admitted
whatever came before it. -/
theorem mem_visits_fanOut (hb : Balanced visit) {acc : α} {g : Guard ValueId} {vs : List ValueId}
    {p u : ValueId} (hp : p ∈ vs) (ha : ∀ h, g.Continues h → h.Admits p)
    (hu : ∀ h, g.Continues h → u ∈ (visit (h.inside p) p).visits) :
    u ∈ (fanOut visit merge acc g vs).visits := by
  revert hp
  refine fanOut_induction (motive := fun _ _ vs _ visits _ => p ∈ vs → u ∈ visits) hb ?_ ?_ ?_ acc
  · intro _ _ _ hp
    cases hp
  · intro acc h _ v vs _ visits _ _ hg _ ih hp
    refine List.mem_append.mpr ?_
    rcases List.mem_cons.mp hp with rfl | hp
    · exact .inl (hu h hg)
    · exact .inr (ih hp)
  · intro acc h v vs _ visits _ _ hg hv ih hp
    rcases List.mem_cons.mp hp with rfl | hp
    · exact absurd (ha h hg) hv
    · exact ih hp

/-- A fan-out over one value that is admitted gives what the descent into it gives. -/
theorem result_fanOut_singleton (merge : α → α → α) (hb : Balanced visit) {g : Guard ValueId}
    {v : ValueId} (hv : g.Admits v) (acc : α) :
    (fanOut visit merge acc g [v]).result = merge acc (visit (g.inside v) v).result := by
  obtain ⟨h, -, -, he⟩ := fanOut_of_admits merge hb hv acc []
  rw [he]
  rfl

/-- A fan-out over one value that is denied gives what it started from. -/
theorem result_fanOut_singleton_of_not_admits (visit : Guard ValueId → ValueId → Descent α)
    (merge : α → α → α) {g : Guard ValueId} {v : ValueId} (hv : ¬ g.Admits v) (acc : α) :
    (fanOut visit merge acc g [v]).result = acc := by
  obtain ⟨denied, -, he⟩ := fanOut_of_not_admits visit merge hv acc []
  rw [he]
  rfl

/-! ### What is collected -/

/-- The result has `P` just when some visited value has `Q`. -/
def Collects (P : α → Prop) (Q : ValueId → Prop) (d : Descent α) : Prop :=
  P d.result ↔ ∃ u ∈ d.visits, Q u

/-- If each descent collects, and a merged result has `P` just when one of its parts does, then a
fan-out adds to its start what the values visited give. -/
theorem Collects.fanOut {P : α → Prop} {Q : ValueId → Prop} (hb : Balanced visit)
    (hm : ∀ x y, P (merge x y) ↔ P x ∨ P y) (hv : ∀ g v, Collects P Q (visit g v)) (acc : α)
    (g : Guard ValueId) (vs : List ValueId) :
    P (fanOut visit merge acc g vs).result ↔
      P acc ∨ ∃ u ∈ (Prototypal.fanOut visit merge acc g vs).visits, Q u := by
  refine fanOut_induction (motive := fun acc _ _ result visits _ =>
    P result ↔ P acc ∨ ∃ u ∈ visits, Q u) hb ?_ ?_ ?_ acc
  · intro acc _ _
    simp
  · intro acc g h v vs result visits _ _ _ _ ih
    rw [ih, hm, show P (visit (g.inside v) v).result ↔ _ from hv _ _, or_assoc]
    simp only [List.mem_append, or_and_right, exists_or]
  · exact fun _ _ _ _ _ _ _ _ _ _ ih => ih

end FanOut

/-- **Fan-outs commute with maps that commute with merging.** -/
theorem fanOut_map {visit : Guard ValueId → ValueId → Descent α}
    {visit' : Guard ValueId → ValueId → Descent β} {merge : α → α → α} {merge' : β → β → β}
    {f : α → β} (hm : ∀ x y, f (merge x y) = merge' (f x) (f y))
    (hv : ∀ g v, (visit g v).map f = visit' g v) (acc : α) (g : Guard ValueId)
    (vs : List ValueId) :
    (fanOut visit merge acc g vs).map f = fanOut visit' merge' (f acc) g vs := by
  induction vs generalizing acc g with
  | nil => rfl
  | cons v vs ih =>
      rw [fanOut, fanOut]
      split
      · next g' _ =>
        simp only [← hv g' v, Descent.map] at ih ⊢
        rw [← hm, ← ih]
      · simp only [Descent.map] at ih ⊢
        rw [← ih]

end Prototypal
