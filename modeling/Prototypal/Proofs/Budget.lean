import Prototypal.Proofs.Passage
import Prototypal.Proofs.Reading

/-!
# Prototypal — Proofs — Budget

What budgets take away.  Under any budgets a descent visits only values that are reached, and where
no budget binds it visits all of them; so budgets can only make answers smaller.  After a denial by
a budget nothing more can be said, for a count that is used up in one place is missing in others.

Without one, the budgets might as well not be there.  A descent is *steady* (`Steady`) when, as long
as no budget denies an attempt, it is the same under wider limits, steps and attempts included; the
reasons to deny are tried in order, and all but the budgets are the same.  Fan-outs of steady
descents are steady (`Steady.fanOut`), and so is every descent of the library.

* `readAll_subset`, `evaluate_subset`: what is found under any guard is part of what is found where
  no budget binds.
* `step_answer_withLimits`: a question of which no attempt is denied by a budget has the same answer
  under wider limits.
* `budgets_only_narrow`: both for the default budgets, in every reachable state, with reported
  events in place of steps.
-/

namespace Prototypal

/-- Whether a step is an attempt that a budget denied. -/
def Step.isExceeded : Step → Bool
  | attempt _ answer _ _ => answer.isExceeded
  | _ => false

/-- None of the steps is an attempt that a budget denied. -/
def Unhindered (steps : List Step) : Prop := ∀ s ∈ steps, s.isExceeded = false

/-- `m` allows whatever `l` allows; no count exceeds `Count.top`. -/
structure Limits.Le (l m : Limits) : Prop where
  depth : l.depth ≤ m.depth
  attempts : min l.attempts Count.top ≤ m.attempts

theorem Limits.le_default {l : Limits} (h : l.depth ≤ Count.top) : l.Le {} :=
  ⟨h, Nat.min_le_right _ _⟩

namespace Guard

variable {κ : Type} {g h : Guard κ} {k : κ} {m : Limits}

/-- The guard under other limits. -/
def under (g : Guard κ) (m : Limits) : Guard κ := { g with limits := m }

variable [DecidableEq κ]

/-- An attempt that no budget denies is answered alike under wider limits. -/
theorem admission_under {n : Nat} (hl : g.limits.Le m) (hn : n ≤ Count.top)
    (hx : (g.admission k n).isExceeded = false) : (g.under m).admission k n = g.admission k n := by
  unfold admission at hx ⊢
  by_cases ha : g.limits.attempts < n
  · rw [if_pos ha] at hx
    cases hx
  have ha' : ¬ m.attempts < n := by
    have := hl.attempts
    omega
  rw [if_neg ha] at hx ⊢
  rw [if_neg (show ¬ (g.under m).limits.attempts < n from ha')]
  by_cases hk : k ∈ g.visiting
  · rw [if_pos hk, if_pos (show k ∈ (g.under m).visiting from hk)]
  rw [if_neg hk] at hx ⊢
  rw [if_neg (show k ∉ (g.under m).visiting from hk)]
  by_cases hd : g.limits.depth ≤ g.depth
  · rw [if_pos hd] at hx
    cases hx
  have hd' : ¬ m.depth ≤ g.depth := by
    have := hl.depth
    omega
  rw [if_neg hd, if_neg (show ¬ (g.under m).limits.depth ≤ (g.under m).depth from hd')]

theorem enter_under {answer : Admission} (hl : g.limits.Le m) (he : g.enter k = (answer, h))
    (hx : answer.isExceeded = false) : (g.under m).enter k = (answer, h.under m) := by
  have hfst : (g.enter k).1 = g.admission k (Count.next g.attempts) := by
    unfold enter
    dsimp only
    split
    · next h => exact h.symm
    · rfl
  have hadm := admission_under (k := k) hl (Count.next_le_top g.attempts)
    (by rw [← hfst, he]; exact hx)
  unfold enter at he ⊢
  dsimp only at he ⊢
  rw [show (g.under m).attempts = g.attempts from rfl, hadm]
  split at he
  · cases he
    rfl
  · cases he
    rfl

theorem leave_under (hl : g.leave k = .ok h) : (g.under m).leave k = .ok (h.under m) := by
  unfold leave at hl ⊢
  split at hl
  · next hk =>
    cases hl
    exact if_pos hk
  · cases hl

end Guard

variable {α ι : Type}

/-! ### Steady descents -/

/-- The descent with its guard under other limits. -/
def Descent.under (d : Descent α) (m : Limits) : Descent α := { d with guard := d.guard.under m }

/-- Descents that no budget hinders are the same under `m`, if that is wider. -/
def Steady (m : Limits) (visit : Guard ValueId → ι → Descent α) : Prop :=
  ∀ g i, g.limits.Le m → Unhindered (visit g i).trace →
    visit (g.under m) i = (visit g i).under m

theorem Steady.result {m : Limits} {visit : Guard ValueId → ι → Descent α} (hv : Steady m visit)
    {g : Guard ValueId} {i : ι} (hle : g.limits.Le m) (hf : Unhindered (visit g i).trace) :
    (visit (g.under m) i).result = (visit g i).result := by
  rw [hv g i hle hf]
  rfl

/-- **Fanning out is steady** when descending into each value is. -/
theorem Steady.fanOut {m : Limits} {visit : Guard ValueId → ValueId → Descent α}
    (hv : Steady m visit) (hb : Balanced visit) (merge : α → α → α) (acc : α) :
    Steady m (fanOut visit merge acc) := by
  intro g vs hle
  refine fanOut_steps_induction (motive := fun acc g vs d => Unhindered d.trace →
    Prototypal.fanOut visit merge acc (g.under m) vs = d.under m) hb ?_ ?_ ?_ acc
  · exact fun _ _ _ _ => rfl
  · intro acc h i v vs rest _ hg ha hl ih hf
    -- what is found below the value is the same, so the value is left in the same way
    obtain ⟨hfound, hrest⟩ := List.forall_mem_append.mp (List.forall_mem_cons.mp hf).2
    have hle : h.limits.Le m := hg.limits ▸ hle
    have he := Guard.enter_under hle (Guard.enter_of_admits ha) rfl
    have hfound := hv (h.inside v) v hle hfound
    have hleave := Guard.leave_under (m := m) hl
    have hrest := ih (List.forall_mem_cons.mp hrest).2
    rw [Prototypal.fanOut, he]
    dsimp only
    rw [hfound]
    dsimp only [Descent.under]
    rw [hleave]
    dsimp only [Except.toOption, Option.getD_some]
    rw [hrest]
    rfl
  · intro acc h v vs answer rest _ hg ha he ih hf
    obtain ⟨hx, hrest⟩ := List.forall_mem_cons.mp hf
    have hne : answer ≠ .entered := fun hd => ha (Guard.admits_of_enter (hd ▸ he))
    have he := Guard.enter_under (hg.limits ▸ hle) he hx
    have hrest := ih hrest
    rw [Prototypal.fanOut, he]
    cases answer with
    | entered => exact absurd rfl hne
    | cycle | tooDeep | tooMany =>
        dsimp only
        rw [hrest]
        rfl

namespace Analysis

variable {a : Analysis} {m : Limits} {name : String}

theorem steady_exploreLevels (a : Analysis) (m : Limits) (own : ValueId → α) (merge : α → α → α)
    (n : Nat) : Steady m (a.exploreLevels own merge n) := by
  induction n with
  | zero => exact fun _ _ _ _ => rfl
  | succ n ih =>
      intro g v hle hf
      have h := ih.fanOut (balanced_exploreLevels n) merge (own v) g (a.prototypes v) hle
        (List.forall_mem_cons.mp hf).2
      rw [exploreLevels, h]
      rfl

theorem steady_describeLevels (a : Analysis) (m : Limits) (name : String) (n : Nat) :
    Steady m (a.describeLevels name n) := by
  refine fun g v => describeLevels_induction a name (motive := fun n g v d => g.limits.Le m →
    Unhindered d.trace → a.describeLevels name n (g.under m) v = d.under m) ?_ ?_ ?_ n g v
  · intro n g v found hs hf _ _
    obtain ⟨found', he, hf'⟩ := describeLevels_of_stops hs name n (g.under m)
    obtain rfl : found' = found := Option.ext fun d => (hf' d).trans (hf d).symm
    exact he
  · exact fun g v p hp _ _ => describeLevels_zero_of_defers hp _
  · intro n g v p hp ih hle hf
    rw [describeLevels_succ_of_defers hp]
    exact Steady.fanOut ih (balanced_describeLevels n) _ none g [p] hle hf

/-- What a prototype adds is steady if the reading of its descriptor is. -/
theorem steady_contribution_of {read : Guard ValueId → Descriptor → Descent ValueSet}
    (hr : Steady m read) : Steady m (a.contribution name read) := by
  intro g p hle hf
  have hd : Unhindered (a.describe name g p).trace →
      a.describe name (g.under m) p = (a.describe name g p).under m :=
    a.steady_describeLevels m name a.levels g p hle
  have hc : g.Continues (a.describe name g p).guard := balanced_describeLevels a.levels g p
  cases hres : (a.describe name g p).result with
  | none =>
      rw [contribution_of_none hres] at hf ⊢
      have hd := hd hf
      have hres' : (a.describe name (g.under m) p).result = none := by
        rw [hd]
        exact hres
      rw [contribution_of_none hres', hd]
      rfl
  | some d =>
      rw [contribution_of_some hres] at hf ⊢
      obtain ⟨hfd, hfr⟩ := List.forall_mem_append.mp hf
      have hd := hd hfd
      have hr := hr (a.describe name g p).guard d (hc.limits ▸ hle) hfr
      have hres' : (a.describe name (g.under m) p).result = some d := by
        rw [hd]
        exact hres
      rw [contribution_of_some hres', hd]
      dsimp only [Descent.under]
      rw [hr]
      rfl

theorem steady_evaluateLevels (a : Analysis) (m : Limits) (n : Nat) :
    Steady m (a.evaluateLevels n) := by
  induction n with
  | zero =>
      intro g d _ _
      cases d <;> rfl
  | succ n ih =>
      intro g d hle hf
      cases d with
      | stored v name => rfl
      | merged v name =>
          exact (steady_contribution_of ih).fanOut (a.balanced_contribution name n) _ ∅ g
            (a.prototypes v) hle hf

theorem steady_readAll (a : Analysis) (m : Limits) (v : ValueId) : Steady m (a.readAll v) := by
  intro g names hle hf
  induction names generalizing g with
  | nil => rfl
  | cons name names ih =>
      rw [readAll_cons] at hf
      obtain ⟨hfirst, hrest⟩ := List.forall_mem_append.mp hf
      have hc : g.Continues (a.explore (a.ownTypes · name) (· ∪ ·) g v).guard :=
        balanced_exploreLevels a.levels g v
      have hfirst := a.steady_exploreLevels m (a.ownTypes · name) (· ∪ ·) a.levels g v hle hfirst
      have hrest := ih _ (hc.limits ▸ hle) hrest
      rw [readAll_cons, readAll_cons, explore, hfirst]
      dsimp only [Descent.under, explore] at hrest ⊢
      rw [hrest]

/-! ### Questions under other limits -/

/-- The state under other limits. -/
def withLimits (a : Analysis) (m : Limits) : Analysis :=
  { a with options := { a.options with limits := m } }

theorem alike_withLimits (a : Analysis) (m : Limits) : (a.withLimits m).Alike a :=
  ⟨.of_values rfl, rfl, rfl⟩

/-- **Without a denial by a budget, wider limits change no answer.** -/
theorem step_answer_withLimits (hl : a.options.limits.Le m) {c : Command} (hc : c.isQuery)
    (hf : Unhindered (a.trace c)) : ((a.withLimits m).step c).answer = (a.step c).answer := by
  have h := a.alike_withLimits m
  have hg : (a.withLimits m).guard = a.guard.under m := rfl
  cases c with
  | lookup v name site =>
      have hs := (a.steady_readAll m v).result hl hf
      refine congrArg Answer.values ?_
      rw [lookup, lookup, shown_readNames_answer, shown_readNames_answer, h.shown, h.readAll, hg,
        hs]
  | property v name =>
      have hs : (a.describe name (a.guard.under m) v).result = (a.describe name a.guard v).result :=
        (a.steady_describeLevels m name a.levels).result hl hf
      refine congrArg Answer.descriptor ?_
      rw [property, property, h.describe, hg, hs]
  | propertyValue d site =>
      have hs : (a.evaluate (a.guard.under m) d).result = (a.evaluate a.guard d).result :=
        (a.steady_evaluateLevels m a.levels).result hl hf
      refine congrArg Answer.values ?_
      rw [propertyValue_answer, propertyValue_answer, h.shown, h.evaluate, hg, hs]
  | index v is site =>
      refine congrArg Answer.values ?_
      rcases a.indexing_cases v with hm | ⟨f, hk⟩ | ⟨hm, hn⟩
      · have hf : Unhindered (a.readAll v a.guard (a.indexNames is)).trace := by
          dsimp only [trace] at hf
          rwa [if_pos hm] at hf
        have hs := (a.steady_readAll m v).result hl hf
        rw [index_of_hasMembers is site hm, index_of_hasMembers is site (h.hasMembers_iff.mpr hm),
          shown_readNames_answer, shown_readNames_answer, h.shown, h.readAll, h.indexNames, hg, hs]
      · rw [index_of_arguments is site hk, index_of_arguments is site (h.symm.kind?_arguments hk)]
        rfl
      · rw [index_of_not is site hm hn, index_of_not is site (mt h.hasMembers_iff.mp hm) hn]
  | members v accessor =>
      have hs : (a.explore a.ownMembers MemberMap.merge (a.guard.under m) v).result =
          (a.explore a.ownMembers MemberMap.merge a.guard v).result :=
        (a.steady_exploreLevels m a.ownMembers MemberMap.merge a.levels).result hl hf
      refine congrArg Answer.members ?_
      rw [members, members, h.explore, hg]
      exact congrArg (Roster.filterMap · a.listed?) hs
  | addUnit _ | bumpUnit _ | detachUnit _ | tearDown _ | createNull _ | createBoolean _ _
  | createNumber _ _ | createText _ _ | createObject _ | createFunction _ _ | createArguments _
  | createInheritor _ _ | addPrototypes _ _ | assign _ _ _ | bindArguments _ _ => cases hc

/-- What reports no limit is not hindered by one. -/
theorem unhindered_of_log {c : Command}
    (h : ∀ v depth attempts, Event.limitReached v depth attempts ∉ (a.step c).log) :
    Unhindered (a.trace c) := by
  have silent : ∀ {s v depth attempts}, s ∈ a.trace c →
      s.event? ≠ some (.limitReached v depth attempts) := by
    intro s v depth attempts hs he
    have hmem := List.mem_filterMap.mpr ⟨s, hs, he⟩
    rw [← filter_log_step] at hmem
    exact h v depth attempts (List.mem_filter.mp hmem).1
  intro s hs
  cases s with
  | visit v | leave v => rfl
  | attempt v answer depth attempts =>
      cases answer with
      | entered | cycle => rfl
      | tooDeep | tooMany => exact absurd rfl (silent hs)

/-! ### Where no budget binds -/

/-- Under any guard, what is found in several members is held by one of them in a value reached. -/
theorem exists_of_mem_readAll {v w : ValueId} {g : Guard ValueId} {names : List String}
    (hw : w ∈ (a.readAll v g names).result) :
    ∃ name ∈ names, ∃ u, a.Reaches v u ∧ w ∈ a.ownTypes u name := by
  induction names generalizing g with
  | nil => exact absurd hw (ValueSet.not_mem_empty w)
  | cons name names ih =>
      rcases ValueSet.mem_union.mp hw with hw | hw
      · obtain ⟨u, hu, hw⟩ := (a.isUnionOver_explore name g v w).mp hw
        exact ⟨name, List.mem_cons_self, u, reaches_of_mem_visits_exploreLevels hu, hw⟩
      · obtain ⟨name', hn, hw⟩ := ih hw
        exact ⟨name', List.mem_cons_of_mem _ hn, hw⟩

/-- Where no budget binds, all that one of several members holds in a value reached is found. -/
theorem mem_readAll {v u w : ValueId} {g : Guard ValueId} {names : List String}
    (hg : g.visiting = []) (hu : g.limits.attempts = Count.top)
    (hd : a.inheritorCount ≤ g.limits.depth) (hn : name ∈ names) (hr : a.Reaches v u)
    (hw : w ∈ a.ownTypes u name) : w ∈ (a.readAll v g names).result := by
  induction names generalizing g with
  | nil => cases hn
  | cons name' names ih =>
      have hc : g.Continues (a.explore (a.ownTypes · name') (· ∪ ·) g v).guard :=
        balanced_exploreLevels a.levels g v
      refine ValueSet.mem_union.mpr ?_
      rcases List.mem_cons.mp hn with rfl | hn
      · refine .inl ((a.isUnionOver_explore name g v w).mpr ⟨u, ?_, hw⟩)
        exact (mem_visits_explore_iff hg hu).mpr (hr.within hd)
      · exact .inr (ih (hc.visiting.trans hg) (hc.limits ▸ hu) (hc.limits ▸ hd) hn)

/-- A merged descriptor reads every plain value with the member that a prototype reaches, also if
its inheritor does not branch. -/
theorem mem_visits_evaluate_merged {v p u : ValueId} {slot : Slot}
    (hu : a.options.limits.attempts = Count.top) (hd : a.inheritorCount ≤ a.options.limits.depth)
    (hpv : p ∈ a.prototypes v) (hr : a.Reaches p u) (hp : a.IsPlain u)
    (hs : a.slot? u name = some slot) : u ∈ (a.evaluate a.guard (.merged v name)).visits := by
  rcases (mem_prototypes.mp hpv).defers_or_branches with hv | hb
  · obtain ⟨ps, t, hps, ht, ts, hts⟩ := hr.exists_leaps hp
    obtain ⟨rs, hrs, -, hnd⟩ := hts.exists_nodup
    obtain ⟨htrs, hrsn⟩ := List.nodup_cons.mp hnd
    obtain ⟨d, hdt⟩ := exists_describes_of_leaps hrs hp hs
    -- `v` defers, so it is none of the values where deferrals stop
    have hne : ∀ x, a.Stops x → x ≠ v := by
      rintro x hx rfl
      exact hx p hv
    refine mem_visits_evaluateLevels_merged hu hd (.start a rfl v) hpv hps hdt ?_ ?_
    · simpa using hne t ht
    · intro h hl hpassed
      refine mem_visits_evaluateLevels_of_leaps (hl ▸ hu) (hl ▸ hd) hrs hp hs hdt ?_ hrsn ?_ hpassed
      · exact length_le_of_route (fun _ _ hl => hl.1.isInheritor) hrs hnd
      · intro x hx hmem
        obtain ⟨y, -, q, -, qs, -, hxs⟩ := hrs.exists_rel_of_mem hx
        rcases List.mem_cons.mp hmem with rfl | hmem
        · exact htrs hx
        · exact hne x hxs (List.mem_singleton.mp hmem)
  · have hdesc : (a.describe name a.guard v).result = some (.merged v name) :=
      describe_of_route hu hd (.here v) (.merged hb)
    obtain ⟨ps, hps⟩ := hr
    have hvu : a.Reaches v u := ⟨p :: ps, .down (mem_prototypes.mp hpv) hps⟩
    exact (mem_visits_evaluate_iff hu hd hdesc hs).mpr ⟨hvu, hp⟩

section

variable (hu : a.options.limits.attempts = Count.top)
  (hd : a.inheritorCount ≤ a.options.limits.depth)

include hu hd

/-- What several members are found to hold under any guard is found where no budget binds. -/
theorem readAll_subset (v : ValueId) (g : Guard ValueId) (names : List String) :
    (a.readAll v g names).result ⊆ (a.readAll v a.guard names).result := by
  intro w hw
  obtain ⟨name, hn, u, hr, hw⟩ := exists_of_mem_readAll hw
  exact mem_readAll rfl hu hd hn hr hw

/-- What a descriptor is found to give under any guard it gives where no budget binds. -/
theorem evaluate_subset (g : Guard ValueId) (d : Descriptor) :
    (a.evaluate g d).result ⊆ (a.evaluate a.guard d).result := by
  intro w hw
  cases d with
  | stored v name => exact hw
  | merged v name =>
      obtain ⟨u, hvisit, hw⟩ := (collects_evaluateLevels w a.levels g (.merged v name)).mp hw
      obtain ⟨p, hp, hr, hplain⟩ := mem_visits_evaluateLevels_merged_sound hvisit
      obtain ⟨slot, hs, -⟩ := slot?_of_mem_ownTypes hw
      have hvisit := mem_visits_evaluate_merged hu hd hp hr hplain hs
      exact (collects_evaluateLevels w a.levels a.guard (.merged v name)).mpr ⟨u, hvisit, hw⟩

end

/-- **Budgets only narrow answers, and never silently.**  In every reachable state: what looking up,
indexing and reading a descriptor answer under any budgets is part of what they answer under the
default ones; and a question that reports no limit reached, under budgets of 32 bits, has the very
answer that it has under the default ones, a listing of members in the same order. -/
theorem budgets_only_narrow (ha : a.Reachable) (l : Limits) :
    (∀ v name site, ((a.withLimits l).lookup v name site).answer ⊆
      ((a.withLimits {}).lookup v name site).answer) ∧
    (∀ v is site, ((a.withLimits l).index v is site).answer ⊆
      ((a.withLimits {}).index v is site).answer) ∧
    (∀ d site, ((a.withLimits l).propertyValue d site).answer ⊆
      ((a.withLimits {}).propertyValue d site).answer) ∧
    (l.depth ≤ Count.top → ∀ c : Command, c.isQuery →
      (∀ v depth attempts, Event.limitReached v depth attempts ∉ ((a.withLimits l).step c).log) →
      ((a.withLimits l).step c).answer = ((a.withLimits {}).step c).answer) := by
  have h : (a.withLimits l).Alike (a.withLimits {}) :=
    (a.alike_withLimits l).trans (a.alike_withLimits {}).symm
  have hd : (a.withLimits {}).inheritorCount ≤ Count.top := ha.inheritorCount_le
  refine ⟨fun v name site => ?_, fun v is site => ?_, fun d site => ?_, fun hl c hc hlog => ?_⟩
  · rw [lookup, lookup, shown_readNames_answer, shown_readNames_answer, h.shown, h.readAll]
    exact shown_mono (readAll_subset rfl hd v _ _)
  · rcases (a.withLimits l).indexing_cases v with hm | ⟨f, hk⟩ | ⟨hm, hf⟩
    · rw [index_of_hasMembers is site hm, index_of_hasMembers is site (h.hasMembers_iff.mp hm),
        shown_readNames_answer, shown_readNames_answer, h.shown, h.readAll, h.indexNames]
      exact shown_mono (readAll_subset rfl hd v _ _)
    · rw [index_of_arguments is site hk, index_of_arguments is site (h.kind?_arguments hk)]
      exact fun _ hw => hw
    · rw [index_of_not is site hm hf]
      exact fun w hw => absurd hw (ValueSet.not_mem_empty w)
  · rw [propertyValue_answer, propertyValue_answer, h.shown, h.evaluate]
    exact shown_mono (evaluate_subset rfl hd _ d)
  · exact (step_answer_withLimits (a := a.withLimits l) (Limits.le_default hl) hc
      (unhindered_of_log hlog)).symm

theorem budgets_only_narrow_crossedInheritors :
    crossedInheritors.Reachable ∧
    ((crossedInheritors.withLimits ⟨2, 6⟩).lookup ⟨5⟩ "x" none).answer = .singleton ⟨1⟩ ∧
    ((crossedInheritors.withLimits ⟨2, 6⟩).lookup ⟨5⟩ "x" none).answer ⊆
      ((crossedInheritors.withLimits {}).lookup ⟨5⟩ "x" none).answer ∧
    ((crossedInheritors.withLimits ⟨4, 20⟩).step (.lookup ⟨5⟩ "x" none)).log =
      [.cycleSkipped ⟨4⟩] ∧
    ((crossedInheritors.withLimits ⟨4, 20⟩).step (.lookup ⟨5⟩ "x" none)).answer =
      ((crossedInheritors.withLimits {}).step (.lookup ⟨5⟩ "x" none)).answer := by
  have ha : crossedInheritors.Reachable := ⟨{}, _, rfl⟩
  have hlog : ((crossedInheritors.withLimits ⟨4, 20⟩).step (.lookup ⟨5⟩ "x" none)).log =
      [.cycleSkipped ⟨4⟩] := by decide +kernel
  refine ⟨ha, by decide +kernel, (budgets_only_narrow ha ⟨2, 6⟩).1 ⟨5⟩ "x" none, hlog, ?_⟩
  refine (budgets_only_narrow ha ⟨4, 20⟩).2.2.2 (by decide) (.lookup ⟨5⟩ "x" none) rfl ?_
  intro v depth attempts
  rw [hlog]
  simp

end Analysis

end Prototypal
