import Prototypal.Analysis.Command
import Prototypal.Proofs.Resemblance

/-!
# Prototypal — Proofs — Passage

What a descent does to its guard, step by step.  A guard *takes* a step (`Guard.Takes`): a visit
leaves it as it is, an attempt is answered as the step records, and a key that is left must be being
visited.  A guard *runs* through the steps of a descent (`Guard.Run`) when it takes one after the
other, and a property may be asked of it at every moment of the run.

The guard under which a value is resolved comes from the guard of the value that draws on it, by
entering the value.  What that keeps (`Kept`) holds at every moment of a descent
(`run_exploreLevels`, `run_describeLevels`, `run_evaluateLevels`), although the keys that are passed
through while a member is described are left again before its descriptor is read.

`Analysis.trace` gives the steps of the descents that an operation makes; what the operation reports
of denied attempts is what these steps report (`filter_log_step`).  `guard_balanced` says that under
all options, from every state, an operation leaves only keys that are being visited and none of them
stays, and that every descent within it hands back the keys it was given.
-/

namespace Prototypal

/-! ### Runs of a guard -/

namespace Guard

/-- The guard becomes `h` by taking a step: an attempt has the answer recorded, and the key that is
left is being visited. -/
inductive Takes : Guard ValueId → Step → Guard ValueId → Prop where
  | visit (g : Guard ValueId) (v : ValueId) : Takes g (.visit v) g
  | attempt {g h : Guard ValueId} {v : ValueId} {answer : Admission}
      (he : g.enter v = (answer, h)) : Takes g (.attempt v answer h.depth h.attempts) h
  | leave {g h : Guard ValueId} {v : ValueId} (hl : g.leave v = .ok h) : Takes g (.leave v) h

/-- The guard takes the steps in turn, and `I` holds before the first and after each. -/
inductive Run (I : Guard ValueId → Prop) : Guard ValueId → List Step → Guard ValueId → Prop where
  | refl {g : Guard ValueId} (hg : I g) : Run I g [] g
  | more {g h i : Guard ValueId} {s : Step} {ss : List Step} (hg : I g) (hs : g.Takes s h)
      (t : Run I h ss i) : Run I g (s :: ss) i

namespace Run

variable {I J : Guard ValueId → Prop} {g h i : Guard ValueId} {ss ts : List Step}

theorem last (hr : Run I g ss h) : I h := by
  induction hr with
  | refl hg => exact hg
  | more _ _ _ ih => exact ih

theorem trans (hr : Run I g ss h) (ht : Run I h ts i) : Run I g (ss ++ ts) i := by
  induction hr with
  | refl _ => exact ht
  | more hg hs _ ih => exact .more hg hs (ih ht)

theorem mono (hr : Run I g ss h) (hIJ : ∀ g, I g → J g) : Run J g ss h := by
  induction hr with
  | refl hg => exact .refl (hIJ _ hg)
  | more hg hs _ ih => exact .more (hIJ _ hg) hs ih

end Run

end Guard

open Guard (Run)

/-- The value that a descriptor belongs to. -/
def Descriptor.subject : Descriptor → ValueId
  | stored v _ | merged v _ => v

/-- Whether an event reports that an attempt was denied. -/
def Event.isDenial : Event → Bool
  | cycleSkipped _ | limitReached .. => true
  | _ => false

variable {α : Type}

/-- The descent, made under `g`, leaves only keys that are being visited, and hands back the keys
that it was given. -/
structure Descent.Tidy (d : Descent α) (g : Guard ValueId) : Prop where
  run : Run (fun _ => True) g d.trace d.guard
  visiting : d.guard.visiting = g.visiting

/-- A fan-out runs its guard well if descending into each value that may be entered does. -/
theorem run_fanOut {visit : Guard ValueId → ValueId → Descent α} {merge : α → α → α}
    {I : Guard ValueId → Prop} (hb : Balanced visit) {g : Guard ValueId} {vs : List ValueId}
    (hI : ∀ h, g.Continues h → I h)
    (hv : ∀ p ∈ vs, ∀ h, g.Continues h → h.Admits p →
      Run I (h.inside p) (visit (h.inside p) p).trace (visit (h.inside p) p).guard) (acc : α) :
    Run I g (fanOut visit merge acc g vs).trace (fanOut visit merge acc g vs).guard := by
  refine fanOut_steps_induction (motive := fun _ g _ d => Run I g d.trace d.guard) hb ?_ ?_ ?_ acc
  · exact fun _ h hg => .refl (hI h hg)
  · intro _ h i p _ rest hp hg ha hl ih
    have hfound := hv p hp h hg ha
    exact .more (hI h hg) (.attempt (Guard.enter_of_admits ha))
      (hfound.trans (.more hfound.last (.leave hl) ih))
  · exact fun _ h _ _ _ _ _ hg _ he ih => .more (hI h hg) (.attempt he) ih

namespace Analysis

variable {a : Analysis} {name : String}

/-! ### What holds at every moment of a descent -/

/-- What `I` says of a value and the guard under which it is resolved is kept when the guard enters
a prototype of the value, which is resolved then, and when a value defers to another, whose
descriptor is read then. -/
structure Kept (a : Analysis) (I : ValueId → Guard ValueId → Prop) : Prop where
  continues : ∀ {v g h}, I v g → g.Continues h → I v h
  inside : ∀ {v p g}, I v g → a.Draws v p → g.Admits p → I p (g.inside p)
  defers : ∀ {v p g}, I v g → a.Defers v p → I p g

variable {I : ValueId → Guard ValueId → Prop}

theorem Kept.route_defers (hI : a.Kept I) {v t : ValueId} {ps : List ValueId} {g : Guard ValueId}
    (hr : Route a.Defers v ps t) (hg : I v g) : I t g := by
  induction hr with
  | here => exact hg
  | down hp _ ih => exact ih (hI.defers hg hp)

/-- A fan-out over prototypes of `v` runs its guard well if the descents do that it makes. -/
theorem Kept.run_fanOut (hI : a.Kept I) {visit : Guard ValueId → ValueId → Descent α}
    {merge : α → α → α} (hb : Balanced visit)
    (hv : ∀ p g, I p g → Run (fun h => ∃ u, I u h) g (visit g p).trace (visit g p).guard)
    {v : ValueId} {g : Guard ValueId} (hg : I v g) {vs : List ValueId}
    (hvs : ∀ p ∈ vs, a.Draws v p) (acc : α) :
    Run (fun h => ∃ u, I u h) g (fanOut visit merge acc g vs).trace
      (fanOut visit merge acc g vs).guard :=
  Prototypal.run_fanOut hb (fun _ hc => ⟨v, hI.continues hg hc⟩)
    (fun p hp _ hc ha => hv p _ (hI.inside (hI.continues hg hc) (hvs p hp) ha)) acc

theorem run_exploreLevels (hI : a.Kept I) (own : ValueId → α) (merge : α → α → α) (n : Nat)
    {v : ValueId} {g : Guard ValueId} (hg : I v g) :
    Run (fun h => ∃ u, I u h) g (a.exploreLevels own merge n g v).trace
      (a.exploreLevels own merge n g v).guard := by
  induction n generalizing v g with
  | zero => exact .more ⟨v, hg⟩ (.visit g v) (.refl ⟨v, hg⟩)
  | succ n ih =>
      refine .more ⟨v, hg⟩ (.visit g v) ?_
      exact hI.run_fanOut (balanced_exploreLevels n) (fun _ _ => ih) hg
        (fun _ => mem_prototypes.mp) (own v)

theorem run_describeLevels (hI : a.Kept I) (n : Nat) {v : ValueId} {g : Guard ValueId}
    (hg : I v g) :
    Run (fun h => ∃ u, I u h) g (a.describeLevels name n g v).trace
      (a.describeLevels name n g v).guard := by
  revert hg
  refine describeLevels_induction a name (motive := fun _ g v d => I v g →
    Run (fun h => ∃ u, I u h) g d.trace d.guard) ?_ ?_ ?_ n g v
  · exact fun _ _ v _ _ _ hg => .refl ⟨v, hg⟩
  · exact fun _ v _ _ hg => .refl ⟨v, hg⟩
  · intro n g v p hp ih hg
    refine hI.run_fanOut (balanced_describeLevels n) (fun p g => ih g p) hg ?_ none
    intro q hq
    obtain rfl := List.mem_singleton.mp hq
    exact hp.draws

theorem Describes.subject_eq {t : ValueId} {d : Descriptor} (h : a.Describes name t d) :
    d.subject = t := by
  cases h <;> rfl

/-- What a prototype adds is described first, and read under a guard with the same keys. -/
theorem run_contribution_of (hI : a.Kept I) {read : Guard ValueId → Descriptor → Descent ValueSet}
    (hr : ∀ g d, I d.subject g →
      Run (fun h => ∃ u, I u h) g (read g d).trace (read g d).guard)
    {p : ValueId} {g : Guard ValueId} (hg : I p g) :
    Run (fun h => ∃ u, I u h) g (a.contribution name read g p).trace
      (a.contribution name read g p).guard := by
  have hd : Run (fun h => ∃ u, I u h) g (a.describe name g p).trace (a.describe name g p).guard :=
    run_describeLevels hI a.levels hg
  cases hf : (a.describe name g p).result with
  | none =>
      rw [contribution_of_none hf]
      exact hd
  | some d =>
      rw [contribution_of_some hf]
      refine hd.trans (hr _ d ?_)
      obtain ⟨ps, t, hps, hdt⟩ := exists_of_describeLevels hf
      rw [hdt.subject_eq]
      exact hI.continues (hI.route_defers hps hg) (balanced_describeLevels _ g p)

theorem run_evaluateLevels (hI : a.Kept I) (n : Nat) {g : Guard ValueId} {d : Descriptor}
    (hg : I d.subject g) :
    Run (fun h => ∃ u, I u h) g (a.evaluateLevels n g d).trace (a.evaluateLevels n g d).guard := by
  induction n generalizing g d with
  | zero =>
      cases d with
      | stored v name => exact .more ⟨v, hg⟩ (.visit g v) (.refl ⟨v, hg⟩)
      | merged v name => exact .refl ⟨v, hg⟩
  | succ n ih =>
      cases d with
      | stored v name => exact .more ⟨v, hg⟩ (.visit g v) (.refl ⟨v, hg⟩)
      | merged v name =>
          exact hI.run_fanOut (a.balanced_contribution name n)
            (fun _ _ => run_contribution_of hI fun _ _ => ih) hg (fun _ => mem_prototypes.mp) ∅

theorem run_contribution (hI : a.Kept I) (n : Nat) {p : ValueId} {g : Guard ValueId}
    (hg : I p g) :
    Run (fun h => ∃ u, I u h) g (a.contribution name (a.evaluateLevels n) g p).trace
      (a.contribution name (a.evaluateLevels n) g p).guard :=
  run_contribution_of hI (fun _ _ => run_evaluateLevels hI n) hg

/-- Several names are explored one after the other, from the same keys. -/
theorem run_readAll (hI : a.Kept I) {v : ValueId} {g : Guard ValueId} (hg : I v g)
    (names : List String) :
    Run (fun h => ∃ u, I u h) g (a.readAll v g names).trace (a.readAll v g names).guard := by
  induction names generalizing g with
  | nil => exact .refl ⟨v, hg⟩
  | cons name names ih =>
      rw [readAll_cons]
      refine (run_exploreLevels hI _ _ a.levels hg).trans (ih ?_)
      exact hI.continues hg (balanced_exploreLevels a.levels g v)

theorem balanced_readAll (v : ValueId) (g : Guard ValueId) (names : List String) :
    g.Continues (a.readAll v g names).guard := by
  induction names generalizing g with
  | nil => exact .refl g
  | cons name names ih => exact (balanced_exploreLevels a.levels g v).trans (ih _)

/-! ### The steps of an operation -/

/-- The steps of the descents that an operation makes. -/
def trace (a : Analysis) : Command → List Step
  | .lookup v name _ => (a.readAll v a.guard [name]).trace
  | .property v name => (a.describe name a.guard v).trace
  | .propertyValue d _ => (a.evaluate a.guard d).trace
  | .index v is _ =>
    if a.HasMembers v then (a.readAll v a.guard (a.indexNames is)).trace else []
  | .members v _ => (a.explore a.ownMembers MemberMap.merge a.guard v).trace
  | _ => []

theorem isDenial_of_event? {s : Step} {e : Event} (h : s.event? = some e) : e.isDenial = true := by
  cases s with
  | visit _ | leave _ => cases h
  | attempt v answer depth attempts => cases answer <;> cases h <;> rfl

theorem filter_isDenial_events (steps : List Step) :
    (steps.filterMap Step.event?).filter Event.isDenial = steps.filterMap Step.event? := by
  refine List.filter_eq_self.mpr fun e he => ?_
  obtain ⟨s, -, hs⟩ := List.mem_filterMap.mp he
  exact isDenial_of_event? hs

/-- Carrying out steps reports the denied attempts among them. -/
theorem filter_log_performAll (a : Analysis) (name : String) (site : Option Site)
    (steps : List Step) :
    (a.performAll name site steps).2.filter Event.isDenial = steps.filterMap Step.event? := by
  induction steps generalizing a with
  | nil => rfl
  | cons s steps ih =>
      have hs : (a.perform name site s).2.filter Event.isDenial = s.event?.toList := by
        cases s with
        | attempt v answer depth attempts => cases answer <;> rfl
        | leave v => rfl
        | visit v =>
            cases site with
            | none => rfl
            | some site =>
                simp only [perform, recordUsage]
                split
                · split <;> rfl
                · rfl
      have hcons : (s :: steps).filterMap Step.event? =
          s.event?.toList ++ steps.filterMap Step.event? := by
        cases h : s.event? <;> simp [h]
      rw [hcons, ← hs, ← ih (a.perform name site s).1, ← List.filter_append]
      rfl

theorem filter_log_readNames (a : Analysis) (v : ValueId) (site : Option Site) (g : Guard ValueId)
    (names : List String) :
    (a.readNames v site g names).log.filter Event.isDenial =
      (a.readAll v g names).trace.filterMap Step.event? := by
  induction names generalizing a g with
  | nil => rfl
  | cons name names ih =>
      have h := a.alike_performAll name site (a.explore (a.ownTypes · name) (· ∪ ·) g v).trace
      rw [readAll_cons, List.filterMap_append, h.readAll, ← ih, ← filter_log_performAll a name site,
        ← List.filter_append]
      rfl

theorem filter_log_index (a : Analysis) (v : ValueId) (is : ValueSet) (site : Option Site) :
    (a.index v is site).log.filter Event.isDenial =
      (a.trace (.index v is site)).filterMap Step.event? := by
  dsimp only [trace]
  rcases a.indexing_cases v with hm | ⟨f, hk⟩ | ⟨hm, hf⟩
  · rw [index_of_hasMembers is site hm, if_pos hm]
    exact a.filter_log_readNames v _ _ _
  · rw [index_of_arguments is site hk, if_neg (not_hasMembers_of_arguments hk)]
    rfl
  · rw [index_of_not is site hm hf, if_neg hm]
    rfl

/-- **What an operation reports of denied attempts** is what the steps of its descents report. -/
theorem filter_log_step (a : Analysis) (c : Command) :
    (a.step c).log.filter Event.isDenial = (a.trace c).filterMap Step.event? := by
  cases c with
  | lookup v name site => exact a.filter_log_readNames v _ _ _
  | property v name => exact filter_isDenial_events _
  | propertyValue d site => exact a.filter_log_performAll d.name _ _
  | members v accessor => exact filter_isDenial_events _
  | index v is site => exact a.filter_log_index v is site
  | addUnit path =>
      show (a.addUnit path).log.filter Event.isDenial = _
      unfold addUnit
      split <;> rfl
  | bumpUnit u =>
      show (a.bumpUnit u).log.filter Event.isDenial = _
      unfold bumpUnit
      split <;> rfl
  | detachUnit u =>
      show (a.detachUnit u).log.filter Event.isDenial = _
      unfold detachUnit
      split <;> rfl
  | addPrototypes v prototypes =>
      show (a.addPrototypes v prototypes).log.filter Event.isDenial = _
      unfold addPrototypes
      split
      · dsimp only
        split <;> rfl
      · rfl
  | assign v name values =>
      show (a.assign v name values).log.filter Event.isDenial = _
      unfold assign
      split <;> rfl
  | bindArguments v args =>
      show (a.bindArguments v args).log.filter Event.isDenial = _
      unfold bindArguments
      split <;> rfl
  | tearDown u => rfl
  | createNull u | createBoolean u _ | createNumber u _ | createText u _ | createObject u
  | createFunction u _ | createInheritor u _ | createArguments u =>
      show (create ..).log.filter Event.isDenial = _
      unfold create
      split <;> rfl

/-- The guard of an operation runs through its steps, and hands back the keys it was given. -/
theorem exists_run_trace (hI : a.Kept I) (hg : ∀ v, I v a.guard) (c : Command) :
    ∃ h, a.guard.Continues h ∧ Run (fun h => ∃ u, I u h) a.guard (a.trace c) h := by
  cases c with
  | lookup v name site => exact ⟨_, balanced_readAll v _ _, run_readAll hI (hg v) _⟩
  | property v name =>
      exact ⟨_, balanced_describeLevels _ _ v, run_describeLevels hI a.levels (hg v)⟩
  | propertyValue d site =>
      exact ⟨_, balanced_evaluateLevels _ _ d, run_evaluateLevels hI a.levels (hg d.subject)⟩
  | index v is site =>
      dsimp only [trace]
      split
      · exact ⟨_, balanced_readAll v _ _, run_readAll hI (hg v) _⟩
      · exact ⟨_, .refl _, .refl ⟨v, hg v⟩⟩
  | members v accessor =>
      exact ⟨_, balanced_exploreLevels _ _ v, run_exploreLevels hI _ _ a.levels (hg v)⟩
  | addUnit _ | bumpUnit _ | detachUnit _ | tearDown _ | createNull _ | createBoolean _ _
  | createNumber _ _ | createText _ _ | createObject _ | createFunction _ _ | createArguments _
  | createInheritor _ _ | addPrototypes _ _ | assign _ _ _ | bindArguments _ _ =>
      exact ⟨_, .refl _, .refl ⟨⟨0⟩, hg ⟨0⟩⟩⟩

/-! ### Balance -/

theorem kept_true (a : Analysis) : a.Kept fun _ _ => True :=
  ⟨fun _ _ => trivial, fun _ _ _ => trivial, fun _ _ => trivial⟩

/-- A fan-out is tidy when descending into each value is. -/
theorem tidy_fanOut {visit : Guard ValueId → ValueId → Descent α} {merge : α → α → α}
    (hb : Balanced visit) (hv : ∀ g v, (visit g v).Tidy g) (acc : α) (g : Guard ValueId)
    (vs : List ValueId) : (fanOut visit merge acc g vs).Tidy g where
  run := Prototypal.run_fanOut hb (fun _ _ => trivial) (fun p _ _ _ _ => (hv _ p).run) acc
  visiting := (hb.fanOut acc g vs).visiting

theorem tidy_exploreLevels (a : Analysis) (own : ValueId → α) (merge : α → α → α) (n : Nat)
    (g : Guard ValueId) (v : ValueId) : (a.exploreLevels own merge n g v).Tidy g where
  run := (run_exploreLevels a.kept_true own merge n trivial).mono fun _ _ => trivial
  visiting := (balanced_exploreLevels n g v).visiting

theorem tidy_describeLevels (a : Analysis) (name : String) (n : Nat) (g : Guard ValueId)
    (v : ValueId) : (a.describeLevels name n g v).Tidy g where
  run := (run_describeLevels a.kept_true n trivial).mono fun _ _ => trivial
  visiting := (balanced_describeLevels n g v).visiting

theorem tidy_evaluateLevels (a : Analysis) (n : Nat) (g : Guard ValueId) (d : Descriptor) :
    (a.evaluateLevels n g d).Tidy g where
  run := (run_evaluateLevels a.kept_true n trivial).mono fun _ _ => trivial
  visiting := (balanced_evaluateLevels n g d).visiting

theorem tidy_contribution (a : Analysis) (name : String) (n : Nat) (g : Guard ValueId)
    (p : ValueId) : (a.contribution name (a.evaluateLevels n) g p).Tidy g where
  run := (run_contribution a.kept_true n trivial).mono fun _ _ => trivial
  visiting := (a.balanced_contribution name n g p).visiting

/-- **The guard is balanced.**  In every state, under all options, an operation takes steps that
report what it reports of denied attempts, in which it leaves only keys that are being visited, and
after which no key is.  Within it, every exploration, description and reading, and every fan-out of
one of them over whatever values, leaves only keys that are being visited and hands back the keys it
was given. -/
theorem guard_balanced (a : Analysis) :
    (∀ c, (a.step c).log.filter Event.isDenial = (a.trace c).filterMap Step.event? ∧
      ∃ g, Run (fun _ => True) a.guard (a.trace c) g ∧ g.visiting = [] ∧ g.finish = .ok ()) ∧
    (∀ (α : Type) (own : ValueId → α) (merge : α → α → α) (n : Nat) (g : Guard ValueId),
      (∀ v, (a.exploreLevels own merge n g v).Tidy g) ∧
      ∀ acc vs, (fanOut (a.exploreLevels own merge n) merge acc g vs).Tidy g) ∧
    (∀ (name : String) (n : Nat) (g : Guard ValueId),
      (∀ v, (a.describeLevels name n g v).Tidy g) ∧
      (∀ d, (a.evaluateLevels n g d).Tidy g) ∧
      ∀ acc vs, (fanOut (a.contribution name (a.evaluateLevels n)) (· ∪ ·) acc g vs).Tidy g) := by
  refine ⟨fun c => ⟨a.filter_log_step c, ?_⟩, fun α own merge n g => ⟨?_, ?_⟩,
    fun name n g => ⟨?_, ?_, ?_⟩⟩
  · obtain ⟨g, hc, hr⟩ := exists_run_trace a.kept_true (fun _ => trivial) c
    have hv : g.visiting = [] := hc.visiting
    refine ⟨g, hr.mono fun _ _ => trivial, hv, ?_⟩
    simp [Guard.finish, hv]
  · exact a.tidy_exploreLevels own merge n g
  · exact fun acc => tidy_fanOut (balanced_exploreLevels n) (a.tidy_exploreLevels own merge n) acc g
  · exact a.tidy_describeLevels name n g
  · exact a.tidy_evaluateLevels n g
  · exact fun acc =>
      tidy_fanOut (a.balanced_contribution name n) (a.tidy_contribution name n) acc g

end Analysis

end Prototypal
