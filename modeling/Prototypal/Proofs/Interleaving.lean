import Prototypal.Proofs.Resemblance
import Prototypal.Proofs.SetAlgebra

/-!
# Prototypal — Proofs — Interleaving

Reading and recording in one go.

A reading descends first, and what it is to record and to report is then carried out.  Here the same
readings record as they go: the site is recorded in a slot when the slot is read, all that follows
is read in the state that leaves, and what prototypes give is united by itself before it is united
with what the value has of its own (`memberIn`, `valueIn`, `memberEach`).  What a pure descent gives
once its steps are carried out is its `replay`.

* `memberIn_eq_replay`, `valueIn_eq_replay`: a reading that records as it goes is the replay of the
  pure descent.  Recording leaves a state alike, in which the rest of the descent is the same.
* `readings_interleave`: so the questions give the same answer, leave the same state and report the
  same events in the same order, whichever way they are read.
-/

namespace Prototypal

/-- What a reading gives that records as it goes: what it found, and the guard, the state and the
report that it leaves. -/
structure Course where
  result : ValueSet
  guard : Guard ValueId
  state : Analysis
  log : List Event := []

namespace Course

/-- The course with a report made before it. -/
def after (c : Course) (log : List Event) : Course := { c with log := log ++ c.log }

/-- The first course and then the second, with what both found. -/
def join (c d : Course) : Course := { d.after c.log with result := c.result ∪ d.result }

def reply (c : Course) : Reply ValueSet := { answer := c.result, state := c.state, log := c.log }

theorem reply_after (c : Course) (log : List Event) :
    (c.after log).reply = { c.reply with log := log ++ c.reply.log } := rfl

end Course

namespace Analysis

variable {a b : Analysis} {name : String} {site : Option Site}

/-! ### Readings that record as they go -/

/-- Reads an own member of `v`. -/
def ownIn (a : Analysis) (name : String) (site : Option Site) (g : Guard ValueId) (v : ValueId) :
    Course :=
  let (a, log) := a.perform name site (.visit v)
  ⟨a.ownTypes v name, g, a, log⟩

/-- Reads each listed value that the guard admits, and adds what it gives to `acc`. -/
def mergeIn (read : Analysis → Guard ValueId → ValueId → Course) :
    ValueSet → Analysis → Guard ValueId → List ValueId → Course
  | acc, a, g, [] => ⟨acc, g, a, []⟩
  | acc, a, g, p :: ps =>
    match g.enter p with
    | (.entered, g) =>
      let found := read a g p
      let left := (found.guard.leave p).toOption.getD found.guard
      (mergeIn read (acc ∪ found.result) found.state left ps).after found.log
    | (denied, g) =>
      (mergeIn read acc a g ps).after (Step.attempt p denied g.depth g.attempts).event?.toList

/-- Reads member `name` of `v`, following `n` levels of prototypes. -/
def memberIn (name : String) (site : Option Site) :
    Nat → Analysis → Guard ValueId → ValueId → Course
  | n, a, g, v =>
    match a.kind? v, n with
    | some (.object _), _ | some (.function ..), _ | some (.inheritor ..), 0 =>
      a.ownIn name site g v
    | some (.inheritor _ prototypes), n + 1 =>
      let own := a.ownIn name site g v
      own.join (mergeIn (memberIn name site n) ∅ own.state own.guard prototypes.toList)
    | _, _ => ⟨∅, g, a, []⟩

/-- Describes member `name` of `p`, and has `read` read the descriptor, if there is one. -/
def contributionIn (name : String) (read : Analysis → Guard ValueId → Descriptor → Course)
    (a : Analysis) (g : Guard ValueId) (p : ValueId) : Course :=
  let found := a.describe name g p
  let course : Course :=
    match found.result with
    | some d => read a found.guard d
    | none => ⟨∅, found.guard, a, []⟩
  course.after (found.trace.filterMap Step.event?)

/-- Reads a descriptor, following `n` levels of merged ones. -/
def valueIn (site : Option Site) : Nat → Analysis → Guard ValueId → Descriptor → Course
  | _, a, g, .stored owner name => a.ownIn name site g owner
  | 0, a, g, .merged _ _ => ⟨∅, g, a, []⟩
  | n + 1, a, g, .merged v name =>
    mergeIn (contributionIn name (valueIn site n)) ∅ a g (a.prototypes v)

/-- Reads the named members of `v` one after the other, all under one guard. -/
def memberEach (v : ValueId) (site : Option Site) (n : Nat) :
    ValueSet → Analysis → Guard ValueId → List String → Course
  | acc, a, g, [] => ⟨acc, g, a, []⟩
  | acc, a, g, name :: names =>
    let found := memberIn name site n a g v
    (memberEach v site n (acc ∪ found.result) found.state found.guard names).after found.log

/-! ### Recording afterwards -/

/-- What a descent gives once its steps have been carried out. -/
def replay (a : Analysis) (name : String) (site : Option Site) (d : Descent ValueSet) : Course :=
  let (state, log) := a.performAll name site d.trace
  ⟨d.result, d.guard, state, log⟩

section Replay

variable (a : Analysis) (name : String) (site : Option Site) (r : ValueSet) (g : Guard ValueId)

theorem performAll_append (steps steps' : List Step) :
    a.performAll name site (steps ++ steps') =
      (((a.performAll name site steps).1.performAll name site steps').1,
        (a.performAll name site steps).2 ++
          ((a.performAll name site steps).1.performAll name site steps').2) := by
  induction steps generalizing a with
  | nil => rfl
  | cons step steps ih => simp only [List.cons_append, performAll, ih, List.append_assoc]

/-- The first steps are carried out before the others, which start from the state they leave. -/
theorem replay_append (steps steps' : List Step) :
    a.replay name site ⟨r, steps ++ steps', g⟩ =
      ((a.performAll name site steps).1.replay name site ⟨r, steps', g⟩).after
        (a.performAll name site steps).2 := by
  simp only [replay, performAll_append, Course.after]

theorem join_replay (steps : List Step) (d : Descent ValueSet) :
    (a.replay name site ⟨r, steps, g⟩).join
        ((a.performAll name site steps).1.replay name site d) =
      a.replay name site ⟨r ∪ d.result, steps ++ d.trace, d.guard⟩ := by
  simp only [replay, performAll_append, Course.join, Course.after]

theorem replay_attempt (v : ValueId) (answer : Admission) (depth attempts : Nat)
    (steps : List Step) :
    a.replay name site ⟨r, .attempt v answer depth attempts :: steps, g⟩ =
      (a.replay name site ⟨r, steps, g⟩).after
        (Step.attempt v answer depth attempts).event?.toList := rfl

theorem replay_leave (v : ValueId) (steps : List Step) :
    a.replay name site ⟨r, .leave v :: steps, g⟩ = a.replay name site ⟨r, steps, g⟩ := rfl

/-- Steps that read no member are only reported. -/
theorem performAll_of_visits_eq_nil {steps : List Step}
    (h : steps.filterMap Step.visited? = []) :
    a.performAll name site steps = (a, steps.filterMap Step.event?) := by
  induction steps with
  | nil => rfl
  | cons step steps ih =>
      cases step with
      | visit v => simp [Step.visited?] at h
      | attempt v answer depth attempts =>
          simp only [performAll, perform, ih h]
          cases answer <;> rfl
      | leave v =>
          simp only [performAll, perform, ih h]
          rfl

/-- Recording a site does not change what the member holds. -/
theorem ownIn_eq_replay (v : ValueId) :
    a.ownIn name site g v = a.replay name site ⟨a.ownTypes v name, [.visit v], g⟩ := by
  rw [(a.alike_performAll name site [.visit v]).ownTypes v name]
  simp only [ownIn, replay, performAll, List.append_nil]

end Replay

/-- **A fan-out that records as it goes** is the replay of the pure one, if this is so for each of
its values in every state alike. -/
theorem mergeIn_eq_replay {read : Analysis → Guard ValueId → ValueId → Course}
    {visit : Guard ValueId → ValueId → Descent ValueSet}
    (hread : ∀ b, a.Alike b → ∀ g p, read b g p = b.replay name site (visit g p))
    (hb : a.Alike b) (acc : ValueSet) (g : Guard ValueId) (ps : List ValueId) :
    mergeIn read acc b g ps = b.replay name site (fanOut visit (· ∪ ·) acc g ps) := by
  induction ps generalizing acc b g with
  | nil => rfl
  | cons p ps ih =>
      rw [mergeIn, fanOut]
      cases he : g.enter p with
      | mk answer h =>
          cases answer with
          | entered =>
              -- the values behind `p` are read in the state that reading `p` leaves
              have hstate := hb.trans (b.alike_performAll name site (visit h p).trace)
              simp only [hread b hb, List.cons_append, replay_attempt, replay_append, replay_leave]
              exact congrArg (Course.after · _) (ih hstate _ _)
          | cycle | tooDeep | tooMany =>
              simp only [replay_attempt]
              rw [ih hb]

/-- What a fan-out is started from may be added afterwards. -/
theorem fanOut_union (visit : Guard ValueId → ValueId → Descent ValueSet) (s acc : ValueSet)
    (g : Guard ValueId) (ps : List ValueId) :
    fanOut visit (· ∪ ·) (s ∪ acc) g ps = (fanOut visit (· ∪ ·) acc g ps).map (s ∪ ·) := by
  induction ps generalizing acc g with
  | nil => rfl
  | cons p ps ih =>
      rw [fanOut, fanOut]
      split
      · simp only [ValueSet.union_assoc, ih, Descent.map]
      · simp only [ih, Descent.map]

/-! ### Members -/

theorem exists_inheritor_of_prototypes? {v : ValueId} {ps : ValueSet}
    (h : (a.kind? v).bind Kind.prototypes? = some ps) :
    ∃ ms, a.kind? v = some (.inheritor ms ps) := by
  obtain ⟨k, hk, hps⟩ := Option.bind_eq_some_iff.mp h
  cases k with
  | inheritor ms qs =>
      cases hps
      exact ⟨ms, hk⟩
  | _ => cases hps

/-- Nothing is recorded in, and nothing read from, a value without members. -/
theorem ownIn_of_members?_eq_none {v : ValueId} (hv : (a.kind? v).bind Kind.members? = none)
    (g : Guard ValueId) : a.ownIn name site g v = ⟨∅, g, a, []⟩ := by
  have hs : a.slot? v name = none := by
    refine Option.eq_none_iff_forall_ne_some.mpr fun slot hs => ?_
    obtain ⟨ms, hm, -⟩ := exists_members?_of_slot? hs
    rw [hv] at hm
    cases hm
  cases site <;> simp [ownIn, perform, recordUsage, ownTypes, hs]

/-- Of a value without prototypes the own member is read, if it can have any. -/
theorem memberIn_of_prototypes?_eq_none {v : ValueId}
    (hv : (a.kind? v).bind Kind.prototypes? = none) (n : Nat) (g : Guard ValueId) :
    memberIn name site n a g v = a.ownIn name site g v := by
  unfold memberIn
  split
  · rfl
  · rfl
  · rfl
  · next hk => simp [hk, Kind.prototypes?] at hv
  · next hobject hfunction _ hinheritor =>
    refine (ownIn_of_members?_eq_none ?_ g).symm
    cases hk : a.kind? v with
    | none => rfl
    | some k =>
        cases k with
        | object => exact absurd hk (hobject _)
        | function => exact absurd hk (hfunction _ _ _)
        | inheritor => simp [hk, Kind.prototypes?] at hv
        | undefined | null | boolean | number | text | arguments => rfl

theorem memberIn_zero (a : Analysis) (name : String) (site : Option Site) (g : Guard ValueId)
    (v : ValueId) : memberIn name site 0 a g v = a.ownIn name site g v := by
  cases hp : (a.kind? v).bind Kind.prototypes? with
  | none => exact memberIn_of_prototypes?_eq_none hp 0 g
  | some ps =>
      obtain ⟨ms, hk⟩ := exists_inheritor_of_prototypes? hp
      unfold memberIn
      simp only [hk]

theorem memberIn_succ_of_prototypes? {v : ValueId} {ps : ValueSet}
    (hp : (a.kind? v).bind Kind.prototypes? = some ps) (n : Nat) (g : Guard ValueId) :
    memberIn name site (n + 1) a g v = (a.ownIn name site g v).join
      (mergeIn (memberIn name site n) ∅ (a.ownIn name site g v).state g ps.toList) := by
  obtain ⟨ms, hk⟩ := exists_inheritor_of_prototypes? hp
  unfold memberIn
  simp only [hk]
  rfl

/-- **Reading a member along the way** is the replay of its exploration. -/
theorem memberIn_eq_replay (name : String) (site : Option Site) (n : Nat) (a : Analysis)
    (g : Guard ValueId) (v : ValueId) :
    memberIn name site n a g v =
      a.replay name site (a.exploreLevels (a.ownTypes · name) (· ∪ ·) n g v) := by
  induction n generalizing a g v with
  | zero => exact (a.memberIn_zero name site g v).trans (ownIn_eq_replay a name site g v)
  | succ n ih =>
      cases hp : (a.kind? v).bind Kind.prototypes? with
      | none =>
          have hnil : a.prototypes v = [] := by
            rw [prototypes, hp]
            rfl
          rw [memberIn_of_prototypes?_eq_none hp, ownIn_eq_replay, exploreLevels, hnil, fanOut]
      | some ps =>
          have hlist : a.prototypes v = ps.toList := by
            rw [prototypes, hp]
            rfl
          -- the state in which the prototypes are read is alike, as all those behind it are
          have hread : ∀ b, a.Alike b → ∀ g p, memberIn name site n b g p =
              b.replay name site (a.exploreLevels (a.ownTypes · name) (· ∪ ·) n g p) := by
            intro b hb g p
            rw [ih, exploreLevels_congr _ _ hb.prototypes, funext fun u => hb.ownTypes u name]
          have hdrawn := mergeIn_eq_replay hread (a.alike_performAll name site [.visit v]) ∅ g
            ps.toList
          -- what the value has of its own may be added at the end
          have hbelow := fanOut_union (a.exploreLevels (a.ownTypes · name) (· ∪ ·) n)
            (a.ownTypes v name) ∅ g ps.toList
          rw [ValueSet.union_empty] at hbelow
          calc memberIn name site (n + 1) a g v
              = (a.replay name site ⟨a.ownTypes v name, [.visit v], g⟩).join
                  (mergeIn (memberIn name site n) ∅ (a.performAll name site [.visit v]).1 g
                    ps.toList) := by
                rw [memberIn_succ_of_prototypes? hp, ownIn_eq_replay]
                rfl
            _ = a.replay name site
                  (a.exploreLevels (a.ownTypes · name) (· ∪ ·) (n + 1) g v) := by
                rw [hdrawn, join_replay, exploreLevels, hlist, hbelow]
                rfl

/-! ### Descriptors -/

/-- To describe a member records nothing, and reports before the descriptor is read. -/
theorem contributionIn_eq_replay {read : Analysis → Guard ValueId → Descriptor → Course}
    {eval : Guard ValueId → Descriptor → Descent ValueSet}
    (hread : ∀ g d, d.name = name → read a g d = a.replay name site (eval g d))
    (g : Guard ValueId) (p : ValueId) :
    contributionIn name read a g p = a.replay name site (a.contribution name eval g p) := by
  have hsteps : a.performAll name site (a.describe name g p).trace =
      (a, (a.describe name g p).trace.filterMap Step.event?) :=
    a.performAll_of_visits_eq_nil name site (visits_describeLevels a.levels g p)
  cases hd : (a.describe name g p).result with
  | none =>
      rw [contribution_of_none hd]
      simp only [contributionIn, hd, replay, hsteps, Course.after, List.append_nil]
  | some d =>
      obtain ⟨ps, t, -, hdt⟩ := exists_of_describeLevels hd
      rw [contribution_of_some hd, replay_append, hsteps]
      simp only [contributionIn, hd, hread _ d hdt.name_eq]

/-- **Reading a descriptor along the way** is the replay of its evaluation. -/
theorem valueIn_eq_replay (site : Option Site) (n : Nat) (a : Analysis) (g : Guard ValueId)
    (d : Descriptor) :
    valueIn site n a g d = a.replay d.name site (a.evaluateLevels n g d) := by
  induction n generalizing a g d with
  | zero =>
      cases d with
      | stored owner name => exact ownIn_eq_replay a name site g owner
      | merged v name => rfl
  | succ n ih =>
      cases d with
      | stored owner name => exact ownIn_eq_replay a name site g owner
      | merged v name =>
          rw [valueIn, evaluateLevels_merged]
          refine mergeIn_eq_replay (fun b hb g p => ?_) (.refl a) ∅ g (a.prototypes v)
          rw [contribution_congr hb.toAgrees, evaluateLevels_congr hb.toAgrees]
          refine contributionIn_eq_replay (fun g d hd => ?_) g p
          rw [ih, hd]

/-! ### Questions -/

/-- Reading several members along the way, from `acc` on, gives what recording after each of them
does. -/
theorem reply_memberEach (v : ValueId) (site : Option Site) {n : Nat} (acc : ValueSet)
    {a : Analysis} (hn : a.levels = n) (g : Guard ValueId) (names : List String) :
    (memberEach v site n acc a g names).reply =
      { a.readNames v site g names with
        answer := acc ∪ (a.readNames v site g names).answer } := by
  induction names generalizing acc a g with
  | nil =>
      rw [readNames, ValueSet.union_empty]
      rfl
  | cons name names ih =>
      have hfound : memberIn name site n a g v =
          a.replay name site (a.explore (a.ownTypes · name) (· ∪ ·) g v) := by
        rw [memberIn_eq_replay, explore, hn]
      -- there are as many inheritors as before, so as many levels
      have hlevels : (memberIn name site n a g v).state.levels = n := by
        have hstate := a.alike_performAll name site
          (a.explore (a.ownTypes · name) (· ∪ ·) g v).trace
        rw [hfound, ← hn, levels, levels, hstate.inheritorCount]
        rfl
      rw [memberEach, Course.reply_after, ih _ hlevels, ValueSet.union_assoc, hfound]
      rfl

/-- **Recording along the way or afterwards.**  Looking a member up, reading a descriptor and
indexing an object-like value give the same answer, leave the same state and report the same events
in the same order, whether they descend first and record then or record as they go. -/
theorem readings_interleave (a : Analysis) (site : Option Site) :
    (∀ v name, a.lookup v name site =
      (memberIn name (a.recordedSite site) a.levels a a.guard v).reply.shown) ∧
    (∀ d, a.propertyValue d site =
      (valueIn (a.recordedSite site) a.levels a a.guard d).reply.shown) ∧
    ∀ v is, a.HasMembers v → a.index v is site =
      (memberEach v (a.recordedSite site) a.levels ∅ a a.guard
        (a.indexNames is)).reply.shown := by
  refine ⟨fun v name => ?_, fun d => ?_, fun v is hv => ?_⟩
  · rw [memberIn_eq_replay, lookup]
    simp only [readNames, ValueSet.union_empty, List.append_nil]
    rfl
  · rw [valueIn_eq_replay]
    rfl
  · rw [index_of_hasMembers is site hv, reply_memberEach v _ ∅ rfl, ValueSet.empty_union]

end Analysis

end Prototypal
