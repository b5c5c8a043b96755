import Prototypal.Proofs.Growth
import Prototypal.Proofs.Lookup

/-!
# Prototypal — Proofs — Monotonicity

What a member may hold, once known, is known from then on.  No operation takes back a prototype or
what a slot may hold (`step_grows`), and none but those that tear a unit down makes a value die:
most leave the units alone (`units_step`), and the units that stand go on standing
(`isStanding_step`).  With unlimited attempts a lookup answers for a distance alone, and distances
only shrink (`Grows.within`).  So its answer only grows, however the ways through the graph change
(`Grows.lookup_subset`), after every such operation and every run of them (`lookup_monotone`).

With a budget on attempts this fails: a new prototype may use up the attempts by which another one
was reached.
-/

namespace Prototypal

namespace Command

/-- The operation adds a unit or changes one. -/
def changesUnits : Command → Bool
  | addUnit _ | bumpUnit _ | detachUnit _ | tearDown _ => true
  | _ => false

/-- The operation tears a unit down. -/
def tearsDown : Command → Bool
  | detachUnit _ | tearDown _ => true
  | _ => false

end Command

namespace Analysis

variable {a b : Analysis}

/-! ### Units -/

theorem units_create (a : Analysis) (u : UnitId) (kind : Kind) :
    (a.create u kind).state.units = a.units := by
  unfold create
  split <;> rfl

/-- **Operations on values leave the units alone.** -/
theorem units_step (a : Analysis) {c : Command} (hc : c.changesUnits = false) :
    (a.step c).state.units = a.units := by
  cases c with
  | addUnit _ | bumpUnit _ | detachUnit _ | tearDown _ => cases hc
  | createNull u | createBoolean u _ | createNumber u _ | createText u _ | createObject u
  | createFunction u _ | createInheritor u _ => exact a.units_create u _
  | createArguments f => exact a.units_create _ _
  | addPrototypes v prototypes =>
      show (a.addPrototypes v prototypes).state.units = a.units
      unfold addPrototypes
      split
      · dsimp only
        split <;> rfl
      · rfl
  | assign v name values =>
      show (a.assign v name values).state.units = a.units
      unfold assign
      split <;> rfl
  | bindArguments v args =>
      show (a.bindArguments v args).state.units = a.units
      unfold bindArguments
      split <;> rfl
  | lookup _ _ _ | property _ _ | propertyValue _ _ | index _ _ _ | members _ _ =>
      exact query_preserves (I := fun b => b.units = a.units) (fun _ _ _ _ _ _ hb => hb) rfl rfl

theorem isStanding_addUnit (path : String) {u : UnitId} (hu : a.isStanding u = true) :
    (a.addUnit path).state.isStanding u = true := by
  obtain ⟨unit, hunit, halive⟩ := (Option.any_eq_true _ _).mp hu
  refine (Option.any_eq_true _ _).mpr ⟨unit, ?_, halive⟩
  unfold addUnit
  split
  · obtain ⟨hlt, rfl⟩ := Array.getElem?_eq_some_iff.mp hunit
    exact Array.getElem?_push_lt hlt
  · exact hunit

/-- A new version of a unit stands if the unit does. -/
theorem isStanding_bumpUnit (a : Analysis) (u w : UnitId) :
    (a.bumpUnit u).state.isStanding w = a.isStanding w := by
  unfold bumpUnit
  cases hu : a.unit? u with
  | none => rfl
  | some unit =>
      simp only [isStanding, unit?, Array.getElem?_setIfInBounds]
      by_cases hw : u.index = w.index
      · rw [unit?, hw] at hu
        obtain ⟨hlt, -⟩ := Array.getElem?_eq_some_iff.mp hu
        rw [if_pos hw, if_pos (hw ▸ hlt), hu]
        rfl
      · rw [if_neg hw]

/-- **Units stand until they are torn down.** -/
theorem isStanding_step {c : Command} (hc : c.tearsDown = false) {u : UnitId}
    (hu : a.isStanding u = true) : (a.step c).state.isStanding u = true := by
  by_cases hunits : c.changesUnits = true
  · cases c with
    | addUnit path => exact isStanding_addUnit path hu
    | bumpUnit w => exact (a.isStanding_bumpUnit w u).trans hu
    | detachUnit _ | tearDown _ => cases hc
    | createNull _ | createBoolean _ _ | createNumber _ _ | createText _ _ | createObject _
    | createFunction _ _ | createInheritor _ _ | createArguments _ | addPrototypes _ _
    | assign _ _ _ | bindArguments _ _ | lookup _ _ _ | property _ _ | propertyValue _ _
    | index _ _ _ | members _ _ => cases hunits
  · rw [isStanding, unit?, a.units_step (Bool.eq_false_iff.mpr hunits)]
    exact hu

/-! ### What grows -/

namespace Grows

/-- Distances only shrink. -/
theorem within (h : a.Grows b) {d : Nat} {v u : ValueId} (hw : a.Within d v u) :
    b.Within d v u := by
  obtain ⟨ps, hps, hlen⟩ := hw
  exact ⟨ps, hps.mono fun _ _ => h.draws, hlen⟩

theorem ownTypes_subset (h : a.Grows b) (v : ValueId) (name : String) :
    a.ownTypes v name ⊆ b.ownTypes v name := by
  intro w hw
  obtain ⟨slot, hs, hw⟩ := slot?_of_mem_ownTypes hw
  obtain ⟨slot', hs', hsub⟩ := h.slot? hs
  rw [ownTypes, hs']
  exact hsub hw

/-- A value lives on if the units that stood still do. -/
theorem isAlive (h : a.Grows b) (hs : ∀ u, a.isStanding u = true → b.isStanding u = true)
    {w : ValueId} (hw : a.isAlive w = true) : b.isAlive w = true := by
  obtain ⟨x, hx, hl⟩ := (Option.any_eq_true _ _).mp hw
  obtain ⟨y, hy, hxy⟩ := h.value w x hx
  refine (Option.any_eq_true _ _).mpr ⟨y, hy, ?_⟩
  rw [hxy.tether]
  cases ht : x.tether with
  | none => rfl
  | some u =>
      rw [ht] at hl
      exact hs u hl

/-- **A lookup goes on answering what it answered**, if the units that stood still do. -/
theorem lookup_subset (h : a.Grows b) (hs : ∀ u, a.isStanding u = true → b.isStanding u = true)
    (hu : a.options.limits.attempts = Count.top) (v : ValueId) (name : String)
    (site site' : Option Site) :
    (a.lookup v name site).answer ⊆ (b.lookup v name site').answer := by
  have hu' : b.options.limits.attempts = Count.top := by rw [h.options, hu]
  intro w hw
  rw [lookup_answer, mem_shown, isUnionOver_within hu v name w] at hw
  obtain ⟨⟨u, hwithin, hw⟩, hlive⟩ := hw
  rw [lookup_answer, mem_shown, isUnionOver_within hu' v name w, h.options]
  exact ⟨⟨u, h.within hwithin, h.ownTypes_subset u name hw⟩, fun hd => h.isAlive hs (hlive hd)⟩

end Grows

theorem isStanding_run {cs : List Command} (hcs : ∀ c ∈ cs, c.tearsDown = false) {u : UnitId}
    (hu : a.isStanding u = true) : (a.run cs).state.isStanding u = true := by
  induction cs generalizing a with
  | nil => exact hu
  | cons c cs ih =>
      obtain ⟨hc, hcs⟩ := List.forall_mem_cons.mp hcs
      exact ih hcs (isStanding_step hc hu)

/-- **Inference is monotone.**  With unlimited attempts, whatever the depth allowed and whether dead
values are hidden or not: after any operation that does not tear a unit down, and after any run of
such operations, a lookup answers at least what it answered before. -/
theorem lookup_monotone (a : Analysis) (hu : a.options.limits.attempts = Count.top) :
    (∀ c : Command, c.tearsDown = false → ∀ v name site site',
      (a.lookup v name site).answer ⊆ ((a.step c).state.lookup v name site').answer) ∧
    (∀ cs : List Command, (∀ c ∈ cs, c.tearsDown = false) → ∀ v name site site',
      (a.lookup v name site).answer ⊆ ((a.run cs).state.lookup v name site').answer) := by
  constructor
  · intro c hc
    exact (a.step_grows c).lookup_subset (fun _ => isStanding_step hc) hu
  · intro cs hcs
    exact (a.run_grows cs).lookup_subset (fun _ => isStanding_run hcs) hu

/-- An object of a unit, an inheritor of it and an inheritor of that one, under a depth of one;
their members hold the object and an identity that stands for no value yet. -/
def shallowInheritor : Analysis :=
  ((fresh { limits := { depth := 1 } }).run
    [.addUnit "a", .createObject ⟨1⟩, .createInheritor .builtin (.singleton ⟨1⟩),
      .createInheritor .builtin (.singleton ⟨2⟩), .assign ⟨1⟩ "x" (.ofList [⟨1⟩, ⟨4⟩]),
      .assign ⟨2⟩ "x" (.ofList [⟨1⟩, ⟨4⟩])]).state

theorem lookup_monotone_shallowInheritor :
    shallowInheritor.options.limits.attempts = Count.top ∧
    (shallowInheritor.lookup ⟨3⟩ "x" none).answer = .singleton ⟨1⟩ ∧
    ((shallowInheritor.step (.createNull ⟨1⟩)).state.lookup ⟨3⟩ "x" none).answer =
      .ofList [⟨1⟩, ⟨4⟩] ∧
    (shallowInheritor.lookup ⟨3⟩ "x" none).answer ⊆
      ((shallowInheritor.step (.createNull ⟨1⟩)).state.lookup ⟨3⟩ "x" none).answer :=
  ⟨rfl, by decide +kernel, by decide +kernel,
    (lookup_monotone shallowInheritor rfl).1 (.createNull ⟨1⟩) rfl ⟨3⟩ "x" none none⟩

end Analysis

end Prototypal
