import Prototypal.Proofs.Monotonicity
import Prototypal.Proofs.Passage

/-!
# Prototypal — Proofs — Visibility

Dead values are taken out of answers, and out of nothing else.  What a question finds is decided by
the values and the limits (`Agrees.lookup_shown`, …), and so is every step that it takes
(`Agrees.trace`); the units only decide what is shown of it.

A state *answers the living* of what another one answers (`AnswersLiving`) when the sets it answers
with are those of the other one without the values that are dead in it, the descriptors are the
same, and a listing has the same names in the same order, but for those that held something and have
no living value left (`pruned`).  `answersLiving_of_shown` says when: the values and limits are the
same, and what is shown of a set is the living part of what the other state shows of it.

* Tearing units down changes no value, and no unit comes to stand (`frame_tearsDown`).
* A run leads to the same state whether dead values are hidden or not, but for that setting
  (`run_withHiding`).

`dead_hidden_from_answers` draws both conclusions.
-/

namespace Prototypal.Analysis

variable {a b : Analysis}

/-! ### Answers without dead values -/

/-- A listing without dead values: a name that held something, and has no living value, is left
out. -/
def pruned (a : Analysis) (entries : List (String × ValueSet)) : List (String × ValueSet) :=
  (entries.filter fun e => e.2 = ∅ ∨ a.living e.2 ≠ ∅).map fun e => (e.1, a.living e.2)

/-- What `b` answers is what `a` answers, without the values that are dead in `b`. -/
structure AnswersLiving (a b : Analysis) : Prop where
  lookup : ∀ v name site site',
    (b.lookup v name site).answer = b.living (a.lookup v name site').answer
  index : ∀ v is site site', (b.index v is site).answer = b.living (a.index v is site').answer
  propertyValue : ∀ d site site',
    (b.propertyValue d site).answer = b.living (a.propertyValue d site').answer
  property : ∀ v name, (b.property v name).answer = (a.property v name).answer
  members : ∀ v accessor accessor',
    (b.members v accessor).answer.entries = b.pruned (a.members v accessor').answer.entries

theorem living_empty (a : Analysis) : a.living ∅ = ∅ := by
  ext v
  simp [living]

theorem ownMembers_of_values (h : a.values = b.values) : a.ownMembers = b.ownMembers := by
  funext v
  rw [ownMembers, ownMembers, kind?, kind?, value?, value?, h]

section

variable (hs : ∀ s, b.shown s = b.living (a.shown s))

include hs

/-- What is listed of a set is listed of what the other state lists of it. -/
theorem listed?_eq_bind (s : ValueSet) :
    b.listed? s = (a.listed? s).bind fun t =>
      if t = ∅ ∨ b.living t ≠ ∅ then some (b.living t) else none := by
  have hnone : a.shown s = ∅ → b.shown s = ∅ := fun h => by rw [hs, h, living_empty]
  have hempty : s = ∅ → a.shown s = ∅ := fun h => by rw [h, shown_empty]
  refine Option.ext fun t => ?_
  simp only [Option.bind_eq_some_iff, listed?_eq_some_iff, Option.ite_none_right_eq_some,
    Option.some.injEq]
  constructor
  · rintro ⟨rfl, h⟩
    refine ⟨_, ⟨rfl, h.imp_right (mt hnone)⟩, ?_, (hs s).symm⟩
    exact h.imp hempty fun h => by rwa [← hs]
  · rintro ⟨_, ⟨rfl, h⟩, h', rfl⟩
    rw [← hs] at h' ⊢
    exact ⟨rfl, h.imp_right fun h => h'.resolve_left h⟩

theorem entries_filterMap_listed? (m : MemberMap) :
    (m.filterMap b.listed?).entries = b.pruned (m.filterMap a.listed?).entries := by
  rw [pruned, ← List.filterMap_eq_filter, List.map_filterMap]
  show m.entries.filterMap _ = (m.entries.filterMap _).filterMap _
  rw [List.filterMap_filterMap]
  refine List.filterMap_congr fun e _ => ?_
  rw [listed?_eq_bind hs]
  cases a.listed? e.2 with
  | none => rfl
  | some t =>
      by_cases ht : t = ∅ ∨ b.living t ≠ ∅ <;> simp [Option.guard, ht]

/-- **What is shown decides what is answered.**  States of the same values, under the same limits,
answer alike but for what they show. -/
theorem answersLiving_of_shown (hv : a.values = b.values)
    (hl : a.options.limits = b.options.limits) : a.AnswersLiving b where
  lookup v name site site' := by
    obtain ⟨s, ha, hb⟩ := (Agrees.of_values hv).lookup_shown hl v site' site name
    rw [ha, hb, hs]
  index v is site site' := by
    obtain ⟨s, ha, hb⟩ := (Agrees.of_values hv).index_shown hl v site' site is
    rw [ha, hb, hs]
  propertyValue d site site' := by
    obtain ⟨s, ha, hb⟩ := (Agrees.of_values hv).propertyValue_shown hl site' site d
    rw [ha, hb, hs]
  property v name := ((Agrees.of_values hv).property hl v name).symm
  members v accessor accessor' := by
    rw [members, members, ownMembers_of_values hv, ← (Agrees.of_values hv).explore,
      ← Agrees.guard hl]
    exact entries_filterMap_listed? hs _

end

/-- **What is shown decides no step**: in states that agree, under the same limits, a question takes
the same steps. -/
theorem Agrees.trace (h : a.Agrees b) (hl : a.options.limits = b.options.limits) (c : Command) :
    a.trace c = b.trace c := by
  cases c with
  | lookup v name site => simp only [Analysis.trace, h.readAll, guard hl]
  | property v name => simp only [Analysis.trace, h.describe, guard hl]
  | propertyValue d site => simp only [Analysis.trace, h.evaluate, guard hl]
  | index v is site =>
      simp only [Analysis.trace, h.hasMembers_iff, h.readAll, h.indexNames, guard hl]
  | members v accessor =>
      -- a listing takes the steps of the exploration for any one name
      have ht : ∀ c : Analysis, c.trace (.members v accessor) =
          (c.explore (c.ownTypes · "") (· ∪ ·) c.guard v).trace := by
        intro c
        rw [explore_ownTypes_eq]
        rfl
      rw [ht, ht, h.explore_ownTypes, guard hl]
  | addUnit _ | bumpUnit _ | detachUnit _ | tearDown _ | createNull _ | createBoolean _ _
  | createNumber _ _ | createText _ _ | createObject _ | createFunction _ _ | createArguments _
  | createInheritor _ _ | addPrototypes _ _ | assign _ _ _ | bindArguments _ _ => rfl

/-! ### Tearing units down -/

theorem isStanding_of_tearDown {u w : UnitId} (h : (a.tearDown u).state.isStanding w = true) :
    a.isStanding w = true := by
  simp only [tearDown, isStanding, unit?, Array.getElem?_modify] at h ⊢
  split at h
  · cases hw : a.units[w.index]? <;> simp [hw, SourceUnit.detach] at h
  · exact h

/-- **What tearing a unit down leaves alone**: the options and all values, and what did not stand
does not stand afterwards. -/
theorem frame_tearsDown (a : Analysis) {c : Command} (hc : c.tearsDown = true) :
    (a.step c).state.options = a.options ∧ (a.step c).state.values = a.values ∧
      ∀ u, (a.step c).state.isStanding u = true → a.isStanding u = true := by
  cases c with
  | tearDown u => exact ⟨rfl, rfl, fun w => isStanding_of_tearDown⟩
  | detachUnit u =>
      show (a.detachUnit u).state.options = _ ∧ (a.detachUnit u).state.values = _ ∧
        ∀ w, (a.detachUnit u).state.isStanding w = true → _
      unfold detachUnit
      split
      · exact ⟨rfl, rfl, fun w => id⟩
      · exact ⟨rfl, rfl, fun w => isStanding_of_tearDown⟩
  | _ => cases hc

theorem frame_run_tearsDown (a : Analysis) {ds : List Command}
    (hds : ∀ d ∈ ds, d.tearsDown = true) :
    (a.run ds).state.options = a.options ∧ (a.run ds).state.values = a.values ∧
      ∀ u, (a.run ds).state.isStanding u = true → a.isStanding u = true := by
  induction ds generalizing a with
  | nil => exact ⟨rfl, rfl, fun u => id⟩
  | cons d ds ih =>
      obtain ⟨hd, hds⟩ := List.forall_mem_cons.mp hds
      obtain ⟨ho, hv, hs⟩ := a.frame_tearsDown hd
      obtain ⟨ho', hv', hs'⟩ := ih (a.step d).state hds
      exact ⟨ho'.trans ho, hv'.trans hv, fun u hu => hs u (hs' u hu)⟩

/-- **Detaching is exact**: after units were torn down, the values that are dead now are missing
from every answer, and nothing else is. -/
theorem answersLiving_run_tearsDown (hh : a.options.hidesDead = true) {ds : List Command}
    (hds : ∀ d ∈ ds, d.tearsDown = true) : a.AnswersLiving (a.run ds).state := by
  obtain ⟨ho, hv, hs⟩ := a.frame_run_tearsDown hds
  refine answersLiving_of_shown (fun s => ?_) hv.symm (by rw [ho])
  -- what was dead before is dead now
  have halive : ∀ v, (a.run ds).state.isAlive v = true → a.isAlive v = true := fun v =>
    (Grows.of_values ho.symm hv.symm).isAlive hs
  rw [shown, shown, ho, hh, if_pos rfl, if_pos rfl]
  ext v
  simp only [living, ValueSet.mem_filter]
  exact ⟨fun h => ⟨⟨h.1, halive v h.2⟩, h.2⟩, fun h => ⟨h.1.1, h.2⟩⟩

/-! ### Hiding dead values, or not -/

/-- The state with dead values hidden from answers, or not. -/
def withHiding (a : Analysis) (h : Bool) : Analysis :=
  { a with options := { a.options with hidesDead := h } }

theorem agrees_withHiding (a : Analysis) (h : Bool) : (a.withHiding h).Agrees a := .of_values rfl

variable (h : Bool)

theorem performAll_withHiding (a : Analysis) (name : String) (site : Option Site)
    (steps : List Step) :
    ((a.withHiding h).performAll name site steps).1 =
      (a.performAll name site steps).1.withHiding h := by
  have record : ∀ (a : Analysis) v site,
      ((a.withHiding h).recordUsage v name site).1 =
        (a.recordUsage v name site).1.withHiding h := by
    intro a v site
    have hs : (a.withHiding h).slot? v name = a.slot? v name := rfl
    have hu : (a.withHiding h).unit? site.unit = a.unit? site.unit := rfl
    unfold recordUsage
    rw [hs, hu]
    split <;> rfl
  induction steps generalizing a with
  | nil => rfl
  | cons s steps ih =>
      have hs : ((a.withHiding h).perform name site s).1 =
          (a.perform name site s).1.withHiding h := by
        cases s with
        | attempt | leave => rfl
        | visit v =>
            cases site with
            | none => rfl
            | some site => exact record a v site
      show (((a.withHiding h).perform name site s).1.performAll name site steps).1 = _
      rw [hs]
      exact ih _

theorem readNames_withHiding (a : Analysis) (v : ValueId) (site : Option Site) (g : Guard ValueId)
    (names : List String) :
    ((a.withHiding h).readNames v site g names).state =
      (a.readNames v site g names).state.withHiding h := by
  induction names generalizing a g with
  | nil => rfl
  | cons name names ih =>
      simp only [readNames, (a.agrees_withHiding h).explore_ownTypes, performAll_withHiding]
      exact ih _ _

theorem create_withHiding (a : Analysis) (u : UnitId) (kind : Kind) :
    ((a.withHiding h).create u kind).state = (a.create u kind).state.withHiding h := by
  have hn : (a.withHiding h).values.size = a.values.size := rfl
  rw [create, create, hn]
  split <;> rfl

/-- **An operation does the same whether dead values are hidden or not.** -/
theorem step_withHiding (a : Analysis) (c : Command) :
    ((a.withHiding h).step c).state = (a.step c).state.withHiding h := by
  have hk : (a.withHiding h).kind? = a.kind? := rfl
  have hu : (a.withHiding h).unit? = a.unit? := rfl
  have hagrees := a.agrees_withHiding h
  cases c with
  | lookup v name site => exact readNames_withHiding h a v (a.recordedSite site) a.guard _
  | property v name => rfl
  | members v accessor => rfl
  | propertyValue d site =>
      show ((a.withHiding h).performAll _ _ ((a.withHiding h).evaluate _ d).trace).1 = _
      rw [hagrees.evaluate]
      exact performAll_withHiding h a _ _ _
  | index v is site =>
      show ((a.withHiding h).index v is site).state = (a.index v is site).state.withHiding h
      rcases a.indexing_cases v with hm | ⟨f, hf⟩ | ⟨hm, hf⟩
      · rw [index_of_hasMembers is site hm,
          index_of_hasMembers is site (hagrees.hasMembers_iff.mpr hm)]
        exact readNames_withHiding h a v (a.recordedSite site) a.guard _
      · rw [index_of_arguments is site hf, index_of_arguments is site (hk ▸ hf)]
        rfl
      · rw [index_of_not is site hm hf,
          index_of_not is site (mt hagrees.hasMembers_iff.mp hm) (hk ▸ hf)]
  | tearDown u => rfl
  | addUnit path =>
      show ((a.withHiding h).addUnit path).state = (a.addUnit path).state.withHiding h
      have hn : (a.withHiding h).units.size = a.units.size := rfl
      rw [addUnit, addUnit, hn]
      split <;> rfl
  | bumpUnit u =>
      show ((a.withHiding h).bumpUnit u).state = (a.bumpUnit u).state.withHiding h
      rw [bumpUnit, bumpUnit, hu]
      cases a.unit? u <;> rfl
  | detachUnit u =>
      show ((a.withHiding h).detachUnit u).state = (a.detachUnit u).state.withHiding h
      rw [detachUnit, detachUnit, hu]
      split <;> rfl
  | addPrototypes v prototypes =>
      show ((a.withHiding h).addPrototypes v prototypes).state =
        (a.addPrototypes v prototypes).state.withHiding h
      rw [addPrototypes, addPrototypes, hk]
      split
      · dsimp only
        split <;> rfl
      · rfl
  | assign v name values =>
      show ((a.withHiding h).assign v name values).state =
        (a.assign v name values).state.withHiding h
      rw [assign, assign, hk]
      cases (a.kind? v).bind Kind.members? <;> rfl
  | bindArguments v args =>
      show ((a.withHiding h).bindArguments v args).state =
        (a.bindArguments v args).state.withHiding h
      rw [bindArguments, bindArguments, hk]
      split <;> rfl
  | createNull u | createBoolean u _ | createNumber u _ | createText u _ | createObject u
  | createFunction u _ | createInheritor u _ => exact create_withHiding h a u _
  | createArguments f => exact create_withHiding h a _ _

theorem run_withHiding (a : Analysis) (cs : List Command) :
    ((a.withHiding h).run cs).state = (a.run cs).state.withHiding h := by
  induction cs generalizing a with
  | nil => rfl
  | cons c cs ih =>
      show (((a.withHiding h).step c).state.run cs).state = _
      rw [step_withHiding]
      exact ih _

/-- **Hiding is a filter on answers.** -/
theorem answersLiving_withHiding (a : Analysis) :
    (a.withHiding false).AnswersLiving (a.withHiding true) :=
  answersLiving_of_shown (fun _ => rfl) rfl rfl

/-- **Dead values are hidden from answers, and from nothing else.**  In every state in which they
are hidden, whatever units are torn down at once: what is answered afterwards is what was answered
before, without the values that are dead now; descriptors are the same, and listings have the same
names in the same order, but for those that held something of which nothing lives.  And of two runs
of the same operations from fresh states, one that hides dead values answers the living of what the
other one answers, and leads to the same state but for that setting.  All the time questions take
the same steps, so that prototypes are explored whether they live or not. -/
theorem dead_hidden_from_answers :
    (∀ a : Analysis, a.options.hidesDead = true →
      ∀ ds : List Command, (∀ d ∈ ds, d.tearsDown = true) →
        a.AnswersLiving (a.run ds).state ∧ ∀ c, (a.run ds).state.trace c = a.trace c) ∧
    (∀ (o : Options) (cs : List Command),
      ((fresh { o with hidesDead := false }).run cs).state.AnswersLiving
        ((fresh { o with hidesDead := true }).run cs).state ∧
      ((fresh { o with hidesDead := true }).run cs).state =
        ((fresh { o with hidesDead := false }).run cs).state.withHiding true ∧
      ∀ c, ((fresh { o with hidesDead := true }).run cs).state.trace c =
        ((fresh { o with hidesDead := false }).run cs).state.trace c) := by
  refine ⟨fun a hh ds hds => ⟨answersLiving_run_tearsDown hh hds, ?_⟩, fun o cs => ?_⟩
  · obtain ⟨ho, hv, -⟩ := a.frame_run_tearsDown hds
    exact (Agrees.of_values hv).trace (by rw [ho])
  · have hrun : ∀ h, ((fresh { o with hidesDead := h }).run cs).state =
        ((fresh o).run cs).state.withHiding h := fun h => run_withHiding h (fresh o) cs
    rw [hrun true, hrun false]
    exact ⟨answersLiving_withHiding _, rfl, Agrees.trace (.of_values rfl) rfl⟩

/-- An inheritor of an object of a unit; the members of the object hold a value of that unit and a
built-in one, one of that unit, and nothing. -/
def inheritorAbroad : Analysis :=
  ((fresh {}).run
    [.addUnit "a.js", .createObject ⟨1⟩, .createNull .builtin, .createNull ⟨1⟩,
      .createInheritor .builtin (.singleton ⟨1⟩), .assign ⟨1⟩ "x" (.ofList [⟨2⟩, ⟨3⟩]),
      .assign ⟨1⟩ "y" (.singleton ⟨3⟩), .assign ⟨1⟩ "z" ∅]).state

theorem dead_hidden_from_answers_inheritorAbroad :
    inheritorAbroad.options.hidesDead = true ∧
    (inheritorAbroad.run [.detachUnit ⟨1⟩]).state.isAlive ⟨1⟩ = false ∧
    Step.visit ⟨1⟩ ∈ (inheritorAbroad.run [.detachUnit ⟨1⟩]).state.trace (.lookup ⟨4⟩ "x" none) ∧
    (inheritorAbroad.lookup ⟨4⟩ "x" none).answer = .ofList [⟨2⟩, ⟨3⟩] ∧
    ((inheritorAbroad.run [.detachUnit ⟨1⟩]).state.lookup ⟨4⟩ "x" none).answer = .singleton ⟨2⟩ ∧
    ((inheritorAbroad.run [.detachUnit ⟨1⟩]).state.members ⟨4⟩ .builtin).answer.entries =
      [("x", .singleton ⟨2⟩), ("z", ∅)] := by
  have hh : inheritorAbroad.options.hidesDead = true := rfl
  obtain ⟨hliving, htrace⟩ :=
    dead_hidden_from_answers.1 inheritorAbroad hh [.detachUnit ⟨1⟩] (by simp [Command.tearsDown])
  have hx : (inheritorAbroad.lookup ⟨4⟩ "x" none).answer = .ofList [⟨2⟩, ⟨3⟩] := by decide +kernel
  refine ⟨hh, by decide +kernel, ?_, hx, ?_, ?_⟩
  · rw [htrace]
    decide +kernel
  · rw [hliving.lookup ⟨4⟩ "x" none none, hx]
    decide +kernel
  · rw [hliving.members ⟨4⟩ .builtin .builtin]
    decide +kernel

end Prototypal.Analysis
