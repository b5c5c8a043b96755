import Prototypal.Proofs.Description
import Prototypal.Proofs.Growth
import Prototypal.Proofs.Lookup

/-!
# Prototypal — Proofs — Reading

What is read of a member through its descriptor (`readProperty`), under budgets that do not bind.

Describing a member and reading the descriptor are two descents, and the second knows nothing of
the way that the first went.  Together they visit what one exploration would, save the inheritors:
a value with the member is visited just when it is plain and reached (`mem_visits_evaluate_iff`).

* `readProperty_eq_union_plain`: in a reachable state, under the default budgets, what is read is
  the union over the plain values reached, as it is shown.  It is part of what looking the member
  up gives, and all of it where no inheritor that is reached has the member.
-/

namespace Prototypal.Analysis

variable {a : Analysis} {name : String} {v u : ValueId} {slot : Slot} {d : Descriptor}

/-- What is read of member `name` of `v` through its descriptor; nothing, if it has none. -/
def readProperty (a : Analysis) (v : ValueId) (name : String) (site : Option Site) : ValueSet :=
  match (a.property v name).answer with
  | none => ∅
  | some d => (a.propertyValue d site).answer

/-- A value that reaches a plain value with the member has a descriptor for it. -/
theorem exists_describe_of_reaches (hu : a.options.limits.attempts = Count.top)
    (hd : a.inheritorCount ≤ a.options.limits.depth) (hr : a.Reaches v u) (hp : a.IsPlain u)
    (hs : a.slot? u name = some slot) : ∃ d, (a.describe name a.guard v).result = some d := by
  obtain ⟨ps, t, hps, ht, ts, hts⟩ := hr.exists_leaps hp
  obtain ⟨d, hdt⟩ := exists_describes_of_leaps hts hp hs
  exact ⟨d, describe_of_route hu hd hps hdt⟩

/-- **What a descriptor reads**: of the values with the member, the plain ones that are reached. -/
theorem mem_visits_evaluate_iff (hu : a.options.limits.attempts = Count.top)
    (hd : a.inheritorCount ≤ a.options.limits.depth)
    (hdesc : (a.describe name a.guard v).result = some d) (hs : a.slot? u name = some slot) :
    u ∈ (a.evaluate a.guard d).visits ↔ a.Reaches v u ∧ a.IsPlain u := by
  obtain ⟨ps, t, hps, hdt⟩ := exists_of_describeLevels hdesc
  constructor
  · intro hmem
    obtain ⟨⟨rs, hrs⟩, hp⟩ := mem_visits_evaluateLevels_sound hdt hmem
    obtain ⟨qs, hqs⟩ := reaches_of_route_defers hps
    exact ⟨⟨qs ++ rs, hqs.trans hrs⟩, hp⟩
  · rintro ⟨hr, hp⟩
    obtain ⟨qs, t', hqs, ht', ts, hts⟩ := hr.exists_leaps hp
    -- deferrals stop at one value, so the leaps start where the descriptor was found
    obtain ⟨-, rfl⟩ := route_defers_unique hps hdt.stops hqs ht'
    obtain ⟨rs, hrs, -, hn⟩ := hts.exists_nodup
    obtain ⟨htrs, hnd⟩ := List.nodup_cons.mp hn
    refine mem_visits_evaluateLevels_of_leaps hu hd hrs hp hs hdt ?_ hnd ?_ (.start a rfl t)
    · exact Nat.le_succ_of_le (length_le_of_route (fun _ _ hl => hl.1.isInheritor) hrs hn)
    · intro x hx hmem
      obtain rfl := List.mem_singleton.mp hmem
      exact htrs hx

/-- What is read through a descriptor is the union over the plain values reached. -/
theorem exists_isUnionOver_readProperty (hu : a.options.limits.attempts = Count.top)
    (hd : a.inheritorCount ≤ a.options.limits.depth) (v : ValueId) (name : String)
    (site : Option Site) :
    ∃ s, a.IsUnionOver name (fun u => a.Reaches v u ∧ a.IsPlain u) s ∧
      a.readProperty v name site = a.shown s := by
  have hanswer : (a.property v name).answer = (a.describe name a.guard v).result := rfl
  unfold readProperty
  rw [hanswer]
  cases hdesc : (a.describe name a.guard v).result with
  | none =>
      refine ⟨∅, fun w => ?_, (shown_empty a).symm⟩
      refine iff_of_false (ValueSet.not_mem_empty w) ?_
      rintro ⟨u, ⟨hr, hp⟩, hw⟩
      obtain ⟨slot, hs, -⟩ := slot?_of_mem_ownTypes hw
      obtain ⟨d, hdesc'⟩ := exists_describe_of_reaches hu hd hr hp hs
      rw [hdesc] at hdesc'
      cases hdesc'
  | some d =>
      refine ⟨_, fun w => ?_, a.propertyValue_answer d site⟩
      obtain ⟨ps, t, -, hdt⟩ := exists_of_describeLevels hdesc
      have hc := collects_evaluateLevels (a := a) w a.levels a.guard d
      rw [hdt.name_eq] at hc
      -- values without the member may be visited or not: they add nothing
      refine hc.trans (exists_congr fun u => and_congr_left fun hw => ?_)
      obtain ⟨slot, hs, -⟩ := slot?_of_mem_ownTypes hw
      exact mem_visits_evaluate_iff hu hd hdesc hs

/-- **The least set**: what is read through a descriptor is within a set just when what each plain
value reached holds is, as far as it is shown. -/
theorem readProperty_subset_iff (hu : a.options.limits.attempts = Count.top)
    (hd : a.inheritorCount ≤ a.options.limits.depth) (v : ValueId) (name : String)
    (site : Option Site) {s : ValueSet} :
    a.readProperty v name site ⊆ s ↔
      ∀ u, a.Reaches v u → a.IsPlain u → a.shown (a.ownTypes u name) ⊆ s := by
  obtain ⟨t, ht, he⟩ := exists_isUnionOver_readProperty hu hd v name site
  rw [he]
  constructor
  · intro hsub u hr hp w hw
    obtain ⟨hw, hlive⟩ := mem_shown.mp hw
    exact hsub (mem_shown.mpr ⟨(ht w).mpr ⟨u, ⟨hr, hp⟩, hw⟩, hlive⟩)
  · intro hall w hw
    obtain ⟨hw, hlive⟩ := mem_shown.mp hw
    obtain ⟨u, ⟨hr, hp⟩, hw⟩ := (ht w).mp hw
    exact hall u hr hp (mem_shown.mpr ⟨hw, hlive⟩)

/-- The default budgets do not bind in a reachable state. -/
theorem Reachable.limits (ha : a.Reachable) (hl : a.options.limits = {}) :
    a.options.limits.attempts = Count.top ∧ a.inheritorCount ≤ a.options.limits.depth := by
  rw [hl]
  exact ⟨rfl, ha.inheritorCount_le⟩

/-- **Reading through a descriptor is union over plain values.**  In a reachable state, under the
default budgets, it gives the shown part of the union over the plain values reached: what one of
these holds, dead values apart if they are hidden.  It gives part of what looking the member up
gives, and all of it if no inheritor reached has the member. -/
theorem readProperty_eq_union_plain (ha : a.Reachable) (hl : a.options.limits = {}) (v : ValueId)
    (name : String) (site site' : Option Site) :
    (∃ s, a.IsUnionOver name (fun u => a.Reaches v u ∧ a.IsPlain u) s ∧
      a.readProperty v name site = a.shown s) ∧
    (∀ w, w ∈ a.readProperty v name site ↔
      (∃ u, (a.Reaches v u ∧ a.IsPlain u) ∧ w ∈ a.ownTypes u name) ∧
        (a.options.hidesDead = true → a.isAlive w = true)) ∧
    a.readProperty v name site ⊆ (a.lookup v name site').answer ∧
    ((∀ u, a.Reaches v u → a.IsInheritor u → a.slot? u name = none) →
      a.readProperty v name site = (a.lookup v name site').answer) := by
  obtain ⟨hu, hd⟩ := ha.limits hl
  obtain ⟨s, hs, he⟩ := exists_isUnionOver_readProperty hu hd v name site
  have ht := isUnionOver_reaches hu hd v name
  have hsub : a.readProperty v name site ⊆ (a.lookup v name site').answer := by
    rw [he, lookup_answer]
    exact shown_mono (hs.subset ht fun _ _ _ h => h.1)
  refine ⟨⟨s, hs, he⟩, fun w => he ▸ hs.mem_shown_iff w, hsub, fun hnone => ?_⟩
  refine ValueSet.Subset.antisymm hsub ?_
  rw [he, lookup_answer]
  refine shown_mono (ht.subset hs fun u w hw hr => ⟨hr, ?_⟩)
  obtain ⟨slot, hslot, -⟩ := slot?_of_mem_ownTypes hw
  rcases isPlain_or_isInheritor_of_slot? hslot with hp | hi
  · exact hp
  · rw [hnone u hr hi] at hslot
    cases hslot

/-- An inheritor of one prototype, which is one of two inheritors that draw on each other and on an
object each. -/
def crossedInheritors : Analysis :=
  ((fresh {}).run
    [.createObject .builtin, .createObject .builtin,
      .createInheritor .builtin (.ofList [⟨1⟩, ⟨4⟩]),
      .createInheritor .builtin (.ofList [⟨2⟩, ⟨3⟩]), .createInheritor .builtin (.singleton ⟨4⟩),
      .assign ⟨1⟩ "x" (.singleton ⟨0⟩), .assign ⟨2⟩ "x" (.singleton ⟨1⟩)]).state

theorem readProperty_crossedInheritors :
    crossedInheritors.Reachable ∧ crossedInheritors.options.limits = {} ∧
    crossedInheritors.readProperty ⟨5⟩ "x" none = .ofList [⟨0⟩, ⟨1⟩] ∧
    (∃ s, crossedInheritors.IsUnionOver "x"
        (fun u => crossedInheritors.Reaches ⟨5⟩ u ∧ crossedInheritors.IsPlain u) s ∧
      crossedInheritors.readProperty ⟨5⟩ "x" none = crossedInheritors.shown s) ∧
    crossedInheritors.readProperty ⟨5⟩ "x" none ⊆ (crossedInheritors.lookup ⟨5⟩ "x" none).answer :=
  have h := readProperty_eq_union_plain (a := crossedInheritors) ⟨{}, _, rfl⟩ rfl ⟨5⟩ "x" none none
  ⟨⟨{}, _, rfl⟩, rfl, by decide +kernel, h.1, h.2.2.1⟩

end Prototypal.Analysis
