import Mathlib.Algebra.Group.Nat.Defs
import Prototypal.Analysis.Command
import Prototypal.Proofs.Exploration
import Prototypal.Proofs.Recording

/-!
# Prototypal — Proofs — Lookup

What a member may hold is the union of what it holds in the values that the value in question draws
on.  `a.IsUnionOver name P s` says that `s` is that union over the values that `P` picks; there is
no other such set (`IsUnionOver.unique`).

* `isUnionOver_explore`: under any budgets, an exploration gives the union over the values it
  visits.
* `lookup_eq_union_within`: with unlimited attempts, looking a member up answers the union over the
  values within the depth allowed, as it is shown.  With the depth unlimited too, this is the union
  over everything reached.
-/

namespace Prototypal.Analysis

variable {a : Analysis}

/-- `s` is the union of what the own members `name` hold in the values that `P` picks. -/
def IsUnionOver (a : Analysis) (name : String) (P : ValueId → Prop) (s : ValueSet) : Prop :=
  ∀ w, w ∈ s ↔ ∃ u, P u ∧ w ∈ a.ownTypes u name

theorem IsUnionOver.unique {name : String} {P : ValueId → Prop} {s t : ValueSet}
    (hs : a.IsUnionOver name P s) (ht : a.IsUnionOver name P t) : s = t :=
  ValueSet.ext fun w => (hs w).trans (ht w).symm

theorem IsUnionOver.subset {name : String} {P Q : ValueId → Prop} {s t : ValueSet}
    (hs : a.IsUnionOver name P s) (ht : a.IsUnionOver name Q t)
    (h : ∀ u w, w ∈ a.ownTypes u name → P u → Q u) : s ⊆ t := by
  intro w hw
  obtain ⟨u, hu, hwu⟩ := (hs w).mp hw
  exact (ht w).mpr ⟨u, h u w hwu hu, hwu⟩

theorem IsUnionOver.congr {name : String} {P Q : ValueId → Prop} {s : ValueSet}
    (hs : a.IsUnionOver name P s) (h : ∀ u, P u ↔ Q u) : a.IsUnionOver name Q s := by
  obtain rfl : P = Q := funext fun u => propext (h u)
  exact hs

theorem IsUnionOver.mem_shown_iff {name : String} {P : ValueId → Prop} {s : ValueSet}
    (hs : a.IsUnionOver name P s) (w : ValueId) :
    w ∈ a.shown s ↔ (∃ u, P u ∧ w ∈ a.ownTypes u name) ∧
      (a.options.hidesDead = true → a.isAlive w = true) := by
  rw [mem_shown, hs w]

/-- An exploration gives the union over the values it visits. -/
theorem isUnionOver_explore (a : Analysis) (name : String) (g : Guard ValueId) (v : ValueId) :
    a.IsUnionOver name (· ∈ (a.explore (a.ownTypes · name) (· ∪ ·) g v).visits)
      (a.explore (a.ownTypes · name) (· ∪ ·) g v).result := fun w =>
  collects_explore (P := (w ∈ ·)) (Q := fun u => w ∈ a.ownTypes u name)
    (fun _ _ => ValueSet.mem_union) (fun _ => Iff.rfl) g v

/-- With unlimited attempts, looking a member up finds the union over the values within the depth
allowed. -/
theorem isUnionOver_within (hu : a.options.limits.attempts = Count.top) (v : ValueId)
    (name : String) :
    a.IsUnionOver name (a.Within a.options.limits.depth v)
      (a.explore (a.ownTypes · name) (· ∪ ·) a.guard v).result :=
  (a.isUnionOver_explore name a.guard v).congr fun _ => mem_visits_explore_iff rfl hu

/-- If the depth is at least the number of inheritors too, it finds the union over all values
reached. -/
theorem isUnionOver_reaches (hu : a.options.limits.attempts = Count.top)
    (hd : a.inheritorCount ≤ a.options.limits.depth) (v : ValueId) (name : String) :
    a.IsUnionOver name (a.Reaches v) (a.explore (a.ownTypes · name) (· ∪ ·) a.guard v).result :=
  (isUnionOver_within hu v name).congr fun _ => within_iff_reaches hd

/-- **Looking up is distance-bounded union.**  With unlimited attempts, the answer is the shown part
of the union over the values at a distance of at most the depth allowed, so it has what one of these
holds, dead values apart if they are hidden; if that depth is unlimited and the values are fewer
than `2 ^ 32`, the union is over all values reached. -/
theorem lookup_eq_union_within (a : Analysis) (hu : a.options.limits.attempts = Count.top)
    (v : ValueId) (name : String) (site : Option Site) :
    (∃ s, a.IsUnionOver name (a.Within a.options.limits.depth v) s ∧
      (a.lookup v name site).answer = a.shown s) ∧
    (∀ w, w ∈ (a.lookup v name site).answer ↔
      (∃ u, a.Within a.options.limits.depth v u ∧ w ∈ a.ownTypes u name) ∧
        (a.options.hidesDead = true → a.isAlive w = true)) ∧
    (a.options.limits.depth = Count.top → a.values.size < 2 ^ 32 →
      ∃ s, a.IsUnionOver name (a.Reaches v) s ∧ (a.lookup v name site).answer = a.shown s) := by
  have hunion := isUnionOver_within hu v name
  have hanswer := a.lookup_answer v name site
  refine ⟨⟨_, hunion, hanswer⟩, fun w => hanswer ▸ hunion.mem_shown_iff w, fun hd hlt => ?_⟩
  have hcount : a.inheritorCount ≤ a.options.limits.depth := by
    have hle := a.inheritorCount_le_size
    rw [hd, Count.top]
    omega
  exact ⟨_, isUnionOver_reaches hu hcount v name, hanswer⟩

/-- Two inheritors that draw on each other and on themselves, and on an identity that stands for no
value. -/
def mutualInheritors : Analysis :=
  ((fresh {}).run
    [.createInheritor .builtin (.ofList [⟨1⟩, ⟨2⟩]), .createInheritor .builtin (.ofList [⟨1⟩, ⟨9⟩]),
      .assign ⟨1⟩ "x" (.singleton ⟨0⟩), .assign ⟨2⟩ "x" (.singleton ⟨2⟩)]).state

/-- The cycle leads back to the first inheritor, and both give what they hold. -/
theorem lookup_mutualInheritors :
    mutualInheritors.options.limits.attempts = Count.top ∧
    mutualInheritors.options.limits.depth = Count.top ∧ mutualInheritors.values.size < 2 ^ 32 ∧
    (mutualInheritors.lookup ⟨1⟩ "x" none).answer = .ofList [⟨0⟩, ⟨2⟩] ∧
    (∃ u, mutualInheritors.Within Count.top ⟨1⟩ u ∧ ⟨2⟩ ∈ mutualInheritors.ownTypes u "x") ∧
    ∃ s, mutualInheritors.IsUnionOver "x" (mutualInheritors.Reaches ⟨1⟩) s ∧
      mutualInheritors.shown s = .ofList [⟨0⟩, ⟨2⟩] := by
  obtain ⟨-, hmem, hall⟩ := lookup_eq_union_within mutualInheritors (by decide) ⟨1⟩ "x" none
  have hanswer : (mutualInheritors.lookup ⟨1⟩ "x" none).answer = .ofList [⟨0⟩, ⟨2⟩] := by
    decide +kernel
  obtain ⟨s, hs, hshown⟩ := hall (by decide) (by decide)
  refine ⟨by decide, by decide, by decide, hanswer, ((hmem ⟨2⟩).mp ?_).1, s, hs, ?_⟩
  · simp [hanswer]
  · rw [← hshown, hanswer]

end Prototypal.Analysis
