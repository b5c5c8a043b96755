import Prototypal.Proofs.Descent
import Prototypal.Proofs.Inheritance
import Prototypal.Resolution.Explore

/-!
# Prototypal — Proofs — Exploration

Which values an exploration visits, and what it makes of them.

The guard denies values that are being visited, so an exploration follows the routes that enter no
value twice; the start is not entered, and a route may come back to it.  Where no count of attempts
exceeds the budget, these are all that is followed, up to the depth allowed
(`mem_visits_exploreLevels`).  A denial on one route loses no value: what is within the depth is at
the end of a shortest route, and that has no detour (`mem_visits_explore_iff`).

The result is collected from the values visited (`collects_explore`), and which values these are
does not depend on what is collected (`explore_map`); both hold under all budgets.
-/

namespace Prototypal.Analysis

variable {a : Analysis} {α β : Type} {own : ValueId → α} {merge : α → α → α}

/-- An exploration hands back the guard with the keys it was given. -/
theorem balanced_exploreLevels (n : Nat) : Balanced (a.exploreLevels own merge n) := by
  induction n with
  | zero => exact fun g _ => .refl g
  | succ n ih => exact fun g v => ih.fanOut _ g _

theorem visits_exploreLevels_succ (n : Nat) (g : Guard ValueId) (v : ValueId) :
    (a.exploreLevels own merge (n + 1) g v).visits =
      v :: (fanOut (a.exploreLevels own merge n) merge (own v) g (a.prototypes v)).visits := rfl

/-! ### Which values are visited -/

/-- **Explored routes**: with unlimited attempts, a value is visited just when a route leads to it
that enters no value twice and none that is being visited, within the depth and the levels that are
left. -/
theorem mem_visits_exploreLevels {n : Nat} {g : Guard ValueId} {v u : ValueId}
    (hu : g.limits.attempts = Count.top) (hd : g.depth ≤ g.limits.depth) :
    u ∈ (a.exploreLevels own merge n g v).visits ↔
      ∃ ps, Route a.Draws v ps u ∧ ps.Nodup ∧ ps.Disjoint g.visiting ∧
        g.depth + ps.length ≤ g.limits.depth ∧ ps.length ≤ n := by
  induction n generalizing g v with
  | zero =>
      constructor
      · intro h
        obtain rfl : u = v := List.mem_singleton.mp h
        exact ⟨[], .here u, .nil, List.disjoint_nil_left _, hd, Nat.le_refl 0⟩
      · rintro ⟨ps, hr, -, -, -, hn⟩
        obtain rfl : ps = [] := List.eq_nil_of_length_eq_zero (Nat.le_zero.mp hn)
        cases hr
        exact List.mem_singleton.mpr rfl
  | succ n ih =>
      rw [visits_exploreLevels_succ]
      constructor
      · intro h
        rcases List.mem_cons.mp h with rfl | h
        · exact ⟨[], .here u, .nil, List.disjoint_nil_left _, hd, Nat.zero_le _⟩
        obtain ⟨p, hp, h, hc, ha, h'⟩ :=
          exists_of_mem_visits_fanOut (balanced_exploreLevels n) h
        obtain ⟨hpv, hlt⟩ := (hc.admits_iff hu).mp ha
        have ih' := ih (g := h.inside p) (v := p)
        rw [hc.limits_inside, hc.visiting_inside, hc.depth_inside] at ih'
        obtain ⟨ps, hr, hnd, hdis, hlen, hn⟩ := (ih' hu hlt).mp h'
        obtain ⟨hpps, hdis⟩ := List.disjoint_cons_right.mp hdis
        refine ⟨p :: ps, .down (mem_prototypes.mp hp) hr, List.nodup_cons.mpr ⟨hpps, hnd⟩,
          List.disjoint_cons_left.mpr ⟨hpv, hdis⟩, ?_, Nat.succ_le_succ hn⟩
        rw [List.length_cons]
        omega
      · rintro ⟨ps, hr, hnd, hdis, hlen, hn⟩
        cases hr with
        | here => exact List.mem_cons_self
        | @down _ p _ ps hp t =>
            rw [List.length_cons] at hlen hn
            obtain ⟨hpps, hnd⟩ := List.nodup_cons.mp hnd
            obtain ⟨hpv, hdis⟩ := List.disjoint_cons_left.mp hdis
            refine List.mem_cons_of_mem _ (mem_visits_fanOut (balanced_exploreLevels n)
              (mem_prototypes.mpr hp) (fun h hc => (hc.admits_iff hu).mpr ⟨hpv, by omega⟩)
              (fun h hc => ?_))
            have ih' := ih (g := h.inside p) (v := p)
            rw [hc.limits_inside, hc.visiting_inside, hc.depth_inside] at ih'
            exact (ih' hu (by omega)).mpr
              ⟨ps, t, hnd, List.disjoint_cons_right.mpr ⟨hpps, hdis⟩, by omega, by omega⟩

/-- **What an exploration visits**: with unlimited attempts, exactly the values at a distance of at
most the depth allowed. -/
theorem mem_visits_explore_iff {g : Guard ValueId} (hg : g.visiting = [])
    (hu : g.limits.attempts = Count.top) {v u : ValueId} :
    u ∈ (a.explore own merge g v).visits ↔ a.Within g.limits.depth v u := by
  have hd : g.depth = 0 := congrArg List.length hg
  rw [explore, mem_visits_exploreLevels hu (hd ▸ Nat.zero_le _), hd, hg]
  simp only [Nat.zero_add]
  constructor
  · rintro ⟨ps, hr, -, -, hlen, -⟩
    exact ⟨ps, hr, hlen⟩
  · rintro ⟨ps, hr, hlen⟩
    -- a shortest route has no detour, so no denial cuts it and the levels suffice for it
    obtain ⟨qs, hq, hle, hnd⟩ := hr.exists_nodup
    have hlev := length_le_of_route (fun _ _ => Draws.isInheritor) hq hnd
    exact ⟨qs, hq, (List.nodup_cons.mp hnd).2, List.disjoint_nil_right _, Nat.le_trans hle hlen,
      Nat.le_succ_of_le hlev⟩

/-- Under any budgets, only values that are reached are visited. -/
theorem reaches_of_mem_visits_exploreLevels {n : Nat} {g : Guard ValueId} {v u : ValueId}
    (h : u ∈ (a.exploreLevels own merge n g v).visits) : a.Reaches v u := by
  induction n generalizing g v with
  | zero =>
      obtain rfl : u = v := List.mem_singleton.mp h
      exact ⟨[], .here u⟩
  | succ n ih =>
      rw [visits_exploreLevels_succ] at h
      rcases List.mem_cons.mp h with rfl | h
      · exact ⟨[], .here u⟩
      · obtain ⟨p, hp, i, -, -, h⟩ := exists_of_mem_visits_fanOut (balanced_exploreLevels n) h
        obtain ⟨ps, hps⟩ := ih h
        exact ⟨p :: ps, .down (mem_prototypes.mp hp) hps⟩

/-! ### What is collected -/

theorem collects_exploreLevels {P : α → Prop} {Q : ValueId → Prop}
    (hm : ∀ x y, P (merge x y) ↔ P x ∨ P y) (ho : ∀ u, P (own u) ↔ Q u) (n : Nat)
    (g : Guard ValueId) (v : ValueId) : Collects P Q (a.exploreLevels own merge n g v) := by
  induction n generalizing g v with
  | zero => simp [Collects, Descent.visits, exploreLevels, Step.visited?, ho]
  | succ n ih =>
      have hf := Collects.fanOut (balanced_exploreLevels n) hm ih (own v) g (a.prototypes v)
      rw [Collects, visits_exploreLevels_succ, List.exists_mem_cons_iff, ← ho]
      exact hf

/-- The result of an exploration is collected from the values it visits. -/
theorem collects_explore {P : α → Prop} {Q : ValueId → Prop}
    (hm : ∀ x y, P (merge x y) ↔ P x ∨ P y) (ho : ∀ u, P (own u) ↔ Q u) (g : Guard ValueId)
    (v : ValueId) : Collects P Q (a.explore own merge g v) :=
  collects_exploreLevels hm ho a.levels g v

/-- **Explorations commute with maps that commute with merging.** -/
theorem explore_map {merge' : β → β → β} {f : α → β}
    (hm : ∀ x y, f (merge x y) = merge' (f x) (f y)) (g : Guard ValueId) (v : ValueId) :
    (a.explore own merge g v).map f = a.explore (fun u => f (own u)) merge' g v := by
  have hl : ∀ (n : Nat) (g : Guard ValueId) (v : ValueId),
      (a.exploreLevels own merge n g v).map f =
        a.exploreLevels (fun u => f (own u)) merge' n g v := by
    intro n
    induction n with
    | zero => exact fun _ _ => rfl
    | succ n ih =>
        intro g v
        have hf := fanOut_map hm ih (own v) g (a.prototypes v)
        rw [exploreLevels, exploreLevels, ← hf]
        rfl
  exact hl a.levels g v

end Prototypal.Analysis
