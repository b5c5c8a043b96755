import Prototypal.Proofs.Inheritance

/-!
# Prototypal — Proofs — Deferral

The two ways in which an inheritor stands for its prototypes.  One with a single prototype *defers*
to it (`Defers`); one with several *branches* (`Branches`).  Following deferrals from a value leads
to at most one value that does not defer (`route_defers_unique`), and comes to no value twice on
the way there (`nodup_of_route_defers`).

A branching value *leaps* to the values where deferrals from its prototypes stop (`Leaps`).  What a
value reaches it reaches by deferrals up to where they stop and by leaps from there
(`Reaches.exists_leaps`): the inheritance graph with its deferrals contracted.
-/

namespace Prototypal.Analysis

variable {a : Analysis}

/-- `p` is the only prototype of `v`. -/
def Defers (a : Analysis) (v p : ValueId) : Prop := a.prototypes v = [p]

/-- `v` has several prototypes. -/
def Branches (a : Analysis) (v : ValueId) : Prop := 2 ≤ (a.prototypes v).length

/-- `v` does not defer. -/
def Stops (a : Analysis) (v : ValueId) : Prop := ∀ p, ¬ a.Defers v p

/-- `t` branches, and deferrals from one of its prototypes stop at `t'`. -/
def Leaps (a : Analysis) (t t' : ValueId) : Prop :=
  a.Branches t ∧ ∃ p ∈ a.prototypes t, ∃ ps, Route a.Defers p ps t' ∧ a.Stops t'

theorem Defers.draws {v p : ValueId} (h : a.Defers v p) : a.Draws v p := by
  refine mem_prototypes.mp ?_
  rw [show a.prototypes v = [p] from h]
  exact List.mem_singleton.mpr rfl

theorem Branches.isInheritor {v : ValueId} (h : a.Branches v) : a.IsInheritor v := by
  by_contra hn
  rw [Branches, prototypes_eq_nil_of_not_isInheritor hn] at h
  exact absurd h (by decide)

theorem Branches.stops {v : ValueId} (h : a.Branches v) : a.Stops v := by
  intro p hp
  rw [Branches, show a.prototypes v = [p] from hp] at h
  exact Nat.not_succ_le_self 1 h

theorem IsPlain.stops {v : ValueId} (h : a.IsPlain v) : a.Stops v :=
  fun _ hp => h.not_isInheritor hp.draws.isInheritor

/-- A value with a prototype defers to it or branches. -/
theorem Draws.defers_or_branches {v p : ValueId} (h : a.Draws v p) :
    a.Defers v p ∨ a.Branches v := by
  have hp := mem_prototypes.mpr h
  unfold Defers Branches
  match hl : a.prototypes v with
  | [] => rw [hl] at hp; cases hp
  | [q] =>
      rw [hl] at hp
      rw [List.mem_singleton.mp hp]
      exact .inl rfl
  | _ :: _ :: _ => exact .inr (Nat.le_add_left _ _)

/-! ### Deferrals -/

/-- A route of deferrals is one of draws. -/
theorem reaches_of_route_defers {v t : ValueId} {ps : List ValueId} (h : Route a.Defers v ps t) :
    a.Reaches v t :=
  ⟨ps, h.mono fun _ _ => Defers.draws⟩

/-- **Deferrals stop at one value**, and there is one way to it. -/
theorem route_defers_unique {v t t' : ValueId} {ps qs : List ValueId} (h : Route a.Defers v ps t)
    (ht : a.Stops t) (h' : Route a.Defers v qs t') (ht' : a.Stops t') : ps = qs ∧ t = t' := by
  induction h generalizing qs with
  | here v =>
      cases h' with
      | here => exact ⟨rfl, rfl⟩
      | down hp _ => exact absurd hp (ht _)
  | @down v p t ps hp _ ih =>
      cases h' with
      | here => exact absurd hp (ht' _)
      | @down _ q _ qs hq h' =>
          obtain rfl : p = q := by
            have he := (show a.prototypes v = [p] from hp).symm.trans hq
            exact (List.cons.inj he).1
          obtain ⟨rfl, rfl⟩ := ih ht h'
          exact ⟨rfl, rfl⟩

/-- Deferrals that stop come to no value twice. -/
theorem nodup_of_route_defers {v t : ValueId} {ps : List ValueId} (h : Route a.Defers v ps t)
    (ht : a.Stops t) : (v :: ps).Nodup := by
  induction h with
  | here v => exact List.nodup_singleton v
  | @down v p t ps hp h ih =>
      refine List.nodup_cons.mpr ⟨fun hv => ?_, ih ht⟩
      -- from `v` on, the deferrals would go on as they did before, and never stop
      obtain ⟨qs, hq, hs⟩ := (Route.down hp h).exists_suffix hv
      obtain ⟨rfl, -⟩ := route_defers_unique (.down hp h) ht hq ht
      exact absurd hs.length_le (by simp)

/-- Every value that deferrals go through stops where they stop. -/
theorem exists_route_defers_of_mem {v t x : ValueId} {ps : List ValueId}
    (h : Route a.Defers v ps t) (hx : x ∈ v :: ps) : ∃ qs, Route a.Defers x qs t := by
  rcases List.mem_cons.mp hx with rfl | hx
  · exact ⟨ps, h⟩
  · obtain ⟨qs, hq, -⟩ := h.exists_suffix hx
    exact ⟨qs, hq⟩

/-- Distinct inheritors, and the values that deferrals go through elsewhere, are together no more
than there are inheritors. -/
theorem length_add_length_le_inheritorCount {ts ps : List ValueId} {p t : ValueId} (hn : ts.Nodup)
    (hi : ∀ x ∈ ts, a.IsInheritor x) (hout : ∀ x ∈ ts, x ∉ (p :: ps).dropLast)
    (h : Route a.Defers p ps t) (ht : a.Stops t) : ts.length + ps.length ≤ a.inheritorCount := by
  have hnd : (ts ++ (p :: ps).dropLast).Nodup := by
    refine List.nodup_append.mpr
      ⟨hn, (nodup_of_route_defers h ht).sublist (List.dropLast_sublist _), ?_⟩
    rintro x hx _ hy rfl
    exact hout x hx hy
  have hle := length_le_inheritorCount (a := a) hnd fun x hx => by
    rcases List.mem_append.mp hx with hx | hx
    · exact hi x hx
    · obtain ⟨q, hq⟩ := h.exists_rel_of_mem_dropLast hx
      exact hq.draws.isInheritor
  simpa using hle

theorem length_le_of_route_defers {v t : ValueId} {ps : List ValueId} (h : Route a.Defers v ps t)
    (ht : a.Stops t) : ps.length ≤ a.inheritorCount :=
  length_le_of_route (fun _ _ hd => hd.draws.isInheritor) h (nodup_of_route_defers h ht)

/-! ### Leaps -/

/-- **The graph with its deferrals contracted**: a plain value that `v` reaches is reached by
deferrals up to where they stop, and by leaps from there. -/
theorem Reaches.exists_leaps {v u : ValueId} (h : a.Reaches v u) (hu : a.IsPlain u) :
    ∃ ps t, Route a.Defers v ps t ∧ a.Stops t ∧ ∃ ts, Route a.Leaps t ts u := by
  obtain ⟨qs, hr⟩ := h
  induction hr with
  | here u => exact ⟨[], u, .here u, hu.stops, [], .here u⟩
  | @down v p u qs hp _ ih =>
      obtain ⟨ps, t, hps, ht, ts, hts⟩ := ih hu
      rcases hp.defers_or_branches with hd | hb
      · exact ⟨p :: ps, t, .down hd hps, ht, ts, hts⟩
      · exact ⟨[], v, .here v, hb.stops, t :: ts,
          .down ⟨hb, p, mem_prototypes.mpr hp, ps, hps, ht⟩ hts⟩

end Prototypal.Analysis
