import Prototypal.Proofs.Deferral
import Prototypal.Proofs.Descent
import Prototypal.Resolution.Descriptor

/-!
# Prototypal — Proofs — Description

Which descriptor a value gets, and which values a descriptor reads.

The descriptor of a member is found by following deferrals up to where they stop: it is the stored
one of a plain value that has the member, or the merged one of a branching value (`Describes`).  A
merged descriptor is read by entering each prototype, describing the member there, and reading that
descriptor in turn.  The keys passed through while describing are left again before the descriptor
is read, so the guard knows only part of the way.

* `exists_of_describeLevels`, `mem_visits_evaluateLevels_sound`: under any budgets, only plain
  values that are reached are read.
* `describeLevels_of_route`, `mem_visits_evaluateLevels_of_leaps`: with unlimited attempts and a
  depth of at least the number of inheritors, all of them are.  The guard denies no step of a route
  of leaps without detours: every key that is being visited defers to a value the route has leapt
  to already (`Passed`), and deferrals stop at one value only.  `mem_visits_evaluateLevels_merged`
  is one leap of such a route.
-/

namespace Prototypal.Analysis

variable {a : Analysis} {name : String}

/-- `d` is the descriptor that `v` itself gives for member `name`. -/
inductive Describes (a : Analysis) (name : String) : ValueId → Descriptor → Prop where
  | stored {v : ValueId} {slot : Slot} (hp : a.IsPlain v) (hs : a.slot? v name = some slot) :
      Describes a name v (.stored v name)
  | merged {v : ValueId} (hb : a.Branches v) : Describes a name v (.merged v name)

theorem Describes.stops {v : ValueId} {d : Descriptor} (h : a.Describes name v d) : a.Stops v := by
  cases h with
  | stored hp _ => exact hp.stops
  | merged hb => exact hb.stops

theorem Describes.name_eq {v : ValueId} {d : Descriptor} (h : a.Describes name v d) :
    d.name = name := by
  cases h <;> rfl

/-! ### Describing -/

theorem Defers.kind? {v p : ValueId} (h : a.Defers v p) :
    ∃ members prototypes, a.kind? v = some (.inheritor members prototypes) ∧
      prototypes.toList = [p] := by
  obtain ⟨members, prototypes, hk, -⟩ := h.draws
  refine ⟨members, prototypes, hk, ?_⟩
  have hp : a.prototypes v = [p] := h
  rw [Analysis.prototypes, hk] at hp
  exact hp

theorem describeLevels_zero_of_defers {v p : ValueId} (h : a.Defers v p) (g : Guard ValueId) :
    a.describeLevels name 0 g v = ⟨none, [], g⟩ := by
  obtain ⟨members, prototypes, hk, hl⟩ := h.kind?
  rw [describeLevels]
  simp only [hk, hl]

theorem describeLevels_succ_of_defers {v p : ValueId} (h : a.Defers v p) (n : Nat)
    (g : Guard ValueId) :
    a.describeLevels name (n + 1) g v =
      fanOut (a.describeLevels name n) (fun _ found => found) none g [p] := by
  obtain ⟨members, prototypes, hk, hl⟩ := h.kind?
  rw [describeLevels]
  simp only [hk, hl]

theorem describes_iff_of_isPlain {v : ValueId} (hp : a.IsPlain v) {d : Descriptor} :
    a.Describes name v d ↔ (a.slot? v name).isSome ∧ d = .stored v name := by
  constructor
  · intro h
    cases h with
    | stored _ hs => exact ⟨hs ▸ rfl, rfl⟩
    | merged hb => exact absurd hb.isInheritor hp.not_isInheritor
  · rintro ⟨hs, rfl⟩
    obtain ⟨slot, hs⟩ := Option.isSome_iff_exists.mp hs
    exact .stored hp hs

theorem describes_iff_of_isInheritor {v : ValueId} (hi : a.IsInheritor v) {d : Descriptor} :
    a.Describes name v d ↔ a.Branches v ∧ d = .merged v name := by
  constructor
  · intro h
    cases h with
    | stored hp _ => exact absurd hi hp.not_isInheritor
    | merged hb => exact ⟨hb, rfl⟩
  · rintro ⟨hb, rfl⟩
    exact .merged hb

theorem Describes.exists_kind? {v : ValueId} {d : Descriptor} (h : a.Describes name v d) :
    ∃ k, a.kind? v = some k ∧ k.members?.isSome := by
  cases h with
  | stored hp _ =>
      obtain ⟨members, hk | ⟨f, args, hk⟩⟩ := hp
      · exact ⟨_, hk, rfl⟩
      · exact ⟨_, hk, rfl⟩
  | merged hb =>
      obtain ⟨members, prototypes, hk⟩ := hb.isInheritor
      exact ⟨_, hk, rfl⟩

/-- Where a value does not defer, its own descriptor is the answer. -/
theorem describeLevels_of_stops {v : ValueId} (h : a.Stops v) (name : String) (n : Nat)
    (g : Guard ValueId) :
    ∃ found, a.describeLevels name n g v = ⟨found, [], g⟩ ∧
      ∀ d, found = some d ↔ a.Describes name v d := by
  have plain : ∀ members : Members, a.IsPlain v → a.slot? v name = members.get? name → ∀ d,
      (if members.contains name then some (Descriptor.stored v name) else none) = some d ↔
        a.Describes name v d := fun members hp hs d => by
    rw [describes_iff_of_isPlain hp, hs]
    cases hg : members.get? name <;> simp [Roster.contains, hg, eq_comm]
  have other : (∀ k, a.kind? v = some k → k.members? = none) → ∀ d,
      none = some d ↔ a.Describes name v d := fun hn d => by
    refine ⟨nofun, fun hd => ?_⟩
    obtain ⟨k, hk, hm⟩ := hd.exists_kind?
    rw [hn k hk] at hm
    cases hm
  rw [describeLevels]
  cases hk : a.kind? v with
  | none => exact ⟨none, rfl, other fun k hk' => by rw [hk] at hk'; cases hk'⟩
  | some k =>
      cases k with
      | object members => exact ⟨_, rfl, plain members ⟨members, .inl hk⟩ (slot?_of_kind? hk name)⟩
      | function f members args =>
          exact ⟨_, rfl, plain members ⟨members, .inr ⟨f, args, hk⟩⟩ (slot?_of_kind? hk name)⟩
      | inheritor members prototypes =>
          have hps : a.prototypes v = prototypes.toList := by rw [Analysis.prototypes, hk]; rfl
          have hd : ∀ d, a.Describes name v d ↔ a.Branches v ∧ d = .merged v name :=
            fun d => describes_iff_of_isInheritor ⟨members, prototypes, hk⟩
          dsimp only
          match hl : prototypes.toList, n with
          | [], _ => exact ⟨none, rfl, fun d => by simp [hd, Branches, hps, hl]⟩
          | [p], _ => exact absurd (hps.trans hl) (h p)
          | _ :: _ :: _, _ => exact ⟨_, rfl, fun d => by simp [hd, Branches, hps, hl, eq_comm]⟩
      | undefined | null | boolean _ | number _ | text _ | arguments _ =>
          exact ⟨none, rfl, other fun k hk' => by rw [hk] at hk'; cases hk'; rfl⟩

/-- **What describing does**: it answers where deferrals stop, and follows them one value further,
under the guard, where they go on. -/
theorem describeLevels_induction (a : Analysis) (name : String)
    {motive : Nat → Guard ValueId → ValueId → Descent (Option Descriptor) → Prop}
    (stops : ∀ n g v found, a.Stops v → (∀ d, found = some d ↔ a.Describes name v d) →
      motive n g v ⟨found, [], g⟩)
    (ends : ∀ g v p, a.Defers v p → motive 0 g v ⟨none, [], g⟩)
    (defers : ∀ n g v p, a.Defers v p → (∀ g v, motive n g v (a.describeLevels name n g v)) →
      motive (n + 1) g v (fanOut (a.describeLevels name n) (fun _ found => found) none g [p]))
    (n : Nat) (g : Guard ValueId) (v : ValueId) : motive n g v (a.describeLevels name n g v) := by
  induction n generalizing g v with
  | zero =>
      by_cases h : a.Stops v
      · obtain ⟨found, he, hd⟩ := describeLevels_of_stops h name 0 g
        rw [he]
        exact stops 0 g v found h hd
      · obtain ⟨p, hp⟩ := not_forall_not.mp h
        rw [describeLevels_zero_of_defers hp]
        exact ends g v p hp
  | succ n ih =>
      by_cases h : a.Stops v
      · obtain ⟨found, he, hd⟩ := describeLevels_of_stops h name (n + 1) g
        rw [he]
        exact stops (n + 1) g v found h hd
      · obtain ⟨p, hp⟩ := not_forall_not.mp h
        rw [describeLevels_succ_of_defers hp]
        exact defers n g v p hp ih

/-- Describing hands back the guard with the keys it was given. -/
theorem balanced_describeLevels (n : Nat) : Balanced (a.describeLevels name n) := by
  refine describeLevels_induction a name (motive := fun _ g _ d => g.Continues d.guard) ?_ ?_ ?_ n
  · exact fun _ g _ _ _ _ => .refl g
  · exact fun g _ _ _ => .refl g
  · exact fun n g v p _ ih => Balanced.fanOut ih none g [p]

/-- Describing reads no member. -/
theorem visits_describeLevels (n : Nat) (g : Guard ValueId) (v : ValueId) :
    (a.describeLevels name n g v).visits = [] := by
  refine describeLevels_induction a name (motive := fun _ _ _ d => d.visits = []) ?_ ?_ ?_ n g v
  · exact fun _ _ _ _ _ _ => rfl
  · exact fun _ _ _ _ => rfl
  · intro n g v p _ ih
    refine List.eq_nil_iff_forall_not_mem.mpr fun u hu => ?_
    obtain ⟨q, -, h, -, -, hu⟩ := exists_of_mem_visits_fanOut (balanced_describeLevels n) hu
    rw [ih] at hu
    cases hu

/-- **A descriptor is that of the value where deferrals stop**, under any budgets. -/
theorem exists_of_describeLevels {n : Nat} {g : Guard ValueId} {v : ValueId} {d : Descriptor}
    (h : (a.describeLevels name n g v).result = some d) :
    ∃ ps t, Route a.Defers v ps t ∧ a.Describes name t d := by
  revert h
  refine describeLevels_induction a name (motive := fun _ _ v e => e.result = some d →
    ∃ ps t, Route a.Defers v ps t ∧ a.Describes name t d) ?_ ?_ ?_ n g v
  · exact fun _ _ v found _ hf h => ⟨[], v, .here v, (hf d).mp h⟩
  · exact fun _ _ _ _ h => nomatch h
  · intro n g v p hp ih h
    by_cases ha : g.Admits p
    · rw [result_fanOut_singleton _ (balanced_describeLevels n) ha] at h
      obtain ⟨ps, t, hr, hd⟩ := ih _ _ h
      exact ⟨p :: ps, t, .down hp hr, hd⟩
    · rw [result_fanOut_singleton_of_not_admits _ _ ha] at h
      cases h

/-- With unlimited attempts, deferrals that the guard does not deny are followed to their end. -/
theorem describeLevels_of_route {n : Nat} {g : Guard ValueId} {v t : ValueId} {ps : List ValueId}
    {d : Descriptor} (hu : g.limits.attempts = Count.top) (hr : Route a.Defers v ps t)
    (hd : a.Describes name t d) (hn : ps.length ≤ n) (hnd : ps.Nodup)
    (hdis : ps.Disjoint g.visiting) (hdep : g.depth + ps.length ≤ g.limits.depth) :
    (a.describeLevels name n g v).result = some d := by
  induction hr generalizing n g with
  | here t =>
      obtain ⟨found, he, hf⟩ := describeLevels_of_stops hd.stops name n g
      rw [he]
      exact (hf d).mpr hd
  | @down v p t ps hp _ ih =>
      obtain ⟨n, rfl⟩ := Nat.exists_eq_add_of_le' (Nat.le_of_add_left_le hn)
      obtain ⟨hpps, hnd⟩ := List.nodup_cons.mp hnd
      obtain ⟨hpv, hdis⟩ := List.disjoint_cons_left.mp hdis
      rw [List.length_cons] at hn hdep
      have hc := Guard.Continues.refl g
      have ha : g.Admits p := (hc.admits_iff hu).mpr ⟨hpv, by omega⟩
      rw [describeLevels_succ_of_defers hp,
        result_fanOut_singleton _ (balanced_describeLevels n) ha]
      refine ih hu hd (Nat.le_of_succ_le_succ hn) hnd ?_ ?_
      · rw [hc.visiting_inside]
        exact List.disjoint_cons_right.mpr ⟨hpps, hdis⟩
      · rw [hc.depth_inside, hc.limits_inside]
        omega

/-- Under a new guard that allows a depth of at least the number of inheritors, no deferral is
denied. -/
theorem describe_of_route {v t : ValueId} {ps : List ValueId} {d : Descriptor}
    (hu : a.options.limits.attempts = Count.top) (hd : a.inheritorCount ≤ a.options.limits.depth)
    (hr : Route a.Defers v ps t) (hdt : a.Describes name t d) :
    (a.describe name a.guard v).result = some d := by
  have hlen := length_le_of_route_defers hr hdt.stops
  obtain ⟨-, hnd⟩ := List.nodup_cons.mp (nodup_of_route_defers hr hdt.stops)
  refine describeLevels_of_route hu hr hdt (Nat.le_succ_of_le hlen) hnd ?_ ?_
  · exact List.disjoint_nil_right ps
  · rw [Guard.depth, guard, List.length_nil, Nat.zero_add]
    exact Nat.le_trans hlen hd

/-! ### Reading -/

theorem evaluateLevels_stored (n : Nat) (g : Guard ValueId) (v : ValueId) (name : String) :
    a.evaluateLevels n g (.stored v name) = ⟨a.ownTypes v name, [.visit v], g⟩ := by
  cases n <;> rfl

theorem evaluateLevels_merged (n : Nat) (g : Guard ValueId) (v : ValueId) (name : String) :
    a.evaluateLevels (n + 1) g (.merged v name) =
      fanOut (a.contribution name (a.evaluateLevels n)) (· ∪ ·) ∅ g (a.prototypes v) := rfl

section

variable {read : Guard ValueId → Descriptor → Descent ValueSet}

/-- A prototype that has a descriptor adds what the reading of it gives. -/
theorem contribution_of_some {g : Guard ValueId} {p : ValueId} {d : Descriptor}
    (hd : (a.describe name g p).result = some d) :
    a.contribution name read g p =
      ⟨(read (a.describe name g p).guard d).result,
        (a.describe name g p).trace ++ (read (a.describe name g p).guard d).trace,
        (read (a.describe name g p).guard d).guard⟩ := by
  simp only [contribution, Descent.andThen, hd]

/-- A prototype that has none adds nothing. -/
theorem contribution_of_none {g : Guard ValueId} {p : ValueId}
    (hd : (a.describe name g p).result = none) :
    a.contribution name read g p =
      ⟨∅, (a.describe name g p).trace, (a.describe name g p).guard⟩ := by
  simp only [contribution, Descent.andThen, hd, List.append_nil]

/-- The values that a prototype's contribution visits are those that its descriptor reads. -/
theorem contribution_cases (a : Analysis) (name : String)
    (read : Guard ValueId → Descriptor → Descent ValueSet) (g : Guard ValueId) (p : ValueId) :
    (∃ d h, (a.describe name g p).result = some d ∧ g.Continues h ∧
      (a.contribution name read g p).result = (read h d).result ∧
      (a.contribution name read g p).visits = (read h d).visits ∧
      (a.contribution name read g p).guard = (read h d).guard) ∨
    (a.describe name g p).result = none ∧ (a.contribution name read g p).result = ∅ ∧
      (a.contribution name read g p).visits = [] ∧
      g.Continues (a.contribution name read g p).guard := by
  have hc : g.Continues (a.describe name g p).guard := balanced_describeLevels _ g p
  have hv : (a.describe name g p).trace.filterMap Step.visited? = [] := visits_describeLevels _ g p
  cases hf : (a.describe name g p).result with
  | some d =>
      refine .inl ⟨d, _, rfl, hc, ?_⟩
      simp [contribution_of_some hf, Descent.visits, hv]
  | none =>
      refine .inr ⟨rfl, ?_⟩
      simp [contribution_of_none hf, Descent.visits, hv, hc]

theorem balanced_contribution_of (h : ∀ (g : Guard ValueId) d, g.Continues (read g d).guard)
    (name : String) : Balanced (a.contribution name read) := fun g p => by
  rcases a.contribution_cases name read g p with ⟨d, i, -, hc, -, -, hg⟩ | ⟨-, -, -, hc⟩
  · rw [hg]
    exact hc.trans (h i d)
  · exact hc

end

/-- Reading a descriptor hands back the guard with the keys it was given. -/
theorem balanced_evaluateLevels (n : Nat) (g : Guard ValueId) (d : Descriptor) :
    g.Continues (a.evaluateLevels n g d).guard := by
  induction n generalizing g d with
  | zero => cases d <;> exact .refl g
  | succ n ih =>
      cases d with
      | stored v name => exact .refl g
      | merged v name => exact (balanced_contribution_of ih name).fanOut ∅ g (a.prototypes v)

theorem balanced_contribution (a : Analysis) (name : String) (n : Nat) :
    Balanced (a.contribution name (a.evaluateLevels n)) :=
  balanced_contribution_of (balanced_evaluateLevels n) name

/-- Reading a descriptor collects what the own members of the values it visits hold. -/
theorem collects_evaluateLevels (w : ValueId) (n : Nat) (g : Guard ValueId) (d : Descriptor) :
    Collects (w ∈ ·) (fun u => w ∈ a.ownTypes u d.name) (a.evaluateLevels n g d) := by
  induction n generalizing g d with
  | zero =>
      cases d with
      | stored v name =>
          rw [evaluateLevels_stored]
          simp [Collects, Descent.visits, Step.visited?, Descriptor.name]
      | merged v name => simp [Collects, Descent.visits, evaluateLevels]
  | succ n ih =>
      cases d with
      | stored v name =>
          rw [evaluateLevels_stored]
          simp [Collects, Descent.visits, Step.visited?, Descriptor.name]
      | merged v name =>
          have hp : ∀ g p, Collects (w ∈ ·) (fun u => w ∈ a.ownTypes u name)
              (a.contribution name (a.evaluateLevels n) g p) := fun g p => by
            rcases a.contribution_cases name (a.evaluateLevels n) g p with
              ⟨d, h, hd, -, hr, hv, -⟩ | ⟨-, hr, hv, -⟩
            · obtain ⟨ps, t, -, hdt⟩ := exists_of_describeLevels hd
              rw [Collects, hr, hv, ← hdt.name_eq]
              exact ih h d
            · rw [Collects, hr, hv]
              simp
          have hf := Collects.fanOut (a.balanced_contribution name n)
            (fun _ _ => ValueSet.mem_union) hp ∅ g (a.prototypes v)
          rw [Collects, evaluateLevels_merged, hf]
          simp [Descriptor.name]

theorem mem_visits_contribution_of {read : Guard ValueId → Descriptor → Descent ValueSet}
    {p u : ValueId}
    (h : ∀ {g t d}, a.Describes name t d → u ∈ (read g d).visits → a.Reaches t u ∧ a.IsPlain u)
    {g : Guard ValueId} (hu : u ∈ (a.contribution name read g p).visits) :
    a.Reaches p u ∧ a.IsPlain u := by
  rcases a.contribution_cases name read g p with ⟨d, i, hd, -, -, hv, -⟩ | ⟨-, -, hv, -⟩
  · obtain ⟨ps, t, hps, hdt⟩ := exists_of_describeLevels hd
    obtain ⟨⟨rs, hrs⟩, hplain⟩ := h hdt (hv ▸ hu)
    obtain ⟨qs, hqs⟩ := reaches_of_route_defers hps
    exact ⟨⟨qs ++ rs, hqs.trans hrs⟩, hplain⟩
  · rw [hv] at hu
    cases hu

/-- **Only plain values that are reached are read**, under any budgets. -/
theorem mem_visits_evaluateLevels_sound {n : Nat} {g : Guard ValueId} {t u : ValueId}
    {d : Descriptor} (hd : a.Describes name t d) (hu : u ∈ (a.evaluateLevels n g d).visits) :
    a.Reaches t u ∧ a.IsPlain u := by
  induction n generalizing g t d with
  | zero =>
      cases hd with
      | stored hp _ =>
          obtain rfl : u = t := List.mem_singleton.mp hu
          exact ⟨⟨[], .here u⟩, hp⟩
      | merged _ => cases hu
  | succ n ih =>
      cases hd with
      | stored hp _ =>
          obtain rfl : u = t := List.mem_singleton.mp hu
          exact ⟨⟨[], .here u⟩, hp⟩
      | merged _ =>
          obtain ⟨p, hp, h, -, -, hu⟩ :=
            exists_of_mem_visits_fanOut (a.balanced_contribution name n) hu
          obtain ⟨⟨ps, hps⟩, hplain⟩ := mem_visits_contribution_of ih hu
          exact ⟨⟨p :: ps, .down (mem_prototypes.mp hp) hps⟩, hplain⟩

/-- A merged descriptor reads only plain values that a prototype reaches, also if its inheritor does
not branch. -/
theorem mem_visits_evaluateLevels_merged_sound {n : Nat} {g : Guard ValueId} {v u : ValueId}
    (hu : u ∈ (a.evaluateLevels n g (.merged v name)).visits) :
    ∃ p ∈ a.prototypes v, a.Reaches p u ∧ a.IsPlain u := by
  cases n with
  | zero => cases hu
  | succ n =>
      obtain ⟨p, hp, h, -, -, hu⟩ :=
        exists_of_mem_visits_fanOut (a.balanced_contribution name n) hu
      exact ⟨p, hp, mem_visits_contribution_of mem_visits_evaluateLevels_sound hu⟩

/-! ### No step of a route of leaps is denied -/

/-- Deferrals from `k`, if they stop, stop at one of `ts`. -/
def Settled (a : Analysis) (ts : List ValueId) (k : ValueId) : Prop :=
  ∀ qs x, Route a.Defers k qs x → a.Stops x → x ∈ ts

theorem Settled.mono {ts ts' : List ValueId} {k : ValueId} (h : a.Settled ts k) (hs : ts ⊆ ts') :
    a.Settled ts' k := fun qs x hq hx => hs (h qs x hq hx)

theorem settled_of_route {ts ps : List ValueId} {k t : ValueId} (hr : Route a.Defers k ps t)
    (ht : a.Stops t) (hm : t ∈ ts) : a.Settled ts k := by
  intro qs x hq hx
  obtain ⟨-, rfl⟩ := route_defers_unique hr ht hq hx
  exact hm

/-- How far a reading has come when it reads the descriptor of `t`: the inheritors `ts` were leapt
from on the way to `t`, and neither from them nor from a key being visited do deferrals stop at a
value that has not been come to. -/
structure Passed (a : Analysis) (g : Guard ValueId) (ts : List ValueId) (t : ValueId) : Prop where
  nodup : (t :: ts).Nodup
  inheritors : ∀ x ∈ ts, a.IsInheritor x
  left : ∀ x ∈ ts, a.Settled (t :: ts) x
  keys : ∀ k ∈ g.visiting, a.Settled (t :: ts) k
  depth : g.depth ≤ ts.length

namespace Passed

variable {g h : Guard ValueId} {ts ps : List ValueId} {t t' p : ValueId}

theorem start (a : Analysis) {g : Guard ValueId} (hg : g.visiting = []) (t : ValueId) :
    a.Passed g [] t where
  nodup := List.nodup_singleton t
  inheritors := nofun
  left := nofun
  keys := by rw [hg]; exact nofun
  depth := Nat.le_of_eq (by rw [Guard.depth, hg])

/-- Deferrals that stop at a new value go through no key that is being visited. -/
theorem disjoint (hp : a.Passed g ts t) (hr : Route a.Defers p ps t') (ht' : a.Stops t')
    (hn : t' ∉ t :: ts) : (p :: ps).Disjoint g.visiting := by
  intro k hk hv
  obtain ⟨rs, hrs⟩ := exists_route_defers_of_mem hr hk
  exact hn (hp.keys k hv rs t' hrs ht')

/-- There is room for the deferrals from a prototype where the depth allowed is at least the number
of inheritors. -/
theorem depth_add_length_le (hp : a.Passed g ts t) (hpt : p ∈ a.prototypes t)
    (hr : Route a.Defers p ps t') (ht' : a.Stops t') (hn : t' ∉ t :: ts) :
    g.depth + 1 + ps.length ≤ a.inheritorCount := by
  have hi : ∀ x ∈ t :: ts, a.IsInheritor x :=
    List.forall_mem_cons.mpr ⟨(mem_prototypes.mp hpt).isInheritor, hp.inheritors⟩
  have hout : ∀ x ∈ t :: ts, x ∉ (p :: ps).dropLast := by
    refine List.forall_mem_cons.mpr ⟨fun hx => ?_, fun x hx hx' => ?_⟩
    · -- if the deferrals came back to `t`, they would go on from it as before, and never stop
      obtain ⟨q, hq⟩ := hr.exists_rel_of_mem_dropLast hx
      have hpq : a.Defers t p := by
        rcases (mem_prototypes.mp hpt).defers_or_branches with hd | hb
        · exact hd
        · exact absurd hq (hb.stops q)
      have hnd := nodup_of_route_defers (.down hpq hr) ht'
      exact (List.nodup_cons.mp hnd).1 (List.dropLast_subset _ hx)
    · obtain ⟨rs, hrs⟩ := exists_route_defers_of_mem hr (List.dropLast_subset _ hx')
      exact hn (hp.left x hx rs t' hrs ht')
  have hle := length_add_length_le_inheritorCount hp.nodup hi hout hr ht'
  have hd := hp.depth
  rw [List.length_cons] at hle
  omega

/-- After entering a prototype of `t`, the reading has come to where deferrals from it stop. -/
theorem leap (hp : a.Passed g ts t) (hpt : p ∈ a.prototypes t) (hr : Route a.Defers p ps t')
    (ht' : a.Stops t') (hn : t' ∉ t :: ts) (hv : h.visiting = p :: g.visiting) :
    a.Passed h (t :: ts) t' where
  nodup := List.nodup_cons.mpr ⟨hn, hp.nodup⟩
  inheritors :=
    List.forall_mem_cons.mpr ⟨(mem_prototypes.mp hpt).isInheritor, hp.inheritors⟩
  left := by
    refine List.forall_mem_cons.mpr
      ⟨?_, fun x hx => (hp.left x hx).mono (List.subset_cons_self _ _)⟩
    rcases (mem_prototypes.mp hpt).defers_or_branches with hd | hb
    · exact settled_of_route (.down hd hr) ht' List.mem_cons_self
    · exact settled_of_route (.here t) hb.stops (List.mem_cons_of_mem _ List.mem_cons_self)
  keys := by
    rw [hv]
    refine List.forall_mem_cons.mpr
      ⟨?_, fun k hk => (hp.keys k hk).mono (List.subset_cons_self _ _)⟩
    exact settled_of_route hr ht' List.mem_cons_self
  depth := by
    rw [Guard.depth, hv]
    exact Nat.succ_le_succ hp.depth

end Passed

theorem exists_describes_of_leaps {t u : ValueId} {rs : List ValueId} {slot : Slot}
    (hr : Route a.Leaps t rs u) (hu : a.IsPlain u) (hs : a.slot? u name = some slot) :
    ∃ d, a.Describes name t d := by
  cases hr with
  | here => exact ⟨_, .stored hu hs⟩
  | down hl _ => exact ⟨_, .merged hl.1⟩

/-- **One leap of a reading**: with unlimited attempts and a depth of at least the number of
inheritors, the reading of a merged descriptor comes to every new value where deferrals from a
prototype stop. -/
theorem mem_visits_evaluateLevels_merged {n : Nat} {g : Guard ValueId} {t t' p u : ValueId}
    {ts ps : List ValueId} {d : Descriptor} (hu : g.limits.attempts = Count.top)
    (hd : a.inheritorCount ≤ g.limits.depth) (hp : a.Passed g ts t) (hpt : p ∈ a.prototypes t)
    (hps : Route a.Defers p ps t') (hdt : a.Describes name t' d) (hn : t' ∉ t :: ts)
    (hread : ∀ h : Guard ValueId, h.limits = g.limits → a.Passed h (t :: ts) t' →
      u ∈ (a.evaluateLevels n h d).visits) :
    u ∈ (a.evaluateLevels (n + 1) g (.merged t name)).visits := by
  have hroom := Nat.le_trans (hp.depth_add_length_le hpt hps hdt.stops hn) hd
  obtain ⟨hppv, hdis⟩ := List.disjoint_cons_left.mp (hp.disjoint hps hdt.stops hn)
  obtain ⟨hpps, hpsn⟩ := List.nodup_cons.mp (nodup_of_route_defers hps hdt.stops)
  rw [evaluateLevels_merged]
  refine mem_visits_fanOut (a.balanced_contribution name n) hpt
    (fun h hc => (hc.admits_iff hu).mpr ⟨hppv, by omega⟩) (fun h hc => ?_)
  -- the prototype is described by where its deferrals stop, since none of them is denied
  have hdesc : (a.describe name (h.inside p) p).result = some d := by
    refine describeLevels_of_route ?_ hps hdt ?_ hpsn ?_ ?_
    · rw [hc.limits_inside]; exact hu
    · exact Nat.le_succ_of_le (length_le_of_route_defers hps hdt.stops)
    · rw [hc.visiting_inside]
      exact List.disjoint_cons_right.mpr ⟨hpps, hdis⟩
    · rw [hc.limits_inside, hc.depth_inside]
      exact hroom
  rcases a.contribution_cases name (a.evaluateLevels n) (h.inside p) p with
    ⟨e, i, he, hi, -, hv, -⟩ | ⟨he, -⟩
  · obtain rfl : d = e := Option.some.inj (hdesc.symm.trans he)
    rw [hv]
    refine hread i ?_ (hp.leap hpt hps hdt.stops hn (hi.visiting.trans (hc.visiting_inside p)))
    rw [hi.limits, hc.limits_inside]
  · rw [hdesc] at he
    cases he

/-- **All plain values that leaps lead to are read**, with unlimited attempts and a depth of at
least the number of inheritors. -/
theorem mem_visits_evaluateLevels_of_leaps {n : Nat} {g : Guard ValueId} {t u : ValueId}
    {ts rs : List ValueId} {d : Descriptor} {slot : Slot} (hu : g.limits.attempts = Count.top)
    (hd : a.inheritorCount ≤ g.limits.depth) (hr : Route a.Leaps t rs u) (hplain : a.IsPlain u)
    (hs : a.slot? u name = some slot) (hdt : a.Describes name t d) (hlen : rs.length ≤ n)
    (hnd : rs.Nodup) (hnew : ∀ x ∈ rs, x ∉ t :: ts) (hp : a.Passed g ts t) :
    u ∈ (a.evaluateLevels n g d).visits := by
  induction hr generalizing n g ts d with
  | here u =>
      obtain ⟨-, rfl⟩ := (describes_iff_of_isPlain hplain).mp hdt
      rw [evaluateLevels_stored]
      exact List.mem_singleton.mpr rfl
  | @down t t' u rs hl hr ih =>
      obtain ⟨n, rfl⟩ := Nat.exists_eq_add_of_le' (Nat.le_of_add_left_le hlen)
      obtain ⟨hb, p, hpt, ps, hps, hst⟩ := hl
      obtain ⟨-, rfl⟩ := (describes_iff_of_isInheritor hb.isInheritor).mp hdt
      obtain ⟨hrs, hnd⟩ := List.nodup_cons.mp hnd
      obtain ⟨hnt, hnew⟩ := List.forall_mem_cons.mp hnew
      obtain ⟨d', hd'⟩ := exists_describes_of_leaps hr hplain hs
      refine mem_visits_evaluateLevels_merged hu hd hp hpt hps hd' hnt fun h hl hp' => ?_
      refine ih (hl ▸ hu) (hl ▸ hd) hplain hs hd' (Nat.le_of_succ_le_succ hlen) hnd ?_ hp'
      intro x hx hmem
      rcases List.mem_cons.mp hmem with rfl | hmem
      · exact hrs hx
      · exact hnew x hx hmem

end Prototypal.Analysis
