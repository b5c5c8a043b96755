import Prototypal.Proofs.Confluence
import Prototypal.Proofs.Monotonicity

/-!
# Prototypal — Proofs — Retention

What becomes of a listing of members when facts are learnt.  The values that a name may hold only
get more, and those that were alive stay alive, so that a name that is listed with values stays
listed, with at least these.  But a name that was never given a value is listed, too, and one that
holds nothing but dead values is not, if these are hidden: a name without a value can lose its place
by getting one that is dead (`members_dropped_by_facts`).

`HoldsDeadOnly` says that of a name: there are values that it may hold, and they are all dead.

* `listed_iff_within`: with unlimited attempts, a name is listed just when it is found within the
  depth allowed, unless dead values are hidden and it holds nothing else.
* `members_kept_unless_dead`: learning a fact, or any number of them, keeps a listed name listed
  with a superset of what it was listed with, but for a name that was listed with nothing and comes
  to hold dead values only while these are hidden.
-/

namespace Prototypal.Analysis

variable {a b : Analysis} {v : ValueId} {name : String}

/-- There are values that member `name` of `v` may hold, within the depth allowed, and all of them
are dead. -/
def HoldsDeadOnly (a : Analysis) (v : ValueId) (name : String) : Prop :=
  (∃ u w, a.Within a.options.limits.depth v u ∧ w ∈ a.ownTypes u name) ∧
    ∀ u w, a.Within a.options.limits.depth v u → w ∈ a.ownTypes u name → a.isAlive w = false

/-- Each name that `a` lists is listed by `b`, with a superset, just when it is not one that was
listed with nothing and now holds dead values only, while these are hidden. -/
def KeepsListings (a b : Analysis) : Prop :=
  ∀ v accessor accessor' name s, (name, s) ∈ (a.members v accessor).answer.entries →
    ((∃ t, (name, t) ∈ (b.members v accessor').answer.entries ∧ s ⊆ t) ↔
      ¬ (b.options.hidesDead = true ∧ s = ∅ ∧ b.HoldsDeadOnly v name))

/-! ### What is listed -/

section

variable (hu : a.options.limits.attempts = Count.top)

include hu

theorem mem_visited_iff {u : ValueId} :
    u ∈ a.visited v ↔ a.Within a.options.limits.depth v u :=
  mem_visits_explore_iff rfl hu

theorem isUnionOver_visitedUnion (v : ValueId) (name : String) :
    a.IsUnionOver name (a.Within a.options.limits.depth v) (a.visitedUnion v name) := by
  intro w
  simp only [visitedUnion, ValueSet.mem_unionAll, List.mem_map, mem_visited_iff hu]
  constructor
  · rintro ⟨_, ⟨u, hw, rfl⟩, hm⟩
    exact ⟨u, hw, hm⟩
  · rintro ⟨u, hw, hm⟩
    exact ⟨_, ⟨u, hw, rfl⟩, hm⟩

/-- A name comes to nothing when it is shown just when dead values are hidden and it holds no
other. -/
theorem holdsDeadOnly_iff :
    a.options.hidesDead = true ∧ a.HoldsDeadOnly v name ↔
      a.visitedUnion v name ≠ ∅ ∧ a.shown (a.visitedUnion v name) = ∅ := by
  have hunion := isUnionOver_visitedUnion hu v name
  constructor
  · rintro ⟨hh, ⟨u, w, hwithin, hw⟩, hdead⟩
    refine ⟨fun he => ?_, ValueSet.eq_empty_iff.mpr fun x hx => ?_⟩
    · exact ValueSet.eq_empty_iff.mp he w ((hunion w).mpr ⟨u, hwithin, hw⟩)
    · obtain ⟨hx, hlive⟩ := mem_shown.mp hx
      obtain ⟨y, hwithin', hy⟩ := (hunion x).mp hx
      have hd := hdead y x hwithin' hy
      rw [hlive hh] at hd
      cases hd
  · rintro ⟨hne, hnone⟩
    have hnot : ∀ x ∈ a.visitedUnion v name,
        ¬ (a.options.hidesDead = true → a.isAlive x = true) := fun x hx hlive =>
      ValueSet.eq_empty_iff.mp hnone x (mem_shown.mpr ⟨hx, hlive⟩)
    obtain ⟨w, hw⟩ := not_forall_not.mp fun h => hne (ValueSet.eq_empty_iff.mpr h)
    obtain ⟨u, hwithin, hwu⟩ := (hunion w).mp hw
    refine ⟨(Classical.not_imp.mp (hnot w hw)).1, ⟨u, w, hwithin, hwu⟩, fun y x hwithin' hx => ?_⟩
    exact Bool.eq_false_iff.mpr (Classical.not_imp.mp (hnot x ((hunion x).mpr ⟨y, hwithin', hx⟩))).2

/-- **What is listed**, with unlimited attempts. -/
theorem listed_iff_within {accessor : UnitId} {s : ValueSet} :
    (name, s) ∈ (a.members v accessor).answer.entries ↔
      s = a.shown (a.visitedUnion v name) ∧
        (∃ u, a.Within a.options.limits.depth v u ∧ (a.slot? u name).isSome) ∧
        ¬ (a.options.hidesDead = true ∧ a.HoldsDeadOnly v name) := by
  rw [Roster.mem_entries_iff, get?_members_eq_some_iff, holdsDeadOnly_iff hu, not_and_or, not_not]
  simp only [mem_visited_iff hu]

end

/-! ### What facts do to it -/

/-- **Growth keeps listings**, if the same units stand. -/
theorem Grows.keepsListings (h : a.Grows b) (hunits : a.units = b.units)
    (hu : a.options.limits.attempts = Count.top) : a.KeepsListings b := by
  have hu' : b.options.limits.attempts = Count.top := by rw [h.options, hu]
  intro v accessor accessor' name s hs
  obtain ⟨rfl, ⟨u, hwithin, hslot⟩, -⟩ := (listed_iff_within hu).mp hs
  -- what was shown is shown, and the name is still found
  have hsub : a.shown (a.visitedUnion v name) ⊆ b.shown (b.visitedUnion v name) := by
    rw [← lookup_eq_shown_visitedUnion a v name none, ← lookup_eq_shown_visitedUnion b v name none]
    refine h.lookup_subset (fun u hu => ?_) hu v name none none
    rwa [isStanding, unit?, ← hunits]
  have hfound : ∃ u, b.Within b.options.limits.depth v u ∧ (b.slot? u name).isSome := by
    obtain ⟨slot, hslot⟩ := Option.isSome_iff_exists.mp hslot
    obtain ⟨slot', hslot', -⟩ := h.slot? hslot
    exact ⟨u, h.options ▸ h.within hwithin, by rw [hslot']; rfl⟩
  constructor
  · rintro ⟨t, ht, -⟩ ⟨hh, -, hdead⟩
    exact ((listed_iff_within hu').mp ht).2.2 ⟨hh, hdead⟩
  · intro hnot
    refine ⟨_, (listed_iff_within hu').mpr ⟨rfl, hfound, ?_⟩, hsub⟩
    rintro ⟨hh, hdead⟩
    refine hnot ⟨hh, ?_, hdead⟩
    rw [((holdsDeadOnly_iff hu').mp ⟨hh, hdead⟩).2] at hsub
    exact ValueSet.eq_empty_iff.mpr fun w hw => ValueSet.not_mem_empty w (hsub hw)

/-- **Facts keep what is listed, but for names that only the dead hold.**  With unlimited attempts,
whatever the depth allowed, and whether dead values are hidden or not: after any fact, about any
value, and after any list of facts, each name that was listed for a value is listed with a superset
of what it was listed with, just when it is not a name that was listed with nothing, and for which
there are only dead values now, while these are hidden. -/
theorem members_kept_unless_dead (a : Analysis) (hu : a.options.limits.attempts = Count.top) :
    (∀ f : Fact, a.KeepsListings (a.step f.command).state) ∧
    (∀ fs : List Fact, a.KeepsListings (a.learn fs).state) :=
  ⟨fun f => (a.step_grows f.command).keepsListings (a.below_tell f).units hu,
    fun fs => (a.run_grows _).keepsListings (a.below_learn fs).units hu⟩

/-- Two objects, of which the first has a member that holds nothing and one that holds a built-in
value, and the second has one of the first name that holds a dead value; and an inheritor of the
first. -/
def emptyHanded : Analysis :=
  ((fresh {}).run
    [.addUnit "a.js", .createObject .builtin, .createNull ⟨1⟩, .createObject .builtin,
      .createInheritor .builtin (.singleton ⟨1⟩), .assign ⟨1⟩ "x" ∅,
      .assign ⟨1⟩ "y" (.singleton ⟨0⟩), .assign ⟨3⟩ "x" (.singleton ⟨2⟩), .detachUnit ⟨1⟩]).state

theorem members_kept_unless_dead_emptyHanded :
    emptyHanded.options.limits.attempts = Count.top ∧
    ("y", .singleton ⟨0⟩) ∈ (emptyHanded.members ⟨4⟩ .builtin).answer.entries ∧
    ∃ t, ("y", t) ∈ ((emptyHanded.step
        (Fact.holds ⟨4⟩ "y" (.singleton ⟨2⟩)).command).state.members ⟨4⟩ .builtin).answer.entries ∧
      .singleton ⟨0⟩ ⊆ t := by
  have hlisted : ("y", .singleton ⟨0⟩) ∈ (emptyHanded.members ⟨4⟩ .builtin).answer.entries := by
    decide +kernel
  refine ⟨rfl, hlisted, ?_⟩
  have hkept := (members_kept_unless_dead emptyHanded rfl).1 (.holds ⟨4⟩ "y" (.singleton ⟨2⟩))
  refine (hkept ⟨4⟩ _ _ "y" _ hlisted).mpr ?_
  rintro ⟨-, he, -⟩
  exact absurd he (by decide)

/-- **A fact may cost a name its place**: under default options, a name listed with nothing is not
listed after a dead value was assigned to it, nor after a prototype was added in which it holds
one. -/
theorem members_dropped_by_facts :
    emptyHanded.options = {} ∧
    ("x", ∅) ∈ (emptyHanded.members ⟨1⟩ .builtin).answer.entries ∧
    "x" ∉ ((emptyHanded.step (.assign ⟨1⟩ "x" (.singleton ⟨2⟩))).state.members ⟨1⟩
      .builtin).answer.keys ∧
    ("x", ∅) ∈ (emptyHanded.members ⟨4⟩ .builtin).answer.entries ∧
    "x" ∉ ((emptyHanded.step (.addPrototypes ⟨4⟩ (.singleton ⟨3⟩))).state.members ⟨4⟩
      .builtin).answer.keys := by
  decide +kernel

end Prototypal.Analysis
