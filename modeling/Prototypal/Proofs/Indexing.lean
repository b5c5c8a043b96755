import Prototypal.Proofs.Constants
import Prototypal.Proofs.Footprint
import Prototypal.Proofs.Growth

/-!
# Prototypal — Proofs — Indexing

Indexing by constants is looking up the members that they name.

The names that an index stands for are explored under one guard, which each lookup has of its own.
A guard that goes on from another one has the same keys and limits, and only the count of attempts
is further (`Guard.Continues`); where attempts are unlimited the count denies nothing, so the same
values are visited, and the same is found and recorded (`result_explore_of_continues`,
`lookup_state_eq`).  A lookup in between records sites at most, which does not bear on the next.

* `readNames_state`: reading several names leaves the state that the lookups leave one after the
  other.
* `index_eq_lookups`: indexing an object-like value answers the union of what the lookups answer,
  and leaves the state that they leave.
-/

namespace Prototypal.Analysis

variable {a : Analysis} {g : Guard ValueId} {name : String}

/-! ### One name -/

theorem continues_explore (hg : a.guard.Continues g) (v : ValueId) (name : String) :
    a.guard.Continues (a.explore (a.ownTypes · name) (· ∪ ·) g v).guard :=
  hg.trans (balanced_exploreLevels a.levels g v)

/-- The values visited do not depend on the attempts made before. -/
theorem mem_visits_of_continues {α : Type} {own : ValueId → α} {merge : α → α → α}
    (hu : a.options.limits.attempts = Count.top) (hg : a.guard.Continues g) {v u : ValueId} :
    u ∈ (a.explore own merge g v).visits ↔ a.Within a.options.limits.depth v u := by
  have hl : g.limits = a.options.limits := hg.limits
  rw [mem_visits_explore_iff hg.visiting (hl ▸ hu), hl]

/-- Nor does what a name may hold. -/
theorem result_explore_of_continues (hu : a.options.limits.attempts = Count.top)
    (hg : a.guard.Continues g) (v : ValueId) (name : String) :
    (a.explore (a.ownTypes · name) (· ∪ ·) g v).result =
      (a.explore (a.ownTypes · name) (· ∪ ·) a.guard v).result := by
  have hunion := (a.isUnionOver_explore name g v).congr fun _ => mem_visits_of_continues hu hg
  exact hunion.unique (isUnionOver_within hu v name)

/-- What the steps of a reading write depends on the values that they visit only. -/
theorem performAll_state_congr {site : Option Site} {steps steps' : List Step}
    (h : ∀ u, u ∈ steps.filterMap Step.visited? ↔ u ∈ steps'.filterMap Step.visited?) :
    (a.performAll name site steps).1 = (a.performAll name site steps').1 := by
  by_cases hn : ∀ s ∈ site, a.unit? s.unit = none
  · rw [performAll_eq_self hn, performAll_eq_self hn]
  · obtain ⟨s, hs⟩ := not_forall.mp hn
    obtain ⟨rfl, hunit⟩ := Classical.not_imp.mp hs
    obtain ⟨unit, hunit⟩ := Option.ne_none_iff_exists'.mp hunit
    rw [performAll_eq_noteUsages hunit, performAll_eq_noteUsages hunit, noteUsages_congr h]

/-- The state that a lookup leaves does not depend on the attempts made before. -/
theorem lookup_state_eq (hu : a.options.limits.attempts = Count.top) (hg : a.guard.Continues g)
    (v : ValueId) (name : String) (site : Option Site) :
    (a.lookup v name site).state =
      (a.performAll name (a.recordedSite site)
        (a.explore (a.ownTypes · name) (· ∪ ·) g v).trace).1 := by
  rw [lookup_state]
  refine performAll_state_congr fun u => ?_
  exact (mem_visits_of_continues hu (.refl _)).trans (mem_visits_of_continues hu hg).symm

theorem options_lookup (a : Analysis) (v : ValueId) (name : String) (site : Option Site) :
    (a.lookup v name site).state.options = a.options :=
  (a.step_grows (.lookup v name site)).options

theorem alike_lookup (a : Analysis) (v : ValueId) (name : String) (site : Option Site) :
    a.Alike (a.lookup v name site).state := by
  rw [lookup_state]
  exact a.alike_performAll name _ _

/-! ### Several names -/

theorem readNames_cons_state (a : Analysis) (v : ValueId) (site : Option Site) (g : Guard ValueId)
    (name : String) (names : List String) :
    (a.readNames v site g (name :: names)).state =
      ((a.performAll name site (a.explore (a.ownTypes · name) (· ∪ ·) g v).trace).1.readNames v site
        (a.explore (a.ownTypes · name) (· ∪ ·) g v).guard names).state := rfl

/-- **Reading several names leaves what the lookups leave.** -/
theorem readNames_state (hu : a.options.limits.attempts = Count.top) (hg : a.guard.Continues g)
    (v : ValueId) (site : Option Site) (names : List String) :
    (a.readNames v (a.recordedSite site) g names).state =
      (a.run (names.map (.lookup v · site))).state := by
  induction names generalizing a g with
  | nil => rfl
  | cons name names ih =>
      have hstate := lookup_state_eq hu hg v name site
      have hopt := a.options_lookup v name site
      -- the guard goes on, and the state after the first name has the same options
      have hnext : (a.lookup v name site).state.guard.Continues
          (a.explore (a.ownTypes · name) (· ∪ ·) g v).guard := by
        rw [guard, hopt]
        exact continues_explore hg v name
      have hrest := ih (a := (a.lookup v name site).state) (by rw [hopt]; exact hu) hnext
      rw [recordedSite, hopt, ← recordedSite] at hrest
      rw [readNames_cons_state, ← hstate, hrest]
      rfl

/-- Lookups one after the other answer what each would answer at first. -/
theorem run_lookups_answer (a : Analysis) (v : ValueId) (site : Option Site)
    (names : List String) :
    (a.run (names.map (.lookup v · site))).answer =
      names.map fun name => .values (a.lookup v name site).answer := by
  induction names generalizing a with
  | nil => rfl
  | cons name names ih =>
      have hopt := a.options_lookup v name site
      have hrest := ih (a.lookup v name site).state
      have heq : ∀ name', ((a.lookup v name site).state.lookup v name' site).answer =
          (a.lookup v name' site).answer := fun name' =>
        ((a.alike_lookup v name site).lookup (by rw [hopt]) v name' site site).symm
      simp only [heq] at hrest
      show Answer.values _ :: _ = _
      rw [List.map_cons]
      exact congrArg _ hrest

/-- What several names may hold is what some of them may hold. -/
theorem mem_readAll_iff (hu : a.options.limits.attempts = Count.top) (hg : a.guard.Continues g)
    {v w : ValueId} {names : List String} :
    w ∈ (a.readAll v g names).result ↔
      ∃ name ∈ names, w ∈ (a.explore (a.ownTypes · name) (· ∪ ·) a.guard v).result := by
  induction names generalizing g with
  | nil => simp [readAll]
  | cons name names ih =>
      rw [readAll_cons, ValueSet.mem_union, ih (continues_explore hg v name),
        result_explore_of_continues hu hg, List.exists_mem_cons_iff]

/-! ### Indexing -/

/-- The lookups that indexing stands for: of the members that the indices name, in ascending order
of the indices. -/
def indexLookups (a : Analysis) (v : ValueId) (is : ValueSet) (site : Option Site) : List Command :=
  (is.toList.filterMap a.indexName?).map (.lookup v · site)

/-- **Indexing is looking up by constants.**  Where attempts are unlimited, whatever the depth:
indexing an object-like value answers the union of what looking up the members answers that the
indices name, and leaves the state that these lookups leave one after the other, in ascending order
of the indices, where each answers what it would answer at first.  What an index names is its text,
or the numeral of its exact value if that is a natural number below `2 ^ 32`, and all other indices
name nothing. -/
theorem index_eq_lookups (a : Analysis) (hu : a.options.limits.attempts = Count.top) {v : ValueId}
    (hv : a.HasMembers v) (is : ValueSet) (site : Option Site) :
    (∀ i name, a.indexName? i = some name ↔ a.Names i name) ∧
    (a.index v is site).answer =
      .unionAll ((is.toList.filterMap a.indexName?).map fun name => (a.lookup v name site).answer) ∧
    (a.run (a.indexLookups v is site)).answer =
      (is.toList.filterMap a.indexName?).map (fun name => .values (a.lookup v name site).answer) ∧
    (a.index v is site).state = (a.run (a.indexLookups v is site)).state := by
  refine ⟨fun _ _ => indexName?_eq_some_iff, ?_, run_lookups_answer a v site _, ?_⟩
  · rw [index_of_hasMembers is site hv, shown_readNames_answer]
    ext w
    rw [mem_shown, mem_readAll_iff hu (.refl _), ValueSet.mem_unionAll]
    simp only [List.mem_map, exists_exists_and_eq_and, lookup_answer, mem_shown]
    constructor
    · rintro ⟨⟨name, hn, hw⟩, hl⟩
      exact ⟨name, hn, hw, hl⟩
    · rintro ⟨name, hn, hw, hl⟩
      exact ⟨⟨name, hn, hw⟩, hl⟩
  · rw [index_of_hasMembers is site hv]
    exact readNames_state hu (.refl _) v site _

/-- An object, an inheritor of it, and constants: the text `5` and the numbers five, negative zero,
none, `2 ^ 32` and a half. -/
def constantIndices : Analysis :=
  ((fresh { limits := { depth := 1 } }).run
    [.addUnit "a.js", .createObject ⟨1⟩, .createInheritor ⟨1⟩ (.singleton ⟨1⟩),
      .createText ⟨1⟩ "5", .createNumber ⟨1⟩ ⟨0x4014000000000000⟩,
      .createNumber ⟨1⟩ ⟨0x8000000000000000⟩, .createNumber ⟨1⟩ ⟨0x7FF8000000000000⟩,
      .createNumber ⟨1⟩ ⟨0x41F0000000000000⟩, .createNumber ⟨1⟩ ⟨0x3FE0000000000000⟩,
      .assign ⟨1⟩ "5" (.singleton ⟨3⟩), .assign ⟨2⟩ "0" (.singleton ⟨4⟩),
      .assign ⟨1⟩ "4294967296" (.singleton ⟨0⟩)]).state

/-- All constants of `constantIndices`, and an identity that stands for no value. -/
def sundryIndices : ValueSet := .ofList [⟨3⟩, ⟨4⟩, ⟨5⟩, ⟨6⟩, ⟨7⟩, ⟨8⟩, ⟨99⟩]

theorem index_eq_lookups_constantIndices :
    constantIndices.options.limits.attempts = Count.top ∧ constantIndices.HasMembers ⟨2⟩ ∧
    constantIndices.indexLookups ⟨2⟩ sundryIndices (some ⟨⟨1⟩, ⟨7⟩⟩) =
      [.lookup ⟨2⟩ "5" (some ⟨⟨1⟩, ⟨7⟩⟩), .lookup ⟨2⟩ "5" (some ⟨⟨1⟩, ⟨7⟩⟩),
        .lookup ⟨2⟩ "0" (some ⟨⟨1⟩, ⟨7⟩⟩)] ∧
    (constantIndices.index ⟨2⟩ sundryIndices (some ⟨⟨1⟩, ⟨7⟩⟩)).answer = .ofList [⟨3⟩, ⟨4⟩] ∧
    (constantIndices.index ⟨2⟩ sundryIndices (some ⟨⟨1⟩, ⟨7⟩⟩)).state =
      (constantIndices.run
        (constantIndices.indexLookups ⟨2⟩ sundryIndices (some ⟨⟨1⟩, ⟨7⟩⟩))).state := by
  have hu : constantIndices.options.limits.attempts = Count.top := by decide +kernel
  have hv : constantIndices.HasMembers ⟨2⟩ := by decide +kernel
  obtain ⟨-, -, -, hstate⟩ :=
    index_eq_lookups constantIndices hu hv sundryIndices (some ⟨⟨1⟩, ⟨7⟩⟩)
  exact ⟨hu, hv, by decide +kernel, by decide +kernel, hstate⟩

end Prototypal.Analysis
