import Mathlib.Data.Set.Card
import Prototypal.Proofs.ValueSet

/-!
# Prototypal — Proofs — SetAlgebra

What the operations on sets of values give, whichever way they are combined.

`Made xs P` says that some finite combination of the operations on arrays gives `xs`, and that `P`
holds of the values that were put in and not sifted out on the way.  Arrays carry no promise of
order, so that each operation has to keep it (`Made.ascending`), and `P` is read off the combination
alone (`Made.mem_iff`).

* `made_canonical`: whatever is made is strictly ascending, and its equality, search, size,
  inclusion, insertion and choice are those of the sets of values put in.
* `union_laws`: the laws of union and of the union of many sets, as equations between arrays.
-/

namespace Prototypal

namespace ValueSet

variable {s t : ValueSet}

theorem size_eq_length (s : ValueSet) : s.size = s.toList.length := Array.length_toList.symm

theorem size_le_of_subset (h : s ⊆ t) : s.size ≤ t.size := by
  rw [size_eq_length, size_eq_length]
  exact (s.ascending.nodup.subperm fun v hv => h hv).length_le

/-- The shortcut by size is sound: a larger set is no subset. -/
theorem isSubset_iff : s.isSubset t = true ↔ s ⊆ t := by
  rw [isSubset, Bool.and_eq_true, decide_eq_true_eq, Array.all_eq_true']
  constructor
  · rintro ⟨-, hall⟩ v hv
    exact contains_iff.mp (hall v (mem_elems.mpr hv))
  · intro h
    refine ⟨size_le_of_subset h, fun v hv => ?_⟩
    exact contains_iff.mpr (h (mem_elems.mp hv))

theorem size_eq_ncard {P : ValueId → Prop} (h : ∀ v, v ∈ s ↔ P v) :
    s.size = Set.ncard {v | P v} := by
  have hset : {v | P v} = (s.toList.toFinset : Set ValueId) := by
    ext v
    rw [Set.mem_ofPred_eq, ← h v, Finset.mem_coe, List.mem_toFinset, mem_def]
  have hnodup : s.toList.Nodup := s.ascending.nodup
  rw [hset, Set.ncard_coe_finset, List.toFinset_card_of_nodup hnodup, size_eq_length]

end ValueSet

/-! ### Combinations of operations -/

/-- `xs` is what a finite combination of the operations gives, and `P` tells which values the
combination puts in. -/
inductive Made : Array ValueId → (ValueId → Prop) → Prop where
  | empty : Made #[] fun _ => False
  | single (v : ValueId) : Made #[v] fun w => w = v
  | collect (vs : List ValueId) : Made (ValueId.arrange vs) fun w => w ∈ vs
  | union {xs ys : Array ValueId} {P Q : ValueId → Prop} (hx : Made xs P) (hy : Made ys Q) :
      Made (ValueId.unite xs ys) fun w => P w ∨ Q w
  | unionAll {parts : List (Array ValueId × (ValueId → Prop))} (h : ∀ p ∈ parts, Made p.1 p.2) :
      Made ((parts.map Prod.fst).foldl ValueId.unite #[]) fun w => ∃ p ∈ parts, p.2 w
  | insert {xs : Array ValueId} {P : ValueId → Prop} (h : Made xs P) (v : ValueId) :
      Made (ValueId.place xs v) fun w => P w ∨ w = v
  | filter {xs : Array ValueId} {P : ValueId → Prop} (h : Made xs P) (keep : ValueId → Bool) :
      Made (ValueId.sift xs keep) fun w => P w ∧ keep w = true

namespace ValueId

theorem pairwise_foldl_unite (parts : List (Array ValueId)) {xs : Array ValueId}
    (hx : xs.toList.Pairwise (· < ·)) (h : ∀ ys ∈ parts, ys.toList.Pairwise (· < ·)) :
    (parts.foldl unite xs).toList.Pairwise (· < ·) := by
  induction parts generalizing xs with
  | nil => exact hx
  | cons ys parts ih =>
      refine ih (pairwise_unite hx (h ys List.mem_cons_self)) fun zs hz => ?_
      exact h zs (List.mem_cons_of_mem ys hz)

theorem mem_foldl_unite {v : ValueId} (parts : List (Array ValueId)) (xs : Array ValueId) :
    v ∈ parts.foldl unite xs ↔ v ∈ xs ∨ ∃ ys ∈ parts, v ∈ ys := by
  induction parts generalizing xs with
  | nil => simp
  | cons ys parts ih =>
      rw [List.foldl_cons, ih, mem_unite, or_assoc, List.exists_mem_cons_iff]

end ValueId

namespace Made

variable {xs ys : Array ValueId} {P Q : ValueId → Prop}

theorem ascending (h : Made xs P) : xs.toList.Pairwise (· < ·) := by
  induction h with
  | empty => exact .nil
  | single v => exact List.pairwise_singleton _ v
  | collect vs => exact ValueId.pairwise_arrange vs
  | union _ _ ihx ihy => exact ValueId.pairwise_unite ihx ihy
  | unionAll _ ih =>
      refine ValueId.pairwise_foldl_unite _ .nil fun ys hy => ?_
      obtain ⟨p, hp, rfl⟩ := List.mem_map.mp hy
      exact ih p hp
  | insert _ v ih => exact ValueId.pairwise_place v ih
  | filter _ keep ih => exact ValueId.pairwise_sift keep ih

theorem mem_iff (h : Made xs P) (v : ValueId) : v ∈ xs ↔ P v := by
  induction h with
  | empty => simp
  | single w => simp
  | collect vs => exact ValueId.mem_arrange
  | union _ _ ihx ihy => rw [ValueId.mem_unite, ihx, ihy]
  | unionAll _ ih =>
      rw [ValueId.mem_foldl_unite]
      simp only [Array.not_mem_empty, false_or, List.mem_map, exists_exists_and_eq_and]
      exact exists_congr fun p => and_congr_right fun hp => ih p hp
  | insert h w ih => rw [ValueId.mem_place h.ascending, ih]
  | filter _ keep ih => rw [ValueId.mem_sift, ih]

/-- What is made is a set. -/
def toSet (h : Made xs P) : ValueSet := ⟨xs, h.ascending⟩

theorem mem_toSet (h : Made xs P) {v : ValueId} : v ∈ h.toSet ↔ P v :=
  ValueSet.mem_elems.symm.trans (h.mem_iff v)

end Made

/-- **One representation per set.**  Whatever is made by the operations is strictly ascending.  So
two such sets are equal just when the same values were put in, the binary search finds just what was
put in, the size is the number of distinct values put in, the test of inclusion, its shortcut by
size included, tells inclusion, insertion adds just the value inserted, and choice keeps just the
values chosen. -/
theorem made_canonical {xs ys : Array ValueId} {P Q : ValueId → Prop} (hx : Made xs P)
    (hy : Made ys Q) :
    xs.toList.Pairwise (· < ·) ∧
    (hx.toSet = hy.toSet ↔ ∀ v, P v ↔ Q v) ∧
    (∀ v, hx.toSet.contains v = true ↔ P v) ∧
    hx.toSet.size = Set.ncard {v | P v} ∧
    (hx.toSet.isSubset hy.toSet = true ↔ ∀ v, P v → Q v) ∧
    (∀ v w, w ∈ hx.toSet.insert v ↔ P w ∨ w = v) ∧
    ∀ keep v, v ∈ hx.toSet.filter keep ↔ P v ∧ keep v = true := by
  refine ⟨hx.ascending, ?_, fun v => ?_, ?_, ?_, fun v w => ?_, fun keep v => ?_⟩
  · rw [ValueSet.ext_iff]
    exact forall_congr' fun v => iff_congr hx.mem_toSet hy.mem_toSet
  · rw [ValueSet.contains_iff, hx.mem_toSet]
  · exact ValueSet.size_eq_ncard fun v => hx.mem_toSet
  · rw [ValueSet.isSubset_iff]
    exact forall_congr' fun v => imp_congr hx.mem_toSet hy.mem_toSet
  · rw [ValueSet.mem_insert, hx.mem_toSet]
  · rw [ValueSet.mem_filter, hx.mem_toSet]

/-- Values listed out of order and twice, and one more. -/
theorem Made.pieced : Made (ValueId.unite (ValueId.arrange [⟨9⟩, ⟨1⟩, ⟨9⟩, ⟨4⟩]) #[⟨5⟩])
    fun w => w ∈ [⟨9⟩, ⟨1⟩, ⟨9⟩, ⟨4⟩] ∨ w = ⟨5⟩ :=
  .union (.collect _) (.single _)

/-- The same values, after one too many was sifted out. -/
theorem Made.sifted :
    Made (ValueId.place (ValueId.sift (ValueId.arrange [⟨4⟩, ⟨2⟩, ⟨1⟩, ⟨9⟩]) (·.index != 2)) ⟨5⟩)
      fun w => (w ∈ [⟨4⟩, ⟨2⟩, ⟨1⟩, ⟨9⟩] ∧ (w.index != 2) = true) ∨ w = ⟨5⟩ :=
  .insert (.filter (.collect _) _) _

theorem made_canonical_pieced_sifted :
    Made.pieced.toSet = Made.sifted.toSet ∧
    (∀ v, Made.pieced.toSet.contains v = true ↔ v ∈ [⟨9⟩, ⟨1⟩, ⟨9⟩, ⟨4⟩] ∨ v = ⟨5⟩) ∧
    Made.pieced.toSet.toList = [⟨1⟩, ⟨4⟩, ⟨5⟩, ⟨9⟩] := by
  obtain ⟨-, heq, hcontains, -⟩ := made_canonical Made.pieced Made.sifted
  refine ⟨heq.mpr fun v => or_congr_left ⟨?_, fun h => ?_⟩, hcontains, by decide +kernel⟩
  · revert v
    decide
  · revert h
    rw [and_imp]
    revert v
    decide

/-! ### Union -/

namespace ValueSet

theorem union_comm (s t : ValueSet) : s ∪ t = t ∪ s := by
  ext v
  rw [mem_union, mem_union, or_comm]

theorem union_assoc (s t u : ValueSet) : s ∪ t ∪ u = s ∪ (t ∪ u) := by
  ext v
  simp only [mem_union, or_assoc]

/-- The shortcuts give what the merge would. -/
theorem toList_union (s t : ValueSet) : (s ∪ t).toList = ValueId.merge s.toList t.toList := by
  have hmerged := ValueId.pairwise_merge _ _ s.ascending t.ascending
  refine (s ∪ t).ascending.eq_of_mem_iff hmerged fun v => ?_
  rw [ValueId.mem_merge]
  exact mem_union

theorem size_union_eq_iff {s t : ValueSet} : (s ∪ t).size = s.size ↔ t ⊆ s := by
  constructor
  · exact subset_of_size_union
  · intro h
    rw [union_eq_left h]

theorem unionAll_congr {sets sets' : List ValueSet} (h : ∀ s, s ∈ sets ↔ s ∈ sets') :
    unionAll sets = unionAll sets' := by
  ext v
  rw [mem_unionAll, mem_unionAll]
  exact exists_congr fun s => and_congr_left fun _ => h s

theorem unionAll_flatten (groups : List (List ValueSet)) :
    unionAll (groups.map unionAll) = unionAll groups.flatten := by
  ext v
  simp only [mem_unionAll, List.mem_map, exists_exists_and_eq_and, List.mem_flatten]
  constructor
  · rintro ⟨sets, hg, s, hs, hv⟩
    exact ⟨s, ⟨sets, hg, hs⟩, hv⟩
  · rintro ⟨s, ⟨sets, hg, hs⟩, hv⟩
    exact ⟨sets, hg, s, hs, hv⟩

/-- **The laws of union.**  A union has the members of both sides, and is what merging them gives,
whether or not a shortcut is taken.  It is commutative, associative and idempotent, the empty set
adds nothing to it, and it is no larger than its left side just when the right one is a subset.  The
union of many sets has the members of all of them, and depends only on which sets there are, and not
on how they are grouped. -/
theorem union_laws (s t u : ValueSet) :
    (∀ v, v ∈ s ∪ t ↔ v ∈ s ∨ v ∈ t) ∧
    (s ∪ t).toList = ValueId.merge s.toList t.toList ∧
    s ∪ t = t ∪ s ∧ s ∪ t ∪ u = s ∪ (t ∪ u) ∧ s ∪ s = s ∧ s ∪ ∅ = s ∧ ∅ ∪ s = s ∧
    ((s ∪ t).size = s.size ↔ t ⊆ s) ∧
    (∀ (sets : List ValueSet) v, v ∈ unionAll sets ↔ ∃ x ∈ sets, v ∈ x) ∧
    (∀ sets sets' : List ValueSet, (∀ x, x ∈ sets ↔ x ∈ sets') → unionAll sets = unionAll sets') ∧
    ∀ groups : List (List ValueSet), unionAll (groups.map unionAll) = unionAll groups.flatten := by
  refine ⟨fun v => mem_union, toList_union s t, union_comm s t, union_assoc s t u, ?_,
    union_empty s, empty_union s, size_union_eq_iff, fun _ _ => mem_unionAll,
    fun _ _ => unionAll_congr, unionAll_flatten⟩
  exact union_eq_left fun _ => id

theorem union_laws_shuffled :
    unionAll [singleton ⟨2⟩, ofList [⟨3⟩, ⟨1⟩], singleton ⟨2⟩] =
      unionAll [ofList [⟨3⟩, ⟨1⟩], singleton ⟨2⟩] := by
  obtain ⟨-, -, -, -, -, -, -, -, -, hmany, -⟩ := union_laws ∅ ∅ ∅
  exact hmany _ _ fun x => by grind

end ValueSet

end Prototypal
