import Mathlib.Data.List.Perm.Subperm
import Mathlib.Data.List.Sort
import Prototypal.Value.Set

/-!
# Prototypal — Proofs — ValueSet

A set of values is determined by its members (`ValueSet.ext`): its representation, the ascending
array, is the only one.  So an equation between sets is proved member by member.  Inclusion is
stated on members too (`s ⊆ t`).
-/

namespace Prototypal.ValueSet

instance : Std.Irrefl (α := ValueId) (· < ·) := ⟨ValueId.lt_irrefl⟩

instance : Std.Antisymm (α := ValueId) (· < ·) :=
  ⟨fun _ _ h h' => absurd (ValueId.lt_trans h h') (ValueId.lt_irrefl _)⟩

instance : HasSubset ValueSet := ⟨fun s t => ∀ ⦃v⦄, v ∈ s → v ∈ t⟩

/-- **One representation per set**: sets with the same members are equal. -/
@[ext] theorem ext {s t : ValueSet} (h : ∀ v, v ∈ s ↔ v ∈ t) : s = t := by
  have hl : s.elems.toList = t.elems.toList := s.ascending.eq_of_mem_iff t.ascending h
  obtain ⟨⟨xs⟩, hs⟩ := s
  obtain ⟨⟨ys⟩, ht⟩ := t
  cases hl
  rfl

theorem Subset.antisymm {s t : ValueSet} (h : s ⊆ t) (h' : t ⊆ s) : s = t :=
  ext fun _ => ⟨fun hv => h hv, fun hv => h' hv⟩

theorem eq_empty_iff {s : ValueSet} : s = ∅ ↔ ∀ v, v ∉ s := by
  constructor
  · rintro rfl v
    exact not_mem_empty v
  · intro h
    ext v
    simp [h v]

theorem isEmpty_iff {s : ValueSet} : s.isEmpty = true ↔ s = ∅ := by
  rw [eq_empty_iff, isEmpty, Array.isEmpty_iff]
  constructor
  · intro h v hv
    simp [mem_def, toList, h] at hv
  · intro h
    refine Array.eq_empty_iff_forall_not_mem.mpr fun v hv => h v ?_
    exact Array.mem_toList_iff.mpr hv

@[simp] theorem union_empty (s : ValueSet) : s ∪ ∅ = s := by ext v; simp

@[simp] theorem empty_union (s : ValueSet) : ∅ ∪ s = s := by ext v; simp

theorem union_eq_left {s t : ValueSet} (h : t ⊆ s) : s ∪ t = s := by
  ext v
  rw [mem_union]
  exact or_iff_left_of_imp fun hv => h hv

/-- A union of the same size has gained no member. -/
theorem subset_of_size_union {s t : ValueSet} (h : (s ∪ t).size = s.size) : t ⊆ s := by
  have hn : s.toList.Nodup := s.ascending.nodup
  have hsub : s.toList ⊆ (s ∪ t).toList := fun v hv => mem_union.mpr (.inl hv)
  have hlen : (s ∪ t).toList.length ≤ s.toList.length := by
    rw [toList, toList, Array.length_toList, Array.length_toList]
    exact Nat.le_of_eq h
  have hperm := (hn.subperm hsub).perm_of_length_le hlen
  exact fun v hv => hperm.mem_iff.mpr (mem_union.mpr (.inr hv))

theorem mem_foldl_union {v : ValueId} (sets : List ValueSet) (s : ValueSet) :
    v ∈ sets.foldl union s ↔ v ∈ s ∨ ∃ t ∈ sets, v ∈ t := by
  induction sets generalizing s with
  | nil => simp
  | cons t sets ih =>
      rw [List.foldl_cons, ih, show s.union t = s ∪ t from rfl, mem_union]
      simp [or_assoc]

theorem mem_unionAll {v : ValueId} {sets : List ValueSet} :
    v ∈ unionAll sets ↔ ∃ s ∈ sets, v ∈ s := by
  rw [unionAll, mem_foldl_union]
  simp

end Prototypal.ValueSet
