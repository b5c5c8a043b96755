import Mathlib.Data.List.Nodup
import Mathlib.Data.List.Perm.Subperm
import Prototypal.Analysis.Basic
import Prototypal.Proofs.Route

/-!
# Prototypal — Proofs — Inheritance

The inheritance graph of an analysis: `a.Draws v p` when `v` is an inheritor with `p` in its
prototype set.  The graph is whatever the facts make it: it may have cycles, values may draw on
themselves, and identities that stand for no value may be prototypes.

`a.Reaches v u` says that some route of draws leads from `v` to `u`, and `a.Within d v u` that one
of at most `d` draws does, that is, that the distance from `v` to `u` is at most `d`.  A route
without detours goes on from inheritors only, so it is no longer than the number of inheritors, and
what is reached at all is within that distance (`Reaches.within`).
-/

namespace Prototypal.Analysis

variable {a : Analysis}

/-- `v` is an inheritor, and `p` is in its prototype set. -/
def Draws (a : Analysis) (v p : ValueId) : Prop :=
  ∃ members prototypes, a.kind? v = some (.inheritor members prototypes) ∧ p ∈ prototypes

/-- `u` is at a distance of at most `d` from `v`. -/
def Within (a : Analysis) (d : Nat) (v u : ValueId) : Prop :=
  ∃ ps, Route a.Draws v ps u ∧ ps.length ≤ d

/-- `u` is at some distance from `v`. -/
def Reaches (a : Analysis) (v u : ValueId) : Prop := ∃ ps, Route a.Draws v ps u

/-- `v` is an inheritor. -/
def IsInheritor (a : Analysis) (v : ValueId) : Prop :=
  ∃ members prototypes, a.kind? v = some (.inheritor members prototypes)

/-- `v` is an object or a function. -/
def IsPlain (a : Analysis) (v : ValueId) : Prop :=
  ∃ members, a.kind? v = some (.object members) ∨
    ∃ name args, a.kind? v = some (.function name members args)

/-! ### Draws -/

theorem mem_prototypes {v p : ValueId} : p ∈ a.prototypes v ↔ a.Draws v p := by
  unfold prototypes Draws
  cases a.kind? v with
  | none => simp
  | some k => cases k <;> simp [Kind.prototypes?, ValueSet.mem_def]

theorem Draws.isInheritor {v p : ValueId} (h : a.Draws v p) : a.IsInheritor v := by
  obtain ⟨members, prototypes, hk, -⟩ := h
  exact ⟨members, prototypes, hk⟩

theorem prototypes_eq_nil_of_not_isInheritor {v : ValueId} (h : ¬ a.IsInheritor v) :
    a.prototypes v = [] :=
  List.eq_nil_iff_forall_not_mem.mpr fun _ hp => h (mem_prototypes.mp hp).isInheritor

/-! ### Plain values -/

/-- A plain value draws on nothing. -/
theorem IsPlain.not_isInheritor {v : ValueId} (h : a.IsPlain v) : ¬ a.IsInheritor v := by
  rintro ⟨members, prototypes, hk⟩
  obtain ⟨ms, ho | ⟨name, args, hf⟩⟩ := h
  · rw [hk] at ho; cases ho
  · rw [hk] at hf; cases hf

theorem slot?_of_kind? {v : ValueId} {k : Kind} (h : a.kind? v = some k) (name : String) :
    a.slot? v name = k.members?.bind (·.get? name) := by
  obtain ⟨x, hx, rfl⟩ := Option.map_eq_some_iff.mp h
  rw [slot?, hx]
  rfl

/-- What has a member of its own is a plain value or an inheritor. -/
theorem isPlain_or_isInheritor_of_slot? {v : ValueId} {name : String} {slot : Slot}
    (h : a.slot? v name = some slot) : a.IsPlain v ∨ a.IsInheritor v := by
  cases hk : a.kind? v with
  | none =>
      have hx : a.value? v = none := Option.map_eq_none_iff.mp hk
      rw [slot?, hx] at h
      cases h
  | some k =>
      rw [slot?_of_kind? hk] at h
      cases k with
      | object members => exact .inl ⟨members, .inl hk⟩
      | function name members args => exact .inl ⟨members, .inr ⟨name, args, hk⟩⟩
      | inheritor members prototypes => exact .inr ⟨members, prototypes, hk⟩
      | undefined | null | boolean _ | number _ | text _ | arguments _ => cases h

theorem slot?_of_mem_ownTypes {v w : ValueId} {name : String} (h : w ∈ a.ownTypes v name) :
    ∃ slot, a.slot? v name = some slot ∧ w ∈ slot.types := by
  unfold ownTypes at h
  cases hs : a.slot? v name with
  | none => rw [hs] at h; exact absurd h (ValueSet.not_mem_empty w)
  | some slot => rw [hs] at h; exact ⟨slot, rfl, h⟩

/-! ### Distances -/

/-- Distinct inheritors are no more than there are inheritors. -/
theorem length_le_inheritorCount {vs : List ValueId} (hn : vs.Nodup)
    (h : ∀ v ∈ vs, a.IsInheritor v) : vs.length ≤ a.inheritorCount := by
  -- the positions of all inheritors, as many as `inheritorCount` counts
  let all := (a.values.toList.zipIdx.filter (·.1.kind.isInheritor)).map Prod.snd
  have hall : all.length = a.inheritorCount := by
    rw [List.length_map, ← List.countP_eq_length_filter, inheritorCount]
    conv_rhs => rw [← List.zipIdx_map_fst 0 a.values.toList, List.countP_map]
    rfl
  have hsub : vs.map ValueId.index ⊆ all := by
    intro i hi
    obtain ⟨v, hv, rfl⟩ := List.mem_map.mp hi
    obtain ⟨members, prototypes, hk⟩ := h v hv
    obtain ⟨x, hx, hxk⟩ := Option.map_eq_some_iff.mp hk
    refine List.mem_map.mpr ⟨(x, v.index), List.mem_filter.mpr ⟨?_, ?_⟩, rfl⟩
    · rw [List.mk_mem_zipIdx_iff_getElem?, Array.getElem?_toList]
      exact hx
    · simp [hxk, Kind.isInheritor, Kind.prototypes?]
  have hinj : Function.Injective ValueId.index := by
    rintro ⟨i⟩ ⟨j⟩ rfl
    rfl
  have hle := ((hn.map hinj).subperm hsub).length_le
  rwa [List.length_map, hall] at hle

theorem inheritorCount_le_size (a : Analysis) : a.inheritorCount ≤ a.values.size := by
  have h : a.values.toList.countP (·.kind.isInheritor) ≤ a.values.toList.length :=
    List.countP_le_length
  rwa [Array.length_toList] at h

/-- A route without detours that goes on from inheritors only is no longer than their number. -/
theorem length_le_of_route {r : ValueId → ValueId → Prop} (hr : ∀ v p, r v p → a.IsInheritor v)
    {v u : ValueId} {ps : List ValueId} (h : Route r v ps u) (hn : (v :: ps).Nodup) :
    ps.length ≤ a.inheritorCount := by
  have hd : (v :: ps).dropLast.Nodup := hn.sublist (List.dropLast_sublist _)
  have hle := length_le_inheritorCount (a := a) hd fun w hw => by
    obtain ⟨p, hp⟩ := h.exists_rel_of_mem_dropLast hw
    exact hr w p hp
  simpa using hle

/-- **What is reached is near**: within a distance of as many draws as there are inheritors. -/
theorem Reaches.within {v u : ValueId} {d : Nat} (h : a.Reaches v u) (hd : a.inheritorCount ≤ d) :
    a.Within d v u := by
  obtain ⟨ps, hp⟩ := h
  obtain ⟨qs, hq, -, hn⟩ := hp.exists_nodup
  have hlen := length_le_of_route (fun _ _ => Draws.isInheritor) hq hn
  exact ⟨qs, hq, Nat.le_trans hlen hd⟩

theorem Within.reaches {v u : ValueId} {d : Nat} (h : a.Within d v u) : a.Reaches v u := by
  obtain ⟨ps, hp, -⟩ := h
  exact ⟨ps, hp⟩

theorem within_iff_reaches {v u : ValueId} {d : Nat} (hd : a.inheritorCount ≤ d) :
    a.Within d v u ↔ a.Reaches v u :=
  ⟨Within.reaches, fun h => h.within hd⟩

end Prototypal.Analysis
