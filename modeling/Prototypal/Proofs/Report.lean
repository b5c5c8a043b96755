import Prototypal.Proofs.Confluence
import Prototypal.Proofs.SetAlgebra

/-!
# Prototypal — Proofs — Report

Adding prototypes and assigning to a member answer whether a set grew, which they see from its size.
Sets have one representation, so a union is as large as its first part just when it is that part
(`ValueSet.size_union_eq_iff`), and the answers are exact.

What an operation leaves is compared with the state before as a whole: all is the same but the shape
of one value (`Reshapes`), and of that shape only the own members (`Rewrites`) or only the prototype
set.  Own members keep their order, and a member keeps its places of use (`Members.Widens`).

* `Members.widens_set`: setting a slot to a wider one changes that slot, or appends it.
* `addPrototypes_of_not_subset`, `addPrototypes_of_subset`, `assign_of_not_subset`,
  `assign_of_subset`: what is answered and what is left when there is something to add and when
  there is not.
* `growth_reports_exact`: a growth is reported just when there is one, and nothing else changes.
-/

namespace Prototypal

/-! ### Setting a slot -/

namespace Roster

variable {κ α : Type} [DecidableEq κ] {k : κ} {es : List (κ × α)}

theorem place_of_not_mem (h : k ∉ es.map Prod.fst) (y : α) : place k y es = es ++ [(k, y)] := by
  induction es with
  | nil => rfl
  | cons e es ih =>
      rw [List.map_cons, List.mem_cons, not_or] at h
      rw [place, if_neg (Ne.symm h.1), ih h.2, List.cons_append]

/-- A key that holds something has one place, and setting it changes what is there. -/
theorem exists_place_eq {x : α} (h : lookup k es = some x) :
    ∃ before after, es = before ++ (k, x) :: after ∧
      ∀ y, place k y es = before ++ (k, y) :: after := by
  induction es with
  | nil => cases h
  | cons e es ih =>
      rw [lookup] at h
      by_cases he : e.1 = k
      · rw [if_pos he] at h
        refine ⟨[], es, ?_, fun y => ?_⟩
        · rw [← he, ← Option.some.inj h]
          rfl
        · rw [place, if_pos he]
          rfl
      · rw [if_neg he] at h
        obtain ⟨before, after, hes, hp⟩ := ih h
        refine ⟨e :: before, after, ?_, fun y => ?_⟩
        · rw [hes]
          rfl
        · rw [place, if_neg he, hp]
          rfl

end Roster

/-- `ns` is `ms` with `values` added to what `name` holds: in its place if it has one, and at the
end otherwise. -/
inductive Members.Widens (name : String) (values : ValueSet) (ms ns : Members) : Prop where
  | present (before after : List (String × Slot)) (slot : Slot)
      (old : ms.entries = before ++ (name, slot) :: after)
      (new : ns.entries = before ++ (name, { slot with types := slot.types ∪ values }) :: after)
  | absent (old : name ∉ ms.keys) (new : ns.entries = ms.entries ++ [(name, { types := values })])

theorem Members.widens_set (ms : Members) (name : String) (values : ValueSet) :
    Members.Widens name values ms (ms.set name (((ms.get? name).getD {}).widen values)) := by
  cases hs : ms.get? name with
  | none =>
      have hn : name ∉ ms.keys := by simp [Roster.mem_keys_iff, hs]
      refine .absent hn ?_
      have hw : Slot.widen {} values = { types := values } := by
        rw [Slot.widen, ValueSet.empty_union]
      rw [Option.getD_none, hw]
      exact Roster.place_of_not_mem hn _
  | some slot =>
      obtain ⟨before, after, he, hp⟩ := Roster.exists_place_eq hs
      exact .present before after slot he (hp _)

namespace Analysis

variable {a b : Analysis} {v : ValueId} {name : String} {values : ValueSet}

/-! ### What has changed -/

/-- `b` is `a` but for the shape of `v`, which was `k` and is `k'`. -/
structure Reshapes (a : Analysis) (v : ValueId) (k k' : Kind) (b : Analysis) : Prop where
  options : b.options = a.options
  units : b.units = a.units
  tally : b.tally = a.tally
  others : ∀ u, u ≠ v → b.value? u = a.value? u
  shape : ∃ x, a.value? v = some x ∧ x.kind = k ∧ b.value? v = some { x with kind := k' }

/-- `b` is `a` but for the own members of `v`, which are changed as `Change` says. -/
def Rewrites (a : Analysis) (v : ValueId) (Change : Members → Members → Prop) (b : Analysis) :
    Prop :=
  ∃ k ms ns, k.members? = some ms ∧ Change ms ns ∧ a.Reshapes v k (k.withMembers ns) b

theorem reshapes_modifyValue {x : Value} {k : Kind} {f : Value → Value} (hx : a.value? v = some x)
    (hf : f x = { x with kind := k }) : a.Reshapes v x.kind k (a.modifyValue v f) where
  options := rfl
  units := rfl
  tally := rfl
  others u hu := by rw [value?_modifyValue, if_neg hu.symm]
  shape := ⟨x, hx, rfl, by rw [value?_modifyValue, if_pos rfl, hx, Option.map_some, hf]⟩

theorem Reshapes.slot?_eq {k k' : Kind} {ms : Members} (h : a.Reshapes v k k' b)
    (hm : k.members? = some ms) (name : String) : a.slot? v name = ms.get? name := by
  obtain ⟨x, hx, rfl, -⟩ := h.shape
  rw [slot?_eq_bind, kind?, hx, Option.map_some, Option.bind_some, hm, Option.bind_some]

/-- An answer that tells whether there is `News` is exact, and so is what follows in either case. -/
theorem report_exact {answer : Bool} {News P Q : Prop} (h : News → answer = true ∧ P)
    (h' : ¬ News → answer = false ∧ Q) :
    (answer = true ↔ News) ∧ (answer = true → P) ∧ (answer = false → Q) := by
  by_cases hn : News
  · obtain ⟨ha, hp⟩ := h hn
    simp [ha, hn, hp]
  · obtain ⟨ha, hq⟩ := h' hn
    simp [ha, hn, hq]

/-! ### Prototypes -/

/-- Prototypes that are not all known are added, and nothing else changes. -/
theorem addPrototypes_of_not_subset
    (h : ∃ ms ps, a.kind? v = some (.inheritor ms ps) ∧ ¬ values ⊆ ps) :
    (a.addPrototypes v values).answer = true ∧
      ∃ ms ps, a.Reshapes v (.inheritor ms ps) (.inheritor ms (ps ∪ values))
        (a.addPrototypes v values).state := by
  obtain ⟨ms, ps, hk, hs⟩ := h
  have he : ¬ (ps ∪ values).size = ps.size := mt ValueSet.size_union_eq_iff.mp hs
  obtain ⟨x, hx, hxk⟩ := Option.map_eq_some_iff.mp hk
  unfold addPrototypes
  rw [hk]
  simp only [if_neg he]
  exact ⟨trivial, ms, ps, hxk ▸ reshapes_modifyValue hx rfl⟩

theorem addPrototypes_of_subset
    (h : ¬ ∃ ms ps, a.kind? v = some (.inheritor ms ps) ∧ ¬ values ⊆ ps) :
    (a.addPrototypes v values).answer = false ∧ (a.addPrototypes v values).state = a := by
  unfold addPrototypes
  split
  · next ms ps hk =>
    have hs : values ⊆ ps := Classical.byContradiction fun hs => h ⟨ms, ps, hk, hs⟩
    simp [ValueSet.size_union_eq_iff.mpr hs]
  · exact ⟨rfl, rfl⟩

/-! ### Members -/

theorem ownTypes_eq_slotOrNew (a : Analysis) (v : ValueId) (name : String) :
    a.ownTypes v name = (a.slotOrNew v name).types := by
  rw [ownTypes, slotOrNew]
  cases a.slot? v name <;> rfl

theorem assign_answer_of_hasMembers (hv : a.HasMembers v) :
    (a.assign v name values).answer = true ↔ ¬ values ⊆ a.ownTypes v name := by
  rw [assign_of_hasMembers hv, bne_iff_ne, ownTypes_eq_slotOrNew]
  exact not_congr ValueSet.size_union_eq_iff

/-- Assigning to a value with members widens the member and changes nothing else. -/
theorem rewrites_assign (name : String) (values : ValueSet) (hv : a.HasMembers v) :
    a.Rewrites v (Members.Widens name values) (a.assign v name values).state := by
  obtain ⟨ms, hm⟩ := Option.isSome_iff_exists.mp hv
  obtain ⟨k, hk, hms⟩ := Option.bind_eq_some_iff.mp hm
  obtain ⟨x, hx, rfl⟩ := Option.map_eq_some_iff.mp hk
  have hs : a.slotOrNew v name = (ms.get? name).getD {} := by
    rw [slotOrNew, slot?_eq_bind, hm, Option.bind_some]
  rw [assign_of_hasMembers hv, hs]
  refine ⟨x.kind, ms, _, hms, ms.widens_set name values, reshapes_modifyValue hx ?_⟩
  rw [Value.setSlot, hms]

/-- A member that a value did not have is appended, empty if nothing is assigned to it. -/
theorem rewrites_assign_empty (hv : a.HasMembers v) (hn : a.slot? v name = none) :
    a.Rewrites v (fun ms ns => ns.entries = ms.entries ++ [(name, ({} : Slot))])
      (a.assign v name ∅).state := by
  obtain ⟨k, ms, ns, hms, hw, hr⟩ := rewrites_assign name ∅ hv
  refine ⟨k, ms, ns, hms, ?_, hr⟩
  cases hw with
  | absent _ new => exact new
  | present before after slot old _ =>
      have hm : (name, slot) ∈ ms.entries := by simp [old]
      rw [hr.slot?_eq hms, Roster.mem_entries_iff.mp hm] at hn
      cases hn

theorem assign_of_not_subset (h : a.HasMembers v ∧ ¬ values ⊆ a.ownTypes v name) :
    (a.assign v name values).answer = true ∧
      a.Rewrites v (Members.Widens name values) (a.assign v name values).state :=
  ⟨(assign_answer_of_hasMembers h.1).mpr h.2, rewrites_assign name values h.1⟩

/-- Where nothing is added to a member, nothing changes but that it may be a new one. -/
theorem assign_of_subset (h : ¬ (a.HasMembers v ∧ ¬ values ⊆ a.ownTypes v name)) :
    (a.assign v name values).answer = false ∧
      if a.HasMembers v ∧ a.slot? v name = none then
        a.Rewrites v (fun ms ns => ns.entries = ms.entries ++ [(name, ({} : Slot))])
          (a.assign v name values).state
      else (a.assign v name values).state = a := by
  by_cases hv : a.HasMembers v
  · have hs : values ⊆ a.ownTypes v name := Classical.byContradiction fun hs => h ⟨hv, hs⟩
    have ha : (a.assign v name values).answer = false :=
      Bool.eq_false_iff.mpr fun ha => (assign_answer_of_hasMembers hv).mp ha hs
    refine ⟨ha, ?_⟩
    cases hslot : a.slot? v name with
    | none =>
        rw [if_pos ⟨hv, rfl⟩]
        have he : values = ∅ := by
          rw [ownTypes, hslot] at hs
          exact ValueSet.eq_empty_iff.mpr fun w hw => ValueSet.not_mem_empty w (hs hw)
        rw [he]
        exact rewrites_assign_empty hv hslot
    | some slot =>
        rw [if_neg fun hn => nomatch hn.2]
        rw [ownTypes, hslot] at hs
        rw [assign_of_knows fun _ => ⟨slot, hslot, fun w hw => hs hw⟩]
  · rw [assign_of_not_hasMembers hv]
    exact ⟨rfl, (if_neg fun hn => hv hn.1).mpr rfl⟩

/-- **Reports of growth are exact.**  In every state: adding prototypes is reported as a growth just
when the value is an inheritor that does not have them all, and assigning to a member just when the
value has members and what the member holds, nothing if there is none, does not include the values
assigned.  If a growth is reported, the one set becomes its union with what was added and all else
is as before.  If none is reported, the state is as before, but for an empty member at the end where
the value has members and did not have this one. -/
theorem growth_reports_exact (a : Analysis) (v : ValueId) (name : String) (values : ValueSet) :
    (((a.addPrototypes v values).answer = true ↔
        ∃ ms ps, a.kind? v = some (.inheritor ms ps) ∧ ¬ values ⊆ ps) ∧
      ((a.addPrototypes v values).answer = true →
        ∃ ms ps, a.Reshapes v (.inheritor ms ps) (.inheritor ms (ps ∪ values))
          (a.addPrototypes v values).state) ∧
      ((a.addPrototypes v values).answer = false → (a.addPrototypes v values).state = a)) ∧
    (((a.assign v name values).answer = true ↔
        a.HasMembers v ∧ ¬ values ⊆ a.ownTypes v name) ∧
      ((a.assign v name values).answer = true →
        a.Rewrites v (Members.Widens name values) (a.assign v name values).state) ∧
      ((a.assign v name values).answer = false →
        if a.HasMembers v ∧ a.slot? v name = none then
          a.Rewrites v (fun ms ns => ns.entries = ms.entries ++ [(name, ({} : Slot))])
            (a.assign v name values).state
        else (a.assign v name values).state = a)) := by
  constructor
  · exact report_exact addPrototypes_of_not_subset addPrototypes_of_subset
  · exact report_exact assign_of_not_subset assign_of_subset

end Analysis

end Prototypal
