import Prototypal.Proofs.Lookup
import Prototypal.Proofs.Roster

/-!
# Prototypal — Proofs — Enumeration

Listing all members and looking one up are explorations of the same values: taking what one name
holds commutes with merging maps of members, so the listing restricted to a name *is* the
exploration for that name, with the same steps and the same guard (`explore_ownTypes_eq`).  Budgets
thus cut both at the same place.

A listing leaves out names whose values are all dead and keeps names that never had a value.
`members_agree_with_lookup` says that, with this, a listed name comes with what a lookup of it
answers, and that a lookup of a name that is not listed answers nothing, under all options.
-/

namespace Prototypal.Analysis

variable {a : Analysis}

/-- The values that an enumeration of the members of `v` visits, in order. -/
def visited (a : Analysis) (v : ValueId) : List ValueId :=
  (a.explore a.ownMembers MemberMap.merge a.guard v).visits

/-- The union of what own members `name` hold in the visited values, dead values included. -/
def visitedUnion (a : Analysis) (v : ValueId) (name : String) : ValueSet :=
  .unionAll ((a.visited v).map (a.ownTypes · name))

theorem get?_ownMembers (a : Analysis) (v : ValueId) (name : String) :
    (a.ownMembers v).get? name = (a.slot? v name).map Slot.types := by
  rw [ownMembers, Roster.get?_filterMap, kind?, slot?]
  cases a.value? v with
  | none => rfl
  | some x =>
      simp only [Option.map_some, Option.bind_some, Value.slot?]
      cases x.kind.members? with
      | none => rfl
      | some ms =>
          rw [Option.getD_some, Option.bind_some]
          cases ms.get? name <;> rfl

/-- **A listing restricted to a name is the exploration for that name.** -/
theorem explore_ownTypes_eq (a : Analysis) (v : ValueId) (name : String) :
    a.explore (a.ownTypes · name) (· ∪ ·) a.guard v =
      (a.explore a.ownMembers MemberMap.merge a.guard v).map fun m => (m.get? name).getD ∅ := by
  rw [explore_map (f := fun m => (m.get? name).getD ∅)
    fun x y => MemberMap.getD_get?_merge x y name]
  simp only [get?_ownMembers]
  rfl

/-- What a name holds in the listing, before dead values are taken out, is the union over the
visited values. -/
theorem getD_get?_explore (a : Analysis) (v : ValueId) (name : String) :
    ((a.explore a.ownMembers MemberMap.merge a.guard v).result.get? name).getD ∅ =
      a.visitedUnion v name := by
  have h := a.isUnionOver_explore name a.guard v
  rw [explore_ownTypes_eq] at h
  refine h.unique fun w => ?_
  rw [visitedUnion, ValueSet.mem_unionAll]
  simp [visited]

theorem lookup_eq_shown_visitedUnion (a : Analysis) (v : ValueId) (name : String)
    (site : Option Site) : (a.lookup v name site).answer = a.shown (a.visitedUnion v name) := by
  rw [lookup_answer, explore_ownTypes_eq, ← getD_get?_explore]
  rfl

/-- A name is in the listing, before any is left out, if some visited value has it of its own. -/
theorem mem_keys_explore_iff (a : Analysis) (v : ValueId) (name : String) :
    name ∈ (a.explore a.ownMembers MemberMap.merge a.guard v).result.keys ↔
      ∃ u ∈ a.visited v, (a.slot? u name).isSome := by
  refine collects_explore (P := fun m : MemberMap => name ∈ m.keys)
    (fun _ _ => MemberMap.mem_keys_merge) (fun u => ?_) a.guard v
  rw [Roster.mem_keys_iff, get?_ownMembers]
  simp [Option.isSome_iff_exists]

theorem get?_members (a : Analysis) (v : ValueId) (accessor : UnitId) (name : String) :
    (a.members v accessor).answer.get? name =
      ((a.explore a.ownMembers MemberMap.merge a.guard v).result.get? name).bind a.listed? :=
  Roster.get?_filterMap _ _ _

/-- A set is listed unless it is not empty and what is shown of it is. -/
theorem listed?_eq_some_iff {s t : ValueSet} :
    a.listed? s = some t ↔ t = a.shown s ∧ (s = ∅ ∨ a.shown s ≠ ∅) := by
  dsimp only [listed?]
  by_cases hs : s = ∅
  · subst hs
    rw [if_pos (ValueSet.isEmpty_iff.mpr rfl), shown_empty]
    exact ⟨fun h => ⟨(Option.some.inj h).symm, .inl rfl⟩, fun h => congrArg some h.1.symm⟩
  rw [if_neg (mt ValueSet.isEmpty_iff.mp hs)]
  by_cases ht : a.shown s = ∅
  · rw [if_pos (ValueSet.isEmpty_iff.mpr ht)]
    exact ⟨nofun, fun h => absurd ht (h.2.resolve_left hs)⟩
  · rw [if_neg (mt ValueSet.isEmpty_iff.mp ht)]
    exact ⟨fun h => ⟨(Option.some.inj h).symm, .inr ht⟩, fun h => congrArg some h.1.symm⟩

/-- What it takes for a name to be listed, and what it is listed with. -/
theorem get?_members_eq_some_iff {v : ValueId} {accessor : UnitId} {name : String} {s : ValueSet} :
    (a.members v accessor).answer.get? name = some s ↔
      s = a.shown (a.visitedUnion v name) ∧ (∃ u ∈ a.visited v, (a.slot? u name).isSome) ∧
        (a.visitedUnion v name = ∅ ∨ a.shown (a.visitedUnion v name) ≠ ∅) := by
  rw [get?_members, ← mem_keys_explore_iff, ← getD_get?_explore, Roster.mem_keys_iff]
  cases (a.explore a.ownMembers MemberMap.merge a.guard v).result.get? name with
  | none => simp
  | some types => simp [listed?_eq_some_iff]

/-- **Enumeration agrees with lookup.**  Under all options: a listed name comes with what a lookup
of it answers from any site; a lookup of a name that is not listed answers nothing; no name is
listed twice; and a name is listed just when some visited value has it of its own, and it never had
a value or has one that is shown. -/
theorem members_agree_with_lookup (a : Analysis) (v : ValueId) (accessor : UnitId) (name : String)
    (site : Option Site) :
    (∀ s, (name, s) ∈ (a.members v accessor).answer.entries → (a.lookup v name site).answer = s) ∧
    (name ∉ (a.members v accessor).answer.keys → (a.lookup v name site).answer = ∅) ∧
    (a.members v accessor).answer.keys.Nodup ∧
    (name ∈ (a.members v accessor).answer.keys ↔
      (∃ u ∈ a.visited v, (a.slot? u name).isSome) ∧
        (a.visitedUnion v name = ∅ ∨ a.shown (a.visitedUnion v name) ≠ ∅)) := by
  have hkeys : name ∈ (a.members v accessor).answer.keys ↔
      (∃ u ∈ a.visited v, (a.slot? u name).isSome) ∧
        (a.visitedUnion v name = ∅ ∨ a.shown (a.visitedUnion v name) ≠ ∅) := by
    rw [Roster.mem_keys_iff]
    simp only [get?_members_eq_some_iff, exists_eq_left]
  refine ⟨fun s hs => ?_, fun hn => ?_, (a.members v accessor).answer.nodup, hkeys⟩
  · rw [lookup_eq_shown_visitedUnion]
    exact (get?_members_eq_some_iff.mp (Roster.mem_entries_iff.mp hs)).1.symm
  · rw [lookup_eq_shown_visitedUnion]
    by_contra hne
    refine hn (hkeys.mpr ⟨?_, .inr hne⟩)
    -- something is shown, so some visited value has a slot that holds it
    obtain ⟨w, hw⟩ := not_forall.mp fun h => hne (ValueSet.eq_empty_iff.mpr h)
    obtain ⟨s, hs, hws⟩ := ValueSet.mem_unionAll.mp (mem_shown.mp (not_not.mp hw)).1
    obtain ⟨u, hu, rfl⟩ := List.mem_map.mp hs
    obtain ⟨slot, hslot, -⟩ := slot?_of_mem_ownTypes hws
    exact ⟨u, hu, hslot ▸ rfl⟩

end Prototypal.Analysis
