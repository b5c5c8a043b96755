import Prototypal.Analysis.Command
import Prototypal.Proofs.ValueSet

/-!
# Prototypal — Proofs — Recording

What carrying out the steps of a reading does to the state: it sets own slots of values to slots
that differ in their usages alone (`performAll_preserves`), and that is all that a question does
(`query_preserves`).  So it does not change which values are shown, and what a reading answers is
what its descent found, as shown in the state that was asked (`lookup_answer`,
`propertyValue_answer`).
-/

namespace Prototypal

/-- Whether an operation asks for something that descents find. -/
def Command.isQuery : Command → Bool
  | lookup .. | property .. | propertyValue .. | index .. | members .. => true
  | _ => false

@[simp] theorem Value.tether_setSlot (x : Value) (name : String) (slot : Slot) :
    (x.setSlot name slot).tether = x.tether := by
  unfold Value.setSlot
  split <;> rfl

namespace Analysis

variable {a : Analysis}

theorem value?_modifyValue (a : Analysis) (v u : ValueId) (f : Value → Value) :
    (a.modifyValue v f).value? u = if v = u then (a.value? u).map f else a.value? u := by
  obtain ⟨i⟩ := v
  obtain ⟨j⟩ := u
  simp only [modifyValue, value?, Array.getElem?_modify, ValueId.mk.injEq]

/-- Recording a site changes nothing, or sets a slot to one that differs in its usages. -/
theorem recordUsage_cases (a : Analysis) (v : ValueId) (name : String) (site : Site) :
    (a.recordUsage v name site).1 = a ∨
      ∃ slot usages, a.slot? v name = some slot ∧
        (a.recordUsage v name site).1 = a.modifyValue v (·.setSlot name { slot with usages }) := by
  unfold recordUsage
  split
  · next slot unit hs _ => exact .inr ⟨slot, _, hs, rfl⟩
  · exact .inl rfl

/-- **What a reading does to the state**: a property that is kept when the usages of a slot are set
is kept when the steps of a reading are carried out. -/
theorem performAll_preserves {I : Analysis → Prop} {name : String}
    (hI : ∀ a v slot usages, a.slot? v name = some slot → I a →
      I (a.modifyValue v (·.setSlot name { slot with usages })))
    (site : Option Site) (steps : List Step) (ha : I a) :
    I (a.performAll name site steps).1 := by
  induction steps generalizing a with
  | nil => exact ha
  | cons step steps ih =>
      refine ih ?_
      cases step with
      | attempt | leave => exact ha
      | visit v =>
          cases site with
          | none => exact ha
          | some site =>
              show I (a.recordUsage v name site).1
              rcases a.recordUsage_cases v name site with he | ⟨slot, usages, hs, he⟩
              · rw [he]; exact ha
              · rw [he]; exact hI a v slot usages hs ha

section

variable {I : Analysis → Prop} (hI : ∀ a v name slot usages, a.slot? v name = some slot → I a →
  I (a.modifyValue v (·.setSlot name { slot with usages })))

include hI

theorem readNames_preserves (v : ValueId) (site : Option Site) (g : Guard ValueId)
    (names : List String) (ha : I a) : I (a.readNames v site g names).state := by
  induction names generalizing a g with
  | nil => exact ha
  | cons name names ih =>
      let found := a.explore (a.ownTypes · name) (· ∪ ·) g v
      exact ih found.guard (performAll_preserves (hI · · name) site found.trace ha)

/-- **What a question does to the state**: a property that is kept when the usages of a slot are set
is kept when a question is answered. -/
theorem query_preserves {c : Command} (hc : c.isQuery = true) (ha : I a) : I (a.step c).state := by
  cases c with
  | lookup v name site => exact readNames_preserves hI v _ _ _ ha
  | property v name | members v accessor => exact ha
  | propertyValue d site => exact performAll_preserves (hI · · d.name) _ _ ha
  | index v is site =>
      show I (a.index v is site).state
      unfold index
      split
      · exact ha
      · exact readNames_preserves hI v _ _ _ ha
      · exact readNames_preserves hI v _ _ _ ha
      · exact readNames_preserves hI v _ _ _ ha
      · exact ha
  | _ => cases hc

end

/-- Setting a slot does not change which values are alive. -/
theorem isAlive_modifyValue_setSlot (a : Analysis) (v u : ValueId) (name : String) (slot : Slot) :
    (a.modifyValue v (·.setSlot name slot)).isAlive u = a.isAlive u := by
  have hs : (a.modifyValue v (·.setSlot name slot)).isStanding = a.isStanding := rfl
  rw [isAlive, isAlive, hs, value?_modifyValue]
  split
  · cases a.value? u <;> simp
  · rfl

/-- The steps of a reading do not change what is shown. -/
theorem shown_performAll (a : Analysis) (name : String) (site : Option Site) (steps : List Step)
    (s : ValueSet) : (a.performAll name site steps).1.shown s = a.shown s := by
  have h : (a.performAll name site steps).1.options = a.options ∧
      ∀ u, (a.performAll name site steps).1.isAlive u = a.isAlive u := by
    refine performAll_preserves
      (I := fun b => b.options = a.options ∧ ∀ u, b.isAlive u = a.isAlive u)
      ?_ site steps ⟨rfl, fun _ => rfl⟩
    rintro b v slot usages - ⟨ho, hl⟩
    exact ⟨ho, fun u => (isAlive_modifyValue_setSlot b v u name _).trans (hl u)⟩
  rw [shown, shown, living, living, h.1, funext h.2]

/-- What looking a member up answers. -/
theorem lookup_answer (a : Analysis) (v : ValueId) (name : String) (site : Option Site) :
    (a.lookup v name site).answer =
      a.shown (a.explore (a.ownTypes · name) (· ∪ ·) a.guard v).result := by
  simp only [lookup, readNames, Reply.shown, shown_performAll, ValueSet.union_empty]

/-- What reading through a descriptor answers. -/
theorem propertyValue_answer (a : Analysis) (d : Descriptor) (site : Option Site) :
    (a.propertyValue d site).answer = a.shown (a.evaluate a.guard d).result := by
  simp only [propertyValue, Reply.shown, shown_performAll]

theorem mem_shown {w : ValueId} {s : ValueSet} :
    w ∈ a.shown s ↔ w ∈ s ∧ (a.options.hidesDead = true → a.isAlive w = true) := by
  unfold shown living
  split
  · next h => simp [h]
  · next h => simp [h]

theorem shown_empty (a : Analysis) : a.shown ∅ = ∅ :=
  ValueSet.eq_empty_iff.mpr fun w hw => ValueSet.not_mem_empty w (mem_shown.mp hw).1

theorem shown_mono {s t : ValueSet} (h : s ⊆ t) : a.shown s ⊆ a.shown t := by
  intro w hw
  obtain ⟨hw, hl⟩ := mem_shown.mp hw
  exact mem_shown.mpr ⟨h hw, hl⟩

end Analysis

end Prototypal
