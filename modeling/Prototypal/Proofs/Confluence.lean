import Prototypal.Proofs.Growth
import Prototypal.Proofs.Resemblance

/-!
# Prototypal — Proofs — Confluence

The order in which facts are learnt does not matter, nor how often.  A fact (`Fact`) is that a
member may hold certain values, or that an inheritor draws on certain prototypes.  States that
differ in facts only are ordered by what is known in them (`Below`), and two that are each below the
other are alike (`Below.antisymm`).

Learning facts leads to the least state above the present one in which they are all known: it is
above it (`below_learn`), the facts are known in it (`knows_learn`), and it is below every other
such state (`Below.learn`).  The least state depends neither on the order nor on repetitions, and a
fact that is known is no news (`learn_of_knows`).

`facts_commute` says so of lists that hold the same facts: afterwards every question has the same
answer, under any options, and learning the facts again changes nothing.
-/

namespace Prototypal

/-- Something that an analysis learns about a value and never takes back. -/
inductive Fact where
  | holds (value : ValueId) (name : String) (values : ValueSet)
  | draws (value : ValueId) (prototypes : ValueSet)
deriving DecidableEq

/-- The operation that tells an analysis a fact. -/
def Fact.command : Fact → Command
  | holds v name values => .assign v name values
  | draws v prototypes => .addPrototypes v prototypes

theorem Kind.withMembers_eq_self {k : Kind} {ms : Members} (h : k.members? = some ms) :
    k.withMembers ms = k := by
  cases k with
  | object _ | function _ _ _ | inheritor _ _ =>
      cases h
      rfl
  | undefined | null | boolean _ | number _ | text _ | arguments _ => rfl

/-- Setting a slot to what it is changes nothing. -/
theorem Value.setSlot_eq_self {x : Value} {name : String} {slot : Slot}
    (h : x.slot? name = some slot) : x.setSlot name slot = x := by
  obtain ⟨ms, hm, hs⟩ := Option.bind_eq_some_iff.mp h
  rw [setSlot, hm]
  dsimp only
  rw [Roster.set_eq_self hs, Kind.withMembers_eq_self hm]

namespace Analysis

variable {a b c : Analysis} {v : ValueId} {name : String}

/-- Learns facts one after the other. -/
def learn (a : Analysis) (fs : List Fact) : Reply (List Answer) := a.run (fs.map Fact.command)

/-- The state under other options. -/
def withOptions (a : Analysis) (o : Options) : Analysis := { a with options := o }

/-! ### What is known -/

/-- `b` differs from `a` in facts only. -/
structure Aligned (a b : Analysis) : Prop where
  units : a.units = b.units
  options : a.options = b.options
  bare : ∀ v, (a.value? v).map Value.bare = (b.value? v).map Value.bare

/-- `b` differs from `a` in facts only, and what is known in `a` is known in `b`. -/
structure Below (a b : Analysis) : Prop extends Aligned a b where
  types : ∀ v name slot, a.slot? v name = some slot →
    ∃ slot', b.slot? v name = some slot' ∧ slot.types ⊆ slot'.types
  draws : ∀ v p, a.Draws v p → b.Draws v p

/-- The fact is known: what it adds is there already, unless it is about a value that it does not
concern. -/
def Knows (a : Analysis) : Fact → Prop
  | .holds v name values =>
    a.HasMembers v → ∃ slot, a.slot? v name = some slot ∧ values ⊆ slot.types
  | .draws v prototypes => a.IsInheritor v → ∀ p ∈ prototypes, a.Draws v p

theorem isInheritor_iff : a.IsInheritor v ↔ ((a.kind? v).bind Kind.prototypes?).isSome := by
  rw [IsInheritor]
  cases a.kind? v with
  | none => simp
  | some k => cases k <;> simp [Kind.prototypes?]

theorem ascending_prototypes (a : Analysis) (v : ValueId) :
    (a.prototypes v).Pairwise (· < ·) := by
  rw [prototypes]
  cases (a.kind? v).bind Kind.prototypes? with
  | none => exact .nil
  | some prototypes => exact prototypes.ascending

namespace Aligned

theorem refl (a : Analysis) : a.Aligned a := ⟨rfl, rfl, fun _ => rfl⟩

theorem symm (h : a.Aligned b) : b.Aligned a :=
  ⟨h.units.symm, h.options.symm, fun v => (h.bare v).symm⟩

theorem trans (h : a.Aligned b) (h' : b.Aligned c) : a.Aligned c :=
  ⟨h.units.trans h'.units, h.options.trans h'.options, fun v => (h.bare v).trans (h'.bare v)⟩

theorem hasMembers_iff (h : a.Aligned b) : a.HasMembers v ↔ b.HasMembers v := by
  rw [HasMembers, HasMembers, isSome_bind_kind? Kind.isSome_members?_bare (h.bare v)]

theorem isInheritor_iff (h : a.Aligned b) : a.IsInheritor v ↔ b.IsInheritor v := by
  rw [Analysis.isInheritor_iff, Analysis.isInheritor_iff,
    isSome_bind_kind? Kind.isInheritor_bare (h.bare v)]

end Aligned

namespace Below

theorem refl (a : Analysis) : a.Below a :=
  ⟨.refl a, fun _ _ slot h => ⟨slot, h, fun _ hw => hw⟩, fun _ _ h => h⟩

theorem trans (h : a.Below b) (h' : b.Below c) : a.Below c where
  toAligned := h.toAligned.trans h'.toAligned
  types v name slot hs := by
    obtain ⟨slot', hs', hsub⟩ := h.types v name slot hs
    obtain ⟨slot'', hs'', hsub'⟩ := h'.types v name slot' hs'
    exact ⟨slot'', hs'', fun _ hw => hsub' (hsub hw)⟩
  draws v p hp := h'.draws v p (h.draws v p hp)

/-- What is known stays known. -/
theorem knows (h : a.Below b) {f : Fact} (hf : a.Knows f) : b.Knows f := by
  cases f with
  | holds v name values =>
      intro hv
      obtain ⟨slot, hs, hsub⟩ := hf (h.hasMembers_iff.mpr hv)
      obtain ⟨slot', hs', hsub'⟩ := h.types v name slot hs
      exact ⟨slot', hs', fun _ hw => hsub' (hsub hw)⟩
  | draws v prototypes => exact fun hv p hp => h.draws v p (hf (h.isInheritor_iff.mpr hv) p hp)

/-- **States that are each below the other are alike.** -/
theorem antisymm (h : a.Below b) (h' : b.Below a) : a.Alike b where
  standing := by
    funext u
    rw [isStanding, isStanding, unit?, unit?, h.units]
  hidesDead := by rw [h.options]
  bare := h.bare
  types v name := by
    cases hs : a.slot? v name with
    | some slot =>
        obtain ⟨slot', hs', hsub⟩ := h.types v name slot hs
        obtain ⟨slot'', hs'', hsub'⟩ := h'.types v name slot' hs'
        obtain rfl : slot = slot'' := Option.some.inj (hs.symm.trans hs'')
        rw [hs', Option.map_some, Option.map_some, ValueSet.Subset.antisymm hsub hsub']
    | none =>
        cases hs' : b.slot? v name with
        | none => rfl
        | some slot =>
            obtain ⟨slot', hs'', -⟩ := h'.types v name slot hs'
            rw [hs] at hs''
            cases hs''
  prototypes v := by
    -- prototypes are listed in ascending order, so the list is determined by its members
    refine (ascending_prototypes a v).eq_of_mem_iff (ascending_prototypes b v) fun p => ?_
    rw [mem_prototypes, mem_prototypes]
    exact ⟨h.draws v p, h'.draws v p⟩

end Below

/-! ### Assigning -/

theorem slot?_eq_bind (a : Analysis) (v : ValueId) (name : String) :
    a.slot? v name = ((a.kind? v).bind Kind.members?).bind (·.get? name) := by
  rw [slot?, kind?]
  cases a.value? v <;> rfl

/-- A member that a value has, or a new one. -/
def slotOrNew (a : Analysis) (v : ValueId) (name : String) : Slot := (a.slot? v name).getD {}

/-- Assigning to a value without members does nothing. -/
theorem assign_of_not_hasMembers (hv : ¬ a.HasMembers v) (name : String) (values : ValueSet) :
    a.assign v name values = { answer := false, state := a } := by
  rw [assign, Option.not_isSome_iff_eq_none.mp hv]

/-- Assigning to a value with members widens a slot, which may be new. -/
theorem assign_of_hasMembers (hv : a.HasMembers v) (name : String) (values : ValueSet) :
    a.assign v name values =
      { answer := ((a.slotOrNew v name).widen values).types.size != (a.slotOrNew v name).types.size
        state := a.modifyValue v (·.setSlot name ((a.slotOrNew v name).widen values)) } := by
  obtain ⟨ms, hm⟩ := Option.isSome_iff_exists.mp hv
  rw [assign, slotOrNew, slot?_eq_bind, hm]
  rfl

section

variable (a : Analysis) (v : ValueId) (name : String) (values : ValueSet)

theorem aligned_assign : a.Aligned (a.assign v name values).state := by
  by_cases hv : a.HasMembers v
  · rw [assign_of_hasMembers hv]
    exact ⟨rfl, rfl, fun u => (bare_modifyValue_setSlot a v u name _).symm⟩
  · rw [assign_of_not_hasMembers hv]
    exact .refl a

theorem draws_assign_iff (u p : ValueId) :
    (a.assign v name values).state.Draws u p ↔ a.Draws u p := by
  rw [← mem_prototypes, ← mem_prototypes]
  by_cases hv : a.HasMembers v
  · rw [assign_of_hasMembers hv, prototypes_modifyValue_setSlot]
  · rw [assign_of_not_hasMembers hv]

/-- The slots after an assignment. -/
theorem slot?_assign {v : ValueId} (hv : a.HasMembers v) (u : ValueId) (name' : String) :
    (a.assign v name values).state.slot? u name' =
      if v = u ∧ name = name' then some ((a.slotOrNew v name).widen values)
      else a.slot? u name' := by
  obtain ⟨ms, hm⟩ := Option.isSome_iff_exists.mp hv
  rw [assign_of_hasMembers hv, slot?_modifyValue_setSlot]
  split
  · next h => rw [← h.1, hm, Option.map_some]
  · rfl

theorem knows_assign : (a.assign v name values).state.Knows (.holds v name values) := by
  intro hv
  have hv : a.HasMembers v := (a.aligned_assign v name values).hasMembers_iff.mpr hv
  refine ⟨_, (a.slot?_assign name values hv v name).trans (if_pos ⟨rfl, rfl⟩), fun w hw => ?_⟩
  exact ValueSet.mem_union.mpr (.inr hw)

end

theorem Below.slotOrNew_subset (h : a.Below b) {slot : Slot} (hs : b.slot? v name = some slot) :
    (a.slotOrNew v name).types ⊆ slot.types := by
  intro w hw
  cases hold : a.slot? v name with
  | none =>
      rw [slotOrNew, hold] at hw
      exact absurd hw (ValueSet.not_mem_empty w)
  | some old =>
      rw [slotOrNew, hold] at hw
      obtain ⟨slot', hs', hsub⟩ := h.types v name old hold
      obtain rfl : slot = slot' := Option.some.inj (hs.symm.trans hs')
      exact hsub hw

/-- An assignment adds no more than it says. -/
theorem Below.assign (h : a.Below b) {values : ValueSet} (hb : b.Knows (.holds v name values)) :
    (a.assign v name values).state.Below b where
  toAligned := (a.aligned_assign v name values).symm.trans h.toAligned
  types u name' slot hs := by
    by_cases hv : a.HasMembers v
    · rw [a.slot?_assign name values hv] at hs
      split at hs
      · next he =>
        obtain ⟨rfl, rfl⟩ := he
        cases hs
        obtain ⟨slot, hs, hsub⟩ := hb (h.hasMembers_iff.mp hv)
        refine ⟨slot, hs, fun w hw => ?_⟩
        rcases ValueSet.mem_union.mp hw with hw | hw
        · exact h.slotOrNew_subset hs hw
        · exact hsub hw
      · exact h.types u name' slot hs
    · rw [assign_of_not_hasMembers hv] at hs
      exact h.types u name' slot hs
  draws u p hp := h.draws u p ((a.draws_assign_iff v name values u p).mp hp)

theorem modifyValue_eq_self {f : Value → Value} (h : ∀ x, a.value? v = some x → f x = x) :
    a.modifyValue v f = a := by
  have hv : a.values.modify v.index f = a.values := by
    refine Array.ext_getElem? fun i => ?_
    rw [Array.getElem?_modify]
    split
    · next he =>
      subst he
      cases hx : a.values[v.index]? with
      | none => rfl
      | some x => exact congrArg some (h x hx)
    · rfl
  rw [modifyValue, hv]

/-- A known assignment does nothing. -/
theorem assign_of_knows {values : ValueSet} (h : a.Knows (.holds v name values)) :
    a.assign v name values = { answer := false, state := a } := by
  by_cases hv : a.HasMembers v
  · obtain ⟨slot, hs, hsub⟩ := h hv
    have hw : (a.slotOrNew v name).widen values = slot := by
      rw [slotOrNew, hs, Option.getD_some, Slot.widen, ValueSet.union_eq_left hsub]
    have hself : a.modifyValue v (·.setSlot name slot) = a := by
      refine modifyValue_eq_self fun x hx => Value.setSlot_eq_self ?_
      rw [slot?, hx] at hs
      exact hs
    rw [assign_of_hasMembers hv, hw, hself, slotOrNew, hs, Option.getD_some, bne_self_eq_false]
  · exact assign_of_not_hasMembers hv name values

/-! ### Adding prototypes -/

/-- Adding prototypes does nothing if they are known, and sets the prototypes otherwise. -/
theorem addPrototypes_cases (a : Analysis) (v : ValueId) (prototypes : ValueSet) :
    (a.Knows (.draws v prototypes) ∧
      a.addPrototypes v prototypes = { answer := false, state := a }) ∨
    ∃ members known, a.kind? v = some (.inheritor members known) ∧
      ¬ a.Knows (.draws v prototypes) ∧
      (a.addPrototypes v prototypes).state =
        a.modifyValue v ({ · with kind := .inheritor members (known ∪ prototypes) }) := by
  by_cases hv : a.IsInheritor v
  · obtain ⟨members, known, hk⟩ := hv
    have hd : ∀ p, p ∈ known ↔ a.Draws v p := by
      intro p
      rw [← mem_prototypes, Analysis.prototypes, hk]
      rfl
    have hknows : a.Knows (.draws v prototypes) ↔ (known ∪ prototypes).size = known.size := by
      constructor
      · intro h
        rw [ValueSet.union_eq_left fun p hp => (hd p).mpr (h ⟨members, known, hk⟩ p hp)]
      · exact fun h _ p hp => (hd p).mp (ValueSet.subset_of_size_union h hp)
    unfold addPrototypes
    rw [hk]
    by_cases hs : (known ∪ prototypes).size = known.size
    · exact .inl ⟨hknows.mpr hs, if_pos hs⟩
    · refine .inr ⟨members, known, rfl, mt hknows.mp hs, ?_⟩
      dsimp only
      rw [if_neg hs]
  · refine .inl ⟨fun h => absurd h hv, ?_⟩
    unfold addPrototypes
    split
    · next members known hk => exact absurd ⟨members, known, hk⟩ hv
    · rfl

section

variable {members : Members} {known : ValueSet} (hk : a.kind? v = some (.inheritor members known))
  (grown : ValueSet)

include hk

/-- The shapes after the prototypes of an inheritor were set. -/
theorem kind?_setPrototypes (u : ValueId) :
    (a.modifyValue v ({ · with kind := .inheritor members grown })).kind? u =
      if v = u then some (.inheritor members grown) else a.kind? u := by
  rw [kind?, value?_modifyValue]
  split
  · next h =>
    subst h
    obtain ⟨x, hx, -⟩ := Option.map_eq_some_iff.mp hk
    rw [hx]
    rfl
  · rfl

theorem aligned_setPrototypes :
    a.Aligned (a.modifyValue v ({ · with kind := .inheritor members grown })) := by
  refine ⟨rfl, rfl, fun u => ?_⟩
  rw [value?_modifyValue]
  split
  · next h =>
    subst h
    obtain ⟨x, hx, hxk⟩ := Option.map_eq_some_iff.mp hk
    simp [hx, Value.bare, hxk, Kind.bare]
  · rfl

theorem slot?_setPrototypes (u : ValueId) (name : String) :
    (a.modifyValue v ({ · with kind := .inheritor members grown })).slot? u name =
      a.slot? u name := by
  rw [slot?_eq_bind, slot?_eq_bind, kind?_setPrototypes hk]
  split
  · next h =>
    subst h
    rw [hk]
    rfl
  · rfl

theorem draws_setPrototypes_iff (u p : ValueId) :
    (a.modifyValue v ({ · with kind := .inheritor members grown })).Draws u p ↔
      if v = u then p ∈ grown else a.Draws u p := by
  rw [Draws, kind?_setPrototypes hk]
  split
  · simp
  · rfl

end

theorem aligned_addPrototypes (a : Analysis) (v : ValueId) (prototypes : ValueSet) :
    a.Aligned (a.addPrototypes v prototypes).state := by
  rcases a.addPrototypes_cases v prototypes with ⟨-, he⟩ | ⟨members, known, hk, -, he⟩
  · rw [he]
    exact .refl a
  · rw [he]
    exact aligned_setPrototypes hk _

theorem knows_addPrototypes (a : Analysis) (v : ValueId) (prototypes : ValueSet) :
    (a.addPrototypes v prototypes).state.Knows (.draws v prototypes) := by
  rcases a.addPrototypes_cases v prototypes with ⟨h, he⟩ | ⟨members, known, hk, -, he⟩
  · rw [he]
    exact h
  · rw [he]
    intro _ p hp
    rw [draws_setPrototypes_iff hk, if_pos rfl]
    exact ValueSet.mem_union.mpr (.inr hp)

/-- Adding prototypes adds no more than it says. -/
theorem Below.addPrototypes (h : a.Below b) {prototypes : ValueSet}
    (hb : b.Knows (.draws v prototypes)) : (a.addPrototypes v prototypes).state.Below b := by
  rcases a.addPrototypes_cases v prototypes with ⟨-, he⟩ | ⟨members, known, hk, -, he⟩
  · rw [he]
    exact h
  · rw [he]
    refine ⟨(aligned_setPrototypes hk _).symm.trans h.toAligned, fun u name slot hs => ?_,
      fun u p hp => ?_⟩
    · rw [slot?_setPrototypes hk] at hs
      exact h.types u name slot hs
    · rw [draws_setPrototypes_iff hk] at hp
      split at hp
      · next he =>
        subst he
        rcases ValueSet.mem_union.mp hp with hp | hp
        · exact h.draws v p ⟨members, known, hk, hp⟩
        · exact hb (h.isInheritor_iff.mp ⟨members, known, hk⟩) p hp
      · exact h.draws u p hp

/-! ### Learning -/

/-- Learning a fact goes to a state above, for no operation takes anything back. -/
theorem below_tell (a : Analysis) (f : Fact) : a.Below (a.step f.command).state where
  toAligned := by
    cases f with
    | holds v name values => exact a.aligned_assign v name values
    | draws v prototypes => exact a.aligned_addPrototypes v prototypes
  types _ _ _ hs := (a.step_grows f.command).slot? hs
  draws _ _ hp := (a.step_grows f.command).draws hp

/-- The fact is known there. -/
theorem knows_tell (a : Analysis) (f : Fact) : (a.step f.command).state.Knows f := by
  cases f with
  | holds v name values => exact a.knows_assign v name values
  | draws v prototypes => exact a.knows_addPrototypes v prototypes

/-- Learning goes no further than to the least such state. -/
theorem Below.tell (h : a.Below b) {f : Fact} (hf : b.Knows f) :
    (a.step f.command).state.Below b := by
  cases f with
  | holds v name values => exact h.assign hf
  | draws v prototypes => exact h.addPrototypes hf

/-- A known fact is no news. -/
theorem tell_of_knows {f : Fact} (hf : a.Knows f) :
    a.step f.command = { answer := .flag false, state := a } := by
  cases f with
  | holds v name values =>
      show (a.assign v name values).map Answer.flag = _
      rw [assign_of_knows hf]
      rfl
  | draws v prototypes =>
      show (a.addPrototypes v prototypes).map Answer.flag = _
      rcases a.addPrototypes_cases v prototypes with ⟨-, he⟩ | ⟨-, -, -, hn, -⟩
      · rw [he]
        rfl
      · exact absurd hf hn

theorem below_learn (a : Analysis) (fs : List Fact) : a.Below (a.learn fs).state := by
  induction fs generalizing a with
  | nil => exact .refl a
  | cons f fs ih => exact (a.below_tell f).trans (ih _)

theorem knows_learn (a : Analysis) {fs : List Fact} {f : Fact} (hf : f ∈ fs) :
    (a.learn fs).state.Knows f := by
  induction fs generalizing a with
  | nil => cases hf
  | cons g fs ih =>
      rcases List.mem_cons.mp hf with rfl | hf
      · exact ((a.step f.command).state.below_learn fs).knows (a.knows_tell f)
      · exact ih _ hf

/-- **Learning facts leads to the least state in which they are known.** -/
theorem Below.learn (h : a.Below b) {fs : List Fact} (hfs : ∀ f ∈ fs, b.Knows f) :
    (a.learn fs).state.Below b := by
  induction fs generalizing a with
  | nil => exact h
  | cons f fs ih =>
      obtain ⟨hf, hfs⟩ := List.forall_mem_cons.mp hfs
      exact ih (h.tell hf) hfs

/-- **Learning known facts changes nothing**, and says so of each. -/
theorem learn_of_knows {fs : List Fact} (hfs : ∀ f ∈ fs, a.Knows f) :
    a.learn fs = { answer := fs.map fun _ => .flag false, state := a } := by
  induction fs with
  | nil => rfl
  | cons f fs ih =>
      obtain ⟨hf, hfs⟩ := List.forall_mem_cons.mp hfs
      have hrest : a.run (fs.map Fact.command) = _ := ih hfs
      show a.run (f.command :: fs.map Fact.command) = _
      rw [run, tell_of_knows hf]
      dsimp only
      rw [hrest]
      rfl

/-- Lists that hold the same facts lead to states that are alike. -/
theorem alike_learn {fs gs : List Fact} (h : ∀ f, f ∈ fs ↔ f ∈ gs) :
    (a.learn fs).state.Alike (a.learn gs).state := by
  have hfg : (a.learn fs).state.Below (a.learn gs).state :=
    (a.below_learn gs).learn fun f hf => a.knows_learn ((h f).mp hf)
  have hgf : (a.learn gs).state.Below (a.learn fs).state :=
    (a.below_learn fs).learn fun f hf => a.knows_learn ((h f).mpr hf)
  exact hfg.antisymm hgf

/-! ### Answers -/

/-- Every question has the same answer in both states; members may be listed in another order. -/
structure AnswersAlike (a b : Analysis) : Prop where
  lookup : ∀ v name site, (a.lookup v name site).answer = (b.lookup v name site).answer
  index : ∀ v is site, (a.index v is site).answer = (b.index v is site).answer
  property : ∀ v name, (a.property v name).answer = (b.property v name).answer
  propertyValue : ∀ d site, (a.propertyValue d site).answer = (b.propertyValue d site).answer
  members : ∀ v accessor name,
    (a.members v accessor).answer.get? name = (b.members v accessor).answer.get? name

theorem Alike.withOptions (h : a.Alike b) (o : Options) :
    (a.withOptions o).Alike (b.withOptions o) :=
  ⟨⟨h.bare, h.types, h.prototypes⟩, h.standing, rfl⟩

theorem Alike.answersAlike (h : a.Alike b) (hl : a.options.limits = b.options.limits) :
    a.AnswersAlike b where
  lookup v name site := h.lookup hl v name site site
  index v is site := h.index hl v is site site
  property v name := h.property hl v name
  propertyValue d site := h.propertyValue hl d site site
  members v accessor name := h.members hl v accessor accessor name

/-- **Neither the order nor the repetition of facts matters.**  From any state, lists that hold the
same facts, in any order and each any number of times, lead to states in which every question has
the same answer, under any options; and to learn the facts of a list again at once is no news at any
step and leaves the state as it is. -/
theorem facts_commute (a : Analysis) {fs gs : List Fact} (h : ∀ f, f ∈ fs ↔ f ∈ gs) :
    (∀ o, ((a.learn fs).state.withOptions o).AnswersAlike ((a.learn gs).state.withOptions o)) ∧
    (a.learn fs).state.learn fs =
      { answer := fs.map fun _ => .flag false, state := (a.learn fs).state, log := [] } := by
  refine ⟨fun o => ?_, learn_of_knows fun f hf => a.knows_learn hf⟩
  exact ((alike_learn h).withOptions o).answersAlike rfl

/-- An object, and an inheritor that draws on nothing yet. -/
def unlearned : Analysis :=
  ((fresh {}).run [.createObject .builtin, .createInheritor .builtin ∅]).state

/-- Facts about both, and about an identity that stands for no value. -/
def someFacts : List Fact :=
  [.holds ⟨1⟩ "x" (.singleton ⟨0⟩), .holds ⟨1⟩ "y" (.singleton ⟨2⟩),
    .draws ⟨2⟩ (.ofList [⟨1⟩, ⟨2⟩]), .holds ⟨7⟩ "x" (.singleton ⟨0⟩)]

theorem facts_commute_unlearned :
    (∀ f, f ∈ someFacts ↔ f ∈ someFacts.reverse ++ someFacts) ∧
    (unlearned.learn someFacts).state ≠
      (unlearned.learn (someFacts.reverse ++ someFacts)).state ∧
    (∀ o, ((unlearned.learn someFacts).state.withOptions o).AnswersAlike
      ((unlearned.learn (someFacts.reverse ++ someFacts)).state.withOptions o)) ∧
    (unlearned.learn someFacts).state.learn someFacts =
      { answer := someFacts.map fun _ => .flag false
        state := (unlearned.learn someFacts).state
        log := [] } := by
  have h : ∀ f, f ∈ someFacts ↔ f ∈ someFacts.reverse ++ someFacts := by
    intro f
    simp
  exact ⟨h, by decide +kernel, facts_commute unlearned h⟩

end Analysis

end Prototypal
