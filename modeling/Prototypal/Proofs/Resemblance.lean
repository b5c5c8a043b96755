import Prototypal.Proofs.Description
import Prototypal.Proofs.Enumeration

/-!
# Prototypal — Proofs — Resemblance

What a question depends on.  A value without what is learnt about it is *bare* (`Value.bare`): its
members and prototypes are left out.  Two states *agree* (`Agrees`) when their values are alike
bare, may hold the same in the same members, and have the same prototypes; they are *alike*
(`Alike`) when the same units stand in them, too, and both or none of them hide dead values.  The
versions of units, the order of members and where these were read may differ.

* `alike_setUsages`: a state in which the usages of a slot were set is alike to the one before, and
  so is one in which the steps of a reading were carried out (`alike_performAll`).
* `Agrees.explore`, `Agrees.describe`, `Agrees.evaluate`: descents through states that agree are the
  same, steps and guard included.
* `Alike.lookup`, `Agrees.property`, `Alike.propertyValue`, `Alike.index`, `Alike.members`: under
  the same limits, states that are alike answer alike.

The members that several names stand for are explored one after the other under one guard, and the
site is recorded in between; `readAll` is that descent without the recording (`readNames_answer`).
-/

namespace Prototypal

/-- The shape of a value without its members and prototypes. -/
def Kind.bare : Kind → Kind
  | object _ => object ∅
  | function name _ args => function name ∅ args
  | inheritor _ _ => inheritor ∅ ∅
  | k => k

namespace Kind

@[simp] theorem bare_withMembers (k : Kind) (ms : Members) : (k.withMembers ms).bare = k.bare := by
  cases k <;> rfl

@[simp] theorem prototypes?_withMembers (k : Kind) (ms : Members) :
    (k.withMembers ms).prototypes? = k.prototypes? := by
  cases k <;> rfl

@[simp] theorem isInheritor_bare (k : Kind) : k.bare.isInheritor = k.isInheritor := by
  cases k <;> rfl

@[simp] theorem number?_bare (k : Kind) : k.bare.number? = k.number? := by
  cases k <;> rfl

@[simp] theorem args?_bare (k : Kind) : k.bare.args? = k.args? := by
  cases k <;> rfl

@[simp] theorem isSome_members?_bare (k : Kind) : k.bare.members?.isSome = k.members?.isSome := by
  cases k <;> rfl

theorem members?_withMembers {k : Kind} {ms : Members} (h : k.members? = some ms) (ns : Members) :
    (k.withMembers ns).members? = some ns := by
  cases k with
  | object _ | function _ _ _ | inheritor _ _ => rfl
  | undefined | null | boolean _ | number _ | text _ | arguments _ => cases h

end Kind

namespace Value

/-- The value without its members and prototypes. -/
def bare (x : Value) : Value := { x with kind := x.kind.bare }

@[simp] theorem bare_setSlot (x : Value) (name : String) (slot : Slot) :
    (x.setSlot name slot).bare = x.bare := by
  unfold setSlot
  split
  · simp [bare]
  · rfl

@[simp] theorem prototypes?_setSlot (x : Value) (name : String) (slot : Slot) :
    (x.setSlot name slot).kind.prototypes? = x.kind.prototypes? := by
  unfold setSlot
  split
  · simp
  · rfl

/-- What the own members of a value are after one of them was set. -/
theorem slot?_setSlot (x : Value) (name name' : String) (slot : Slot) :
    (x.setSlot name slot).slot? name' =
      if name = name' then x.kind.members?.map fun _ => slot else x.slot? name' := by
  cases hm : x.kind.members? with
  | none => simp [setSlot, slot?, hm]
  | some ms =>
      simp only [setSlot, slot?, hm, Kind.members?_withMembers hm, Option.bind_some,
        Roster.get?_set, Option.map_some]

end Value

namespace Analysis

variable {a b c : Analysis}

/-- Two states whose values differ in the order and the usages of members only. -/
structure Agrees (a b : Analysis) : Prop where
  bare : ∀ v, (a.value? v).map Value.bare = (b.value? v).map Value.bare
  types : ∀ v name, (a.slot? v name).map Slot.types = (b.slot? v name).map Slot.types
  prototypes : ∀ v, a.prototypes v = b.prototypes v

/-- Two states that differ in the order and the usages of members only, and in units, if not in
which of them stand. -/
structure Alike (a b : Analysis) : Prop extends a.Agrees b where
  standing : a.isStanding = b.isStanding
  hidesDead : a.options.hidesDead = b.options.hidesDead

namespace Agrees

theorem symm (h : a.Agrees b) : b.Agrees a :=
  ⟨fun v => (h.bare v).symm, fun v name => (h.types v name).symm, fun v => (h.prototypes v).symm⟩

theorem trans (h : a.Agrees b) (h' : b.Agrees c) : a.Agrees c :=
  ⟨fun v => (h.bare v).trans (h'.bare v), fun v name => (h.types v name).trans (h'.types v name),
    fun v => (h.prototypes v).trans (h'.prototypes v)⟩

/-- States of the same values agree. -/
theorem of_values (h : a.values = b.values) : a.Agrees b := by
  have hv : ∀ v, a.value? v = b.value? v := fun v => by rw [value?, h, ← value?]
  refine ⟨fun v => by rw [hv], fun v name => by rw [slot?, hv, ← slot?], fun v => ?_⟩
  rw [Analysis.prototypes, Analysis.prototypes, kind?, kind?, hv]

end Agrees

namespace Alike

theorem refl (a : Analysis) : a.Alike a := ⟨.of_values rfl, rfl, rfl⟩

theorem symm (h : a.Alike b) : b.Alike a := ⟨h.toAgrees.symm, h.standing.symm, h.hidesDead.symm⟩

theorem trans (h : a.Alike b) (h' : b.Alike c) : a.Alike c :=
  ⟨h.toAgrees.trans h'.toAgrees, h.standing.trans h'.standing, h.hidesDead.trans h'.hidesDead⟩

end Alike

/-! ### Setting a slot -/

theorem prototypes_modifyValue_setSlot (a : Analysis) (v u : ValueId) (name : String)
    (slot : Slot) : (a.modifyValue v (·.setSlot name slot)).prototypes u = a.prototypes u := by
  simp only [prototypes, kind?, value?_modifyValue]
  split
  · cases a.value? u <;> simp
  · rfl

theorem bare_modifyValue_setSlot (a : Analysis) (v u : ValueId) (name : String) (slot : Slot) :
    ((a.modifyValue v (·.setSlot name slot)).value? u).map Value.bare =
      (a.value? u).map Value.bare := by
  rw [value?_modifyValue]
  split
  · cases a.value? u <;> simp
  · rfl

/-- What an own member is after one of a value was set. -/
theorem slot?_modifyValue_setSlot (a : Analysis) (v u : ValueId) (name name' : String)
    (slot : Slot) :
    (a.modifyValue v (·.setSlot name slot)).slot? u name' =
      if v = u ∧ name = name' then ((a.kind? u).bind Kind.members?).map fun _ => slot
      else a.slot? u name' := by
  rw [slot?, value?_modifyValue, slot?, kind?]
  by_cases hv : v = u
  · cases a.value? u with
    | none => simp
    | some x => simp [hv, Value.slot?_setSlot]
  · simp [hv]

/-- A value with an own member is object-like. -/
theorem exists_members?_of_slot? {v : ValueId} {name : String} {slot : Slot}
    (h : a.slot? v name = some slot) :
    ∃ ms, (a.kind? v).bind Kind.members? = some ms ∧ ms.get? name = some slot := by
  obtain ⟨x, hx, hxs⟩ := Option.bind_eq_some_iff.mp h
  obtain ⟨ms, hm, hs⟩ := Option.bind_eq_some_iff.mp hxs
  exact ⟨ms, by rw [kind?, hx]; exact hm, hs⟩

/-- **Recording does not bear on answers**: a state in which the usages of a slot were set is
alike. -/
theorem alike_setUsages {v : ValueId} {name : String} {slot : Slot}
    (hs : a.slot? v name = some slot) (usages : UsageBook) :
    a.Alike (a.modifyValue v (·.setSlot name { slot with usages })) := by
  refine ⟨⟨fun u => (bare_modifyValue_setSlot a v u name _).symm, fun u name' => ?_,
    fun u => (prototypes_modifyValue_setSlot a v u name _).symm⟩, rfl, rfl⟩
  rw [slot?_modifyValue_setSlot]
  split
  · next h =>
    obtain ⟨rfl, rfl⟩ := h
    obtain ⟨ms, hm, -⟩ := exists_members?_of_slot? hs
    simp [hs, hm]
  · rfl

theorem alike_performAll (a : Analysis) (name : String) (site : Option Site) (steps : List Step) :
    a.Alike (a.performAll name site steps).1 :=
  performAll_preserves (I := a.Alike)
    (fun _ _ _ usages hs hb => hb.trans (alike_setUsages hs usages)) site steps (.refl a)

/-! ### What states that agree share -/

theorem map_bare_kind? {v : ValueId}
    (h : (a.value? v).map Value.bare = (b.value? v).map Value.bare) :
    (a.kind? v).map Kind.bare = (b.kind? v).map Kind.bare := by
  have hv := congrArg (Option.map Value.kind) h
  simpa [kind?, Value.bare, Function.comp_def] using hv

/-- What the bare shape of a value decides is the same. -/
theorem isSome_bind_kind? {β : Type} {f : Kind → Option β}
    (hf : ∀ k, (f k.bare).isSome = (f k).isSome) {v : ValueId}
    (h : (a.value? v).map Value.bare = (b.value? v).map Value.bare) :
    ((a.kind? v).bind f).isSome = ((b.kind? v).bind f).isSome := by
  have hb : ∀ c : Analysis, ((c.kind? v).bind f).isSome =
      (((c.kind? v).map Kind.bare).bind f).isSome := by
    intro c
    cases c.kind? v with
    | none => rfl
    | some k => exact (hf k).symm
  rw [hb, hb, map_bare_kind? h]

namespace Agrees

theorem kind? (h : a.Agrees b) (v : ValueId) :
    (a.kind? v).map Kind.bare = (b.kind? v).map Kind.bare :=
  map_bare_kind? (h.bare v)

/-- What depends on the bare shape of a value alone is the same. -/
theorem kind?_bind {α : Type} (h : a.Agrees b) {f : Kind → Option α} (hf : ∀ k, f k.bare = f k)
    (v : ValueId) : (a.kind? v).bind f = (b.kind? v).bind f := by
  have hv := congrArg (Option.bind · f) (h.kind? v)
  simpa [Option.bind_map, Function.comp_def, hf] using hv

theorem ownTypes (h : a.Agrees b) (v : ValueId) (name : String) :
    a.ownTypes v name = b.ownTypes v name :=
  congrArg (Option.getD · ∅) (h.types v name)

theorem isSome_slot? (h : a.Agrees b) (v : ValueId) (name : String) :
    (a.slot? v name).isSome = (b.slot? v name).isSome := by
  simpa using congrArg Option.isSome (h.types v name)

theorem isPlain_iff (h : a.Agrees b) (v : ValueId) : a.IsPlain v ↔ b.IsPlain v := by
  have plain : ∀ {c d : Analysis}, c.Agrees d → c.IsPlain v → d.IsPlain v := by
    rintro c d h ⟨ms, hk | ⟨f, args, hk⟩⟩
    · have hd := h.kind? v
      rw [hk] at hd
      obtain ⟨k, hk', hb⟩ := Option.map_eq_some_iff.mp hd.symm
      cases k <;> cases hb
      exact ⟨_, .inl hk'⟩
    · have hd := h.kind? v
      rw [hk] at hd
      obtain ⟨k, hk', hb⟩ := Option.map_eq_some_iff.mp hd.symm
      cases k <;> cases hb
      exact ⟨_, .inr ⟨_, _, hk'⟩⟩
  exact ⟨plain h, plain h.symm⟩

theorem inheritorCount (h : a.Agrees b) : a.inheritorCount = b.inheritorCount := by
  have hl : a.values.toList.map Value.bare = b.values.toList.map Value.bare := by
    refine List.ext_getElem? fun i => ?_
    simpa [value?] using h.bare ⟨i⟩
  have count : ∀ vs : List Value,
      vs.countP (·.kind.isInheritor) = (vs.map Value.bare).countP (·.kind.isInheritor) := by
    intro vs
    simp [List.countP_map, Function.comp_def, Value.bare]
  rw [Analysis.inheritorCount, count, hl, ← count]
  rfl

end Agrees

namespace Alike

theorem isAlive (h : a.Alike b) (v : ValueId) : a.isAlive v = b.isAlive v := by
  have hv := congrArg (Option.any fun x => Prototypal.isAlive a.isStanding x.tether) (h.bare v)
  simpa [Analysis.isAlive, ← h.standing, Option.any_map, Function.comp_def, Value.bare] using hv

theorem shown (h : a.Alike b) (s : ValueSet) : a.shown s = b.shown s := by
  rw [Analysis.shown, Analysis.shown, h.hidesDead, living, living, funext h.isAlive]

end Alike

/-! ### Descents -/

theorem exploreLevels_congr {α : Type} (own : ValueId → α) (merge : α → α → α)
    (hp : ∀ v, a.prototypes v = b.prototypes v) (n : Nat) :
    a.exploreLevels own merge n = b.exploreLevels own merge n := by
  induction n with
  | zero => rfl
  | succ n ih =>
      funext g v
      rw [exploreLevels, exploreLevels, ih, hp]

theorem describes_congr (h : a.Agrees b) {name : String} {v : ValueId} {d : Descriptor}
    (hd : a.Describes name v d) : b.Describes name v d := by
  cases hd with
  | stored hp hs =>
      refine (describes_iff_of_isPlain ((h.isPlain_iff v).mp hp)).mpr ⟨?_, rfl⟩
      rw [← h.isSome_slot? v name, hs]
      rfl
  | merged hb =>
      refine .merged ?_
      rw [Branches, ← h.prototypes v]
      exact hb

theorem describeLevels_congr (h : a.Agrees b) (name : String) (n : Nat) :
    a.describeLevels name n = b.describeLevels name n := by
  -- where deferrals stop, both find the descriptor of the value itself
  have stops : ∀ n (g : Guard ValueId) v, a.Stops v →
      a.describeLevels name n g v = b.describeLevels name n g v := by
    intro n g v hs
    have hs' : b.Stops v := fun p hp => hs p ((h.prototypes v).trans hp)
    obtain ⟨found, he, hf⟩ := describeLevels_of_stops hs name n g
    obtain ⟨found', he', hf'⟩ := describeLevels_of_stops hs' name n g
    have heq : found = found' := Option.ext fun d =>
      (hf d).trans (⟨describes_congr h, describes_congr h.symm⟩ : _ ↔ _) |>.trans (hf' d).symm
    rw [he, he', heq]
  induction n with
  | zero =>
      funext g v
      by_cases hs : a.Stops v
      · exact stops 0 g v hs
      · obtain ⟨p, hp⟩ := not_forall_not.mp hs
        rw [describeLevels_zero_of_defers hp,
          describeLevels_zero_of_defers ((h.prototypes v).symm.trans hp)]
  | succ n ih =>
      funext g v
      by_cases hs : a.Stops v
      · exact stops (n + 1) g v hs
      · obtain ⟨p, hp⟩ := not_forall_not.mp hs
        rw [describeLevels_succ_of_defers hp,
          describeLevels_succ_of_defers ((h.prototypes v).symm.trans hp), ih]

theorem contribution_congr (h : a.Agrees b) (name : String)
    (read : Guard ValueId → Descriptor → Descent ValueSet) :
    a.contribution name read = b.contribution name read := by
  funext g p
  rw [contribution, contribution, describe, describe, describeLevels_congr h, levels, levels,
    h.inheritorCount]

theorem evaluateLevels_congr (h : a.Agrees b) (n : Nat) :
    a.evaluateLevels n = b.evaluateLevels n := by
  induction n with
  | zero =>
      funext g d
      cases d with
      | stored owner name => rw [evaluateLevels_stored, evaluateLevels_stored, h.ownTypes]
      | merged v name => rfl
  | succ n ih =>
      funext g d
      cases d with
      | stored owner name => rw [evaluateLevels_stored, evaluateLevels_stored, h.ownTypes]
      | merged v name =>
          rw [evaluateLevels_merged, evaluateLevels_merged, contribution_congr h, ih, h.prototypes]

namespace Agrees

theorem explore {α : Type} (h : a.Agrees b) (own : ValueId → α) (merge : α → α → α)
    (g : Guard ValueId) (v : ValueId) : a.explore own merge g v = b.explore own merge g v := by
  rw [Analysis.explore, Analysis.explore, exploreLevels_congr own merge h.prototypes, levels,
    levels, h.inheritorCount]

theorem explore_ownTypes (h : a.Agrees b) (name : String) (g : Guard ValueId) (v : ValueId) :
    a.explore (a.ownTypes · name) (· ∪ ·) g v = b.explore (b.ownTypes · name) (· ∪ ·) g v := by
  rw [h.explore, funext fun u => h.ownTypes u name]

theorem describe (h : a.Agrees b) (name : String) (g : Guard ValueId) (v : ValueId) :
    a.describe name g v = b.describe name g v := by
  rw [Analysis.describe, Analysis.describe, describeLevels_congr h, levels, levels,
    h.inheritorCount]

theorem evaluate (h : a.Agrees b) (g : Guard ValueId) (d : Descriptor) :
    a.evaluate g d = b.evaluate g d := by
  rw [Analysis.evaluate, Analysis.evaluate, evaluateLevels_congr h, levels, levels,
    h.inheritorCount]

end Agrees

/-! ### Several names -/

/-- The descent to what any of the named members of `v` may hold, all of them explored under one
guard. -/
def readAll (a : Analysis) (v : ValueId) : Guard ValueId → List String → Descent ValueSet
  | g, [] => ⟨∅, [], g⟩
  | g, name :: names =>
    (a.explore (a.ownTypes · name) (· ∪ ·) g v).andThen fun g s =>
      let rest := a.readAll v g names
      { rest with result := s ∪ rest.result }

theorem readAll_cons (a : Analysis) (v : ValueId) (g : Guard ValueId) (name : String)
    (names : List String) :
    a.readAll v g (name :: names) =
      ⟨(a.explore (a.ownTypes · name) (· ∪ ·) g v).result ∪
          (a.readAll v (a.explore (a.ownTypes · name) (· ∪ ·) g v).guard names).result,
        (a.explore (a.ownTypes · name) (· ∪ ·) g v).trace ++
          (a.readAll v (a.explore (a.ownTypes · name) (· ∪ ·) g v).guard names).trace,
        (a.readAll v (a.explore (a.ownTypes · name) (· ∪ ·) g v).guard names).guard⟩ := rfl

theorem Agrees.readAll (h : a.Agrees b) (v : ValueId) (g : Guard ValueId) (names : List String) :
    a.readAll v g names = b.readAll v g names := by
  induction names generalizing g with
  | nil => rfl
  | cons name names ih => rw [readAll_cons, readAll_cons, h.explore_ownTypes, ih]

theorem alike_readNames (a : Analysis) (v : ValueId) (site : Option Site) (g : Guard ValueId)
    (names : List String) : a.Alike (a.readNames v site g names).state :=
  readNames_preserves (I := a.Alike)
    (fun _ _ _ _ usages hs hb => hb.trans (alike_setUsages hs usages)) v site g names (.refl a)

/-- Reading several names finds what the descent without recording finds. -/
theorem readNames_answer (a : Analysis) (v : ValueId) (site : Option Site) (g : Guard ValueId)
    (names : List String) : (a.readNames v site g names).answer = (a.readAll v g names).result := by
  induction names generalizing a g with
  | nil => rfl
  | cons name names ih =>
      have h := a.alike_performAll name site (a.explore (a.ownTypes · name) (· ∪ ·) g v).trace
      rw [readAll_cons, h.readAll, ← ih]
      rfl

/-- What reading several names answers. -/
theorem shown_readNames_answer (a : Analysis) (v : ValueId) (site : Option Site)
    (g : Guard ValueId) (names : List String) :
    (a.readNames v site g names).shown.answer = a.shown (a.readAll v g names).result := by
  rw [Reply.shown, ← (a.alike_readNames v site g names).shown, readNames_answer]

/-! ### Answers -/

/-- `v` is object-like: it can have members of its own. -/
def HasMembers (a : Analysis) (v : ValueId) : Prop := ((a.kind? v).bind Kind.members?).isSome

instance (a : Analysis) (v : ValueId) : Decidable (a.HasMembers v) :=
  inferInstanceAs (Decidable (((a.kind? v).bind Kind.members?).isSome = true))

/-- The member names that an index stands for. -/
def indexNames (a : Analysis) (index : ValueSet) : List String :=
  index.toList.filterMap a.indexName?

/-- A value is object-like, is an argument list, or cannot be indexed. -/
theorem indexing_cases (a : Analysis) (v : ValueId) :
    a.HasMembers v ∨ (∃ f, a.kind? v = some (.arguments f)) ∨
      (¬ a.HasMembers v ∧ ∀ f, a.kind? v ≠ some (.arguments f)) := by
  by_cases hm : a.HasMembers v
  · exact .inl hm
  by_cases hf : ∃ f, a.kind? v = some (.arguments f)
  · exact .inr (.inl hf)
  · exact .inr (.inr ⟨hm, not_exists.mp hf⟩)

theorem not_hasMembers_of_arguments {v f : ValueId} (hk : a.kind? v = some (.arguments f)) :
    ¬ a.HasMembers v := by
  rw [HasMembers, hk]
  exact Bool.false_ne_true

section

variable {v : ValueId} (is : ValueSet) (site : Option Site)

/-- Indexing what has members reads those that the index stands for. -/
theorem index_of_hasMembers (hm : a.HasMembers v) :
    a.index v is site = (a.readNames v (a.recordedSite site) a.guard (a.indexNames is)).shown := by
  rw [HasMembers] at hm
  rw [Analysis.index]
  cases hk : a.kind? v with
  | none =>
      rw [hk] at hm
      cases hm
  | some k =>
      rw [hk] at hm
      cases k with
      | object _ | function _ _ _ | inheritor _ _ => rfl
      | undefined | null | boolean _ | number _ | text _ | arguments _ => cases hm

/-- Indexing an argument list reads the arguments that its function is bound to. -/
theorem index_of_arguments {f : ValueId} (hk : a.kind? v = some (.arguments f)) :
    a.index v is site = Reply.shown { answer := a.argumentsAt f is, state := a } := by
  rw [Analysis.index, hk]

/-- Indexing anything else gives nothing. -/
theorem index_of_not (hm : ¬ a.HasMembers v) (hf : ∀ f, a.kind? v ≠ some (.arguments f)) :
    a.index v is site = { answer := ∅, state := a } := by
  rw [HasMembers] at hm
  rw [Analysis.index]
  cases hk : a.kind? v with
  | none => rfl
  | some k =>
      rw [hk] at hm
      cases k with
      | object _ | function _ _ _ | inheritor _ _ => exact absurd rfl hm
      | arguments f => exact absurd hk (hf f)
      | undefined | null | boolean _ | number _ | text _ => rfl

end

/-- The member name that a constant stands for, by its bare shape. -/
theorem indexName?_eq (a : Analysis) (v : ValueId) :
    a.indexName? v =
      match (a.kind? v).map Kind.bare with
      | some (.text s) => some s
      | some (.number n) => (n.nat?.filter (· ≤ Count.top)).map toString
      | _ => none := by
  unfold indexName?
  cases a.kind? v with
  | none => rfl
  | some k => cases k <;> rfl

namespace Agrees

theorem indexNames (h : a.Agrees b) (index : ValueSet) :
    a.indexNames index = b.indexNames index := by
  have hn : a.indexName? = b.indexName? := by
    funext v
    rw [indexName?_eq, indexName?_eq, h.kind?]
  rw [Analysis.indexNames, Analysis.indexNames, hn]

theorem hasMembers_iff (h : a.Agrees b) {v : ValueId} : a.HasMembers v ↔ b.HasMembers v := by
  rw [HasMembers, HasMembers, isSome_bind_kind? Kind.isSome_members?_bare (h.bare v)]

theorem kind?_arguments (h : a.Agrees b) {v f : ValueId} (hk : a.kind? v = some (.arguments f)) :
    b.kind? v = some (.arguments f) := by
  have hb := h.kind? v
  rw [hk] at hb
  obtain ⟨k, hk', hbare⟩ := Option.map_eq_some_iff.mp hb.symm
  cases k <;> cases hbare
  exact hk'

theorem argumentsAt (h : a.Agrees b) (function : ValueId) (index : ValueSet) :
    a.argumentsAt function index = b.argumentsAt function index := by
  have hp : a.position? = b.position? := by
    funext i
    rw [position?, position?, h.kind?_bind Kind.number?_bare]
  rw [Analysis.argumentsAt, Analysis.argumentsAt, hp, h.kind?_bind Kind.args?_bare]

theorem guard (hl : a.options.limits = b.options.limits) : a.guard = b.guard := by
  rw [Analysis.guard, Analysis.guard, hl]

section

variable (h : a.Agrees b) (hl : a.options.limits = b.options.limits)

include h hl

theorem property (v : ValueId) (name : String) :
    (a.property v name).answer = (b.property v name).answer := by
  rw [Analysis.property, Analysis.property, h.describe, guard hl]

theorem visited (v : ValueId) : a.visited v = b.visited v := by
  -- the values visited are those of the exploration for any one name
  have hv : ∀ c : Analysis,
      c.visited v = (c.explore (c.ownTypes · "") (· ∪ ·) c.guard v).visits := by
    intro c
    rw [explore_ownTypes_eq, Descent.visits_map, Analysis.visited]
  rw [hv, hv, h.explore_ownTypes, guard hl]

theorem visitedUnion (v : ValueId) (name : String) :
    a.visitedUnion v name = b.visitedUnion v name := by
  rw [Analysis.visitedUnion, Analysis.visitedUnion, h.visited hl,
    funext fun u => h.ownTypes u name]

/-! Questions find the same, but it may be shown otherwise. -/

variable (v : ValueId) (site site' : Option Site)

theorem lookup_shown (name : String) :
    ∃ s, (a.lookup v name site).answer = a.shown s ∧
      (b.lookup v name site').answer = b.shown s := by
  refine ⟨_, lookup_answer a v name site, ?_⟩
  rw [lookup_answer, h.explore_ownTypes, guard hl]

theorem propertyValue_shown (d : Descriptor) :
    ∃ s, (a.propertyValue d site).answer = a.shown s ∧
      (b.propertyValue d site').answer = b.shown s := by
  refine ⟨_, propertyValue_answer a d site, ?_⟩
  rw [propertyValue_answer, h.evaluate, guard hl]

theorem index_shown (is : ValueSet) :
    ∃ s, (a.index v is site).answer = a.shown s ∧ (b.index v is site').answer = b.shown s := by
  rcases a.indexing_cases v with hm | ⟨f, hk⟩ | ⟨hm, hf⟩
  · rw [index_of_hasMembers is site hm, index_of_hasMembers is site' (h.hasMembers_iff.mp hm),
      shown_readNames_answer, shown_readNames_answer, h.readAll, h.indexNames, guard hl]
    exact ⟨_, rfl, rfl⟩
  · rw [index_of_arguments is site hk, index_of_arguments is site' (h.kind?_arguments hk),
      h.argumentsAt]
    exact ⟨_, rfl, rfl⟩
  · have hf' : ∀ f, b.kind? v ≠ some (.arguments f) := fun f hk =>
      hf f (h.symm.kind?_arguments hk)
    rw [index_of_not is site hm hf, index_of_not is site' (mt h.hasMembers_iff.mpr hm) hf']
    exact ⟨∅, a.shown_empty.symm, b.shown_empty.symm⟩

end

end Agrees

/-! States that are alike, under the same limits, answer alike. -/

namespace Alike

variable (h : a.Alike b) (hl : a.options.limits = b.options.limits)

include h hl

theorem lookup (v : ValueId) (name : String) (site site' : Option Site) :
    (a.lookup v name site).answer = (b.lookup v name site').answer := by
  obtain ⟨s, ha, hb⟩ := h.lookup_shown hl v site site' name
  rw [ha, hb, h.shown]

theorem propertyValue (d : Descriptor) (site site' : Option Site) :
    (a.propertyValue d site).answer = (b.propertyValue d site').answer := by
  obtain ⟨s, ha, hb⟩ := h.propertyValue_shown hl site site' d
  rw [ha, hb, h.shown]

theorem index (v : ValueId) (is : ValueSet) (site site' : Option Site) :
    (a.index v is site).answer = (b.index v is site').answer := by
  obtain ⟨s, ha, hb⟩ := h.index_shown hl v site site' is
  rw [ha, hb, h.shown]

/-- All members are the same, but maybe in another order. -/
theorem members (v : ValueId) (accessor accessor' : UnitId) (name : String) :
    (a.members v accessor).answer.get? name = (b.members v accessor').answer.get? name := by
  refine Option.ext fun s => ?_
  rw [get?_members_eq_some_iff, get?_members_eq_some_iff, h.visited hl, h.visitedUnion hl, h.shown]
  simp only [h.isSome_slot?]

end Alike

end Analysis

end Prototypal
