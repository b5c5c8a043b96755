import Mathlib.Data.List.Count
import Prototypal.Analysis.Command
import Prototypal.Proofs.Inheritance
import Prototypal.Proofs.Recording

/-!
# Prototypal — Proofs — Growth

What no operation takes back.  `a.Grows b` says that every value of `a` is in `b` with the same
unit, tether, shape and constants, that its prototype set and what its members may hold are at
least what they were, that its members keep their places, and that there are no more values than
identities.

Every operation only lets the state grow (`step_grows`), so every run does (`run_grows`).  A state
is *reachable* when a run leads to it from a fresh analysis (`Reachable`).
-/

namespace Prototypal

/-- The members of `ms` are in `ns` in the same places, and each may hold at least as much. -/
structure Members.Grows (ms ns : Members) : Prop where
  keys : ms.keys <+: ns.keys
  types : ∀ name slot, ms.get? name = some slot →
    ∃ slot', ns.get? name = some slot' ∧ slot.types ⊆ slot'.types

theorem Members.Grows.refl (ms : Members) : Members.Grows ms ms :=
  ⟨List.prefix_refl _, fun _ slot h => ⟨slot, h, fun _ hw => hw⟩⟩

theorem Members.Grows.trans {ms ns os : Members} (h : Members.Grows ms ns)
    (h' : Members.Grows ns os) : Members.Grows ms os := by
  refine ⟨h.keys.trans h'.keys, fun name slot hs => ?_⟩
  obtain ⟨slot', hs', hsub⟩ := h.types name slot hs
  obtain ⟨slot'', hs'', hsub'⟩ := h'.types name slot' hs'
  exact ⟨slot'', hs'', fun _ hw => hsub' (hsub hw)⟩

/-- Setting a slot that may hold at least what the one before could. -/
theorem Members.grows_set {ms : Members} {name : String} {slot : Slot}
    (h : ∀ old, ms.get? name = some old → old.types ⊆ slot.types) :
    Members.Grows ms (ms.set name slot) := by
  refine ⟨?_, fun name' old hold => ?_⟩
  · rw [Roster.keys_set]
    split
    · exact List.prefix_refl _
    · exact List.prefix_append _ _
  · rw [Roster.get?_set]
    by_cases he : name = name'
    · subst he
      exact ⟨slot, if_pos rfl, h old hold⟩
    · exact ⟨old, by rw [if_neg he, hold], fun _ hw => hw⟩

/-- A shape grown: members and prototypes are added, all else stays, but for the arguments that a
function is bound to. -/
inductive Kind.Grows : Kind → Kind → Prop where
  | same (k : Kind) : Grows k k
  | object {ms ns : Members} (h : Members.Grows ms ns) : Grows (.object ms) (.object ns)
  | function {name : String} {ms ns : Members} {args args' : Option (List ValueSet)}
      (h : Members.Grows ms ns) : Grows (.function name ms args) (.function name ns args')
  | inheritor {ms ns : Members} {ps qs : ValueSet} (h : Members.Grows ms ns) (hp : ps ⊆ qs) :
      Grows (.inheritor ms ps) (.inheritor ns qs)

theorem Kind.Grows.trans {k l m : Kind} (h : k.Grows l) (h' : l.Grows m) : k.Grows m := by
  cases h with
  | same => exact h'
  | object h =>
      cases h' with
      | same => exact .object h
      | object h' => exact .object (h.trans h')
  | function h =>
      cases h' with
      | same => exact .function h
      | function h' => exact .function (h.trans h')
  | inheritor h hp =>
      cases h' with
      | same => exact .inheritor h hp
      | inheritor h' hp' => exact .inheritor (h.trans h') fun _ hv => hp' (hp hv)

/-- A value grown. -/
structure Value.Grows (x y : Value) : Prop where
  unit : y.unit = x.unit
  tether : y.tether = x.tether
  kind : x.kind.Grows y.kind

theorem Value.Grows.refl (x : Value) : x.Grows x := ⟨rfl, rfl, .same _⟩

theorem Value.Grows.trans {x y z : Value} (h : x.Grows y) (h' : y.Grows z) : x.Grows z :=
  ⟨h'.unit.trans h.unit, h'.tether.trans h.tether, h.kind.trans h'.kind⟩

theorem Value.grows_setSlot {x : Value} {name : String} {slot : Slot}
    (h : ∀ old, x.slot? name = some old → old.types ⊆ slot.types) :
    x.Grows (x.setSlot name slot) := by
  obtain ⟨u, k, t⟩ := x
  cases k with
  | object ms => exact ⟨rfl, rfl, .object (Members.grows_set h)⟩
  | function f ms args => exact ⟨rfl, rfl, .function (Members.grows_set h)⟩
  | inheritor ms ps => exact ⟨rfl, rfl, .inheritor (Members.grows_set h) fun _ hv => hv⟩
  | undefined | null | boolean _ | number _ | text _ | arguments _ => exact .refl _

namespace Analysis

/-- What no operation takes back. -/
structure Grows (a b : Analysis) : Prop where
  options : b.options = a.options
  size_le : b.values.size ≤ max a.values.size (Count.top + 1)
  value : ∀ v x, a.value? v = some x → ∃ y, b.value? v = some y ∧ x.Grows y

variable {a b c : Analysis}

theorem Grows.of_values (ho : b.options = a.options) (hv : b.values = a.values) : a.Grows b :=
  ⟨ho, hv ▸ Nat.le_max_left _ _, fun v x hx => ⟨x, by rw [value?, hv]; exact hx, .refl x⟩⟩

theorem Grows.refl (a : Analysis) : a.Grows a := .of_values rfl rfl

theorem Grows.trans (h : a.Grows b) (h' : b.Grows c) : a.Grows c := by
  refine ⟨h'.options.trans h.options, ?_, fun v x hx => ?_⟩
  · have h₁ := h.size_le
    have h₂ := h'.size_le
    omega
  · obtain ⟨y, hy, hxy⟩ := h.value v x hx
    obtain ⟨z, hz, hyz⟩ := h'.value v y hy
    exact ⟨z, hz, hxy.trans hyz⟩

theorem grows_modifyValue {v : ValueId} {f : Value → Value}
    (h : ∀ x, a.value? v = some x → x.Grows (f x)) : a.Grows (a.modifyValue v f) := by
  refine ⟨rfl, ?_, fun u x hx => ?_⟩
  · rw [modifyValue, Array.size_modify]
    exact Nat.le_max_left _ _
  · rw [value?_modifyValue]
    by_cases he : v = u
    · subst he
      exact ⟨f x, by rw [if_pos rfl, hx]; rfl, h x hx⟩
    · exact ⟨x, by rw [if_neg he]; exact hx, .refl x⟩

/-! ### Operations -/

theorem grows_create (a : Analysis) (u : UnitId) (kind : Kind) :
    a.Grows (a.create u kind).state := by
  unfold create
  split
  · next hs =>
    refine ⟨rfl, ?_, fun v x hx => ⟨x, ?_, .refl x⟩⟩
    · simp only [Array.size_push]
      exact Nat.le_trans (Nat.succ_le_succ hs) (Nat.le_max_right _ _)
    · obtain ⟨hlt, rfl⟩ := Array.getElem?_eq_some_iff.mp hx
      simp only [value?]
      rw [Array.getElem?_push_lt hlt]
  · exact .refl a

theorem grows_addPrototypes (a : Analysis) (v : ValueId) (prototypes : ValueSet) :
    a.Grows (a.addPrototypes v prototypes).state := by
  unfold addPrototypes
  split
  · next members known hk =>
    dsimp only
    split
    · exact .refl a
    · refine grows_modifyValue fun x hx => ⟨rfl, rfl, ?_⟩
      have hxk : x.kind = .inheritor members known := by
        rw [kind?, hx] at hk
        exact Option.some.inj hk
      rw [hxk]
      exact .inheritor (.refl _) fun w hw => ValueSet.mem_union.mpr (.inl hw)
  · exact .refl a

theorem grows_assign (a : Analysis) (v : ValueId) (name : String) (values : ValueSet) :
    a.Grows (a.assign v name values).state := by
  unfold assign
  split
  · exact .refl a
  · next members hm =>
    refine grows_modifyValue fun x hx => Value.grows_setSlot fun old hold w hw => ?_
    have hxm : x.kind.members? = some members := by
      rw [kind?, hx] at hm
      exact hm
    rw [Value.slot?, hxm] at hold
    rw [show members.get? name = some old from hold]
    exact ValueSet.mem_union.mpr (.inl hw)

theorem grows_bindArguments (a : Analysis) (v : ValueId) (args : List ValueSet) :
    a.Grows (a.bindArguments v args).state := by
  unfold bindArguments
  split
  · next f members old hk =>
    refine grows_modifyValue fun x hx => ⟨rfl, rfl, ?_⟩
    have hxk : x.kind = .function f members old := by
      rw [kind?, hx] at hk
      exact Option.some.inj hk
    rw [hxk]
    exact .function (.refl _)
  · exact .refl a

/-- Where a member was read does not matter. -/
theorem grows_setUsages {v : ValueId} {name : String} {slot : Slot}
    (hs : a.slot? v name = some slot) (usages : UsageBook) :
    a.Grows (a.modifyValue v (·.setSlot name { slot with usages })) := by
  refine grows_modifyValue fun x hx => Value.grows_setSlot fun old hold => ?_
  rw [slot?, hx] at hs
  obtain rfl : old = slot := Option.some.inj (hold.symm.trans hs)
  exact fun _ hw => hw

/-- **Every operation only lets the state grow.** -/
theorem step_grows (a : Analysis) (c : Command) : a.Grows (a.step c).state := by
  cases c with
  | addUnit path =>
      show a.Grows (a.addUnit path).state
      unfold addUnit
      split
      · exact .of_values rfl rfl
      · exact .refl a
  | bumpUnit u =>
      show a.Grows (a.bumpUnit u).state
      unfold bumpUnit
      split
      · exact .refl a
      · exact .of_values rfl rfl
  | detachUnit u =>
      show a.Grows (a.detachUnit u).state
      unfold detachUnit
      split
      · exact .refl a
      · exact .of_values rfl rfl
  | tearDown u => exact .of_values rfl rfl
  | createNull u | createBoolean u _ | createNumber u _ | createText u _ | createObject u
  | createFunction u _ | createInheritor u _ => exact a.grows_create u _
  | createArguments f => exact a.grows_create _ _
  | addPrototypes v prototypes => exact a.grows_addPrototypes v prototypes
  | assign v name values => exact a.grows_assign v name values
  | bindArguments v args => exact a.grows_bindArguments v args
  | lookup _ _ _ | property _ _ | propertyValue _ _ | index _ _ _ | members _ _ =>
      refine query_preserves (I := a.Grows) ?_ rfl (.refl a)
      exact fun b v name slot usages hs hb => hb.trans (grows_setUsages hs usages)

/-- **Every run only lets the state grow.** -/
theorem run_grows (a : Analysis) (cs : List Command) : a.Grows (a.run cs).state := by
  induction cs generalizing a with
  | nil => exact .refl a
  | cons c cs ih => exact (a.step_grows c).trans (ih _)

/-! ### What stays as it was found -/

theorem Grows.kind? (h : a.Grows b) {v : ValueId} {k : Kind} (hk : a.kind? v = some k) :
    ∃ l, b.kind? v = some l ∧ k.Grows l := by
  obtain ⟨x, hx, rfl⟩ := Option.map_eq_some_iff.mp hk
  obtain ⟨y, hy, hxy⟩ := h.value v x hx
  exact ⟨y.kind, by rw [Analysis.kind?, hy]; rfl, hxy.kind⟩

/-- What a value draws on it goes on drawing on. -/
theorem Grows.draws (h : a.Grows b) {v p : ValueId} (hp : a.Draws v p) : b.Draws v p := by
  obtain ⟨members, prototypes, hk, hp⟩ := hp
  obtain ⟨l, hl, hg⟩ := h.kind? hk
  cases hg with
  | same => exact ⟨_, _, hl, hp⟩
  | inheritor _ hsub => exact ⟨_, _, hl, hsub hp⟩

theorem Grows.reaches (h : a.Grows b) {v u : ValueId} (hr : a.Reaches v u) : b.Reaches v u := by
  obtain ⟨ps, hps⟩ := hr
  exact ⟨ps, hps.mono fun _ _ => h.draws⟩

theorem Grows.isPlain (h : a.Grows b) {v : ValueId} (hv : a.IsPlain v) : b.IsPlain v := by
  obtain ⟨members, hk | ⟨f, args, hk⟩⟩ := hv
  · obtain ⟨l, hl, hg⟩ := h.kind? hk
    cases hg <;> exact ⟨_, .inl hl⟩
  · obtain ⟨l, hl, hg⟩ := h.kind? hk
    cases hg <;> exact ⟨_, .inr ⟨_, _, hl⟩⟩

/-- A member keeps what it may hold. -/
theorem Grows.slot? (h : a.Grows b) {v : ValueId} {name : String} {slot : Slot}
    (hs : a.slot? v name = some slot) :
    ∃ slot', b.slot? v name = some slot' ∧ slot.types ⊆ slot'.types := by
  obtain ⟨x, hx, hxs⟩ := Option.bind_eq_some_iff.mp hs
  obtain ⟨y, hy, hxy⟩ := h.value v x hx
  obtain ⟨members, hm, hms⟩ := Option.bind_eq_some_iff.mp hxs
  -- whatever the shape, all that matters is what has become of its members
  have keep : ∀ ns, y.kind.members? = some ns → Members.Grows members ns →
      ∃ slot', b.slot? v name = some slot' ∧ slot.types ⊆ slot'.types := fun ns hns hg => by
    obtain ⟨slot', hs', hsub⟩ := hg.types name slot hms
    exact ⟨slot', by rw [Analysis.slot?, hy]; simp [Value.slot?, hns, hs'], hsub⟩
  obtain ⟨u, k, t⟩ := x
  obtain ⟨u', l, t'⟩ := y
  cases hxy.kind with
  | same => exact keep members hm (.refl _)
  | object hg => cases hm; exact keep _ rfl hg
  | function hg => cases hm; exact keep _ rfl hg
  | inheritor hg _ => cases hm; exact keep _ rfl hg

/-! ### Reachable states -/

/-- A run leads to `a` from a fresh analysis. -/
def Reachable (a : Analysis) : Prop := ∃ options cs, ((fresh options).run cs).state = a

/-- The undefined value, the first of all, is no inheritor, so the inheritors are fewer than the
identities. -/
theorem Grows.inheritorCount_le {options : Options} (h : (fresh options).Grows b) :
    b.inheritorCount ≤ Count.top := by
  -- the first value is there from the start and keeps its shape
  obtain ⟨y, hy, hg⟩ := h.value ⟨0⟩ _ rfl
  have hfirst : y ∈ b.values.toList := by
    obtain ⟨hlt, he⟩ := Array.getElem?_eq_some_iff.mp hy
    exact Array.mem_toList_iff.mpr (Array.mem_of_getElem he)
  have hother : ¬ y.kind.isInheritor = true := by
    have hk := hg.kind
    generalize y.kind = k at hk
    cases hk
    exact Bool.false_ne_true
  have hlt : b.inheritorCount < b.values.toList.length :=
    List.countP_lt_length_iff.mpr ⟨y, hfirst, Bool.eq_false_iff.mpr hother⟩
  have hsize : b.values.size ≤ max 1 (Count.top + 1) := h.size_le
  rw [Array.length_toList] at hlt
  rw [Nat.max_eq_right (Nat.le_add_left 1 _)] at hsize
  exact Nat.le_of_lt_succ (Nat.lt_of_lt_of_le hlt hsize)

theorem Reachable.inheritorCount_le (h : a.Reachable) : a.inheritorCount ≤ Count.top := by
  obtain ⟨options, cs, rfl⟩ := h
  exact ((fresh options).run_grows cs).inheritorCount_le

theorem run_append (a : Analysis) (cs ds : List Command) :
    (a.run (cs ++ ds)).state = ((a.run cs).state.run ds).state := by
  induction cs generalizing a with
  | nil => rfl
  | cons c cs ih => exact ih _

theorem Reachable.run (h : a.Reachable) (cs : List Command) : (a.run cs).state.Reachable := by
  obtain ⟨options, ds, rfl⟩ := h
  exact ⟨options, ds ++ cs, run_append _ _ _⟩

end Analysis

end Prototypal
