import Prototypal.Proofs.Exploration
import Prototypal.Proofs.History
import Prototypal.Proofs.Resemblance

/-!
# Prototypal — Proofs — Footprint

What a lookup writes.  It records the site it is made from in the slot of every value that it
visits, as often as it comes by; recording a place a second time changes nothing
(`UsageBook.record_record`), so the order and the number of the visits do not matter, only which
values are visited (`performAll_eq_noteUsages`).  With unlimited attempts these are the values
within the depth allowed, so the site is recorded in exactly the slots that the answer was collected
from, and nothing else is written (`lookup_writes`).

`noteUsages` says what is recorded on the values as a whole, without reference to any descent.
-/

namespace Prototypal

/-! ### Recording again -/

namespace UsageList

theorem version_add (l : UsageList) (p : PackedSpan) : (l.add p).2.version = l.version := by
  unfold add
  split <;> rfl

theorem contains_add (l : UsageList) (p : PackedSpan) : (l.add p).2.contains p = true := by
  unfold add
  split
  · next h => exact h
  · simp [contains]

theorem add_add (l : UsageList) (p : PackedSpan) : ((l.add p).2.add p).2 = (l.add p).2 := by
  rw [add, if_pos (l.contains_add p)]

end UsageList

namespace UsageBook

theorem version_current (b : UsageBook) (u : SourceUnit) : (b.current u).version = u.version := by
  unfold current
  split
  · split
    · next h => exact eq_of_beq h
    · rfl
  · rfl

/-- The list of the present version, right after a place was recorded in it. -/
theorem current_record (b : UsageBook) (u : SourceUnit) (p : PackedSpan) :
    (b.record u p).2.current u = ((b.current u).add p).2 := by
  have hl : (b.record u p).2.list? u.id = some ((b.current u).add p).2 := by
    rw [list?_record, if_pos rfl]
  have hv : ((b.current u).add p).2.isCurrent u = true := by
    rw [UsageList.isCurrent, UsageList.version_add, version_current, beq_self_eq_true]
  rw [current, hl]
  exact if_pos hv

/-- **Recording a place again changes nothing.** -/
theorem record_record (b : UsageBook) (u : SourceUnit) (p : PackedSpan) :
    ((b.record u p).2.record u p).2 = (b.record u p).2 := by
  have hl : (b.record u p).2.lists.get? u.id = some ((b.current u).add p).2 :=
    (list?_record b u p u.id).trans (if_pos rfl)
  show UsageBook.mk ((b.record u p).2.lists.set u.id (((b.record u p).2.current u).add p).2) = _
  rw [current_record, UsageList.add_add, Roster.set_eq_self hl]

end UsageBook

/-! ### Slots in their places -/

/-- The shape with its own members changed, if it has any. -/
def Kind.mapMembers (f : Members → Members) : Kind → Kind
  | object ms => object (f ms)
  | function name ms args => function name (f ms) args
  | inheritor ms prototypes => inheritor (f ms) prototypes
  | k => k

theorem Kind.members?_mapMembers (f : Members → Members) (k : Kind) :
    (k.mapMembers f).members? = k.members?.map f := by
  cases k <;> rfl

theorem Kind.mapMembers_eq_withMembers {k : Kind} {ms : Members} (h : k.members? = some ms)
    (f : Members → Members) : k.mapMembers f = k.withMembers (f ms) := by
  cases k with
  | object _ | function _ _ _ | inheritor _ _ =>
      cases h
      rfl
  | undefined | null | boolean _ | number _ | text _ | arguments _ => rfl

theorem Kind.mapMembers_congr {k : Kind} {f g : Members → Members}
    (h : ∀ ms, k.members? = some ms → f ms = g ms) : k.mapMembers f = k.mapMembers g := by
  cases k with
  | object ms => exact congrArg object (h ms rfl)
  | function name ms args => exact congrArg (function name · args) (h ms rfl)
  | inheritor ms prototypes => exact congrArg (inheritor · prototypes) (h ms rfl)
  | undefined | null | boolean _ | number _ | text _ | arguments _ => rfl

namespace Value

/-- The value with its own slots changed, each in its place. -/
def mapSlots (x : Value) (f : String → Slot → Slot) : Value :=
  { x with kind := x.kind.mapMembers (·.map f) }

@[simp] theorem mapSlots_id (x : Value) : (x.mapSlots fun _ slot => slot) = x := by
  obtain ⟨unit, kind, tether⟩ := x
  cases kind <;> simp [mapSlots, Kind.mapMembers]

@[simp] theorem mapSlots_mapSlots (x : Value) (f g : String → Slot → Slot) :
    (x.mapSlots f).mapSlots g = x.mapSlots fun name slot => g name (f name slot) := by
  obtain ⟨unit, kind, tether⟩ := x
  cases kind <;> simp [mapSlots, Kind.mapMembers]

theorem mapSlots_congr {x : Value} {f g : String → Slot → Slot}
    (h : ∀ name slot, x.slot? name = some slot → f name slot = g name slot) :
    x.mapSlots f = x.mapSlots g := by
  have hk : x.kind.mapMembers (·.map f) = x.kind.mapMembers (·.map g) := by
    refine Kind.mapMembers_congr fun ms hm => Roster.map_congr fun name slot hs => h name slot ?_
    rw [slot?, hm]
    exact hs
  rw [mapSlots, mapSlots, hk]

/-- Setting a slot that there is changes it in its place. -/
theorem setSlot_eq_mapSlots {x : Value} {name : String} {old : Slot} (h : x.slot? name = some old)
    (slot : Slot) :
    x.setSlot name slot = x.mapSlots fun name' slot' => if name' = name then slot else slot' := by
  obtain ⟨ms, hm, hs⟩ := Option.bind_eq_some_iff.mp h
  rw [setSlot, hm, mapSlots, Kind.mapMembers_eq_withMembers hm]
  dsimp only
  rw [Roster.set_eq_map (Roster.mem_keys_iff.mpr ⟨old, hs⟩)]

end Value

/-! ### What is recorded -/

/-- The slot with a place recorded in it. -/
def Slot.note (slot : Slot) (unit : SourceUnit) (p : PackedSpan) : Slot :=
  { slot with usages := (slot.usages.record unit p).2 }

theorem Slot.note_note (slot : Slot) (unit : SourceUnit) (p : PackedSpan) :
    (slot.note unit p).note unit p = slot.note unit p := by
  rw [note, note, UsageBook.record_record]

namespace Value

variable {x : Value} {name : String} {unit : SourceUnit} {p : PackedSpan}

/-- The value with a place recorded in its own slot of that name, if it has one. -/
def note (x : Value) (name : String) (unit : SourceUnit) (p : PackedSpan) : Value :=
  x.mapSlots fun name' slot => if name' = name then slot.note unit p else slot

theorem note_of_slot? {slot : Slot} (h : x.slot? name = some slot) :
    x.note name unit p = x.setSlot name (slot.note unit p) := by
  rw [setSlot_eq_mapSlots h]
  refine mapSlots_congr fun name' slot' h' => ?_
  split
  · next hn =>
    rw [hn, h] at h'
    rw [Option.some.inj h']
  · rfl

theorem note_of_slot?_eq_none (h : x.slot? name = none) : x.note name unit p = x := by
  refine (mapSlots_congr fun name' slot h' => if_neg fun hn => ?_).trans x.mapSlots_id
  rw [hn, h] at h'
  cases h'

theorem note_note : (x.note name unit p).note name unit p = x.note name unit p := by
  rw [note, note, mapSlots_mapSlots]
  refine mapSlots_congr fun name' slot _ => ?_
  by_cases hn : name' = name <;> simp [hn, Slot.note_note]

end Value

namespace Analysis

variable {a b : Analysis} {v : ValueId} {name : String} {site : Site} {unit : SourceUnit}

/-- The state with a place recorded in the slot called `name` of each of the values of `P` that has
one. -/
def noteUsages (a : Analysis) (P : ValueId → Prop) [DecidablePred P] (name : String)
    (unit : SourceUnit) (p : PackedSpan) : Analysis :=
  { a with values := a.values.mapIdx fun i x => if P ⟨i⟩ then x.note name unit p else x }

/-- States with the same options, units and tally are the same if their values are. -/
theorem eq_of_value? (ho : a.options = b.options) (hu : a.units = b.units)
    (ht : a.tally = b.tally) (hv : ∀ v, a.value? v = b.value? v) : a = b := by
  have hvs : a.values = b.values := Array.ext_getElem? fun i => hv ⟨i⟩
  show mk a.options a.units a.values a.tally = mk b.options b.units b.values b.tally
  rw [ho, hu, hvs, ht]

section

variable {P Q : ValueId → Prop} [DecidablePred P] [DecidablePred Q] {p : PackedSpan}

theorem value?_noteUsages (u : ValueId) :
    (a.noteUsages P name unit p).value? u =
      (a.value? u).map fun x => if P u then x.note name unit p else x := by
  simp only [noteUsages, value?, Array.getElem?_mapIdx]

theorem noteUsages_congr (h : ∀ u, P u ↔ Q u) :
    a.noteUsages P name unit p = a.noteUsages Q name unit p := by
  refine eq_of_value? rfl rfl rfl fun u => ?_
  simp only [value?_noteUsages, h]

end

/-- Recording a site, on the values. -/
theorem value?_recordUsage (hu : a.unit? site.unit = some unit) (v u : ValueId) :
    (a.recordUsage v name site).1.value? u =
      (a.value? u).map fun x => if v = u then x.note name unit site.span else x := by
  by_cases hv : v = u
  · subst hv
    simp only [if_true]
    cases hs : a.slot? v name with
    | none =>
        have hr : (a.recordUsage v name site).1 = a := by rw [recordUsage, hs]
        rw [hr]
        cases hx : a.value? v with
        | none => rfl
        | some x =>
            rw [slot?, hx] at hs
            rw [Option.map_some, Value.note_of_slot?_eq_none hs]
    | some slot =>
        have hr : (a.recordUsage v name site).1 =
            a.modifyValue v (·.setSlot name (slot.note unit site.span)) := by
          rw [recordUsage, hs, hu]
          rfl
        obtain ⟨x, hx, hxs⟩ := Option.bind_eq_some_iff.mp hs
        rw [hr, value?_modifyValue, if_pos rfl, hx, Option.map_some, Option.map_some,
          Value.note_of_slot? hxs]
  · have hr : (a.recordUsage v name site).1.value? u = a.value? u := by
      rcases a.recordUsage_cases v name site with he | ⟨slot, usages, -, he⟩
      · rw [he]
      · rw [he, value?_modifyValue, if_neg hv]
    simp [hr, hv]

/-- Recording a site changes values only. -/
theorem recordUsage_frame (a : Analysis) (v : ValueId) (name : String) (site : Site) :
    (a.recordUsage v name site).1.options = a.options ∧
      (a.recordUsage v name site).1.units = a.units ∧
      (a.recordUsage v name site).1.tally = a.tally := by
  rcases a.recordUsage_cases v name site with he | ⟨slot, usages, -, he⟩ <;> rw [he] <;>
    exact ⟨rfl, rfl, rfl⟩

/-- **What the steps of a reading write**: the site, once in the slot of each value visited. -/
theorem performAll_eq_noteUsages (hu : a.unit? site.unit = some unit) (steps : List Step) :
    (a.performAll name (some site) steps).1 =
      a.noteUsages (· ∈ steps.filterMap Step.visited?) name unit site.span := by
  induction steps generalizing a with
  | nil =>
      refine eq_of_value? rfl rfl rfl fun u => ?_
      simp [value?_noteUsages, performAll]
  | cons step steps ih =>
      cases step with
      | attempt | leave => exact ih hu
      | visit v =>
          obtain ⟨ho, hus, ht⟩ := a.recordUsage_frame v name site
          have hu' : (a.recordUsage v name site).1.unit? site.unit = some unit := by
            rw [unit?, hus]
            exact hu
          show ((a.recordUsage v name site).1.performAll name (some site) steps).1 = _
          rw [ih hu']
          refine eq_of_value? ho hus ht fun u => ?_
          -- a value that is visited again is as the first visit left it
          rw [value?_noteUsages, value?_noteUsages, value?_recordUsage hu, Option.map_map]
          refine congrArg (Option.map · _) (funext fun x => ?_)
          have hmem : u ∈ (Step.visit v :: steps).filterMap Step.visited? ↔
              v = u ∨ u ∈ steps.filterMap Step.visited? := by simp [Step.visited?, eq_comm]
          simp only [Function.comp_apply, hmem]
          by_cases hv : v = u <;> by_cases hm : u ∈ steps.filterMap Step.visited? <;>
            simp only [hv, hm, or_true, or_false, if_true, if_false, Value.note_note]

/-- Where no unit stands for the site, or no site is to be recorded, nothing is written. -/
theorem performAll_eq_self {site : Option Site} (h : ∀ s ∈ site, a.unit? s.unit = none)
    (steps : List Step) : (a.performAll name site steps).1 = a := by
  induction steps with
  | nil => rfl
  | cons step steps ih =>
      have hstep : (a.perform name site step).1 = a := by
        cases step with
        | attempt | leave => rfl
        | visit v =>
            cases site with
            | none => rfl
            | some site =>
                show (a.recordUsage v name site).1 = a
                rw [recordUsage, h site rfl]
                cases a.slot? v name <;> rfl
      show ((a.perform name site step).1.performAll name site steps).1 = a
      rw [hstep, ih]

theorem lookup_state (a : Analysis) (v : ValueId) (name : String) (site : Option Site) :
    (a.lookup v name site).state =
      (a.performAll name (a.recordedSite site)
        (a.explore (a.ownTypes · name) (· ∪ ·) a.guard v).trace).1 := rfl

open Classical in
/-- **What a lookup writes**: if sites are recorded, there is a unit for the site, and attempts are
unlimited, then the site is recorded once in the own slot of that name of every value within the
depth allowed, however many routes lead there, and nothing else is changed.  If sites are not
recorded, none is given, or there is no unit for it, then nothing is changed at all. -/
theorem lookup_writes (a : Analysis) (v : ValueId) (name : String) :
    (∀ site unit, a.options.recordsUsages = true → a.options.limits.attempts = Count.top →
      a.unit? site.unit = some unit →
      (a.lookup v name (some site)).state =
        a.noteUsages (a.Within a.options.limits.depth v) name unit site.span) ∧
    (∀ site, (a.options.recordsUsages = false ∨ site = none ∨
        ∃ s, site = some s ∧ a.unit? s.unit = none) →
      (a.lookup v name site).state = a) := by
  refine ⟨fun site unit hr ha hu => ?_, fun site h => ?_⟩
  · have hs : a.recordedSite (some site) = some site := by simp [recordedSite, hr]
    rw [lookup_state, hs, performAll_eq_noteUsages hu]
    exact noteUsages_congr fun u => mem_visits_explore_iff rfl ha
  · rw [lookup_state]
    refine performAll_eq_self (fun s hs => ?_) _
    obtain ⟨hs, hr⟩ := Option.mem_filter_iff.mp hs
    rcases h with h | h | ⟨s', h, hu⟩
    · rw [h] at hr
      cases hr
    · rw [h] at hs
      cases hs
    · rw [h] at hs
      cases hs
      exact hu

/-- Two ways lead from value 4 to value 1, one back to value 4, and one on to value 5; the places
that unit 1 read `x` at were recorded before its text changed. -/
def twoWays : Analysis :=
  ((fresh { limits := { depth := 2 } }).run
    [.addUnit "a.js", .createInheritor ⟨1⟩ (.singleton ⟨5⟩),
      .createInheritor ⟨1⟩ (.singleton ⟨1⟩), .createInheritor ⟨1⟩ (.ofList [⟨1⟩, ⟨4⟩]),
      .createInheritor ⟨1⟩ (.ofList [⟨2⟩, ⟨3⟩]), .createObject ⟨1⟩,
      .assign ⟨1⟩ "x" (.singleton ⟨0⟩), .assign ⟨4⟩ "x" (.singleton ⟨1⟩),
      .assign ⟨5⟩ "x" (.singleton ⟨1⟩), .lookup ⟨2⟩ "x" (some ⟨⟨1⟩, ⟨5⟩⟩), .bumpUnit ⟨1⟩]).state

open Classical in
theorem lookup_writes_twoWays :
    twoWays.options.recordsUsages = true ∧ twoWays.options.limits.attempts = Count.top ∧
    (∃ unit, twoWays.unit? ⟨1⟩ = some unit ∧
      (twoWays.lookup ⟨4⟩ "x" (some ⟨⟨1⟩, ⟨9⟩⟩)).state =
        twoWays.noteUsages (twoWays.Within twoWays.options.limits.depth ⟨4⟩) "x" unit ⟨9⟩) ∧
    -- value 5 is too deep and keeps the old place; value 1 has the new one in its stead
    [1, 4, 5].map (fun i => ((twoWays.lookup ⟨4⟩ "x" (some ⟨⟨1⟩, ⟨9⟩⟩)).state.slot? ⟨i⟩ "x").map
      (·.usages.sites)) = [some [⟨⟨1⟩, ⟨9⟩⟩], some [⟨⟨1⟩, ⟨9⟩⟩], some [⟨⟨1⟩, ⟨5⟩⟩]] ∧
    twoWays.unit? ⟨2⟩ = none ∧
    (twoWays.lookup ⟨4⟩ "x" (some ⟨⟨2⟩, ⟨9⟩⟩)).state = twoWays := by
  have hr : twoWays.options.recordsUsages = true := by decide +kernel
  have ha : twoWays.options.limits.attempts = Count.top := by decide +kernel
  have hn : twoWays.unit? ⟨2⟩ = none := by decide +kernel
  obtain ⟨unit, hu⟩ := Option.isSome_iff_exists.mp
    (show (twoWays.unit? ⟨1⟩).isSome = true by decide +kernel)
  obtain ⟨hw, hk⟩ := lookup_writes twoWays ⟨4⟩ "x"
  exact ⟨hr, ha, ⟨unit, hu, hw _ unit hr ha hu⟩, by decide +kernel, hn,
    hk _ (.inr (.inr ⟨_, rfl, hn⟩))⟩

end Analysis

end Prototypal
