import Prototypal.Proofs.Confluence
import Prototypal.Proofs.Footprint
import Prototypal.Proofs.Passage

/-!
# Prototypal — Proofs — Inertness

Recording usages has no bearing on what is inferred.  `Analysis.forget` leaves out of a state what
recording needs and keeps: the usages of slots, the versions of units, and whether sites are
recorded.  An operation on a state does, but for these, what it does on the state without them:

* Operations that state facts commute with forgetting (`forget_create`, `forget_assign`, …).
* Questions and new versions change nothing that is not forgotten (`forget_state_step`), and
  questions have the answers that they have in the forgetful state, wherever they come from
  (`step_matches`).

So what a session answers is decided by its own operations, without their sites; new versions and
questions put in between do not show (`run_strip`).  `usages_inert` says so of two sessions.
-/

namespace Prototypal

theorem map_modify {α β : Type} {xs : Array α} {i : Nat} {f : α → α} {g : β → β} {p : α → β}
    (h : ∀ x, xs[i]? = some x → p (f x) = g (p x)) :
    (xs.modify i f).map p = (xs.map p).modify i g := by
  refine Array.ext_getElem? fun j => ?_
  rw [Array.getElem?_map, Array.getElem?_modify, Array.getElem?_modify, Array.getElem?_map]
  split
  · next hj =>
    subst hj
    cases hx : xs[i]? with
    | none => rfl
    | some x => exact congrArg some (h x hx)
  · rfl

/-! ### Leaving usages out -/

def Slot.forget (slot : Slot) : Slot := { slot with usages := {} }

def SourceUnit.forget (u : SourceUnit) : SourceUnit := { u with version := 0 }

def Members.forget (ms : Members) : Members := Roster.map ms fun _ slot => slot.forget

def Kind.forget (k : Kind) : Kind := k.mapMembers Members.forget

def Value.forget (x : Value) : Value := x.mapSlots fun _ slot => slot.forget

/-- The state without usages, versions of units, and the setting that sites are recorded. -/
def Analysis.forget (a : Analysis) : Analysis where
  options := { a.options with recordsUsages := false }
  units := a.units.map SourceUnit.forget
  values := a.values.map Value.forget
  tally := a.tally

/-- The reply with such things left out of its state. -/
def Reply.forget {α : Type} (r : Reply α) : Reply α := { r with state := r.state.forget }

namespace Members

theorem get?_forget (ms : Members) (name : String) :
    Roster.get? ms.forget name = (Roster.get? ms name).map Slot.forget :=
  Roster.get?_map ms _ name

theorem forget_set (ms : Members) (name : String) (slot : Slot) :
    Members.forget (Roster.set ms name slot) = Roster.set ms.forget name slot.forget :=
  Roster.map_set ms name slot _

end Members

namespace Kind

variable (k : Kind)

@[simp] theorem tag_forget : k.forget.tag = k.tag := by cases k <;> rfl

@[simp] theorem bare_forget : k.forget.bare = k.bare := by cases k <;> rfl

@[simp] theorem prototypes?_forget : k.forget.prototypes? = k.prototypes? := by cases k <;> rfl

theorem members?_forget : k.forget.members? = k.members?.map Members.forget :=
  members?_mapMembers _ k

end Kind

namespace Value

theorem forget_eq (x : Value) : x.forget = { x with kind := x.kind.forget } := rfl

@[simp] theorem forget_forget (x : Value) : x.forget.forget = x.forget :=
  x.mapSlots_mapSlots _ _

theorem slot?_forget (x : Value) (name : String) :
    x.forget.slot? name = (x.slot? name).map Slot.forget := by
  rw [slot?, slot?, forget_eq, Kind.members?_forget]
  cases x.kind.members? with
  | none => rfl
  | some ms => exact Members.get?_forget ms name

theorem forget_setSlot (x : Value) (name : String) (slot : Slot) :
    (x.setSlot name slot).forget = x.forget.setSlot name slot.forget := by
  obtain ⟨unit, kind, tether⟩ := x
  cases kind <;> simp [setSlot, forget_eq, Kind.forget, Kind.mapMembers, Kind.members?,
    Kind.withMembers, Members.forget_set]

end Value

namespace Analysis

variable {a b : Analysis}

/-! ### What a state without usages has -/

theorem value?_forget (a : Analysis) (v : ValueId) :
    a.forget.value? v = (a.value? v).map Value.forget := by
  simp [forget, value?]

theorem unit?_forget (a : Analysis) (u : UnitId) :
    a.forget.unit? u = (a.unit? u).map SourceUnit.forget := by
  simp [forget, unit?]

theorem kind?_forget (a : Analysis) (v : ValueId) :
    a.forget.kind? v = (a.kind? v).map Kind.forget := by
  rw [kind?, kind?, value?_forget]
  cases a.value? v <;> rfl

theorem members?_forget (a : Analysis) (v : ValueId) :
    (a.forget.kind? v).bind Kind.members? =
      ((a.kind? v).bind Kind.members?).map Members.forget := by
  rw [kind?_forget]
  cases a.kind? v with
  | none => rfl
  | some k => exact k.members?_forget

@[simp] theorem forget_forget (a : Analysis) : a.forget.forget = a.forget := by
  have hu : (fun u : SourceUnit => u.forget.forget) = SourceUnit.forget := rfl
  simp [forget, Function.comp_def, hu]

/-- A state is alike to what it is without usages. -/
theorem alike_forget (a : Analysis) : a.Alike a.forget where
  standing := by
    funext u
    rw [isStanding, isStanding, unit?_forget]
    cases a.unit? u <;> rfl
  hidesDead := rfl
  bare v := by
    rw [value?_forget]
    cases a.value? v <;> simp [Value.bare, Value.forget_eq]
  types v name := by
    rw [slot?, slot?, value?_forget]
    cases a.value? v with
    | none => rfl
    | some x =>
        simp only [Option.map_some, Option.bind_some, Value.slot?_forget, Option.map_map]
        rfl
  prototypes v := by
    rw [prototypes, prototypes, kind?_forget]
    cases a.kind? v <;> simp

theorem ownMembers_forget (a : Analysis) : a.forget.ownMembers = a.ownMembers := by
  funext v
  rw [ownMembers, ownMembers, members?_forget]
  cases (a.kind? v).bind Kind.members? with
  | none => rfl
  | some ms => exact Roster.filterMap_map ms Slot.forget _

/-- Members are listed in the same order, too. -/
theorem members_forget (a : Analysis) (v : ValueId) (accessor : UnitId) :
    (a.members v accessor).answer = (a.forget.members v accessor).answer := by
  have hl : a.listed? = a.forget.listed? := by
    funext types
    rw [listed?, listed?, a.alike_forget.shown]
  rw [members, members, ownMembers_forget, a.alike_forget.explore, hl]
  rfl

/-! ### Facts -/

theorem forget_modifyValue {v : ValueId} {f g : Value → Value}
    (h : ∀ x, a.value? v = some x → (f x).forget = g x.forget) :
    (a.modifyValue v f).forget = a.forget.modifyValue v g := by
  simp only [forget, modifyValue, map_modify h]

theorem forget_modifyValue_setSlot (a : Analysis) (v : ValueId) (name : String) (slot : Slot) :
    (a.modifyValue v (·.setSlot name slot)).forget =
      a.forget.modifyValue v (·.setSlot name slot.forget) :=
  forget_modifyValue fun x _ => x.forget_setSlot name slot

theorem forget_create (a : Analysis) (u : UnitId) (kind : Kind) :
    (a.create u kind).forget = a.forget.create u kind.forget := by
  have ht : a.forget.tether u = a.tether u := by
    rw [tether, tether, unit?_forget]
    cases a.unit? u <;> rfl
  have hn : a.forget.values.size = a.values.size := Array.size_map
  unfold create
  rw [ht, hn, Kind.tag_forget]
  split
  · simp [Reply.forget, forget, Value.forget_eq]
  · rfl

theorem forget_createArguments (a : Analysis) (f : ValueId) :
    (a.createArguments f).forget = a.forget.createArguments f := by
  have hu : (a.forget.value? f).map Value.unit = (a.value? f).map Value.unit := by
    rw [value?_forget]
    cases a.value? f <;> rfl
  rw [createArguments, createArguments, hu, forget_create]
  rfl

theorem forget_addUnit (a : Analysis) (path : String) :
    (a.addUnit path).forget = a.forget.addUnit path := by
  have hn : a.forget.units.size = a.units.size := Array.size_map
  unfold addUnit
  rw [hn]
  split
  · simp [Reply.forget, forget, SourceUnit.forget]
  · rfl

theorem forget_tearDown (a : Analysis) (u : UnitId) :
    (a.tearDown u).forget = a.forget.tearDown u := by
  have hs : (a.units.modify u.index SourceUnit.detach).map SourceUnit.forget =
      (a.units.map SourceUnit.forget).modify u.index SourceUnit.detach := map_modify fun _ _ => rfl
  have hu : (a.forget.unit? u).isSome = (a.unit? u).isSome := by
    rw [unit?_forget, Option.isSome_map]
  rw [tearDown, tearDown, hu]
  simp only [Reply.forget, forget, hs]

theorem forget_detachUnit (a : Analysis) (u : UnitId) :
    (a.detachUnit u).forget = a.forget.detachUnit u := by
  have hu : (a.forget.unit? u).isNone = (a.unit? u).isNone := by
    rw [unit?_forget, Option.isNone_map]
  rw [detachUnit, detachUnit, hu, ← forget_tearDown]
  split <;> rfl

theorem forget_addPrototypes (a : Analysis) (v : ValueId) (prototypes : ValueSet) :
    (a.addPrototypes v prototypes).forget = a.forget.addPrototypes v prototypes := by
  rw [addPrototypes, addPrototypes, kind?_forget]
  cases a.kind? v with
  | none => rfl
  | some k =>
      cases k with
      | inheritor members known =>
          have hm := a.forget_modifyValue (v := v)
            (f := ({ · with kind := .inheritor members (known ∪ prototypes) }))
            (g := ({ · with kind := .inheritor members.forget (known ∪ prototypes) }))
            fun _ _ => rfl
          show Reply.forget (if _ then _ else _) = if _ then _ else _
          split
          · rfl
          · exact congrArg (Reply.mk true · _) hm
      | undefined | null | boolean _ | number _ | text _ | arguments _ | object _
      | function _ _ _ => rfl

theorem forget_assign (a : Analysis) (v : ValueId) (name : String) (values : ValueSet) :
    (a.assign v name values).forget = a.forget.assign v name values := by
  rw [assign, assign, members?_forget]
  cases (a.kind? v).bind Kind.members? with
  | none => rfl
  | some ms =>
      have hs : ((Roster.get? ms.forget name).getD {} : Slot) =
          ((Roster.get? ms name).getD {}).forget := by
        rw [Members.get?_forget]
        cases Roster.get? ms name <;> rfl
      have hm := a.forget_modifyValue_setSlot v name
        (((Roster.get? ms name).getD {}).widen values)
      rw [Option.map_some]
      dsimp only
      rw [hs]
      exact congrArg (Reply.mk _ · _) hm

theorem forget_bindArguments (a : Analysis) (v : ValueId) (args : List ValueSet) :
    (a.bindArguments v args).forget = a.forget.bindArguments v args := by
  rw [bindArguments, bindArguments, kind?_forget]
  cases a.kind? v with
  | none => rfl
  | some k =>
      cases k with
      | function name members old =>
          have hm := a.forget_modifyValue (v := v)
            (f := ({ · with kind := .function name members (some args) }))
            (g := ({ · with kind := .function name members.forget (some args) }))
            fun _ _ => rfl
          exact congrArg (Reply.mk true · _) hm
      | undefined | null | boolean _ | number _ | text _ | arguments _ | object _
      | inheritor _ _ => rfl

/-! ### Questions and new versions -/

theorem forget_bumpUnit (a : Analysis) (u : UnitId) : (a.bumpUnit u).state.forget = a.forget := by
  rw [bumpUnit]
  cases hu : a.unit? u with
  | none => rfl
  | some unit =>
      have hs : (a.units.setIfInBounds u.index unit.bump).map SourceUnit.forget =
          a.units.map SourceUnit.forget := by
        refine Array.ext_getElem? fun i => ?_
        rw [Array.getElem?_map, Array.getElem?_map, Array.getElem?_setIfInBounds]
        split
        · next hi =>
          subst hi
          obtain ⟨hlt, hget⟩ := Array.getElem?_eq_some_iff.mp hu
          rw [if_pos hlt, show a.units[u.index]? = some unit from hu]
          rfl
        · rfl
      simp only [forget, hs]

theorem forget_setUsages {v : ValueId} {name : String} {slot : Slot}
    (hs : a.slot? v name = some slot) (usages : UsageBook) :
    (a.modifyValue v (·.setSlot name { slot with usages })).forget = a.forget := by
  rw [forget_modifyValue_setSlot]
  -- without usages, the slot is set to what it is
  refine modifyValue_eq_self fun y hy => Value.setSlot_eq_self ?_
  obtain ⟨x, hx, hxs⟩ := Option.bind_eq_some_iff.mp hs
  rw [value?_forget, hx] at hy
  cases hy
  rw [Value.slot?_forget, hxs]
  rfl

theorem forget_query (a : Analysis) {c : Command} (hc : c.isQuery = true) :
    (a.step c).state.forget = a.forget :=
  query_preserves (I := fun b => b.forget = a.forget)
    (fun _ _ _ _ usages hs hb => (forget_setUsages hs usages).trans hb) hc rfl

end Analysis

/-- Whether an operation asks something or moves a unit to its next version. -/
def Command.isAside : Command → Bool
  | bumpUnit _ => true
  | c => c.isQuery

/-- The operation without the site that it is made from. -/
def Command.withoutSite : Command → Command
  | lookup v name _ => lookup v name none
  | propertyValue d _ => propertyValue d none
  | index v is _ => index v is none
  | c => c

/-- The answer without the number of a version. -/
def Answer.unversioned : Answer → Answer
  | version n => version (n.map fun _ => 0)
  | x => x

@[simp] theorem Command.withoutSite_withoutSite (c : Command) :
    c.withoutSite.withoutSite = c.withoutSite := by
  cases c <;> rfl

/-- Two replies that differ in usages and versions only. -/
structure Reply.Matches (r s : Reply Answer) : Prop where
  answer : r.answer.unversioned = s.answer.unversioned
  state : r.state.forget = s.state.forget

theorem Reply.matches_of_forget {α : Type} {r s : Reply α} (h : r.forget = s) (f : α → Answer) :
    (r.map f).Matches (s.map f) := by
  subst h
  exact ⟨rfl, r.state.forget_forget.symm⟩

namespace Analysis

variable {a b : Analysis}

/-- **Questions and new versions leave facts alone.** -/
theorem forget_state_step (a : Analysis) {c : Command} (hc : c.isAside = true) :
    (a.step c).state.forget = a.forget := by
  by_cases hq : c.isQuery = true
  · exact a.forget_query hq
  · cases c with
    | bumpUnit u => exact a.forget_bumpUnit u
    | _ => exact absurd hc hq

/-- **One operation**: it does, but for usages and versions, what it does in the state without
them. -/
theorem step_matches (a : Analysis) (c : Command) :
    (a.step c).Matches (a.forget.step c.withoutSite) := by
  -- an operation that leaves facts alone matches if it has the same answer
  have aside : c.isAside = true → c.withoutSite.isAside = true →
      (a.step c).answer.unversioned = (a.forget.step c.withoutSite).answer.unversioned →
      (a.step c).Matches (a.forget.step c.withoutSite) := by
    intro hc hc' h
    refine ⟨h, ?_⟩
    rw [a.forget_state_step hc, a.forget.forget_state_step hc', forget_forget]
  have halike := a.alike_forget
  cases c with
  | addUnit path => exact Reply.matches_of_forget (a.forget_addUnit path) _
  | detachUnit u => exact Reply.matches_of_forget (a.forget_detachUnit u) fun _ => .done
  | tearDown u => exact Reply.matches_of_forget (a.forget_tearDown u) _
  | createNull u | createBoolean u _ | createNumber u _ | createText u _ | createObject u
  | createFunction u _ | createInheritor u _ =>
      exact Reply.matches_of_forget (a.forget_create u _) _
  | createArguments f => exact Reply.matches_of_forget (a.forget_createArguments f) _
  | addPrototypes v ps => exact Reply.matches_of_forget (a.forget_addPrototypes v ps) _
  | assign v name values => exact Reply.matches_of_forget (a.forget_assign v name values) _
  | bindArguments f args => exact Reply.matches_of_forget (a.forget_bindArguments f args) _
  | bumpUnit u =>
      refine aside rfl rfl ?_
      simp only [step, Command.withoutSite, bumpUnit, unit?_forget]
      cases a.unit? u <;> rfl
  | lookup v name site =>
      exact aside rfl rfl (congrArg Answer.values (halike.lookup rfl v name site none))
  | property v name =>
      exact aside rfl rfl (congrArg Answer.descriptor (halike.property rfl v name))
  | propertyValue d site =>
      exact aside rfl rfl (congrArg Answer.values (halike.propertyValue rfl d site none))
  | index v is site =>
      exact aside rfl rfl (congrArg Answer.values (halike.index rfl v is site none))
  | members v accessor =>
      exact aside rfl rfl (congrArg Answer.members (a.members_forget v accessor))

/-- One operation, in states and from sites that may differ in what is forgotten. -/
theorem step_matches_step (h : a.forget = b.forget) {c d : Command}
    (hc : c.withoutSite = d.withoutSite) : (a.step c).Matches (b.step d) := by
  have ha := a.step_matches c
  have hb := b.step_matches d
  rw [h, hc] at ha
  exact ⟨ha.answer.trans hb.answer.symm, ha.state.trans hb.state.symm⟩

end Analysis

/-! ### Sessions -/

/-- A move of a session: an operation of its own, or a question or a new version put in
between. -/
inductive Move where
  | own (c : Command)
  | ask (c : Command) (hc : c.isQuery = true)
  | bump (u : UnitId)

namespace Move

def command : Move → Command
  | own c => c
  | ask c _ => c
  | bump u => .bumpUnit u

def isOwn : Move → Bool
  | own _ => true
  | _ => false

/-- The operations of the session's own, without their sites. -/
def ownCommands (ms : List Move) : List Command :=
  (ms.filter isOwn).map fun m => m.command.withoutSite

/-- The answers to the operations of the session's own, without numbers of versions. -/
def ownAnswers (ms : List Move) (answers : List Answer) : List Answer :=
  ((ms.zip answers).filter fun e => e.1.isOwn).map fun e => e.2.unversioned

theorem isAside_command {m : Move} (hm : m.isOwn = false) : m.command.isAside = true := by
  cases m with
  | own c => cases hm
  | ask c hc => cases c <;> first | rfl | exact hc
  | bump u => rfl

end Move

namespace Analysis

variable {a b : Analysis}

/-- **A session answers what its own operations do alone**, without their sites, and ends in the
same state but for usages and versions. -/
theorem run_strip (h : a.forget = b.forget) (ms : List Move) :
    Move.ownAnswers ms (a.run (ms.map Move.command)).answer =
        (b.run (Move.ownCommands ms)).answer.map Answer.unversioned ∧
      (a.run (ms.map Move.command)).state.forget = (b.run (Move.ownCommands ms)).state.forget := by
  induction ms generalizing a b with
  | nil => exact ⟨rfl, h⟩
  | cons m ms ih =>
      cases hm : m.isOwn with
      | true =>
          have hstep := step_matches_step h m.command.withoutSite_withoutSite.symm
          obtain ⟨hans, hstate⟩ := ih hstep.state
          simp only [Move.ownAnswers, Move.ownCommands, List.map_cons, run, List.zip_cons_cons,
            List.filter_cons, hm, if_true]
          exact ⟨congrArg₂ List.cons hstep.answer hans, hstate⟩
      | false =>
          -- a move put in between leaves the facts as they are, and its answer is not looked at
          have hstep := (a.forget_state_step (Move.isAside_command hm)).trans h
          simpa [Move.ownAnswers, Move.ownCommands, run, hm] using ih hstep

theorem forget_fresh {o o' : Options} (hl : o.limits = o'.limits)
    (hd : o.hidesDead = o'.hidesDead) : (fresh o).forget = (fresh o').forget := by
  obtain ⟨limits, _, hidesDead⟩ := o
  obtain ⟨limits', _, hidesDead'⟩ := o'
  cases hl
  cases hd
  rfl

/-- **Recording has no bearing on what is inferred**: two sessions from fresh states, with the same
budgets and the same showing of dead values, whose own operations are the same but for their sites,
have the same answers, and end in states in which the same values are alive and that are the same
but for usages, versions of units and whether sites are recorded, whatever questions and new
versions are put in between. -/
theorem usages_inert {o o' : Options} (hl : o.limits = o'.limits)
    (hd : o.hidesDead = o'.hidesDead) {ms ns : List Move}
    (hs : Move.ownCommands ms = Move.ownCommands ns) :
    Move.ownAnswers ms ((fresh o).run (ms.map Move.command)).answer =
        Move.ownAnswers ns ((fresh o').run (ns.map Move.command)).answer ∧
      (∀ v, ((fresh o).run (ms.map Move.command)).state.isAlive v =
        ((fresh o').run (ns.map Move.command)).state.isAlive v) ∧
      ((fresh o).run (ms.map Move.command)).state.forget =
        ((fresh o').run (ns.map Move.command)).state.forget := by
  obtain ⟨hans, hstate⟩ := run_strip (rfl : (fresh o).forget = _) ms
  obtain ⟨hans', hstate'⟩ := run_strip (forget_fresh hl.symm hd.symm) ns
  rw [hs] at hans hstate
  have hsame := hstate.trans hstate'.symm
  refine ⟨hans.trans hans'.symm, fun v => ?_, hsame⟩
  rw [(alike_forget _).isAlive, hsame, ← (alike_forget _).isAlive]

/-- A session whose readings are recorded, with a question and new versions in between. -/
def watched : List Move :=
  [.own (.addUnit "a.js"), .own (.createObject ⟨1⟩), .bump ⟨1⟩,
    .own (.createInheritor ⟨1⟩ (.singleton ⟨1⟩)), .own (.assign ⟨1⟩ "x" (.singleton ⟨2⟩)),
    .ask (.lookup ⟨1⟩ "x" (some ⟨⟨1⟩, ⟨5⟩⟩)) rfl, .own (.lookup ⟨2⟩ "x" (some ⟨⟨1⟩, ⟨9⟩⟩)),
    .bump ⟨1⟩, .own (.bumpUnit ⟨1⟩), .own (.members ⟨2⟩ ⟨1⟩), .own (.detachUnit ⟨1⟩)]

/-- The same session without them. -/
def unwatched : List Move :=
  [.own (.addUnit "a.js"), .own (.createObject ⟨1⟩),
    .own (.createInheritor ⟨1⟩ (.singleton ⟨1⟩)), .own (.assign ⟨1⟩ "x" (.singleton ⟨2⟩)),
    .own (.lookup ⟨2⟩ "x" none), .own (.bumpUnit ⟨1⟩), .own (.members ⟨2⟩ ⟨1⟩),
    .own (.detachUnit ⟨1⟩)]

theorem usages_inert_watched :
    Move.ownCommands watched = Move.ownCommands unwatched ∧
    ((fresh {}).run (watched.map Move.command)).state ≠
      ((fresh { recordsUsages := false }).run (unwatched.map Move.command)).state ∧
    Move.ownAnswers watched ((fresh {}).run (watched.map Move.command)).answer =
      Move.ownAnswers unwatched
        ((fresh { recordsUsages := false }).run (unwatched.map Move.command)).answer ∧
    ((fresh {}).run (watched.map Move.command)).state.forget =
      ((fresh { recordsUsages := false }).run (unwatched.map Move.command)).state.forget := by
  have hs : Move.ownCommands watched = Move.ownCommands unwatched := rfl
  obtain ⟨hans, -, hstate⟩ :=
    @usages_inert {} { recordsUsages := false } rfl rfl _ _ hs
  exact ⟨hs, by decide +kernel, hans, hstate⟩

end Analysis

end Prototypal
