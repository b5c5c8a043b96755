import Prototypal.Proofs.Monotonicity
import Prototypal.Proofs.Roster

/-!
# Prototypal — Proofs — Census

The store as a whole: who is in it, under which identity, and how many there are of each kind.

An operation either creates one value of a given shape (`creation?`, `step_of_creation?`), or leaves
the number of values and the tally alone (`frame_step`); the shapes of the values that there were
stay (`step_grows`).  To the units it does one of four things (`unitsChange_step`).

A state is *orderly* (`Orderly`) when the first value is the undefined one, every unit has its
position for identity, and the tally has every kind of which there are values, with their number.
Every run from a fresh state leads to such a state (`orderly_run`), and hands out identities in turn
(`created_run`).  `store_orderly` says so of the statistics by the names of kinds, with what one
more operation leaves as it was.
-/

namespace Prototypal

theorem KindTag.name_injective : Function.Injective KindTag.name := by
  intro s t h
  cases s <;> cases t <;> first | rfl | exact absurd h (by decide)

theorem Kind.Grows.tag {k l : Kind} (h : k.Grows l) : l.tag = k.tag := by
  cases h <;> rfl

/-- The identity that an operation answers with, if it answers with one of a value. -/
def Answer.value? : Answer → Option ValueId
  | value v => some v
  | _ => none

namespace Command

/-- Whether the operation creates a value. -/
def creates : Command → Bool
  | createNull _ | createBoolean .. | createNumber .. | createText .. | createObject _
  | createFunction .. | createArguments _ | createInheritor .. => true
  | _ => false

/-- The unit that the operation tears down, if there is such a unit. -/
def tornUnit? : Command → Option UnitId
  | detachUnit u => if u.isBuiltin then none else some u
  | tearDown u => some u
  | _ => none

end Command

namespace Analysis

variable {a b : Analysis} {c : Command}

/-! ### Values -/

/-- The unit in which an operation declares a value, and the shape that it gives it, if it creates
one.  An argument list is declared where its function is. -/
def creation? (a : Analysis) : Command → Option (UnitId × Kind)
  | .createNull u => some (u, .null)
  | .createBoolean u b => some (u, .boolean b)
  | .createNumber u n => some (u, .number n)
  | .createText u s => some (u, .text s)
  | .createObject u => some (u, .object ∅)
  | .createFunction u name => some (u, .function name ∅ none)
  | .createArguments f => some (((a.value? f).map Value.unit).getD .builtin, .arguments f)
  | .createInheritor u prototypes => some (u, .inheritor ∅ prototypes)
  | _ => none

theorem isSome_creation? (a : Analysis) (c : Command) : (a.creation? c).isSome = c.creates := by
  cases c <;> rfl

theorem step_of_creation? {u : UnitId} {k : Kind} (h : a.creation? c = some (u, k)) :
    a.step c = (a.create u k).map .value := by
  cases c with
  | createNull _ | createBoolean _ _ | createNumber _ _ | createText _ _ | createObject _
  | createFunction _ _ | createArguments _ | createInheritor _ _ =>
      cases h
      rfl
  | addUnit _ | bumpUnit _ | detachUnit _ | tearDown _ | addPrototypes _ _ | assign _ _ _
  | bindArguments _ _ | lookup _ _ _ | property _ _ | propertyValue _ _ | index _ _ _
  | members _ _ => cases h

/-- **What does not create a value** leaves the number of values and the tally alone. -/
theorem frame_step (a : Analysis) (hc : c.creates = false) :
    (a.step c).state.values.size = a.values.size ∧ (a.step c).state.tally = a.tally := by
  have modified : ∀ v f, (a.modifyValue v f).values.size = a.values.size ∧
      (a.modifyValue v f).tally = a.tally := fun v f => ⟨Array.size_modify, rfl⟩
  cases c with
  | createNull _ | createBoolean _ _ | createNumber _ _ | createText _ _ | createObject _
  | createFunction _ _ | createArguments _ | createInheritor _ _ => cases hc
  | tearDown u => exact ⟨rfl, rfl⟩
  | addUnit path =>
      show (a.addUnit path).state.values.size = _ ∧ (a.addUnit path).state.tally = _
      unfold addUnit
      split <;> exact ⟨rfl, rfl⟩
  | bumpUnit u =>
      show (a.bumpUnit u).state.values.size = _ ∧ (a.bumpUnit u).state.tally = _
      unfold bumpUnit
      split <;> exact ⟨rfl, rfl⟩
  | detachUnit u =>
      show (a.detachUnit u).state.values.size = _ ∧ (a.detachUnit u).state.tally = _
      unfold detachUnit
      split <;> exact ⟨rfl, rfl⟩
  | addPrototypes v prototypes =>
      show (a.addPrototypes v prototypes).state.values.size = _ ∧
        (a.addPrototypes v prototypes).state.tally = _
      unfold addPrototypes
      split
      · dsimp only
        split
        · exact ⟨rfl, rfl⟩
        · exact modified v _
      · exact ⟨rfl, rfl⟩
  | assign v name values =>
      show (a.assign v name values).state.values.size = _ ∧ (a.assign v name values).state.tally = _
      unfold assign
      split
      · exact ⟨rfl, rfl⟩
      · exact modified v _
  | bindArguments v args =>
      show (a.bindArguments v args).state.values.size = _ ∧ (a.bindArguments v args).state.tally = _
      unfold bindArguments
      split
      · exact modified v _
      · exact ⟨rfl, rfl⟩
  | lookup _ _ _ | property _ _ | propertyValue _ _ | index _ _ _ | members _ _ =>
      refine query_preserves
        (I := fun b => b.values.size = a.values.size ∧ b.tally = a.tally) ?_ rfl ⟨rfl, rfl⟩
      exact fun b v _ _ _ _ hb => ⟨Array.size_modify.trans hb.1, hb.2⟩

/-- What does not create a value does not answer with one. -/
theorem value?_answer_step (a : Analysis) (hc : c.creates = false) :
    (a.step c).answer.value? = none := by
  cases c with
  | createNull _ | createBoolean _ _ | createNumber _ _ | createText _ _ | createObject _
  | createFunction _ _ | createArguments _ | createInheritor _ _ => cases hc
  | addUnit _ | bumpUnit _ | detachUnit _ | tearDown _ | addPrototypes _ _ | assign _ _ _
  | bindArguments _ _ | lookup _ _ _ | property _ _ | propertyValue _ _ | index _ _ _
  | members _ _ => rfl

/-- What creating a value answers and leaves, while there are identities left. -/
theorem create_of_le (h : a.values.size ≤ Count.top) (u : UnitId) (k : Kind) :
    (a.create u k).answer = ⟨a.values.size⟩ ∧
      (a.create u k).state =
        { a with
          values := a.values.push { unit := u, kind := k, tether := a.tether u }
          tally := a.tally.set k.tag ((a.tally.get? k.tag).getD 0 + 1) } := by
  unfold create
  rw [if_pos h]
  exact ⟨rfl, rfl⟩

/-- When no identity is left, nothing is created. -/
theorem create_of_lt (h : Count.top < a.values.size) (u : UnitId) (k : Kind) :
    (a.create u k).answer = a.undefined ∧ (a.create u k).state = a := by
  unfold create
  rw [if_neg (Nat.not_le_of_lt h)]
  exact ⟨rfl, rfl⟩

/-- **Identities are handed out in turn**: while there are enough of them, the values that a run
creates get the identities that follow those of the values there are. -/
theorem created_run (a : Analysis) (cs : List Command)
    (h : a.values.size + cs.countP Command.creates ≤ Count.top + 1) :
    (a.run cs).answer.filterMap Answer.value? =
        (List.range' a.values.size (cs.countP Command.creates)).map ValueId.mk ∧
      (a.run cs).state.values.size = a.values.size + cs.countP Command.creates := by
  induction cs generalizing a with
  | nil => exact ⟨rfl, rfl⟩
  | cons c cs ih =>
      cases hc : c.creates with
      | false =>
          have hsize := (a.frame_step hc).1
          rw [List.countP_cons_of_neg (by simp [hc])] at h ⊢
          have hrest := ih (a.step c).state (by rw [hsize]; exact h)
          rw [hsize] at hrest
          simp only [run, List.filterMap_cons, a.value?_answer_step hc]
          exact hrest
      | true =>
          obtain ⟨⟨u, k⟩, hk⟩ := Option.isSome_iff_exists.mp ((a.isSome_creation? c).trans hc)
          rw [List.countP_cons_of_pos hc] at h ⊢
          obtain ⟨hans, hstate⟩ := create_of_le (a := a) (by omega) u k
          have hsize : (a.step c).state.values.size = a.values.size + 1 := by
            rw [step_of_creation? hk, Reply.map, hstate, Array.size_push]
          have hvalue : (a.step c).answer.value? = some ⟨a.values.size⟩ := by
            rw [step_of_creation? hk, Reply.map, hans]
            rfl
          obtain ⟨hrest, hlast⟩ := ih (a.step c).state (by rw [hsize]; omega)
          rw [hsize] at hrest hlast
          simp only [run, List.filterMap_cons, hvalue]
          refine ⟨?_, ?_⟩
          · rw [hrest, List.range'_succ, List.map_cons]
          · rw [hlast]
            omega

/-! ### Units -/

/-- What an operation makes of the units, and the unit that it tears down. -/
inductive UnitsChange (units : Array SourceUnit) : Option UnitId → Array SourceUnit → Prop where
  | keep : UnitsChange units none units
  | add (path : String) : UnitsChange units none (units.push { id := ⟨units.size⟩, path })
  | bump (u : UnitId) : UnitsChange units none (units.modify u.index SourceUnit.bump)
  | tearDown (u : UnitId) : UnitsChange units (some u) (units.modify u.index SourceUnit.detach)

/-- **What an operation does to the units**: it adds one, moves one to its next version, tears one
down, or leaves them alone. -/
theorem unitsChange_step (a : Analysis) (c : Command) :
    UnitsChange a.units c.tornUnit? (a.step c).state.units := by
  cases c with
  | addUnit path =>
      show UnitsChange a.units none (a.addUnit path).state.units
      unfold addUnit
      split
      · exact .add path
      · exact .keep
  | bumpUnit u =>
      show UnitsChange a.units none (a.bumpUnit u).state.units
      cases hu : a.unit? u with
      | none =>
          rw [bumpUnit, hu]
          exact .keep
      | some x =>
          have hset : a.units.setIfInBounds u.index x.bump = a.units.modify u.index .bump := by
            refine Array.ext_getElem? fun i => ?_
            rw [Array.getElem?_setIfInBounds, Array.getElem?_modify]
            split
            · next hi =>
              subst hi
              obtain ⟨hlt, hx⟩ := Array.getElem?_eq_some_iff.mp hu
              rw [if_pos hlt, Array.getElem?_eq_getElem hlt, hx]
              rfl
            · rfl
          rw [bumpUnit, hu]
          dsimp only
          rw [hset]
          exact .bump u
  | detachUnit u =>
      show UnitsChange a.units (if u.isBuiltin then none else some u) (a.detachUnit u).state.units
      cases hb : u.isBuiltin with
      | true =>
          rw [detachUnit, hb]
          exact .keep
      | false =>
          have hdown : (a.detachUnit u).state.units = a.units.modify u.index .detach := by
            rw [detachUnit, hb]
            cases hu : a.unit? u with
            | some x => rfl
            | none =>
                -- there is no such unit, so that nothing is done
                refine (Array.ext_getElem? fun i => ?_).symm
                rw [Array.getElem?_modify]
                split
                · next hi =>
                  subst hi
                  rw [show a.units[u.index]? = none from hu]
                  exact hu.symm
                · rfl
          rw [hdown]
          exact .tearDown u
  | tearDown u => exact .tearDown u
  | createNull _ | createBoolean _ _ | createNumber _ _ | createText _ _ | createObject _
  | createFunction _ _ | createArguments _ | createInheritor _ _ | addPrototypes _ _ | assign _ _ _
  | bindArguments _ _ | lookup _ _ _ | property _ _ | propertyValue _ _ | index _ _ _
  | members _ _ =>
      rw [a.units_step rfl]
      exact .keep

/-- A unit that there is keeps its identity, and stands on unless it is torn down. -/
theorem unit?_step_of_some (c : Command) {u : UnitId} {x : SourceUnit} (hu : a.unit? u = some x) :
    ∃ y, (a.step c).state.unit? u = some y ∧ y.id = x.id ∧
      (y.alive = true ↔ x.alive = true ∧ c.tornUnit? ≠ some u) := by
  obtain ⟨i⟩ := u
  have hx : a.units[i]? = some x := hu
  obtain ⟨hlt, -⟩ := Array.getElem?_eq_some_iff.mp hx
  have hchange := a.unitsChange_step c
  simp only [unit?]
  generalize c.tornUnit? = torn, (a.step c).state.units = units at hchange ⊢
  cases hchange with
  | keep => exact ⟨x, hx, rfl, by simp⟩
  | add path => exact ⟨x, by rw [Array.getElem?_push_lt hlt, ← hx]; simp [hlt], rfl, by simp⟩
  | bump w =>
      rw [Array.getElem?_modify, hx]
      split
      · exact ⟨x.bump, rfl, rfl, by simp [SourceUnit.bump]⟩
      · exact ⟨x, rfl, rfl, by simp⟩
  | tearDown w =>
      obtain ⟨j⟩ := w
      rw [Array.getElem?_modify, hx]
      split
      · next h => exact ⟨x.detach, rfl, rfl, by simp [SourceUnit.detach, show j = i from h]⟩
      · next h => exact ⟨x, rfl, rfl, by simp [show ¬ j = i from h]⟩

/-- A unit that there was not has its position for identity, and stands. -/
theorem unit?_step_of_none {u : UnitId} {y : SourceUnit} (hu : a.unit? u = none)
    (hy : (a.step c).state.unit? u = some y) : y.id = u ∧ y.alive = true := by
  obtain ⟨i⟩ := u
  have hn : a.units[i]? = none := hu
  have hchange := a.unitsChange_step c
  simp only [unit?] at hy
  generalize c.tornUnit? = torn, (a.step c).state.units = units at hchange hy
  cases hchange with
  | keep =>
      rw [hn] at hy
      cases hy
  | add path =>
      rw [Array.getElem?_push] at hy
      split at hy
      · next hi =>
        cases hy
        exact ⟨by rw [hi], rfl⟩
      · rw [hn] at hy
        cases hy
  | bump w | tearDown w =>
      rw [Array.getElem?_modify, hn] at hy
      split at hy <;> cases hy

/-! ### Orderly states -/

/-- The number of values of a kind. -/
def population (a : Analysis) (tag : KindTag) : Nat := a.values.toList.countP (·.kind.tag = tag)

/-- The first value is the undefined one, every unit has its position for identity, and the tally
has the kinds of which there are values, with their number. -/
structure Orderly (a : Analysis) : Prop where
  first : a.value? a.undefined = some { unit := .builtin, kind := .undefined, tether := none }
  units : ∀ u x, a.unit? u = some x → x.id = u
  tally : ∀ tag n, a.tally.get? tag = some n ↔ n = a.population tag ∧ n ≠ 0

/-- Values keep their kinds, so that without new values there are as many of each. -/
theorem Grows.population_eq (h : a.Grows b) (hs : b.values.size = a.values.size) (tag : KindTag) :
    b.population tag = a.population tag := by
  have htags : b.values.toList.map (·.kind.tag) = a.values.toList.map (·.kind.tag) := by
    refine List.ext_getElem? fun i => ?_
    rw [List.getElem?_map, List.getElem?_map, Array.getElem?_toList, Array.getElem?_toList]
    cases hx : a.values[i]? with
    | none =>
        have hle := Array.getElem?_eq_none_iff.mp hx
        rw [Array.getElem?_eq_none (hs ▸ hle)]
    | some x =>
        obtain ⟨y, hy, hxy⟩ := h.value ⟨i⟩ x hx
        rw [show b.values[i]? = some y from hy, Option.map_some, Option.map_some, hxy.kind.tag]
  have count : ∀ vs : List Value,
      vs.countP (·.kind.tag = tag) = (vs.map (·.kind.tag)).countP (· = tag) := by
    intro vs
    rw [List.countP_map]
    rfl
  rw [population, population, count, htags, ← count]

/-- A created value is counted. -/
theorem orderly_tally_create (h : ∀ tag n, a.tally.get? tag = some n ↔ n = a.population tag ∧ n ≠ 0)
    (u : UnitId) (k : Kind) (tag : KindTag) (n : Nat) :
    (a.create u k).state.tally.get? tag = some n ↔
      n = (a.create u k).state.population tag ∧ n ≠ 0 := by
  rcases Nat.lt_or_ge Count.top a.values.size with hs | hs
  · rw [(create_of_lt hs u k).2]
    exact h tag n
  have hpop : (a.create u k).state.population tag =
      a.population tag + if k.tag = tag then 1 else 0 := by
    rw [(create_of_le hs u k).2, population, Array.toList_push, List.countP_append]
    simp [population, List.countP_cons]
  have hcount : (a.tally.get? k.tag).getD 0 = a.population k.tag := by
    cases hg : a.tally.get? k.tag with
    | some m => exact ((h k.tag m).mp hg).1
    | none =>
        by_contra hne
        have := (h k.tag _).mpr ⟨rfl, fun he => hne he.symm⟩
        rw [hg] at this
        cases this
  rw [hpop, (create_of_le hs u k).2]
  dsimp only
  rw [Roster.get?_set, hcount]
  split
  · next ht =>
    subst ht
    rw [Option.some.injEq]
    omega
  · exact h tag n

theorem orderly_fresh (o : Options) : (fresh o).Orderly where
  first := rfl
  units u x hx := by
    obtain ⟨i⟩ := u
    obtain ⟨hlt, rfl⟩ := Array.getElem?_eq_some_iff.mp hx
    obtain rfl : i = 0 := Nat.lt_one_iff.mp hlt
    rfl
  tally := by
    refine orderly_tally_create
      (a := { options := o, units := #[.builtin], values := #[], tally := ∅ }) (fun tag n => ?_)
      .builtin .undefined
    constructor
    · intro h
      cases h
    · rintro ⟨rfl, hn⟩
      exact absurd rfl hn

/-- **Every operation leaves an orderly state orderly.** -/
theorem Orderly.step (h : a.Orderly) (c : Command) : (a.step c).state.Orderly where
  first := by
    -- the first value keeps its unit and tether, and its kind has nothing to grow
    obtain ⟨⟨unit, kind, tether⟩, hy, hxy⟩ := (a.step_grows c).value a.undefined _ h.first
    obtain rfl := hxy.unit
    obtain rfl := hxy.tether
    have hk : Kind.undefined.Grows kind := hxy.kind
    cases hk
    exact hy
  units u y hy := by
    cases hu : a.unit? u with
    | none => exact (unit?_step_of_none hu hy).1
    | some x =>
        obtain ⟨y', hy', hid, -⟩ := unit?_step_of_some c hu
        cases hy.symm.trans hy'
        exact hid.trans (h.units u x hu)
  tally tag n := by
    cases hc : c.creates with
    | false =>
        obtain ⟨hsize, htally⟩ := a.frame_step hc
        rw [htally, (a.step_grows c).population_eq hsize]
        exact h.tally tag n
    | true =>
        obtain ⟨⟨u, k⟩, hk⟩ := Option.isSome_iff_exists.mp ((a.isSome_creation? c).trans hc)
        rw [step_of_creation? hk]
        exact orderly_tally_create h.tally u k tag n

theorem Orderly.run (h : a.Orderly) (cs : List Command) : (a.run cs).state.Orderly := by
  induction cs generalizing a with
  | nil => exact h
  | cons c cs ih => exact ih (h.step c)

/-- **Runs from a fresh state lead to orderly states.** -/
theorem orderly_run (o : Options) (cs : List Command) : ((fresh o).run cs).state.Orderly :=
  (orderly_fresh o).run cs

/-! ### Statistics -/

/-- The number of values of the kind of that name. -/
def namedPopulation (a : Analysis) (name : String) : Nat :=
  a.values.toList.countP (·.kind.tag.name = name)

theorem namedPopulation_name (a : Analysis) (tag : KindTag) :
    a.namedPopulation tag.name = a.population tag := by
  simp only [namedPopulation, population, KindTag.name_injective.eq_iff]

/-- Statistics have each name once. -/
theorem nodup_stats (a : Analysis) : (a.stats.map (·.1.name)).Nodup := by
  have hperm : (a.stats.map (·.1.name)).Perm (a.tally.keys.map KindTag.name) := by
    rw [Roster.keys, List.map_map]
    exact (List.mergeSort_perm _ _).map _
  exact hperm.nodup_iff.mpr (a.tally.nodup.map KindTag.name_injective)

theorem mem_stats {tag : KindTag} {n : Nat} :
    (tag, n) ∈ a.stats ↔ a.tally.get? tag = some n := by
  rw [stats, List.mem_mergeSort, Roster.mem_entries_iff]

/-- **Statistics are exact**: they have the names of the kinds of which there are values, each with
their number. -/
theorem Orderly.mem_stats_iff (h : a.Orderly) (name : String) (n : Nat) :
    (name, n) ∈ a.stats.map (fun e => (e.1.name, e.2)) ↔ n = a.namedPopulation name ∧ n ≠ 0 := by
  simp only [List.mem_map, Prod.exists, Prod.mk.injEq]
  constructor
  · rintro ⟨tag, m, hm, rfl, rfl⟩
    rw [namedPopulation_name]
    exact (h.tally tag m).mp (mem_stats.mp hm)
  · rintro ⟨rfl, hn⟩
    -- some value is of a kind of that name
    obtain ⟨x, -, hx⟩ := List.countP_pos_iff.mp (Nat.pos_of_ne_zero hn)
    obtain rfl := of_decide_eq_true hx
    refine ⟨x.kind.tag, _, mem_stats.mpr ((h.tally x.kind.tag _).mpr ⟨?_, hn⟩), rfl, rfl⟩
    exact a.namedPopulation_name x.kind.tag

/-- **The store only grows, and its statistics are exact.**  After every run from a fresh state: the
first value is the undefined one, declared in the built-in unit; every unit has its position for
identity; the values created got the identities `1`, `2`, … in turn, and these and the first are all
there are, if there were identities enough; the statistics have each name of a kind once, with the
number of values of that kind, and none of which there is no value.  And after one more operation,
every value is there under its identity, and has only grown. -/
theorem store_orderly (o : Options) (cs : List Command) {a : Analysis}
    (ha : ((fresh o).run cs).state = a) :
    a.value? ⟨0⟩ = some { unit := .builtin, kind := .undefined, tether := none } ∧
    (∀ u x, a.unit? u = some x → x.id = u) ∧
    (cs.countP Command.creates ≤ Count.top →
      ((fresh o).run cs).answer.filterMap Answer.value? =
        (List.range' 1 (cs.countP Command.creates)).map ValueId.mk ∧
      a.values.size = 1 + cs.countP Command.creates) ∧
    (a.stats.map (·.1.name)).Nodup ∧
    (∀ name n, (name, n) ∈ a.stats.map (fun e => (e.1.name, e.2)) ↔
      n = a.namedPopulation name ∧ n ≠ 0) ∧
    (∀ c v x, a.value? v = some x → ∃ y, (a.step c).state.value? v = some y ∧ x.Grows y) := by
  subst ha
  have h := orderly_run o cs
  refine ⟨h.first, h.units, fun hn => ?_, nodup_stats _, h.mem_stats_iff, fun c => ?_⟩
  · have hsize : (fresh o).values.size = 1 := rfl
    have hrun := (fresh o).created_run cs (by omega)
    rwa [hsize] at hrun
  · exact (step_grows _ c).value

/-- A run that creates values of four kinds, and comes back to some of them. -/
def settlement : List Command :=
  [.addUnit "a.js", .createObject ⟨1⟩, .createText ⟨1⟩ "t", .assign ⟨1⟩ "x" (.singleton ⟨2⟩),
    .createInheritor ⟨1⟩ (.singleton ⟨1⟩), .createObject .builtin, .detachUnit ⟨1⟩,
    .lookup ⟨3⟩ "x" (some ⟨⟨1⟩, ⟨5⟩⟩), .addPrototypes ⟨3⟩ (.singleton ⟨4⟩)]

theorem store_orderly_settlement :
    settlement.countP Command.creates ≤ Count.top ∧
    ((fresh {}).run settlement).answer.filterMap Answer.value? = [⟨1⟩, ⟨2⟩, ⟨3⟩, ⟨4⟩] ∧
    ((fresh {}).run settlement).state.namedPopulation "object" = 2 ∧
    ("object", 2) ∈ ((fresh {}).run settlement).state.stats.map (fun e => (e.1.name, e.2)) := by
  have hn : settlement.countP Command.creates ≤ Count.top := by decide
  have hpop : ((fresh {}).run settlement).state.namedPopulation "object" = 2 := by decide +kernel
  obtain ⟨-, -, hids, -, hstats, -⟩ := store_orderly {} settlement rfl
  exact ⟨hn, (hids hn).1, hpop, (hstats "object" 2).mpr ⟨hpop.symm, by decide⟩⟩

end Analysis

end Prototypal
