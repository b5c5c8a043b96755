import Prototypal.Proofs.Confluence
import Prototypal.Proofs.Constants
import Prototypal.Proofs.Lifetime

/-!
# Prototypal — Proofs — Binding

Argument lists follow the last binding of their function.  An argument list holds the identity of
its function only, and that may stand for no value yet, or for one that is no function; what it
gives when it is indexed is read from the function at that time.  Here it is told from the history
of the run alone.

An operation *binds* a function to argument sets when it says that it did (`Binds`); in the course
of a run a function may be bound any number of times, and the last of these bindings is the one that
no other follows (`LastBound`).

* `boundArguments?_of_binds`, `boundArguments?_of_not_binds`: a binding replaces the argument sets
  of its function, and nothing else touches them.
* `boundArguments?_run_iff`: so after a run a function has those of its last binding.
* `index_follows_last_binding`: indexing an argument list reads these by exact values, and changes
  nothing.
-/

namespace Prototypal.Analysis

variable {a b : Analysis} {c : Command} {cs : List Command} {f : ValueId} {args : List ValueSet}

/-! ### What bindings do -/

/-- `f` is a function. -/
def IsFunction (a : Analysis) (f : ValueId) : Prop :=
  ∃ name ms args, a.kind? f = some (.function name ms args)

/-- The argument sets that `f` is bound to, if it is a function that was bound. -/
def boundArguments? (a : Analysis) (f : ValueId) : Option (List ValueSet) :=
  (a.kind? f).bind Kind.args?

/-- Carried out in state `a`, operation `c` binds `f` to `args`, and says so. -/
def Binds (a : Analysis) (c : Command) (f : ValueId) (args : List ValueSet) : Prop :=
  c = .bindArguments f args ∧ (a.step c).answer = .flag true

theorem isFunction_of_boundArguments? (h : a.boundArguments? f = some args) : a.IsFunction f := by
  obtain ⟨k, hk, hargs⟩ := Option.bind_eq_some_iff.mp h
  cases k <;> cases hargs
  exact ⟨_, _, _, hk⟩

/-- What binding does to a function. -/
theorem bindArguments_of_isFunction {name : String} {ms : Members} {old : Option (List ValueSet)}
    (hk : a.kind? f = some (.function name ms old)) (args : List ValueSet) :
    a.bindArguments f args =
      { answer := true
        state := a.modifyValue f ({ · with kind := .function name ms (some args) }) } := by
  rw [bindArguments, hk]

/-- What is no function is not bound. -/
theorem bindArguments_of_not_isFunction (hf : ¬ a.IsFunction f) (args : List ValueSet) :
    a.bindArguments f args = { answer := false, state := a } := by
  unfold bindArguments
  split
  · next name ms old hk => exact absurd ⟨name, ms, old, hk⟩ hf
  · rfl

/-- Functions are what can be bound. -/
theorem binds_bindArguments_iff : a.Binds (.bindArguments f args) f args ↔ a.IsFunction f := by
  rw [Binds, and_iff_right rfl]
  show Answer.flag (a.bindArguments f args).answer = .flag true ↔ _
  by_cases hf : a.IsFunction f
  · obtain ⟨name, ms, old, hk⟩ := hf
    rw [bindArguments_of_isFunction hk]
    exact iff_of_true rfl ⟨name, ms, old, hk⟩
  · rw [bindArguments_of_not_isFunction hf]
    exact iff_of_false nofun hf

/-- **A binding replaces the argument sets.** -/
theorem boundArguments?_of_binds (h : a.Binds c f args) :
    (a.step c).state.boundArguments? f = some args := by
  obtain rfl := h.1
  obtain ⟨name, ms, old, hk⟩ := binds_bindArguments_iff.mp h
  obtain ⟨x, hx, -⟩ := Option.map_eq_some_iff.mp hk
  show (a.bindArguments f args).state.boundArguments? f = some args
  rw [bindArguments_of_isFunction hk, boundArguments?, kind?, value?_modifyValue, if_pos rfl, hx]
  rfl

/-- The argument sets of a function are part of its bare shape. -/
theorem boundArguments?_congr (h : (a.value? f).map Value.bare = (b.value? f).map Value.bare) :
    a.boundArguments? f = b.boundArguments? f := by
  have hk := congrArg (Option.bind · Kind.args?) (map_bare_kind? h)
  simpa [boundArguments?, Option.bind_map, Function.comp_def] using hk

/-- A new value is bound to nothing. -/
theorem boundArguments?_create {u : UnitId} {k : Kind} (hk : k.args? = none) :
    (a.create u k).state.boundArguments? f = a.boundArguments? f := by
  rcases Nat.lt_or_ge Count.top a.values.size with hs | hs
  · rw [(create_of_lt hs u k).2]
  rw [(create_of_le hs u k).2, boundArguments?, boundArguments?, kind?, kind?, value?, value?,
    Array.getElem?_push]
  split
  · next hf =>
    rw [Array.getElem?_eq_none (Nat.le_of_eq hf.symm)]
    exact hk
  · rfl

/-- What neither creates a value nor binds one leaves the bare shapes alone. -/
theorem bare_step (a : Analysis) (hc : c.creates = false)
    (hb : ∀ v args, c ≠ .bindArguments v args) (v : ValueId) :
    ((a.step c).state.value? v).map Value.bare = (a.value? v).map Value.bare := by
  cases c with
  | createNull _ | createBoolean _ _ | createNumber _ _ | createText _ _ | createObject _
  | createFunction _ _ | createArguments _ | createInheritor _ _ => cases hc
  | bindArguments v args => exact absurd rfl (hb v args)
  | tearDown u => rfl
  | addUnit path =>
      show ((a.addUnit path).state.value? v).map _ = _
      unfold addUnit
      split <;> rfl
  | bumpUnit u =>
      show ((a.bumpUnit u).state.value? v).map _ = _
      unfold bumpUnit
      split <;> rfl
  | detachUnit u =>
      show ((a.detachUnit u).state.value? v).map _ = _
      unfold detachUnit
      split <;> rfl
  | addPrototypes u prototypes => exact ((a.aligned_addPrototypes u prototypes).bare v).symm
  | assign u name values => exact ((a.aligned_assign u name values).bare v).symm
  | lookup _ _ _ | property _ _ | propertyValue _ _ | index _ _ _ | members _ _ =>
      refine query_preserves
        (I := fun b => (b.value? v).map Value.bare = (a.value? v).map Value.bare) ?_ rfl rfl
      exact fun b u name slot usages _ hv => (bare_modifyValue_setSlot b u v name _).trans hv

/-- **Nothing but a binding touches the argument sets.** -/
theorem boundArguments?_of_not_binds (h : ∀ args, ¬ a.Binds c f args) :
    (a.step c).state.boundArguments? f = a.boundArguments? f := by
  cases hcr : c.creates with
  | true =>
      obtain ⟨⟨u, k⟩, hk⟩ := Option.isSome_iff_exists.mp ((a.isSome_creation? c).trans hcr)
      rw [step_of_creation? hk]
      refine boundArguments?_create ?_
      cases c <;> cases hk <;> rfl
  | false =>
      by_cases hb : ∃ v args, c = .bindArguments v args
      · obtain ⟨v, args, rfl⟩ := hb
        show (a.bindArguments v args).state.boundArguments? f = _
        by_cases hv : a.IsFunction v
        · -- another function is bound
          have hne : v ≠ f := fun he => h args (he ▸ binds_bindArguments_iff.mpr hv)
          obtain ⟨name, ms, old, hk⟩ := hv
          rw [bindArguments_of_isFunction hk]
          refine boundArguments?_congr ?_
          rw [value?_modifyValue, if_neg hne]
        · rw [bindArguments_of_not_isFunction hv]
      · exact boundArguments?_congr (a.bare_step hcr (fun v args hc => hb ⟨v, args, hc⟩) f)

/-! ### Bindings in a run -/

/-- In the course of the run `cs` from `a`, function `f` is bound. -/
def Bound (a : Analysis) (cs : List Command) (f : ValueId) : Prop :=
  ∃ b c args, Occurs a cs b c ∧ b.Binds c f args

/-- The last of the bindings of `f`, in the course of the run `cs` from `a`, is to `args`. -/
def LastBound (a : Analysis) (cs : List Command) (f : ValueId) (args : List ValueSet) : Prop :=
  ∃ before c after, cs = before ++ c :: after ∧ (a.run before).state.Binds c f args ∧
    ¬ ((a.run before).state.step c).state.Bound after f

theorem not_bound_nil : ¬ a.Bound [] f := by
  rintro ⟨b, c, args, hocc, -⟩
  cases hocc

theorem bound_cons :
    a.Bound (c :: cs) f ↔ (∃ args, a.Binds c f args) ∨ (a.step c).state.Bound cs f := by
  constructor
  · rintro ⟨b, d, args, hocc, hd⟩
    cases hocc with
    | now => exact .inl ⟨args, hd⟩
    | later h => exact .inr ⟨b, d, args, h, hd⟩
  · rintro (⟨args, h⟩ | ⟨b, d, args, hocc, hd⟩)
    · exact ⟨a, c, args, .now a c cs, h⟩
    · exact ⟨b, d, args, .later hocc, hd⟩

theorem lastBound_cons :
    a.LastBound (c :: cs) f args ↔
      (a.Binds c f args ∧ ¬ (a.step c).state.Bound cs f) ∨
        (a.step c).state.LastBound cs f args := by
  constructor
  · rintro ⟨before, d, after, hcs, hd⟩
    cases before with
    | nil =>
        cases hcs
        exact .inl hd
    | cons _ before =>
        cases hcs
        exact .inr ⟨before, d, after, rfl, hd⟩
  · rintro (h | ⟨before, d, after, rfl, hd⟩)
    · exact ⟨[], c, cs, rfl, h⟩
    · exact ⟨c :: before, d, after, rfl, hd⟩

/-- **After a run a function has the argument sets of its last binding**, or those it had at first,
if it was not bound. -/
theorem boundArguments?_run_iff (a : Analysis) (cs : List Command) :
    (a.run cs).state.boundArguments? f = some args ↔
      a.LastBound cs f args ∨ (¬ a.Bound cs f ∧ a.boundArguments? f = some args) := by
  induction cs generalizing a with
  | nil =>
      have hlast : ¬ a.LastBound [] f args := by
        rintro ⟨before, c, after, hcs, -⟩
        exact absurd hcs (by simp)
      rw [or_iff_right hlast, and_iff_right not_bound_nil]
      rfl
  | cons c cs ih =>
      show ((a.step c).state.run cs).state.boundArguments? f = some args ↔ _
      rw [ih, lastBound_cons, bound_cons, not_or]
      by_cases hb : ∃ args, a.Binds c f args
      · obtain ⟨args', hb⟩ := hb
        -- what the first operation binds to is what it leaves
        have hbound : (a.step c).state.boundArguments? f = some args ↔ a.Binds c f args := by
          rw [boundArguments?_of_binds hb, Option.some.injEq]
          constructor
          · rintro rfl
            exact hb
          · intro hb'
            exact (Command.bindArguments.inj (hb.1.symm.trans hb'.1)).2
        rw [hbound]
        have hsome : ¬ ¬ ∃ args, a.Binds c f args := not_not.mpr ⟨args', hb⟩
        tauto
      · have hnone : ¬ a.Binds c f args := fun h => hb ⟨args, h⟩
        rw [boundArguments?_of_not_binds fun args h => hb ⟨args, h⟩]
        tauto

/-- Nothing is bound in a fresh state. -/
theorem boundArguments?_fresh (o : Options) (f : ValueId) : (fresh o).boundArguments? f = none := by
  obtain ⟨i⟩ := f
  cases i <;> rfl

theorem boundArguments?_iff_lastBound {o : Options} :
    ((fresh o).run cs).state.boundArguments? f = some args ↔ (fresh o).LastBound cs f args := by
  rw [boundArguments?_run_iff, boundArguments?_fresh]
  simp

theorem LastBound.bound (h : a.LastBound cs f args) : a.Bound cs f := by
  obtain ⟨before, c, after, rfl, hb, -⟩ := h
  induction before generalizing a with
  | nil => exact bound_cons.mpr (.inl ⟨args, hb⟩)
  | cons d before ih => exact bound_cons.mpr (.inr (ih hb))

/-! ### Indexing argument lists -/

/-- What is read of the argument sets: those at the positions that are exact values of indices. -/
theorem mem_argumentsAt {is : ValueSet} {w : ValueId} :
    w ∈ a.argumentsAt f is ↔
      ∃ args, a.boundArguments? f = some args ∧
        ∃ i ∈ is, ∃ n, a.IsNatural i n ∧ ∃ t, args[n]? = some t ∧ w ∈ t := by
  rw [argumentsAt, ← boundArguments?, ValueSet.mem_unionAll]
  cases a.boundArguments? f with
  | none => simp
  | some args =>
      simp only [Option.getD_some, List.mem_filterMap, Option.bind_eq_some_iff,
        position?_eq_some_iff, Option.some.injEq, exists_eq_left']
      constructor
      · rintro ⟨t, ⟨i, hi, n, hn, ht⟩, hw⟩
        exact ⟨i, hi, n, hn, t, ht, hw⟩
      · rintro ⟨i, hi, n, hn, t, ht, hw⟩
        exact ⟨t, ⟨i, hi, n, hn, ht⟩, hw⟩

/-- **Argument lists follow the last binding of their function.**  After every run from a fresh
state, indexing an argument list that was created for `f` changes and reports nothing.  It answers
what is shown, dead values apart if they are hidden, of the union of the argument sets at the
positions `n` that are exact values of number constants among the indices, in the argument list of
the last operation of the run that bound `f`; that is nothing if `f` was never bound, or is no
function. -/
theorem index_follows_last_binding (o : Options) (cs : List Command) {a : Analysis}
    (ha : ((fresh o).run cs).state = a) {b : Analysis} {v f : ValueId} {u : UnitId}
    (hv : (fresh o).Born cs b v u (.arguments f)) (is : ValueSet) (site : Option Site) :
    (a.index v is site).state = a ∧ (a.index v is site).log = [] ∧
    (∃ s, (a.index v is site).answer = a.shown s ∧
      (∀ w, w ∈ (a.index v is site).answer ↔
        w ∈ s ∧ (a.options.hidesDead = true → a.isAlive w = true)) ∧
      ∀ w, w ∈ s ↔ ∃ args, (fresh o).LastBound cs f args ∧
        ∃ i ∈ is, ∃ n, a.IsNatural i n ∧ ∃ t, args[n]? = some t ∧ w ∈ t) ∧
    (¬ (fresh o).Bound cs f ∨ ¬ a.IsFunction f → (a.index v is site).answer = ∅) := by
  subst ha
  -- an argument list stays what it was when it was born
  obtain ⟨x, hx, -, -, hg⟩ := hv.exists_value?
  have hk : ((fresh o).run cs).state.kind? v = some (.arguments f) := by
    rw [kind?, hx, Option.map_some]
    generalize x.kind = k at hg ⊢
    cases hg
    rfl
  rw [index_of_arguments is site hk]
  refine ⟨rfl, rfl, ⟨_, rfl, fun _ => mem_shown, fun w => ?_⟩, fun h => ?_⟩
  · simp only [mem_argumentsAt, boundArguments?_iff_lastBound]
  · have hnone : ∀ args, ((fresh o).run cs).state.boundArguments? f ≠ some args := by
      intro args hargs
      rcases h with h | h
      · exact h (boundArguments?_iff_lastBound.mp hargs).bound
      · exact h (isFunction_of_boundArguments? hargs)
    refine ValueSet.eq_empty_iff.mpr fun w hw => ?_
    obtain ⟨args, hargs, -⟩ := mem_argumentsAt.mp (mem_shown.mp hw).1
    exact hnone args hargs

/-- An argument list for an identity that stands for no value yet, a function under that identity,
and the numbers negative zero, one and a half; the function is bound to two arguments and then to
one, and what is no function is not bound. -/
def reboundFunction : List Command :=
  [.createArguments ⟨2⟩, .createFunction .builtin "f",
    .createNumber .builtin ⟨0x8000000000000000⟩, .createNumber .builtin ⟨0x3FF0000000000000⟩,
    .createNumber .builtin ⟨0x3FE0000000000000⟩,
    .bindArguments ⟨2⟩ [.singleton ⟨3⟩, .singleton ⟨4⟩],
    .bindArguments ⟨2⟩ [.ofList [⟨0⟩, ⟨1⟩]], .bindArguments ⟨1⟩ [.singleton ⟨5⟩]]

theorem index_follows_last_binding_reboundFunction :
    (∃ b u, (fresh {}).Born reboundFunction b ⟨1⟩ u (.arguments ⟨2⟩) ∧ b.value? ⟨2⟩ = none) ∧
    (fresh {}).LastBound reboundFunction ⟨2⟩ [.ofList [⟨0⟩, ⟨1⟩]] ∧
    ∃ a, ((fresh {}).run reboundFunction).state = a ∧
      (a.index ⟨1⟩ (.ofList [⟨3⟩, ⟨4⟩, ⟨5⟩, ⟨9⟩]) none).answer = .ofList [⟨0⟩, ⟨1⟩] ∧
      (a.index ⟨1⟩ (.ofList [⟨3⟩, ⟨4⟩, ⟨5⟩, ⟨9⟩]) none).state = a := by
  have hborn : (fresh {}).Born reboundFunction (fresh {}) ⟨1⟩ .builtin (.arguments ⟨2⟩) :=
    ⟨_, .now _ _ _, rfl, rfl, rfl⟩
  have hlast : (fresh {}).LastBound reboundFunction ⟨2⟩ [.ofList [⟨0⟩, ⟨1⟩]] := by
    refine ⟨reboundFunction.take 6, _, _, rfl, ⟨rfl, rfl⟩, ?_⟩
    rintro ⟨b, c, args, hocc, hc, -⟩
    cases hocc with
    | now => cases hc
    | later h => cases h
  obtain ⟨hstate, -⟩ := index_follows_last_binding {} reboundFunction rfl hborn
    (.ofList [⟨3⟩, ⟨4⟩, ⟨5⟩, ⟨9⟩]) none
  exact ⟨⟨_, _, hborn, rfl⟩, hlast, _, rfl, by decide +kernel, hstate⟩

end Prototypal.Analysis
