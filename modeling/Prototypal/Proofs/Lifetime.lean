import Prototypal.Proofs.Census

/-!
# Prototypal — Proofs — Lifetime

How long values live.  Whether a value is alive is asked of the flag of a unit, through the tether
that the value got when it was created; here it is told from the history of the run alone.

`Occurs a cs b c` says that in the course of the run `cs` from `a`, operation `c` is carried out
when the state is `b`.  A value is *born* when an operation creates it (`Born`), and a unit is *torn
down* when an operation does that while there is such a unit (`TornDown`).

* `isStanding_run_iff`: a unit stands just when it is there and has not been torn down.
* `Born.isAlive_iff`: a value is alive just when it was declared in the built-in unit, or in a unit
  that was not there when it was born, or in one that has not been torn down, before or since.
* `alive_until_torn_down`: this for all values of every run, those that do not exist included; and
  what is dead stays dead.
-/

namespace Prototypal.Analysis

variable {a b : Analysis} {c d : Command} {cs : List Command} {u : UnitId} {v : ValueId} {k : Kind}

/-! ### What occurs in a run -/

/-- In the course of the run `cs` from `a`, operation `c` is carried out when the state is `b`. -/
inductive Occurs : Analysis → List Command → Analysis → Command → Prop where
  | now (a : Analysis) (c : Command) (cs : List Command) : Occurs a (c :: cs) a c
  | later {a b : Analysis} {c d : Command} {cs : List Command}
      (h : Occurs (a.step c).state cs b d) : Occurs a (c :: cs) b d

namespace Occurs

/-- What occurs in a run occurs in every longer one. -/
theorem append (h : Occurs a cs b c) (ds : List Command) : Occurs a (cs ++ ds) b c := by
  induction h with
  | now a c cs => exact .now a c _
  | later _ ih => exact .later ih

/-- An operation that occurs splits the run in what came before and what comes after. -/
theorem exists_split (h : Occurs a cs b c) :
    ∃ before after, (a.run before).state = b ∧ ((b.step c).state.run after).state =
      (a.run cs).state := by
  induction h with
  | now a c cs => exact ⟨[], cs, rfl, rfl⟩
  | @later a b c d cs _ ih =>
      obtain ⟨before, after, hb, hafter⟩ := ih
      exact ⟨c :: before, after, hb, hafter⟩

end Occurs

/-! ### Units -/

/-- In the course of the run `cs` from `a`, an operation tears unit `u` down when it is there. -/
def TornDown (a : Analysis) (cs : List Command) (u : UnitId) : Prop :=
  ∃ b c, Occurs a cs b c ∧ c.tornUnit? = some u ∧ (b.unit? u).isSome

theorem tornDown_cons :
    a.TornDown (c :: cs) u ↔
      (c.tornUnit? = some u ∧ (a.unit? u).isSome) ∨ (a.step c).state.TornDown cs u := by
  constructor
  · rintro ⟨b, d, hocc, hd⟩
    cases hocc with
    | now => exact .inl hd
    | later h => exact .inr ⟨b, d, h, hd⟩
  · rintro (h | ⟨b, d, hocc, hd⟩)
    · exact ⟨a, c, .now a c cs, h⟩
    · exact ⟨b, d, .later hocc, hd⟩

theorem TornDown.append (h : a.TornDown cs u) (ds : List Command) : a.TornDown (cs ++ ds) u := by
  obtain ⟨b, c, hocc, hc⟩ := h
  exact ⟨b, c, hocc.append ds, hc⟩

/-- A unit that is there stays there. -/
theorem isSome_unit?_run (a : Analysis) (cs : List Command) (hu : (a.unit? u).isSome) :
    ((a.run cs).state.unit? u).isSome := by
  induction cs generalizing a with
  | nil => exact hu
  | cons c cs ih =>
      obtain ⟨x, hx⟩ := Option.isSome_iff_exists.mp hu
      obtain ⟨y, hy, -⟩ := unit?_step_of_some c hx
      exact ih _ (by rw [hy]; rfl)

/-- A unit stood before an operation, or is new, and is not torn down, if it stands after it. -/
theorem alive_step_iff (a : Analysis) (c : Command) (u : UnitId) :
    (∀ y, (a.step c).state.unit? u = some y → y.alive = true) ↔
      (∀ x, a.unit? u = some x → x.alive = true) ∧
        ¬ (c.tornUnit? = some u ∧ (a.unit? u).isSome) := by
  cases hu : a.unit? u with
  | none => simpa using fun y hy => (unit?_step_of_none hu hy).2
  | some x =>
      obtain ⟨y, hy, -, halive⟩ := unit?_step_of_some c hu
      simpa [hy] using halive

/-- **A unit stands until it is torn down.** -/
theorem isStanding_run_iff (a : Analysis) (cs : List Command) (u : UnitId) :
    (a.run cs).state.isStanding u = true ↔
      ((a.run cs).state.unit? u).isSome ∧ (∀ x, a.unit? u = some x → x.alive = true) ∧
        ¬ a.TornDown cs u := by
  induction cs generalizing a with
  | nil =>
      have hnone : ¬ a.TornDown [] u := by
        rintro ⟨b, c, hocc, -⟩
        cases hocc
      show (a.unit? u).any SourceUnit.alive = true ↔ (a.unit? u).isSome ∧ _ ∧ _
      cases a.unit? u with
      | none => simp
      | some x => simp [hnone]
  | cons c cs ih =>
      show ((a.step c).state.run cs).state.isStanding u = true ↔ _
      rw [ih, alive_step_iff, tornDown_cons, not_or, and_assoc]
      rfl

/-! ### Births -/

/-- In the course of the run `cs` from `a`, when the state is `b`, value `v` is created: it is
declared in unit `u`, and of shape `k`. -/
def Born (a : Analysis) (cs : List Command) (b : Analysis) (v : ValueId) (u : UnitId) (k : Kind) :
    Prop :=
  ∃ c, Occurs a cs b c ∧ b.creation? c = some (u, k) ∧ (b.step c).answer = .value v ∧
    b.value? v = none

theorem Born.append (h : a.Born cs b v u k) (ds : List Command) : a.Born (cs ++ ds) b v u k := by
  obtain ⟨c, hocc, hc⟩ := h
  exact ⟨c, hocc.append ds, hc⟩

/-- The value that an operation creates. -/
theorem value?_of_creation? (hk : a.creation? c = some (u, k)) (hans : (a.step c).answer = .value v)
    (hv : a.value? v = none) :
    (a.step c).state.value? v = some { unit := u, kind := k, tether := a.tether u } := by
  rw [step_of_creation? hk] at hans ⊢
  have hans : (a.create u k).answer = v := Answer.value.inj hans
  rcases Nat.lt_or_ge Count.top a.values.size with hs | hs
  · -- the undefined value, which stands in when no identity is left, is not a new one
    rw [(create_of_lt hs u k).1] at hans
    subst hans
    have hle := Array.getElem?_eq_none_iff.mp hv
    exact absurd (Nat.lt_of_lt_of_le hs hle) (Nat.not_lt_zero _)
  · obtain ⟨hnew, hstate⟩ := create_of_le hs u k
    rw [hnew] at hans
    subst hans
    show (a.create u k).state.value? _ = _
    rw [hstate]
    exact Array.getElem?_push_size

/-- A value that was not there before an operation was created by it. -/
theorem exists_creation?_of_value? (hv : a.value? v = none)
    (hs : ((a.step c).state.value? v).isSome) :
    ∃ u k, a.creation? c = some (u, k) ∧ (a.step c).answer = .value v := by
  have hle : a.values.size ≤ v.index := Array.getElem?_eq_none_iff.mp hv
  have hlt : v.index < (a.step c).state.values.size := by
    obtain ⟨x, hx⟩ := Option.isSome_iff_exists.mp hs
    exact (Array.getElem?_eq_some_iff.mp hx).1
  cases hc : c.creates with
  | false =>
      rw [(a.frame_step hc).1] at hlt
      exact absurd hlt (Nat.not_lt_of_le hle)
  | true =>
      obtain ⟨⟨u, k⟩, hk⟩ := Option.isSome_iff_exists.mp ((a.isSome_creation? c).trans hc)
      refine ⟨u, k, hk, ?_⟩
      rw [step_of_creation? hk, Reply.map] at hlt ⊢
      rcases Nat.lt_or_ge Count.top a.values.size with hfull | hroom
      · rw [(create_of_lt hfull u k).2] at hlt
        exact absurd hlt (Nat.not_lt_of_le hle)
      · obtain ⟨hans, hstate⟩ := create_of_le hroom u k
        rw [hstate, Array.size_push] at hlt
        obtain ⟨i⟩ := v
        obtain rfl : i = a.values.size := Nat.le_antisymm (Nat.le_of_lt_succ hlt) hle
        rw [hans]

/-- **Values that were not there from the start were born.** -/
theorem exists_born (hv : a.value? v = none) (hs : ((a.run cs).state.value? v).isSome) :
    ∃ b u k, a.Born cs b v u k := by
  induction cs generalizing a with
  | nil =>
      rw [show (a.run []).state = a from rfl, hv] at hs
      cases hs
  | cons c cs ih =>
      cases hx : (a.step c).state.value? v with
      | none =>
          obtain ⟨b, u, k, d, hocc, hd⟩ := ih hx hs
          exact ⟨b, u, k, d, .later hocc, hd⟩
      | some x =>
          obtain ⟨u, k, hk, hans⟩ := exists_creation?_of_value? hv (by rw [hx]; rfl)
          exact ⟨a, u, k, c, .now a c cs, hk, hans, hv⟩

/-- **What becomes of a value that was born**: it keeps its unit and the tether that it got, and its
shape only grows. -/
theorem Born.exists_value? (h : a.Born cs b v u k) :
    ∃ x, (a.run cs).state.value? v = some x ∧ x.unit = u ∧ x.tether = b.tether u ∧
      k.Grows x.kind := by
  obtain ⟨c, hocc, hk, hans, hv⟩ := h
  obtain ⟨-, after, -, hrun⟩ := hocc.exists_split
  have hborn := value?_of_creation? hk hans hv
  obtain ⟨x, hx, hg⟩ := ((b.step c).state.run_grows after).value v _ hborn
  rw [hrun] at hx
  exact ⟨x, hx, hg.unit, hg.tether, hg.kind⟩

/-- An argument list is declared where its function is, or, if there is none, in the built-in
unit. -/
theorem Born.arguments {f : ValueId} (h : a.Born cs b v u (.arguments f)) :
    (b.value? f = none ∧ u = .builtin) ∨
      ∃ y, (b.value? f).isSome ∧ (a.run cs).state.value? f = some y ∧ u = y.unit := by
  obtain ⟨c, hocc, hk, -⟩ := h
  obtain ⟨-, after, -, hrun⟩ := hocc.exists_split
  have hu : ((b.value? f).map Value.unit).getD .builtin = u := by
    cases c <;> cases hk
    rfl
  cases hf : b.value? f with
  | none => exact .inl ⟨rfl, by rw [← hu, hf]; rfl⟩
  | some x =>
      obtain ⟨y, hy, hg⟩ := ((b.step_grows c).trans (run_grows _ after)).value f x hf
      rw [hrun] at hy
      exact .inr ⟨y, rfl, hy, by rw [← hu, hf, hg.unit]; rfl⟩

/-! ### Lifetimes -/

theorem alive_fresh (o : Options) (u : UnitId) :
    ∀ x, (fresh o).unit? u = some x → x.alive = true := by
  intro x hx
  obtain ⟨hlt, rfl⟩ := Array.getElem?_eq_some_iff.mp hx
  obtain ⟨i⟩ := u
  obtain rfl : i = 0 := Nat.lt_one_iff.mp hlt
  rfl

/-- **A value lives until its unit is torn down**, if it has one that can be: not the built-in one,
and one that was there when the value was born. -/
theorem Born.isAlive_iff {o : Options} (h : (fresh o).Born cs b v u k) :
    ((fresh o).run cs).state.isAlive v = true ↔
      u = .builtin ∨ b.unit? u = none ∨ ¬ (fresh o).TornDown cs u := by
  obtain ⟨x, hx, -, htether, -⟩ := h.exists_value?
  obtain ⟨c, hocc, -⟩ := h
  obtain ⟨before, after, hb, hrun⟩ := hocc.exists_split
  rw [isAlive, hx, Option.any_some, htether, tether]
  by_cases hu : u = .builtin
  · subst hu
    exact iff_of_true rfl (.inl rfl)
  rw [if_neg (by simpa [UnitId.isBuiltin] using hu)]
  cases hy : b.unit? u with
  | none => exact iff_of_true rfl (.inr (.inl rfl))
  | some y =>
      -- the tether is the unit's identity, which is its position
      have hid : y.id = u := (hb ▸ orderly_run o before : b.Orderly).units u y hy
      have hsome : (((fresh o).run cs).state.unit? u).isSome := by
        obtain ⟨z, hz, -⟩ := unit?_step_of_some c hy
        rw [← hrun]
        exact isSome_unit?_run _ after (by rw [hz]; rfl)
      have hstands := (fresh o).isStanding_run_iff cs u
      rw [and_iff_right hsome, and_iff_right (alive_fresh o u)] at hstands
      rw [Option.map_some, hid]
      exact hstands.trans (by simp [hu])

/-- What is alive after a longer run was alive before: that has the same births, and tears down what
the shorter one does. -/
theorem Born.isAlive_of_append {o : Options} (h : (fresh o).Born cs b v u k) {ds : List Command}
    (hlives : ((fresh o).run (cs ++ ds)).state.isAlive v = true) :
    ((fresh o).run cs).state.isAlive v = true := by
  have hiff := (h.append ds).isAlive_iff
  exact h.isAlive_iff.mpr ((hiff.mp hlives).imp_right (.imp_right (mt fun ht => ht.append ds)))

/-- The values of a run from a fresh state are the first one and those that were born. -/
theorem eq_undefined_or_born {o : Options} (hv : (((fresh o).run cs).state.value? v).isSome) :
    v = ((fresh o).run cs).state.undefined ∨ ∃ b u k, (fresh o).Born cs b v u k := by
  obtain ⟨i⟩ := v
  cases i with
  | zero => exact .inl rfl
  | succ i => exact .inr (exists_born rfl hv)

/-- **Values live until their unit is torn down.**  After every run from a fresh state, the values
are the undefined one, which is alive, and those that were born.  Each of these is in the unit it
was declared in, and is alive just when that is the built-in one, or was not there when the value
was born, or has not been torn down in the whole of the run, before the birth or after it.  An
argument list is declared in the unit of its function, or in the built-in one if there was no such
value when it was born.  Identities that stand for no value are not alive, and a value that is dead
is dead after every further run. -/
theorem alive_until_torn_down (o : Options) (cs : List Command) {a : Analysis}
    (ha : ((fresh o).run cs).state = a) :
    (∀ v, (a.value? v).isSome ↔ v = a.undefined ∨ ∃ b u k, (fresh o).Born cs b v u k) ∧
    ((a.value? a.undefined).map Value.unit = some .builtin ∧ a.isAlive a.undefined = true) ∧
    (∀ b v u k, (fresh o).Born cs b v u k →
      (∃ x, a.value? v = some x ∧ x.unit = u ∧ k.Grows x.kind) ∧
      (a.isAlive v = true ↔ u = .builtin ∨ b.unit? u = none ∨ ¬ (fresh o).TornDown cs u)) ∧
    (∀ v x f, a.value? v = some x → x.kind = .arguments f →
      ∃ b, (fresh o).Born cs b v x.unit (.arguments f) ∧
        ((b.value? f = none ∧ x.unit = .builtin) ∨
          ∃ y, (b.value? f).isSome ∧ a.value? f = some y ∧ x.unit = y.unit)) ∧
    (∀ v, a.value? v = none → a.isAlive v = false) ∧
    (∀ v ds, (a.value? v).isSome → a.isAlive v = false → (a.run ds).state.isAlive v = false) := by
  subst ha
  have hfirst := (orderly_run o cs).first
  have hbuiltin : ((fresh o).run cs).state.isAlive ((fresh o).run cs).state.undefined = true := by
    rw [isAlive, hfirst]
    rfl
  refine ⟨fun v => ⟨eq_undefined_or_born, ?_⟩, ⟨by rw [hfirst]; rfl, hbuiltin⟩, fun b v u k h => ?_,
    fun v x f hx hk => ?_, fun v hv => by rw [isAlive, hv]; rfl, fun v ds hv hdead => ?_⟩
  · rintro (rfl | ⟨b, u, k, h⟩)
    · rw [hfirst]
      rfl
    · obtain ⟨x, hx, -⟩ := h.exists_value?
      rw [hx]
      rfl
  · obtain ⟨x, hx, hu, -, hk⟩ := h.exists_value?
    exact ⟨⟨x, hx, hu, hk⟩, h.isAlive_iff⟩
  · rcases eq_undefined_or_born (by rw [hx]; rfl) with rfl | ⟨b, u, k, h⟩
    · cases hfirst.symm.trans hx
      cases hk
    · -- an argument list was one when it was born
      obtain ⟨y, hy, rfl, -, hg⟩ := h.exists_value?
      cases hx.symm.trans hy
      rw [hk] at hg
      cases hg
      exact ⟨b, h, h.arguments⟩
  · rcases eq_undefined_or_born hv with rfl | ⟨b, u, k, h⟩
    · rw [hbuiltin] at hdead
      cases hdead
    · rw [← run_append, Bool.eq_false_iff]
      exact mt h.isAlive_of_append (Bool.eq_false_iff.mp hdead)

/-- Values of a unit that is torn down before the second of them is created, of one that there is
not yet, and the argument lists of the first and of the last; the unit that was missing is added and
torn down in the end. -/
def tornTwice : List Command :=
  [.addUnit "a.js", .createObject ⟨1⟩, .createArguments ⟨7⟩, .detachUnit ⟨1⟩, .createNull ⟨1⟩,
    .createObject ⟨2⟩, .createArguments ⟨1⟩, .addUnit "b.js", .createArguments ⟨4⟩, .tearDown ⟨2⟩,
    .tearDown .builtin]

theorem alive_until_torn_down_tornTwice :
    [0, 1, 2, 3, 5, 6, 7].map (fun i => ((fresh {}).run tornTwice).state.isAlive ⟨i⟩) =
      [true, false, true, false, false, false, false] ∧
    (∃ b, (fresh {}).Born tornTwice b ⟨4⟩ ⟨2⟩ (.object ∅) ∧ b.unit? ⟨2⟩ = none) ∧
    (fresh {}).TornDown tornTwice ⟨2⟩ ∧ ((fresh {}).run tornTwice).state.isAlive ⟨4⟩ = true ∧
    ∀ ds, (((fresh {}).run tornTwice).state.run ds).state.isAlive ⟨6⟩ = false := by
  have hborn : ∃ b, (fresh {}).Born tornTwice b ⟨4⟩ ⟨2⟩ (.object ∅) ∧ b.unit? ⟨2⟩ = none :=
    ⟨_, ⟨_, .later (.later (.later (.later (.later (.now _ _ _))))), rfl, rfl, rfl⟩, rfl⟩
  have htorn : (fresh {}).TornDown tornTwice ⟨2⟩ :=
    ⟨_, _, .later (.later (.later (.later (.later (.later (.later (.later (.later
      (.now _ _ _))))))))), rfl, rfl⟩
  obtain ⟨-, -, hlife, -, -, hdead⟩ := alive_until_torn_down {} tornTwice rfl
  refine ⟨by decide +kernel, hborn, htorn, ?_, fun ds => hdead ⟨6⟩ ds rfl (by decide +kernel)⟩
  obtain ⟨b, hb, hnone⟩ := hborn
  exact (hlife b ⟨4⟩ ⟨2⟩ _ hb).2.mpr (.inr (.inl hnone))

end Prototypal.Analysis
