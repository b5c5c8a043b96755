import Mathlib.Data.List.Induction
import Mathlib.Data.Set.Card
import Prototypal.Proofs.Descent

/-!
# Prototypal — Proofs — Custody

What a guard keeps and answers over any history of calls, well paired or not.  A history is the
calls with the answers they got (`Guard.history`).  A key that is left without being visited is
refused, and the guard goes on as it was.

All that matters about a guard is said of the history alone.  A key is *held* when its last
successful attempt has not been followed by a call to leave it (`Guard.Held`), and an attempt is
*allowed* by its place among all attempts, denied ones included (`Limits.Allows`).

* `Accounts.call`, `accounts_history`: each call keeps the guard's accounts in order, so they are in
  order after every history.
* `guard_accounts_for_history`: the keys being visited are those held; what the guard answers to the
  next call, and whether it may be ended, follows from the keys held and the number of attempts.
-/

namespace Prototypal

/-- The `n`-th attempt is within budget.  The largest budget is no bound. -/
def Limits.Allows (l : Limits) (n : Nat) : Prop := l.attempts < Count.top → n ≤ l.attempts

theorem Count.next_min (n : Nat) : Count.next (min n Count.top) = min (n + 1) Count.top := by
  simp only [Count.next]
  omega

theorem Limits.allows_iff {l : Limits} {n : Nat} :
    l.Allows n ↔ min n Count.top ≤ l.attempts := by
  rw [Allows]
  omega

theorem Limits.Allows.of_le {l : Limits} {m n : Nat} (h : l.Allows n) (hmn : m ≤ n) : l.Allows m :=
  fun hl => Nat.le_trans hmn (h hl)

namespace Guard

variable {κ : Type}

/-! ### Calls and histories -/

/-- A call to a guard. -/
inductive Call (κ : Type) where
  | enter (k : κ)
  | leave (k : κ)
  | isVisiting (k : κ)
deriving DecidableEq, Repr

def Call.isEnter : Call κ → Bool
  | enter _ => true
  | _ => false

/-- What a guard answers to a call. -/
inductive Answer where
  | admission (a : Admission)
  | left
  | refused (fault : GuardFault)
  | visiting (b : Bool)
deriving DecidableEq, Repr

/-- The last successful attempt to enter `k` has not been followed by a call to leave it. -/
def Held (past : List (Call κ × Answer)) (k : κ) : Prop :=
  ∃ before after, past = before ++ (.enter k, .admission .entered) :: after ∧
    ∀ e ∈ after, e ≠ (.enter k, .admission .entered) ∧ e.1 ≠ .leave k

theorem not_held_nil (k : κ) : ¬ Held [] k := by
  rintro ⟨before, after, h, -⟩
  simp at h

/-- The latest call settles whether a key is held, or leaves it as it was. -/
theorem held_concat {past : List (Call κ × Answer)} {e : Call κ × Answer} {k : κ} :
    Held (past ++ [e]) k ↔
      e = (.enter k, .admission .entered) ∨ Held past k ∧ e.1 ≠ .leave k := by
  constructor
  · rintro ⟨before, after, h, hafter⟩
    cases after using List.reverseRecOn with
    | nil => exact .inl (List.singleton_inj.mp (List.append_inj' h rfl).2)
    | append_singleton after f =>
      rw [← List.cons_append, ← List.append_assoc] at h
      obtain ⟨rfl, hf⟩ := List.append_inj' h rfl
      obtain rfl := List.singleton_inj.mp hf
      refine .inr ⟨⟨before, after, rfl, fun e he => hafter e ?_⟩, (hafter e ?_).2⟩
      · exact List.mem_append_left _ he
      · exact List.mem_concat_self
  · intro h
    by_cases he : e = (.enter k, .admission .entered)
    · exact ⟨past, [], by rw [he], by simp⟩
    · obtain ⟨⟨before, after, rfl, hafter⟩, hleave⟩ := h.resolve_left he
      refine ⟨before, after ++ [e], by simp, fun f hf => ?_⟩
      rcases List.mem_append.mp hf with hf | hf
      · exact hafter f hf
      · obtain rfl := List.mem_singleton.mp hf
        exact ⟨he, hleave⟩

/-- The guard's accounts are in order: it has the limits it began with, and the keys and the count
that the history calls for. -/
structure Accounts (l : Limits) (past : List (Call κ × Answer)) (g : Guard κ) : Prop where
  limits : g.limits = l
  nodup : g.visiting.Nodup
  visiting : ∀ k, k ∈ g.visiting ↔ Held past k
  depth : g.depth ≤ l.depth
  attempts : g.attempts = min (past.countP (·.1.isEnter)) Count.top
  spent : ∀ c, (c, .admission .tooMany) ∈ past → ¬ l.Allows (past.countP (·.1.isEnter))

namespace Accounts

variable {l : Limits} {past : List (Call κ × Answer)} {g : Guard κ}

theorem fresh (l : Limits) : ({ limits := l } : Guard κ).Accounts l [] where
  limits := rfl
  nodup := .nil
  visiting k := by simp [not_held_nil]
  depth := Nat.zero_le _
  attempts := rfl
  spent _ h := nomatch h

theorem allows_iff (h : g.Accounts l past) :
    l.Allows (past.countP (·.1.isEnter) + 1) ↔ Count.next g.attempts ≤ g.limits.attempts := by
  rw [Limits.allows_iff, h.attempts, h.limits, Count.next_min]

/-- Once the budget is spent it stays so: attempts only become more. -/
theorem spent_concat (h : g.Accounts l past) {e : Call κ × Answer}
    (he : e.2 = .admission .tooMany → ¬ l.Allows ((past ++ [e]).countP (·.1.isEnter))) (c : Call κ)
    (hc : (c, .admission .tooMany) ∈ past ++ [e]) :
    ¬ l.Allows ((past ++ [e]).countP (·.1.isEnter)) := by
  rcases List.mem_append.mp hc with hc | hc
  · refine fun hl => h.spent c hc (hl.of_le ?_)
    rw [List.countP_append]
    exact Nat.le_add_right _ _
  · obtain rfl := List.mem_singleton.mp hc
    exact he rfl

theorem entered (h : g.Accounts l past) {k : κ} (ha : g.Admits k) :
    (g.inside k).Accounts l (past ++ [(.enter k, .admission .entered)]) where
  limits := h.limits
  nodup := List.nodup_cons.mpr ⟨ha.2.1, h.nodup⟩
  visiting j := by
    rw [held_concat, ← h.visiting]
    simp [inside, eq_comm]
  depth := h.limits ▸ ha.2.2
  attempts := by
    simp [inside, h.attempts, Count.next_min, Call.isEnter]
  spent := h.spent_concat nofun

theorem denied (h : g.Accounts l past) {k : κ} {a : Admission} (hne : a ≠ .entered)
    (hmany : a = .tooMany → ¬ l.Allows (past.countP (·.1.isEnter) + 1)) :
    g.counted.Accounts l (past ++ [(.enter k, .admission a)]) where
  limits := h.limits
  nodup := h.nodup
  visiting j := by
    rw [held_concat, ← h.visiting]
    simp [counted, hne]
  depth := h.depth
  attempts := by
    simp [counted, h.attempts, Count.next_min, Call.isEnter]
  spent := h.spent_concat fun ha => by simpa [Call.isEnter] using hmany (by simpa using ha)

/-- A call that is no attempt, and leaves no key that is held, changes nothing. -/
theorem unchanged (h : g.Accounts l past) {e : Call κ × Answer} (henter : e.1.isEnter = false)
    (hmany : e.2 ≠ .admission .tooMany) (hleave : ∀ k, e.1 = .leave k → ¬ Held past k) :
    g.Accounts l (past ++ [e]) where
  limits := h.limits
  nodup := h.nodup
  visiting j := by
    rw [held_concat, h.visiting]
    constructor
    · exact fun hj => .inr ⟨hj, fun he => hleave j he hj⟩
    · rintro (rfl | ⟨hj, -⟩)
      · cases henter
      · exact hj
  depth := h.depth
  attempts := by
    simp [h.attempts, henter]
  spent := h.spent_concat fun he => absurd he hmany

end Accounts

variable [DecidableEq κ]

/-- The answer to a call, and the guard after it.  A refused call leaves the guard as it was. -/
def call (g : Guard κ) : Call κ → Answer × Guard κ
  | .enter k => (.admission (g.enter k).1, (g.enter k).2)
  | .leave k =>
    match g.leave k with
    | .ok h => (.left, h)
    | .error fault => (.refused fault, g)
  | .isVisiting k => (.visiting (g.isVisiting k), g)

/-- The guard after some calls. -/
def after (g : Guard κ) (calls : List (Call κ)) : Guard κ := calls.foldl (fun g c => (g.call c).2) g

/-- Some calls with their answers. -/
def history (g : Guard κ) : List (Call κ) → List (Call κ × Answer)
  | [] => []
  | c :: calls => (c, (g.call c).1) :: (g.call c).2.history calls

theorem after_concat (g : Guard κ) (calls : List (Call κ)) (c : Call κ) :
    g.after (calls ++ [c]) = ((g.after calls).call c).2 :=
  List.foldl_concat _ g c calls

theorem history_concat (g : Guard κ) (calls : List (Call κ)) (c : Call κ) :
    g.history (calls ++ [c]) = g.history calls ++ [(c, ((g.after calls).call c).1)] := by
  induction calls generalizing g with
  | nil => rfl
  | cons d calls ih => exact congrArg _ (ih _)

theorem countP_history (g : Guard κ) (calls : List (Call κ)) :
    (g.history calls).countP (·.1.isEnter) = calls.countP Call.isEnter := by
  induction calls generalizing g with
  | nil => rfl
  | cons c calls ih => rw [history, List.countP_cons, List.countP_cons, ih]

/-! ### One call -/

/-- The first reason that holds is the one given. -/
theorem fst_enter (g : Guard κ) (k : κ) :
    (g.enter k).1 = g.admission k (Count.next g.attempts) := by
  simp only [enter]
  generalize g.admission k (Count.next g.attempts) = answer
  cases answer <;> rfl

/-- Every call that a guard can get, with what it does. -/
theorem call_cases (g : Guard κ) (c : Call κ) :
    (∃ k, c = .enter k ∧ g.Admits k ∧ g.call c = (.admission .entered, g.inside k)) ∨
    (∃ k denied, c = .enter k ∧ denied ≠ .entered ∧
      g.call c = (.admission denied, g.counted)) ∨
    (∃ k, c = .leave k ∧ k ∈ g.visiting ∧
      g.call c = (.left, { g with visiting := g.visiting.erase k })) ∨
    (∃ k, c = .leave k ∧ k ∉ g.visiting ∧ g.call c = (.refused .neverEntered, g)) ∨
    (∃ k, c = .isVisiting k ∧ g.call c = (.visiting (g.isVisiting k), g)) := by
  cases c with
  | enter k =>
    by_cases ha : g.Admits k
    · exact .inl ⟨k, rfl, ha, by rw [call, enter_of_admits ha]⟩
    · obtain ⟨denied, hne, he⟩ := enter_of_not_admits ha
      exact .inr (.inl ⟨k, denied, rfl, hne, by rw [call, he]⟩)
  | leave k =>
    by_cases hk : k ∈ g.visiting
    · exact .inr (.inr (.inl ⟨k, rfl, hk, by rw [call, leave, if_pos hk]⟩))
    · exact .inr (.inr (.inr (.inl ⟨k, rfl, hk, by rw [call, leave, if_neg hk]⟩)))
  | isVisiting k => exact .inr (.inr (.inr (.inr ⟨k, rfl, rfl⟩)))

namespace Accounts

variable {l : Limits} {past : List (Call κ × Answer)} {g : Guard κ}

/-- Which attempts get which answer: the budget of attempts is asked first, then the keys, then the
depth. -/
theorem enter_iff (h : g.Accounts l past) (k : κ) {n : Nat}
    (hn : n = past.countP (·.1.isEnter) + 1) :
    ((g.enter k).1 = .tooMany ↔ ¬ l.Allows n) ∧
    ((g.enter k).1 = .cycle ↔ l.Allows n ∧ Held past k) ∧
    ((g.enter k).1 = .tooDeep ↔ l.Allows n ∧ ¬ Held past k ∧ l.depth ≤ g.depth) ∧
    ((g.enter k).1 = .entered ↔ l.Allows n ∧ ¬ Held past k ∧ g.depth < l.depth) := by
  subst hn
  rw [h.allows_iff, ← h.visiting, fst_enter, admission, ← h.limits]
  by_cases hallowed : Count.next g.attempts ≤ g.limits.attempts
  swap
  · simp [hallowed, Nat.lt_of_not_le hallowed]
  have hmany : ¬ g.limits.attempts < Count.next g.attempts := Nat.not_lt.mpr hallowed
  by_cases hvisiting : k ∈ g.visiting
  · simp [hallowed, hmany, hvisiting]
  by_cases hdeep : g.limits.depth ≤ g.depth
  · simp [hallowed, hmany, hvisiting, hdeep]
  · simp [hallowed, hmany, hvisiting, hdeep, Nat.lt_of_not_le hdeep]

theorem left (h : g.Accounts l past) (k : κ) :
    ({ g with visiting := g.visiting.erase k } : Guard κ).Accounts l
      (past ++ [(.leave k, .left)]) where
  limits := h.limits
  nodup := h.nodup.erase k
  visiting j := by
    rw [held_concat, ← h.visiting, h.nodup.mem_erase_iff]
    simp [and_comm, eq_comm]
  depth := Nat.le_trans List.length_erase_le h.depth
  attempts := by
    simp [h.attempts, Call.isEnter]
  spent := h.spent_concat nofun

/-- **One call keeps the accounts in order.** -/
theorem call (h : g.Accounts l past) (c : Call κ) :
    (g.call c).2.Accounts l (past ++ [(c, (g.call c).1)]) := by
  obtain ⟨k, rfl, ha, hc⟩ | ⟨k, a, rfl, hne, hc⟩ | ⟨k, rfl, hk, hc⟩ | ⟨k, rfl, hk, hc⟩ |
    ⟨k, rfl, hc⟩ := g.call_cases c
  · rw [hc]
    exact h.entered ha
  · have hanswer : (g.enter k).1 = a := Answer.admission.inj (congrArg Prod.fst hc)
    rw [hc]
    exact h.denied hne fun ha => (h.enter_iff k rfl).1.mp (hanswer.trans ha)
  · rw [hc]
    exact h.left k
  · rw [hc]
    refine h.unchanged rfl nofun fun j hj => ?_
    rwa [← Call.leave.inj hj, ← h.visiting]
  · rw [hc]
    exact h.unchanged rfl nofun nofun

theorem depth_eq_ncard (h : g.Accounts l past) : g.depth = Set.ncard {k | Held past k} := by
  have hset : {k | Held past k} = (g.visiting.toFinset : Set κ) := by
    ext k
    rw [Set.mem_ofPred_eq, ← h.visiting k, Finset.mem_coe, List.mem_toFinset]
  rw [hset, Set.ncard_coe_finset, List.toFinset_card_of_nodup h.nodup]
  rfl

/-- A guard may be ended unless keys are held, and the fault tells how many. -/
theorem finish_iff (h : g.Accounts l past) (f : GuardFault) :
    g.finish = .error f ↔
      (∃ k, Held past k) ∧ f = .stillEntered (Set.ncard {k | Held past k}) := by
  rw [← h.depth_eq_ncard, finish]
  cases hv : g.visiting with
  | nil =>
    have hnone : ¬ ∃ k, Held past k := by
      rintro ⟨k, hk⟩
      rw [← h.visiting, hv] at hk
      cases hk
    simp [hnone]
  | cons k ks =>
    have hsome : ∃ k, Held past k := ⟨k, (h.visiting k).mp (hv ▸ List.mem_cons_self)⟩
    simp [hsome, eq_comm]

end Accounts

/-- **After every history the accounts are in order.** -/
theorem accounts_history (l : Limits) (calls : List (Call κ)) :
    (({ limits := l } : Guard κ).after calls).Accounts l
      (({ limits := l } : Guard κ).history calls) := by
  induction calls using List.reverseRecOn with
  | nil => exact .fresh l
  | append_singleton calls c ih =>
    rw [after_concat, history_concat]
    exact ih.call c

/-- No attempt behind one that was too many has another answer. -/
theorem pairwise_history (l : Limits) (calls : List (Call κ)) :
    (({ limits := l } : Guard κ).history calls).Pairwise fun e f =>
      e.2 = .admission .tooMany → ∀ k, f.1 = .enter k → f.2 = .admission .tooMany := by
  induction calls using List.reverseRecOn with
  | nil => exact .nil
  | append_singleton calls c ih =>
    have h := accounts_history l calls
    rw [history_concat, List.pairwise_append]
    refine ⟨ih, List.pairwise_singleton _ _, fun e he f hf hmany k hk => ?_⟩
    obtain rfl := List.mem_singleton.mp hf
    obtain rfl : c = .enter k := hk
    have hspent := h.spent e.1 (hmany ▸ he)
    have hnext := (h.enter_iff k rfl).1.mpr fun hl => hspent (hl.of_le (Nat.le_succ _))
    exact congrArg Answer.admission hnext

/-- **A guard accounts for its history.**  Take any calls to a new guard, with any keys.  The keys
being visited are those whose last successful attempt has not been followed by a call to leave them;
the depth is their number, and within its limit; all attempts are counted, as far as counts go.  The
next attempt is admitted if its number is within budget, the key is not held and the depth is below
its limit; what is denied is denied for the first of these that fails, and only counts.  A key that
is held is given up when it is left, and leaving any other is refused and changes nothing.  Behind
an attempt that was too many, all are.  The guard may not be ended just when keys are held, and the
fault tells their number. -/
theorem guard_accounts_for_history (l : Limits) (calls : List (Call κ)) :
    let g := ({ limits := l } : Guard κ).after calls
    let past := ({ limits := l } : Guard κ).history calls
    let n := calls.countP Call.isEnter
    (∀ k, (k ∈ g.visiting ↔ Held past k) ∧ (g.isVisiting k = true ↔ Held past k)) ∧
    g.depth = Set.ncard {k | Held past k} ∧ g.depth ≤ l.depth ∧
    g.attempts = min n Count.top ∧
    (∀ k,
      ((g.enter k).1 = .entered ↔ l.Allows (n + 1) ∧ ¬ Held past k ∧ g.depth < l.depth) ∧
      ((g.enter k).1 = .tooMany ↔ ¬ l.Allows (n + 1)) ∧
      ((g.enter k).1 = .cycle ↔ l.Allows (n + 1) ∧ Held past k) ∧
      ((g.enter k).1 = .tooDeep ↔ l.Allows (n + 1) ∧ ¬ Held past k ∧ l.depth ≤ g.depth) ∧
      ((g.enter k).1 ≠ .entered →
        (g.enter k).2 = { g with attempts := Count.next g.attempts })) ∧
    (∀ k,
      (Held past k →
        g.call (.leave k) = (.left, { g with visiting := g.visiting.erase k })) ∧
      (¬ Held past k → g.call (.leave k) = (.refused .neverEntered, g))) ∧
    past.Pairwise (fun e f =>
      e.2 = .admission .tooMany → ∀ k, f.1 = .enter k → f.2 = .admission .tooMany) ∧
    (∀ f, g.finish = .error f ↔
      (∃ k, Held past k) ∧ f = .stillEntered (Set.ncard {k | Held past k})) := by
  intro g past n
  have h : g.Accounts l past := accounts_history l calls
  have hn : n = past.countP (·.1.isEnter) := (countP_history _ calls).symm
  refine ⟨fun k => ⟨h.visiting k, ?_⟩, h.depth_eq_ncard, h.depth, hn ▸ h.attempts, fun k => ?_,
    fun k => ?_, pairwise_history l calls, h.finish_iff⟩
  · rw [isVisiting, decide_eq_true_eq, h.visiting]
  · obtain ⟨hmany, hcycle, hdeep, hentered⟩ := h.enter_iff k (congrArg (· + 1) hn)
    refine ⟨hentered, hmany, hcycle, hdeep, fun hne => ?_⟩
    have hdenied : ¬ g.Admits k := fun ha => hne (by rw [enter_of_admits ha])
    obtain ⟨denied, -, he⟩ := enter_of_not_admits hdenied
    rw [he]
    rfl
  · rw [← h.visiting, call, leave]
    refine ⟨fun hk => ?_, fun hk => ?_⟩
    · rw [if_pos hk]
    · rw [if_neg hk]

/-- Calls that meet every answer: a key is entered twice, one is entered too deep, one is left that
was never entered, and two are never left. -/
def unpaired : List (Call Nat) :=
  [.enter 1, .enter 2, .enter 1, .enter 3, .leave 9, .leave 1, .enter 3, .enter 4]

theorem guard_accounts_for_history_unpaired :
    let g := ({ limits := ⟨2, 5⟩ } : Guard Nat).after unpaired
    let past := ({ limits := ⟨2, 5⟩ } : Guard Nat).history unpaired
    Held past 3 ∧ ¬ Held past 1 ∧ Set.ncard {k | Held past k} = 2 ∧
    (g.enter 7).1 = .tooMany ∧ (g.enter 7).2 = { g with attempts := 7 } ∧
    g.call (.leave 9) = (.refused .neverEntered, g) ∧
    g.finish = .error (.stillEntered 2) := by
  intro g past
  obtain ⟨hkeys, hdepth, -, -, hnext, hleave, -, hfinish⟩ :=
    guard_accounts_for_history ⟨2, 5⟩ unpaired
  have hheld : Held past 3 := (hkeys 3).1.mp (by decide)
  have hcard : Set.ncard {k | Held past k} = 2 := hdepth.symm
  have hmany : (g.enter 7).1 = .tooMany :=
    (hnext 7).2.1.mpr fun hl => absurd (hl (by decide)) (by decide)
  refine ⟨hheld, fun h1 => absurd ((hkeys 1).1.mpr h1) (by decide), hcard, hmany, ?_, ?_, ?_⟩
  · exact (hnext 7).2.2.2.2 (hmany ▸ by decide)
  · exact (hleave 9).2 fun h9 => absurd ((hkeys 9).1.mpr h9) (by decide)
  · exact (hfinish _).mpr ⟨⟨3, hheld⟩, by rw [hcard]⟩

end Guard

end Prototypal
