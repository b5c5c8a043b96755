import Prototypal.Proofs.Passage

/-!
# Prototypal — Proofs — Termination

Descents need no bound on the number of levels.  The descents of the library follow so many levels
of prototypes as there can be; here the same descents are given by rules in which no such number
occurs (`FansOut`, `Explores`, `Follows`, `Reads`), and with them the answer to a question
(`Answers`).  A derivation by these rules is finite, so what it derives is found by a descent that
ends by itself.

Every key being visited but the latest is an inheritor, and none is visited twice (`Chain`); where
an inheritor is resolved, the latest is one as well (`Chained`).  So keys cannot be more than the
inheritors and one, and the levels never run out.  While a member is described, keys are passed
through that are left again before its descriptor is read; what is read then is resolved one key
deeper all the same, since the prototype whose member it is stays entered.

* `explores_iff`, `follows_iff`, `reads_iff`, `readsAll_iff`: the rules derive what the descents
  give, and nothing else.
* `queries_terminate`: the same for questions, in every state and under all options, with the bounds
  on the depth of the guard at every moment.
-/

namespace Prototypal

open Guard (Run)

variable {α : Type}

/-! ### Descents without levels -/

/-- What a fan-out gives when `Visits` says what descending into a value gives. -/
inductive FansOut (Visits : Guard ValueId → ValueId → Descent α → Prop) (merge : α → α → α) :
    α → Guard ValueId → List ValueId → Descent α → Prop where
  | nil (acc : α) (g : Guard ValueId) : FansOut Visits merge acc g [] ⟨acc, [], g⟩
  | entered {acc : α} {g h i : Guard ValueId} {v : ValueId} {vs : List ValueId}
      {found rest : Descent α} (he : g.enter v = (.entered, h)) (hv : Visits h v found)
      (hl : found.guard.leave v = .ok i)
      (hr : FansOut Visits merge (merge acc found.result) i vs rest) :
      FansOut Visits merge acc g (v :: vs) ⟨rest.result,
        .attempt v .entered h.depth h.attempts :: found.trace ++ .leave v :: rest.trace, rest.guard⟩
  | denied {acc : α} {g h : Guard ValueId} {v : ValueId} {vs : List ValueId} {answer : Admission}
      {rest : Descent α} (hd : answer ≠ .entered) (he : g.enter v = (answer, h))
      (hr : FansOut Visits merge acc h vs rest) :
      FansOut Visits merge acc g (v :: vs) ⟨rest.result,
        .attempt v answer h.depth h.attempts :: rest.trace, rest.guard⟩

namespace Analysis

/-- What exploring a value gives. -/
inductive Explores (a : Analysis) (own : ValueId → α) (merge : α → α → α) :
    Guard ValueId → ValueId → Descent α → Prop where
  | node {g : Guard ValueId} {v : ValueId} {below : Descent α}
      (h : FansOut (Explores a own merge) merge (own v) g (a.prototypes v) below) :
      Explores a own merge g v ⟨below.result, .visit v :: below.trace, below.guard⟩

/-- What describing a member gives: deferrals are followed to where they stop. -/
inductive Follows (a : Analysis) (name : String) :
    Guard ValueId → ValueId → Descent (Option Descriptor) → Prop where
  | stops {g : Guard ValueId} {v : ValueId} {found : Option Descriptor} (hs : a.Stops v)
      (hf : ∀ d, found = some d ↔ a.Describes name v d) : Follows a name g v ⟨found, [], g⟩
  | defers {g : Guard ValueId} {v p : ValueId} {d : Descent (Option Descriptor)}
      (hp : a.Defers v p)
      (h : FansOut (Follows a name) (fun _ found => found) none g [p] d) : Follows a name g v d

mutual

/-- What a prototype adds to a reading: what its descriptor gives, if it has one. -/
inductive Adds (a : Analysis) (name : String) :
    Guard ValueId → ValueId → Descent ValueSet → Prop where
  | absent {g : Guard ValueId} {p : ValueId} {found : Descent (Option Descriptor)}
      (h : a.Follows name g p found) (hn : found.result = none) :
      Adds a name g p ⟨∅, found.trace, found.guard⟩
  | present {g : Guard ValueId} {p : ValueId} {found : Descent (Option Descriptor)}
      {d : Descriptor} {e : Descent ValueSet} (h : a.Follows name g p found)
      (hd : found.result = some d) (hr : Reads a name found.guard d e) :
      Adds a name g p ⟨e.result, found.trace ++ e.trace, e.guard⟩

/-- What reading a descriptor of member `name` gives. -/
inductive Reads (a : Analysis) (name : String) :
    Guard ValueId → Descriptor → Descent ValueSet → Prop where
  | stored (g : Guard ValueId) (v : ValueId) :
      Reads a name g (.stored v name) ⟨a.ownTypes v name, [.visit v], g⟩
  | merged {g : Guard ValueId} {v : ValueId} {d : Descent ValueSet}
      (h : FansOut (Adds a name) (· ∪ ·) ∅ g (a.prototypes v) d) :
      Reads a name g (.merged v name) d

end

/-- What exploring a value for several members gives. -/
inductive ReadsAll (a : Analysis) (v : ValueId) :
    Guard ValueId → List String → Descent ValueSet → Prop where
  | nil (g : Guard ValueId) : ReadsAll a v g [] ⟨∅, [], g⟩
  | cons {g : Guard ValueId} {name : String} {names : List String} {first rest : Descent ValueSet}
      (h : a.Explores (a.ownTypes · name) (· ∪ ·) g v first)
      (t : ReadsAll a v first.guard names rest) :
      ReadsAll a v g (name :: names)
        ⟨first.result ∪ rest.result, first.trace ++ rest.trace, rest.guard⟩

/-- The answer to a question, with the steps of the descents that find it. -/
inductive Answers (a : Analysis) : Command → Answer → List Step → Prop where
  | lookup {v : ValueId} {name : String} {site : Option Site} {d : Descent ValueSet}
      (h : a.ReadsAll v a.guard [name] d) :
      Answers a (.lookup v name site) (.values (a.shown d.result)) d.trace
  | property {v : ValueId} {name : String} {d : Descent (Option Descriptor)}
      (h : a.Follows name a.guard v d) :
      Answers a (.property v name) (.descriptor d.result) d.trace
  | propertyValue {d : Descriptor} {site : Option Site} {e : Descent ValueSet}
      (h : a.Reads d.name a.guard d e) :
      Answers a (.propertyValue d site) (.values (a.shown e.result)) e.trace
  | index {v : ValueId} {is : ValueSet} {site : Option Site} {d : Descent ValueSet}
      (hm : a.HasMembers v) (h : a.ReadsAll v a.guard (a.indexNames is) d) :
      Answers a (.index v is site) (.values (a.shown d.result)) d.trace
  | arguments {v f : ValueId} {is : ValueSet} {site : Option Site}
      (hk : a.kind? v = some (.arguments f)) :
      Answers a (.index v is site) (.values (a.shown (a.argumentsAt f is))) []
  | nothing {v : ValueId} {is : ValueSet} {site : Option Site}
      (hm : ¬ a.HasMembers v) (hf : ∀ f, a.kind? v ≠ some (.arguments f)) :
      Answers a (.index v is site) (.values ∅) []
  | members {v : ValueId} {accessor : UnitId} {d : Descent MemberMap}
      (h : a.Explores a.ownMembers MemberMap.merge a.guard v d) :
      Answers a (.members v accessor) (.members (d.result.filterMap a.listed?)) d.trace

end Analysis

/-! ### The rules derive one outcome -/

theorem FansOut.unique {Visits : Guard ValueId → ValueId → Descent α → Prop} {merge : α → α → α}
    {acc : α} {g : Guard ValueId} {vs : List ValueId} {d d' : Descent α}
    (h : FansOut (fun g v d => ∀ d', Visits g v d' → d' = d) merge acc g vs d)
    (h' : FansOut Visits merge acc g vs d') : d' = d := by
  induction h generalizing d' with
  | nil acc g =>
      cases h'
      rfl
  | @entered acc g h i v vs found rest he hv hl _ ih =>
      cases h' with
      | entered he' hv' hl' hr' =>
          obtain ⟨-, rfl⟩ := Prod.mk.inj (he.symm.trans he')
          obtain rfl := hv _ hv'
          obtain rfl := Except.ok.inj (hl.symm.trans hl')
          rw [ih hr']
      | denied hd' he' _ => exact absurd (Prod.mk.inj (he.symm.trans he')).1.symm hd'
  | @denied acc g h v vs answer rest hd he _ ih =>
      cases h' with
      | entered he' _ _ _ => exact absurd (Prod.mk.inj (he.symm.trans he')).1 hd
      | denied _ he' hr' =>
          obtain ⟨rfl, rfl⟩ := Prod.mk.inj (he.symm.trans he')
          rw [ih hr']

namespace Analysis

variable {a : Analysis} {name : String}

theorem Explores.unique {own : ValueId → α} {merge : α → α → α} {g : Guard ValueId} {v : ValueId}
    {d : Descent α} (h : a.Explores own merge g v d) :
    ∀ d', a.Explores own merge g v d' → d' = d := by
  refine @Explores.rec α a own merge (fun g v d _ => ∀ d', a.Explores own merge g v d' → d' = d)
    (fun acc g vs d _ =>
      FansOut (fun g v d => ∀ d', a.Explores own merge g v d' → d' = d) merge acc g vs d)
    ?_ ?_ ?_ ?_ g v d h
  · rintro g v d - ih d' ⟨h'⟩
    rw [ih.unique h']
  · exact .nil
  · exact fun he _ hl _ hv hr => .entered he hv hl hr
  · exact fun hd he _ hr => .denied hd he hr

theorem Follows.unique {g : Guard ValueId} {v : ValueId} {d : Descent (Option Descriptor)}
    (h : a.Follows name g v d) : ∀ d', a.Follows name g v d' → d' = d := by
  refine @Follows.rec a name (fun g v d _ => ∀ d', a.Follows name g v d' → d' = d)
    (fun acc g vs d _ => FansOut (fun g v d => ∀ d', a.Follows name g v d' → d' = d)
      (fun _ found => found) acc g vs d)
    ?_ ?_ ?_ ?_ ?_ g v d h
  · intro g v found hs hf d' h'
    cases h' with
    | stops _ hf' =>
        have he := Option.ext fun d => (hf' d).trans (hf d).symm
        rw [he]
    | defers hp' _ => exact absurd hp' (hs _)
  · intro g v p d hp _ ih d' h'
    cases h' with
    | stops hs' _ => exact absurd hp (hs' _)
    | defers hp' h' =>
        obtain ⟨rfl, -⟩ := List.cons.inj (Eq.trans (Eq.symm hp') hp)
        exact ih.unique h'
  · exact .nil
  · exact fun he _ hl _ hv hr => .entered he hv hl hr
  · exact fun hd he _ hr => .denied hd he hr

theorem Reads.unique {g : Guard ValueId} {d : Descriptor} {e : Descent ValueSet}
    (h : a.Reads name g d e) : ∀ e', a.Reads name g d e' → e' = e := by
  refine @Reads.rec a name (fun g p e _ => ∀ e', a.Adds name g p e' → e' = e)
    (fun g d e _ => ∀ e', a.Reads name g d e' → e' = e)
    (fun acc g vs e _ =>
      FansOut (fun g p e => ∀ e', a.Adds name g p e' → e' = e) (· ∪ ·) acc g vs e)
    ?_ ?_ ?_ ?_ ?_ ?_ ?_ g d e h
  · intro g p found hf hn e' h'
    cases h' with
    | absent hf' _ => rw [hf.unique _ hf']
    | present hf' hd' _ =>
        rw [hf.unique _ hf', hn] at hd'
        cases hd'
  · intro g p found d e hf hd _ ih e' h'
    cases h' with
    | absent hf' hn' =>
        rw [hf.unique _ hf', hd] at hn'
        cases hn'
    | present hf' hd' hr' =>
        obtain rfl := hf.unique _ hf'
        obtain rfl := Option.some.inj (hd.symm.trans hd')
        rw [ih _ hr']
  · rintro g v e' ⟨⟩
    rfl
  · rintro g v d - ih e' ⟨⟩
    exact ih.unique ‹_›
  · exact .nil
  · exact fun he _ hl _ hv hr => .entered he hv hl hr
  · exact fun hd he _ hr => .denied hd he hr

theorem ReadsAll.unique {v : ValueId} {g : Guard ValueId} {names : List String}
    {d d' : Descent ValueSet} (h : a.ReadsAll v g names d) (h' : a.ReadsAll v g names d') :
    d' = d := by
  induction h generalizing d' with
  | nil g =>
      cases h'
      rfl
  | cons h _ ih =>
      cases h' with
      | cons h' t' =>
          obtain rfl := h.unique _ h'
          rw [ih t']

/-! ### The keys being visited -/

/-- The keys being visited differ, and all but the latest are inheritors. -/
structure Chain (a : Analysis) (g : Guard ValueId) : Prop where
  nodup : g.visiting.Nodup
  earlier : ∀ k ∈ g.visiting.tail, a.IsInheritor k

/-- `v` is resolved under a guard that came to it through inheritors: the latest key is `v`, or has
been passed through on the way to `v`. -/
structure Chained (a : Analysis) (v : ValueId) (g : Guard ValueId) : Prop extends Chain a g where
  latest : a.IsInheritor v → ∀ k ∈ g.visiting, a.IsInheritor k

theorem Chain.depth_le {g : Guard ValueId} (h : a.Chain g) : g.depth ≤ a.inheritorCount + 1 := by
  have hle := length_le_inheritorCount (h.nodup.sublist (List.tail_sublist _)) h.earlier
  rw [List.length_tail] at hle
  exact Nat.le_add_of_sub_le hle

theorem Chained.depth_le {v : ValueId} {g : Guard ValueId} (h : a.Chained v g)
    (hv : a.IsInheritor v) : g.depth ≤ a.inheritorCount :=
  length_le_inheritorCount h.nodup (h.latest hv)

theorem chained_of_visiting {g : Guard ValueId} (hg : g.visiting = []) (v : ValueId) :
    a.Chained v g where
  nodup := by rw [hg]; exact List.nodup_nil
  earlier := by rw [hg]; exact nofun
  latest := by rw [hg]; exact nofun

/-- **Every key being visited but the latest is an inheritor**, for a prototype is entered only
where an inheritor is resolved. -/
theorem kept_chained (a : Analysis) : a.Kept a.Chained where
  continues := by
    intro v g h hv hc
    refine ⟨⟨?_, ?_⟩, ?_⟩
    · rw [hc.visiting]; exact hv.nodup
    · rw [hc.visiting]; exact hv.earlier
    · rw [hc.visiting]; exact hv.latest
  inside := by
    intro v p g hv hp ha
    have hk := hv.latest hp.isInheritor
    exact ⟨⟨List.nodup_cons.mpr ⟨ha.2.1, hv.nodup⟩, hk⟩,
      fun hi => List.forall_mem_cons.mpr ⟨hi, hk⟩⟩
  defers := by
    intro v p g hv hp
    exact ⟨hv.toChain, fun _ => hv.latest hp.draws.isInheritor⟩

/-- The guard is within its limits. -/
theorem kept_limits (a : Analysis) (l : Limits) :
    a.Kept fun _ g => g.limits = l ∧ g.depth ≤ l.depth where
  continues := by
    rintro v g h ⟨hl, hd⟩ hc
    exact ⟨hc.limits.trans hl, hc.depth.trans_le hd⟩
  inside := by
    rintro v p g ⟨rfl, -⟩ - ha
    exact ⟨rfl, ha.2.2⟩
  defers := fun h _ => h

theorem Kept.and {I J : ValueId → Guard ValueId → Prop} (hI : a.Kept I) (hJ : a.Kept J) :
    a.Kept fun v g => I v g ∧ J v g where
  continues h hc := ⟨hI.continues h.1 hc, hJ.continues h.2 hc⟩
  inside h hp ha := ⟨hI.inside h.1 hp ha, hJ.inside h.2 hp ha⟩
  defers h hp := ⟨hI.defers h.1 hp, hJ.defers h.2 hp⟩

/-! ### Levels never run out -/

/-- The descents of a fan-out are those of the rules if every descent into a value that may be
entered is. -/
theorem fansOut_fanOut {Visits : Guard ValueId → ValueId → Descent α → Prop}
    {visit : Guard ValueId → ValueId → Descent α} {merge : α → α → α} (hb : Balanced visit)
    {g : Guard ValueId} {vs : List ValueId}
    (hv : ∀ p ∈ vs, ∀ h, g.Continues h → h.Admits p →
      Visits (h.inside p) p (visit (h.inside p) p)) (acc : α) :
    FansOut Visits merge acc g vs (fanOut visit merge acc g vs) := by
  refine fanOut_steps_induction (motive := FansOut Visits merge) hb ?_ ?_ ?_ acc
  · exact fun acc h _ => .nil acc h
  · intro acc h i p vs rest hp hg ha hl ih
    exact .entered (Guard.enter_of_admits ha) (hv p hp h hg ha) hl ih
  · intro acc h p vs answer rest _ _ ha he ih
    exact .denied (fun hd => ha (Guard.admits_of_enter (hd ▸ he))) he ih

theorem inheritorCount_lt (a : Analysis) (g : Guard ValueId) :
    a.inheritorCount < a.levels + g.depth := by
  rw [levels]
  omega

/-- A prototype that is entered is resolved on the same terms, one level and one key further. -/
theorem Chained.inside {n : Nat} {v p : ValueId} {g h : Guard ValueId} (hv : a.Chained v g)
    (hn : a.inheritorCount < n + 1 + g.depth) (hp : a.Draws v p) (hc : g.Continues h)
    (ha : h.Admits p) :
    a.Chained p (h.inside p) ∧ a.inheritorCount < n + (h.inside p).depth := by
  refine ⟨a.kept_chained.inside (a.kept_chained.continues hv hc) hp ha, ?_⟩
  rw [hc.depth_inside]
  omega

/-- No level is left only where no inheritor is resolved. -/
theorem Chained.not_isInheritor {v : ValueId} {g : Guard ValueId} (hv : a.Chained v g)
    (hn : a.inheritorCount < 0 + g.depth) : ¬ a.IsInheritor v := by
  intro hi
  have hd := hv.depth_le hi
  omega

theorem explores_exploreLevels (own : ValueId → α) (merge : α → α → α) {n : Nat} {v : ValueId}
    {g : Guard ValueId} (hv : a.Chained v g) (hn : a.inheritorCount < n + g.depth) :
    a.Explores own merge g v (a.exploreLevels own merge n g v) := by
  induction n generalizing v g with
  | zero =>
      have hp := prototypes_eq_nil_of_not_isInheritor (hv.not_isInheritor hn)
      have hf : FansOut (a.Explores own merge) merge (own v) g (a.prototypes v) ⟨own v, [], g⟩ :=
        hp ▸ .nil (own v) g
      exact .node hf
  | succ n ih =>
      refine .node (fansOut_fanOut (balanced_exploreLevels n) (fun p hp h hc ha => ?_) (own v))
      obtain ⟨hp, hn⟩ := hv.inside hn (mem_prototypes.mp hp) hc ha
      exact ih hp hn

theorem follows_describeLevels {n : Nat} {v : ValueId} {g : Guard ValueId} (hv : a.Chained v g)
    (hn : a.inheritorCount < n + g.depth) : a.Follows name g v (a.describeLevels name n g v) := by
  revert hv hn
  refine describeLevels_induction a name (motive := fun n g v d => a.Chained v g →
    a.inheritorCount < n + g.depth → a.Follows name g v d) ?_ ?_ ?_ n g v
  · exact fun _ _ _ _ hs hf _ _ => .stops hs hf
  · exact fun g v p hp hv hn => absurd hp.draws.isInheritor (hv.not_isInheritor hn)
  · intro n g v p hp ih hv hn
    refine .defers hp (fansOut_fanOut (balanced_describeLevels n) (fun q hq h hc ha => ?_) none)
    obtain rfl := List.mem_singleton.mp hq
    obtain ⟨hq, hn⟩ := hv.inside hn hp.draws hc ha
    exact ih _ _ hq hn

theorem reads_evaluateLevels {n : Nat} {g : Guard ValueId} {d : Descriptor}
    (hv : a.Chained d.subject g) (hn : a.inheritorCount < n + g.depth) :
    a.Reads d.name g d (a.evaluateLevels n g d) := by
  induction n generalizing g d with
  | zero =>
      cases d with
      | stored v name => exact .stored g v
      | merged v name =>
          have hp : a.prototypes v = [] :=
            prototypes_eq_nil_of_not_isInheritor (hv.not_isInheritor hn)
          exact .merged (by rw [hp]; exact .nil ∅ g)
  | succ n ih =>
      cases d with
      | stored v name => exact .stored g v
      | merged v name =>
          refine .merged (fansOut_fanOut (a.balanced_contribution name n)
            (fun p hp h hc ha => ?_) ∅)
          obtain ⟨hp, hn⟩ := hv.inside hn (mem_prototypes.mp hp) hc ha
          have hf : a.Follows name (h.inside p) p (a.describe name (h.inside p) p) :=
            follows_describeLevels hp (a.inheritorCount_lt _)
          cases hd : (a.describe name (h.inside p) p).result with
          | none =>
              rw [contribution_of_none hd]
              exact .absent hf hd
          | some d =>
              rw [contribution_of_some hd]
              -- the keys passed through are left again, but the prototype is still entered
              have hg : (h.inside p).Continues (a.describe name (h.inside p) p).guard :=
                balanced_describeLevels a.levels (h.inside p) p
              obtain ⟨ps, t, hps, hdt⟩ := exists_of_describeLevels hd
              have ht := a.kept_chained.continues (a.kept_chained.route_defers hps hp) hg
              have hr := ih (hdt.subject_eq.symm ▸ ht) (by rw [hg.depth]; exact hn)
              rw [hdt.name_eq] at hr
              exact .present hf hd hr

/-! ### The rules derive what the descents give -/

section

variable {g : Guard ValueId} (hg : g.visiting = [])

include hg

theorem explores_iff {own : ValueId → α} {merge : α → α → α} {v : ValueId} {d : Descent α} :
    a.Explores own merge g v d ↔ d = a.explore own merge g v := by
  have h := explores_exploreLevels own merge (chained_of_visiting hg v) (a.inheritorCount_lt g)
  exact ⟨h.unique d, fun hd => hd ▸ h⟩

theorem follows_iff {v : ValueId} {d : Descent (Option Descriptor)} :
    a.Follows name g v d ↔ d = a.describe name g v := by
  have h : a.Follows name g v (a.describe name g v) :=
    follows_describeLevels (chained_of_visiting hg v) (a.inheritorCount_lt g)
  exact ⟨h.unique d, fun hd => hd ▸ h⟩

theorem reads_iff {d : Descriptor} {e : Descent ValueSet} :
    a.Reads d.name g d e ↔ e = a.evaluate g d := by
  have h := reads_evaluateLevels (chained_of_visiting hg d.subject) (a.inheritorCount_lt g)
  exact ⟨h.unique e, fun he => he ▸ h⟩

theorem readsAll_iff {v : ValueId} {names : List String} {d : Descent ValueSet} :
    a.ReadsAll v g names d ↔ d = a.readAll v g names := by
  have h : a.ReadsAll v g names (a.readAll v g names) := by
    induction names generalizing g with
    | nil => exact .nil g
    | cons name names ih =>
        have hc : g.Continues (a.explore (a.ownTypes · name) (· ∪ ·) g v).guard :=
          balanced_exploreLevels a.levels g v
        exact .cons ((explores_iff hg).mpr rfl) (ih (hc.visiting.trans hg))
  exact ⟨h.unique, fun hd => hd ▸ h⟩

end

/-! ### Questions -/

/-- The rules derive an answer to every question, in the steps of its descents. -/
theorem answers_step {c : Command} (hc : c.isQuery) :
    a.Answers c (a.step c).answer (a.trace c) := by
  cases c with
  | lookup v name site =>
      have h : a.Answers (.lookup v name site) _ _ := .lookup ((readsAll_iff rfl).mpr rfl)
      rwa [← a.shown_readNames_answer v (a.recordedSite site)] at h
  | property v name => exact .property ((follows_iff rfl).mpr rfl)
  | propertyValue d site =>
      have h : a.Answers (.propertyValue d site) _ _ := .propertyValue ((reads_iff rfl).mpr rfl)
      rwa [← a.propertyValue_answer d site] at h
  | members v accessor => exact .members ((explores_iff rfl).mpr rfl)
  | index v is site =>
      show a.Answers (.index v is site) (.values (a.index v is site).answer) _
      dsimp only [trace]
      rcases a.indexing_cases v with hm | ⟨f, hk⟩ | ⟨hm, hf⟩
      · rw [index_of_hasMembers is site hm, shown_readNames_answer, if_pos hm]
        exact .index hm ((readsAll_iff rfl).mpr rfl)
      · rw [index_of_arguments is site hk, if_neg (not_hasMembers_of_arguments hk)]
        exact .arguments hk
      · rw [index_of_not is site hm hf, if_neg hm]
        exact .nothing hm hf
  | addUnit _ | bumpUnit _ | detachUnit _ | tearDown _ | createNull _ | createBoolean _ _
  | createNumber _ _ | createText _ _ | createObject _ | createFunction _ _ | createArguments _
  | createInheritor _ _ | addPrototypes _ _ | assign _ _ _ | bindArguments _ _ => cases hc

/-- What the rules derive for a question is the answer that it gets, in the steps it takes. -/
theorem Answers.eq_step {c : Command} {x : Answer} {steps : List Step} (h : a.Answers c x steps) :
    c.isQuery ∧ x = (a.step c).answer ∧ steps = a.trace c := by
  cases h with
  | @lookup v name site _ h =>
      obtain rfl := (readsAll_iff rfl).mp h
      rw [← a.shown_readNames_answer v (a.recordedSite site)]
      exact ⟨rfl, rfl, rfl⟩
  | property h =>
      obtain rfl := (follows_iff rfl).mp h
      exact ⟨rfl, rfl, rfl⟩
  | @propertyValue d site _ h =>
      obtain rfl := (reads_iff rfl).mp h
      rw [← a.propertyValue_answer d site]
      exact ⟨rfl, rfl, rfl⟩
  | @index v is site _ hm h =>
      obtain rfl := (readsAll_iff rfl).mp h
      refine ⟨rfl, congrArg Answer.values ?_, (if_pos hm).symm⟩
      rw [index_of_hasMembers is site hm, shown_readNames_answer]
  | @arguments v f is site hk =>
      refine ⟨rfl, congrArg Answer.values ?_, (if_neg (not_hasMembers_of_arguments hk)).symm⟩
      rw [index_of_arguments is site hk]
      rfl
  | @nothing v is site hm hf =>
      refine ⟨rfl, congrArg Answer.values ?_, (if_neg hm).symm⟩
      rw [index_of_not is site hm hf]
  | members h =>
      obtain rfl := (explores_iff rfl).mp h
      exact ⟨rfl, rfl, rfl⟩

/-- **Questions end by themselves.**  In every state and under all options, the rules without levels
derive an answer to every question: the one that it gets, in the steps that it takes, and no other.
At every moment of these steps the keys being visited differ and, but for the latest, are
inheritors; so they are no more than the inheritors and one, nor more than the depth allowed. -/
theorem queries_terminate (a : Analysis) :
    (∀ c x steps, a.Answers c x steps ↔
      c.isQuery ∧ x = (a.step c).answer ∧ steps = a.trace c) ∧
    ∀ c, ∃ g, Run (fun h => a.Chain h ∧ h.depth ≤ a.inheritorCount + 1 ∧
      h.depth ≤ a.options.limits.depth) a.guard (a.trace c) g := by
  refine ⟨fun c x steps => ⟨Answers.eq_step, ?_⟩, fun c => ?_⟩
  · rintro ⟨hc, rfl, rfl⟩
    exact answers_step hc
  · obtain ⟨g, -, hr⟩ := exists_run_trace (a.kept_chained.and (a.kept_limits a.options.limits))
      (fun v => ⟨chained_of_visiting rfl v, rfl, Nat.zero_le _⟩) c
    refine ⟨g, hr.mono fun h hh => ?_⟩
    obtain ⟨u, hu, -, hd⟩ := hh
    exact ⟨hu.toChain, hu.toChain.depth_le, hd⟩

end Analysis

end Prototypal
