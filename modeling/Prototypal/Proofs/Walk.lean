import Prototypal.Proofs.Confluence
import Prototypal.Proofs.Enumeration
import Prototypal.Proofs.History
import Prototypal.Proofs.SetAlgebra
import Prototypal.Proofs.Termination

/-!
# Prototypal — Proofs — Walk

Listing all members of a value builds one map per value that is entered and merges it into the map
of the value it was entered from.  Here the same listing is one walk: the values are visited one
after the other, with a list of the turns still to be taken in place of the nesting (`Walks`), and
their own members are added to one map in the order in which they come (`MemberMap.addAll`).

A map is determined by the order of its names and what these hold (`MemberMap.eq_of_keys`), adding
puts a name at the end unless it is there (`MemberMap.keys_addAll`), and so merging a map to which
one more member was added is merging the map and then adding that member (`MemberMap.merge_add`).
With that, nested maps can be flattened from the last member on (`MemberMap.merge_addAll`).

* `isPreorder_iff`: the walk visits what the exploration visits, in the same order.
* `result_explore_eq_flatMembers`: the nested maps and the walk give one map.
* `members_eq_flat_walk`: both, with the order in which names are listed.
-/

namespace Prototypal

theorem eraseDups_of_nodup {α : Type} [DecidableEq α] {xs : List α} (h : xs.Nodup) :
    xs.eraseDups = xs := by
  induction xs using List.reverseRecOn with
  | nil => rfl
  | append_singleton xs x ih =>
      obtain ⟨hxs, -, hx⟩ := List.nodup_append.mp h
      have hx : x ∉ xs := fun hm => hx x hm x (List.mem_singleton.mpr rfl) rfl
      rw [eraseDups_concat, if_neg hx, ih hxs]

namespace Roster

variable {κ α β : Type} [DecidableEq κ]

/-- A roster is determined by the order of its keys and what these hold. -/
theorem eq_of_keys {r s : Roster κ α} (hk : r.keys = s.keys) (h : ∀ k, r.get? k = s.get? k) :
    r = s := by
  have he : r.entries = s.entries := by
    have hr := r.flatMap_entries fun k x => [(k, x)]
    have hs := s.flatMap_entries fun k x => [(k, x)]
    simp only [hk, h, ← hs] at hr
    simpa using hr
  cases r
  cases s
  cases he
  rfl

/-- Mapping what keys hold drops the keys whose data is mapped to nothing. -/
theorem keys_filterMap (r : Roster κ α) (f : α → Option β) :
    (r.filterMap f).keys = r.keys.filter fun k => ((r.get? k).bind f).isSome := by
  have hf : (r.entries.filter fun e => ((r.get? e.1).bind f).isSome) =
      r.entries.filter fun e => (f e.2).isSome :=
    List.filter_congr fun e he => by rw [mem_entries_iff.mp he, Option.bind_some]
  rw [keys, keys, List.filter_map, Function.comp_def, hf]
  show (r.entries.filterMap fun e => (f e.2).map (e.1, ·)).map Prod.fst = _
  induction r.entries with
  | nil => rfl
  | cons e es ih => cases h : f e.2 <;> simp [h, ih]

end Roster

/-! ### Adding members one by one -/

namespace MemberMap

/-- The map with one more member: its values join those that the name holds already. -/
def add (m : MemberMap) (e : String × ValueSet) : MemberMap :=
  match m.get? e.1 with
  | none => m.set e.1 e.2
  | some known => m.set e.1 (known ∪ e.2)

/-- The map with the listed members added, from the first to the last. -/
def addAll (m : MemberMap) (es : List (String × ValueSet)) : MemberMap := es.foldl add m

theorem add_eq_set (m : MemberMap) (e : String × ValueSet) :
    m.add e = m.set e.1 ((m.get? e.1).getD ∅ ∪ e.2) := by
  rw [add]
  cases m.get? e.1 <;> simp

theorem merge_eq_addAll (m n : MemberMap) : m.merge n = m.addAll n.entries := by
  simp only [merge, addAll, funext fun m => funext (add_eq_set m)]

theorem addAll_append (m : MemberMap) (es es' : List (String × ValueSet)) :
    m.addAll (es ++ es') = (m.addAll es).addAll es' :=
  List.foldl_append

theorem keys_add (m : MemberMap) (e : String × ValueSet) :
    (m.add e).keys = if e.1 ∈ m.keys then m.keys else m.keys ++ [e.1] := by
  rw [add_eq_set, Roster.keys_set]

theorem getD_get?_add (m : MemberMap) (e : String × ValueSet) (name : String) :
    ((m.add e).get? name).getD ∅ = (m.get? name).getD ∅ ∪ if e.1 = name then e.2 else ∅ := by
  rw [add_eq_set, Roster.get?_set]
  by_cases h : e.1 = name <;> simp [h]

theorem eraseDups_keys (m : MemberMap) : m.keys.eraseDups = m.keys :=
  eraseDups_of_nodup m.nodup

/-- **Names are listed in the order of their first appearance.** -/
theorem keys_addAll (m : MemberMap) (es : List (String × ValueSet)) :
    (m.addAll es).keys = (m.keys ++ es.map Prod.fst).eraseDups := by
  induction es using List.reverseRecOn with
  | nil => rw [List.map_nil, List.append_nil, eraseDups_keys]; rfl
  | append_singleton es e ih =>
      rw [addAll_append, List.map_append, ← List.append_assoc, List.map_singleton, eraseDups_concat]
      show ((m.addAll es).add e).keys = _
      simp only [keys_add, ih, List.mem_eraseDups]

theorem keys_merge (m n : MemberMap) : (m.merge n).keys = (m.keys ++ n.keys).eraseDups := by
  rw [merge_eq_addAll, keys_addAll]
  rfl

theorem eq_of_keys {m n : MemberMap} (hk : m.keys = n.keys)
    (h : ∀ name, (m.get? name).getD ∅ = (n.get? name).getD ∅) : m = n := by
  refine Roster.eq_of_keys hk fun name => ?_
  have hm : (∃ s, m.get? name = some s) ↔ ∃ s, n.get? name = some s := by
    rw [← Roster.mem_keys_iff, ← Roster.mem_keys_iff, hk]
  have hn := h name
  cases hs : m.get? name <;> cases ht : n.get? name <;> simp_all

/-- **Merging is associative, one member at a time.** -/
theorem merge_add (m n : MemberMap) (e : String × ValueSet) :
    m.merge (n.add e) = (m.merge n).add e := by
  refine eq_of_keys ?_ fun name => ?_
  · have hr : ((m.merge n).add e).keys = (m.keys ++ n.keys ++ [e.1]).eraseDups := by
      rw [keys_add, keys_merge, eraseDups_concat]
      simp only [List.mem_eraseDups]
    rw [hr, keys_merge, keys_add]
    by_cases he : e.1 ∈ n.keys
    · rw [if_pos he, eraseDups_concat, if_pos (List.mem_append_right _ he)]
    · rw [if_neg he, List.append_assoc]
  · rw [getD_get?_merge, getD_get?_add, getD_get?_add, getD_get?_merge, ValueSet.union_assoc]

theorem empty_merge (m : MemberMap) : MemberMap.merge ∅ m = m := by
  refine eq_of_keys ?_ fun name => ?_
  · rw [keys_merge]
    exact eraseDups_keys m
  · rw [getD_get?_merge]
    exact ValueSet.empty_union _

/-- **Nested maps are flattened**: merging a map that was built by adding members is adding these
members. -/
theorem merge_addAll (m : MemberMap) (es : List (String × ValueSet)) :
    m.merge (addAll ∅ es) = m.addAll es := by
  induction es using List.reverseRecOn with
  | nil => rfl
  | append_singleton es e ih =>
      rw [addAll_append, addAll_append, ← ih]
      exact merge_add m _ e

end MemberMap

/-! ### The walk -/

/-- What is still to be done on a walk: a value may be entered, or is left again. -/
inductive Turn where
  | enter (v : ValueId)
  | leave (v : ValueId)

namespace Analysis

variable {a : Analysis}

/-- The prototypes of `v`, in ascending order. -/
structure IsRow (a : Analysis) (v : ValueId) (ps : List ValueId) : Prop where
  ascending : ps.Pairwise (· < ·)
  draws : ∀ p, p ∈ ps ↔ a.Draws v p

/-- Taking the turns one after the other visits the listed values.  A value that the guard admits is
visited, and its prototypes come before what was to be done next. -/
inductive Walks (a : Analysis) : Guard ValueId → List Turn → List ValueId → Prop where
  | done (g : Guard ValueId) : Walks a g [] []
  | granted {g h : Guard ValueId} {v : ValueId} {ps us : List ValueId} {ts : List Turn}
      (he : g.enter v = (.entered, h)) (hp : a.IsRow v ps)
      (hw : Walks a h (ps.map .enter ++ .leave v :: ts) us) : Walks a g (.enter v :: ts) (v :: us)
  | denied {g h : Guard ValueId} {v : ValueId} {answer : Admission} {us : List ValueId}
      {ts : List Turn} (hd : answer ≠ .entered) (he : g.enter v = (answer, h))
      (hw : Walks a h ts us) : Walks a g (.enter v :: ts) us
  | left {g h : Guard ValueId} {v : ValueId} {us : List ValueId} {ts : List Turn}
      (hl : g.leave v = .ok h) (hw : Walks a h ts us) : Walks a g (.leave v :: ts) us

/-- The values that a walk from `v` visits, each before those entered from it; `v` itself is visited
without being entered. -/
def IsPreorder (a : Analysis) (v : ValueId) (us : List ValueId) : Prop :=
  ∃ ps ws, a.IsRow v ps ∧ a.Walks a.guard (ps.map .enter) ws ∧ us = v :: ws

theorem isRow_prototypes (a : Analysis) (v : ValueId) : a.IsRow v (a.prototypes v) :=
  ⟨a.ascending_prototypes v, fun _ => mem_prototypes⟩

theorem IsRow.eq_prototypes {v : ValueId} {ps : List ValueId} (h : a.IsRow v ps) :
    ps = a.prototypes v :=
  h.ascending.eq_of_mem_iff (a.isRow_prototypes v).ascending fun p =>
    (h.draws p).trans ((a.isRow_prototypes v).draws p).symm

/-- At most one list of values is visited. -/
theorem Walks.unique {g : Guard ValueId} {ts : List Turn} {us us' : List ValueId}
    (h : a.Walks g ts us) (h' : a.Walks g ts us') : us' = us := by
  induction h generalizing us' with
  | done g =>
      cases h'
      rfl
  | granted he hp _ ih =>
      cases h' with
      | granted he' hp' hw' =>
          obtain ⟨-, rfl⟩ := Prod.mk.inj (he.symm.trans he')
          obtain rfl := hp'.eq_prototypes.trans hp.eq_prototypes.symm
          rw [ih hw']
      | denied hd' he' _ => exact absurd (Prod.mk.inj (he.symm.trans he')).1.symm hd'
  | denied hd he _ ih =>
      cases h' with
      | granted he' _ _ => exact absurd (Prod.mk.inj (he.symm.trans he')).1 hd
      | denied _ he' hw' =>
          obtain ⟨-, rfl⟩ := Prod.mk.inj (he.symm.trans he')
          exact ih hw'
  | left hl _ ih =>
      cases h' with
      | left hl' hw' =>
          obtain rfl := Except.ok.inj (hl.symm.trans hl')
          exact ih hw'

/-- **An exploration is a stretch of a walk**: what is entered from `v` is visited first, and the
walk goes on with the guard that the exploration hands back. -/
theorem Explores.walks {α : Type} {own : ValueId → α} {merge : α → α → α} {g : Guard ValueId}
    {v : ValueId} {d : Descent α} (h : a.Explores own merge g v d) :
    ∃ ws, d.visits = v :: ws ∧ ∀ ts us, a.Walks d.guard ts us →
      a.Walks g ((a.prototypes v).map .enter ++ ts) (ws ++ us) := by
  -- a fan-out is such a stretch as well, for the values of its list
  refine @Explores.rec α a own merge
    (fun g v d _ => ∃ ws, d.visits = v :: ws ∧ ∀ ts us, a.Walks d.guard ts us →
      a.Walks g ((a.prototypes v).map .enter ++ ts) (ws ++ us))
    (fun _ g vs d _ => ∀ ts us, a.Walks d.guard ts us →
      a.Walks g (vs.map .enter ++ ts) (d.visits ++ us))
    ?_ ?_ ?_ ?_ g v d h
  · intro g v below _ ih
    exact ⟨below.visits, rfl, ih⟩
  · exact fun _ _ _ _ hw => hw
  · rintro acc g h i v vs found rest he - hl - ⟨ws, hws, hv⟩ hr ts us hw
    have hvisits : (⟨rest.result, .attempt v .entered h.depth h.attempts :: found.trace ++
        .leave v :: rest.trace, rest.guard⟩ : Descent α).visits = v :: (ws ++ rest.visits) := by
      have hf : found.trace.filterMap Step.visited? = v :: ws := hws
      simp [Descent.visits, List.filterMap_cons, Step.visited?, hf]
    rw [hvisits, List.cons_append, List.append_assoc]
    refine .granted he (a.isRow_prototypes v) (hv _ _ (.left hl ?_))
    exact hr ts us hw
  · rintro acc g h v vs answer rest hd he - hr ts us hw
    exact .denied hd he (hr ts us hw)

/-- **The walk visits what the exploration visits**, in the same order. -/
theorem isPreorder_iff {v : ValueId} {us : List ValueId} :
    a.IsPreorder v us ↔ us = a.visited v := by
  have hx : a.Explores a.ownMembers MemberMap.merge a.guard v
      (a.explore a.ownMembers MemberMap.merge a.guard v) := (explores_iff rfl).mpr rfl
  obtain ⟨ws, hws, hw⟩ := hx.walks
  have hd := hw [] [] (.done _)
  rw [List.append_nil, List.append_nil] at hd
  rw [visited, hws]
  constructor
  · rintro ⟨ps, ws', hp, hw', rfl⟩
    rw [hp.eq_prototypes] at hw'
    rw [hd.unique hw']
  · exact fun hu => ⟨_, ws, a.isRow_prototypes v, hd, hu⟩

/-! ### One map for all values -/

/-- The own members of the listed values, added to one map from the first to the last. -/
def flatMembers (a : Analysis) (us : List ValueId) : MemberMap :=
  MemberMap.addAll ∅ (us.flatMap fun u => (a.ownMembers u).entries)

/-- The names of the own members of the listed values, each where it first appears. -/
def namesAlong (a : Analysis) (us : List ValueId) : List String :=
  (us.flatMap fun u => (a.ownMembers u).keys).eraseDups

/-- The set never had a value, or one of its values is shown. -/
def Lasts (a : Analysis) (s : ValueSet) : Prop := s = ∅ ∨ a.shown s ≠ ∅

instance (s : ValueSet) : Decidable (a.Lasts s) := inferInstanceAs (Decidable (_ ∨ _))

/-- The names whose sets last, when the own members of the listed values are put together. -/
def lasting (a : Analysis) (us : List ValueId) (names : List String) : List String :=
  names.filter fun name => a.Lasts (((a.flatMembers us).get? name).getD ∅)

theorem keys_flatMembers (a : Analysis) (us : List ValueId) :
    (a.flatMembers us).keys = a.namesAlong us := by
  rw [flatMembers, MemberMap.keys_addAll, List.map_flatMap]
  rfl

theorem flatMembers_cons (a : Analysis) (u : ValueId) (us : List ValueId) :
    a.flatMembers (u :: us) =
      (a.ownMembers u).addAll (us.flatMap fun u => (a.ownMembers u).entries) := by
  rw [flatMembers, List.flatMap_cons, MemberMap.addAll_append, ← MemberMap.merge_eq_addAll,
    MemberMap.empty_merge]

theorem result_exploreLevels_eq_flatMembers (n : Nat) (g : Guard ValueId) (v : ValueId) :
    (a.exploreLevels a.ownMembers MemberMap.merge n g v).result =
      a.flatMembers (a.exploreLevels a.ownMembers MemberMap.merge n g v).visits := by
  induction n generalizing g v with
  | zero => exact (a.flatMembers_cons v []).symm
  | succ n ih =>
      rw [visits_exploreLevels_succ, flatMembers_cons]
      -- a fan-out adds the members of all it visits to those it starts from
      refine fanOut_induction (motive := fun acc _ _ result visits _ =>
        result = MemberMap.addAll acc (visits.flatMap fun u => (a.ownMembers u).entries))
        (balanced_exploreLevels n) ?_ ?_ ?_ (a.ownMembers v)
      · exact fun _ _ _ => rfl
      · intro acc g h p ps result visits _ _ _ _ hr
        rw [hr, ih, flatMembers, MemberMap.merge_addAll, List.flatMap_append,
          MemberMap.addAll_append]
      · exact fun _ _ _ _ _ _ _ _ _ _ hr => hr

/-- **Nested maps and the walk give one map.** -/
theorem result_explore_eq_flatMembers (a : Analysis) (v : ValueId) :
    (a.explore a.ownMembers MemberMap.merge a.guard v).result = a.flatMembers (a.visited v) :=
  result_exploreLevels_eq_flatMembers a.levels a.guard v

theorem isSome_listed? (s : ValueSet) : (a.listed? s).isSome = decide (a.Lasts s) := by
  rw [Bool.eq_iff_iff, Option.isSome_iff_exists, decide_eq_true_iff]
  simp only [listed?_eq_some_iff, exists_eq_left, Lasts]

/-- The names listed are those along the walk whose sets last. -/
theorem keys_members (a : Analysis) (v : ValueId) (accessor : UnitId) :
    (a.members v accessor).answer.keys = a.lasting (a.visited v) (a.namesAlong (a.visited v)) := by
  show ((a.explore a.ownMembers MemberMap.merge a.guard v).result.filterMap a.listed?).keys = _
  rw [Roster.keys_filterMap, result_explore_eq_flatMembers, keys_flatMembers]
  refine List.filter_congr fun name hn => ?_
  rw [← keys_flatMembers] at hn
  obtain ⟨s, hs⟩ := Roster.mem_keys_iff.mp hn
  rw [hs, Option.bind_some, Option.getD_some, isSome_listed?]

theorem keys_ownMembers_isPrefix (a : Analysis) (u : ValueId) (us : List ValueId) :
    (a.ownMembers u).keys <+: a.namesAlong (u :: us) := by
  rw [namesAlong, List.flatMap_cons, List.eraseDups_append, MemberMap.eraseDups_keys]
  exact List.prefix_append _ _

/-- **Listing members is one flat walk.**  In every state, under all options and budgets: there is
exactly one list of values that a walk from `v` visits; the map put together from nested maps is the
one to which the own members of these values are added in that order; and of the names whose sets
last, the listing has those of `v` itself first, in the order in which it got them, and the others
in the order of their first appearance on the walk, each once. -/
theorem members_eq_flat_walk (a : Analysis) (v : ValueId) :
    ∃ us, (∀ us', a.IsPreorder v us' ↔ us' = us) ∧
      (a.explore a.ownMembers MemberMap.merge a.guard v).result = a.flatMembers us ∧
      ∀ accessor,
        (a.members v accessor).answer.keys = a.lasting us (a.namesAlong us) ∧
        a.lasting us (a.ownMembers v).keys <+: (a.members v accessor).answer.keys ∧
        (a.members v accessor).answer.keys.Nodup := by
  refine ⟨a.visited v, fun _ => isPreorder_iff, a.result_explore_eq_flatMembers v,
    fun accessor => ⟨a.keys_members v accessor, ?_, (a.members v accessor).answer.nodup⟩⟩
  obtain ⟨ps, ws, -, -, hv⟩ := isPreorder_iff.mpr (Eq.refl (a.visited v))
  rw [keys_members]
  refine List.IsPrefix.filter _ ?_
  rw [hv]
  exact a.keys_ownMembers_isPrefix v ws

/-- An inheritor that draws on an object both directly and through another inheritor, each of the
three with a member `y`. -/
def braidedInheritor : Analysis :=
  ((fresh {}).run
    [.createObject .builtin, .createInheritor .builtin (.singleton ⟨1⟩),
      .createInheritor .builtin (.ofList [⟨1⟩, ⟨2⟩]), .assign ⟨1⟩ "x" (.singleton ⟨0⟩),
      .assign ⟨1⟩ "y" (.singleton ⟨1⟩), .assign ⟨2⟩ "z" (.singleton ⟨0⟩),
      .assign ⟨2⟩ "y" (.singleton ⟨2⟩), .assign ⟨3⟩ "y" (.singleton ⟨3⟩)]).state

/-- The walk comes by the object twice. -/
theorem members_eq_flat_walk_braidedInheritor :
    (∀ us, braidedInheritor.IsPreorder ⟨3⟩ us ↔ us = [⟨3⟩, ⟨1⟩, ⟨2⟩, ⟨1⟩]) ∧
    (braidedInheritor.explore braidedInheritor.ownMembers MemberMap.merge braidedInheritor.guard
        ⟨3⟩).result = braidedInheritor.flatMembers [⟨3⟩, ⟨1⟩, ⟨2⟩, ⟨1⟩] ∧
    (braidedInheritor.flatMembers [⟨3⟩, ⟨1⟩, ⟨2⟩, ⟨1⟩]).entries =
      [("y", .ofList [⟨1⟩, ⟨2⟩, ⟨3⟩]), ("x", .singleton ⟨0⟩), ("z", .singleton ⟨0⟩)] ∧
    (braidedInheritor.members ⟨3⟩ .builtin).answer.keys = ["y", "x", "z"] := by
  obtain ⟨us, hwalk, hmap, -⟩ := members_eq_flat_walk braidedInheritor ⟨3⟩
  have hvisited : braidedInheritor.visited ⟨3⟩ = [⟨3⟩, ⟨1⟩, ⟨2⟩, ⟨1⟩] := by decide +kernel
  obtain rfl : us = [⟨3⟩, ⟨1⟩, ⟨2⟩, ⟨1⟩] :=
    (isPreorder_iff.mp ((hwalk us).mpr rfl)).trans hvisited
  exact ⟨hwalk, hmap, by decide +kernel, by decide +kernel⟩

end Analysis

end Prototypal
