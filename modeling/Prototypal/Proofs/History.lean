import Mathlib.Data.List.Induction
import Mathlib.Logic.Function.Basic
import Prototypal.Proofs.Roster

/-!
# Prototypal — Proofs — History

A book of usages as a replay of its history.  A history is a list of acts: units are looked up in
the book, places are recorded for them, and they move to new versions (`UsageBook.Act`).  The book
notices a new version only when the unit is next looked up, and then starts the unit's list anew in
the place it has.

What the book ought to hold is said of the history alone.  Each act is stamped with the version at
which it finds a unit (`stamped`); the list of the unit is of the version stamped on its last
look-up, and holds the places recorded under that stamp, each once, in the order in which they first
came (`replayed`).

`book_replays` says that this is what the book holds after every history, with the units in the
order of their first look-ups.
-/

namespace Prototypal

theorem eraseDups_concat {α : Type} [DecidableEq α] (xs : List α) (x : α) :
    (xs ++ [x]).eraseDups = if x ∈ xs then xs.eraseDups else xs.eraseDups ++ [x] := by
  rw [List.eraseDups_append]
  by_cases hx : x ∈ xs
  · simp [hx, List.removeAll]
  · simp [hx, List.removeAll, List.eraseDups_cons]

namespace UsageBook

variable {ι : Type} [DecidableEq ι]

/-- Something done to a book of usages, or to one of the units that it keeps lists for. -/
inductive Act (ι : Type) where
  /-- The list of a unit is looked up. -/
  | lookUp (i : ι)
  /-- The list of a unit is looked up, and a place is recorded in it. -/
  | record (i : ι) (p : PackedSpan)
  /-- A unit moves to its next version. -/
  | bump (i : ι)
deriving DecidableEq

/-- A book with the units that it keeps lists for. -/
structure Desk (ι : Type) where
  units : ι → SourceUnit
  book : UsageBook := {}

namespace Act

/-- The unit that is looked up. -/
def lookedUp? : Act ι → Option ι
  | lookUp i | record i _ => some i
  | bump _ => none

/-- The place that is recorded for unit `i`. -/
def recorded? (i : ι) : Act ι → Option PackedSpan
  | record j p => if j = i then some p else none
  | _ => none

end Act

/-- The desk after an act. -/
def Desk.act (d : Desk ι) : Act ι → Desk ι
  | .lookUp i => { d with book := d.book.refresh (d.units i) }
  | .record i p => { d with book := (d.book.record (d.units i) p).2 }
  | .bump i => { d with units := Function.update d.units i (d.units i).bump }

/-- The desk after a history. -/
def Desk.run (d : Desk ι) (acts : List (Act ι)) : Desk ι := acts.foldl Desk.act d

/-! ### What a history calls for -/

/-- The acts of a history, each with the version at which it finds unit `i`, from version `n` on. -/
def stamped (i : ι) : Nat → List (Act ι) → List (Nat × Act ι)
  | _, [] => []
  | n, act :: acts => (n, act) :: stamped i (if act = .bump i then n + 1 else n) acts

/-- The version at which unit `i` was last looked up. -/
def lastVersion? (i : ι) (n : Nat) (acts : List (Act ι)) : Option Nat :=
  ((stamped i n acts).filter (·.2.lookedUp? = some i)).getLast?.map Prod.fst

/-- The places recorded for unit `i` while it was at version `m`, as often as they were. -/
def recordedAt (i : ι) (n : Nat) (acts : List (Act ι)) (m : Nat) : List PackedSpan :=
  ((stamped i n acts).filter (·.1 = m)).filterMap (·.2.recorded? i)

/-- The list that a history calls for: of the version at which the unit was last looked up, with the
places recorded at that version, each once, in order of first recording. -/
def replayed (i : ι) (u : SourceUnit) (acts : List (Act ι)) : Option UsageList :=
  (lastVersion? i u.version acts).map fun m =>
    { unit := u.id, version := m, locations := (recordedAt i u.version acts m).eraseDups }

section

variable (i : ι) (n : Nat) (acts : List (Act ι))

theorem stamped_append (rest : List (Act ι)) :
    stamped i n (acts ++ rest) = stamped i n acts ++ stamped i (n + acts.count (.bump i)) rest := by
  induction acts generalizing n with
  | nil => rfl
  | cons act acts ih =>
      by_cases h : act = .bump i
      · simp [stamped, h, ih, Nat.add_assoc, Nat.add_comm 1]
      · simp [stamped, h, ih]

/-- Stamps are between the first version and the last. -/
theorem stamp_bounds {e : Nat × Act ι} (he : e ∈ stamped i n acts) :
    n ≤ e.1 ∧ e.1 ≤ n + acts.count (.bump i) := by
  induction acts generalizing n with
  | nil => cases he
  | cons act acts ih =>
      rcases List.mem_cons.mp he with rfl | he
      · exact ⟨Nat.le_refl _, Nat.le_add_right _ _⟩
      · have := ih _ he
        by_cases h : act = .bump i
        · subst h
          rw [if_pos rfl] at this
          rw [List.count_cons_self]
          omega
        · rw [if_neg h] at this
          rw [List.count_cons_of_ne h]
          exact this

theorem lastVersion?_append (rest : List (Act ι)) :
    lastVersion? i n (acts ++ rest) =
      (lastVersion? i (n + acts.count (.bump i)) rest).or (lastVersion? i n acts) := by
  simp only [lastVersion?, stamped_append, List.filter_append, List.getLast?_append, Option.map_or]

theorem recordedAt_append (rest : List (Act ι)) (m : Nat) :
    recordedAt i n (acts ++ rest) m =
      recordedAt i n acts m ++ recordedAt i (n + acts.count (.bump i)) rest m := by
  simp only [recordedAt, stamped_append, List.filter_append, List.filterMap_append]

theorem lastVersion?_singleton (act : Act ι) :
    lastVersion? i n [act] = if act.lookedUp? = some i then some n else none := by
  by_cases h : act.lookedUp? = some i <;> simp [lastVersion?, stamped, h]

theorem recordedAt_singleton (act : Act ι) (m : Nat) :
    recordedAt i n [act] m = if n = m then (act.recorded? i).toList else [] := by
  by_cases h : n = m <;> cases hr : act.recorded? i <;> simp [recordedAt, stamped, h, hr]

theorem lastVersion?_bump :
    lastVersion? i n (.bump i :: acts) = lastVersion? i (n + 1) acts := by
  simp [lastVersion?, stamped, Act.lookedUp?]

theorem recordedAt_bump (m : Nat) :
    recordedAt i n (.bump i :: acts) m = recordedAt i (n + 1) acts m := by
  by_cases h : n = m <;> simp [recordedAt, stamped, Act.recorded?, h]

end

/-- Nothing is recorded at a version after the last one. -/
theorem recordedAt_eq_nil_of_lt {i : ι} {n m : Nat} {acts : List (Act ι)}
    (h : n + acts.count (.bump i) < m) : recordedAt i n acts m = [] := by
  refine List.filterMap_eq_nil_iff.mpr fun e he => ?_
  obtain ⟨he, hm⟩ := List.mem_filter.mp he
  have hle := (stamp_bounds i n acts he).2
  have hm : e.1 = m := of_decide_eq_true hm
  omega

theorem Act.recorded?_eq_none {i : ι} {act : Act ι} (h : act.lookedUp? ≠ some i) :
    act.recorded? i = none := by
  cases act with
  | lookUp j | bump j => rfl
  | record j p => exact if_neg fun hj => h (congrArg some hj)

theorem lastVersion?_eq_none_iff {i : ι} {n : Nat} {acts : List (Act ι)} :
    lastVersion? i n acts = none ↔ ∀ act ∈ acts, act.lookedUp? ≠ some i := by
  induction acts using List.reverseRecOn with
  | nil => simp [lastVersion?, stamped]
  | append_singleton acts act ih =>
      simp [lastVersion?_append, lastVersion?_singleton, ih, or_imp, forall_and, and_comm]

theorem le_of_lastVersion? {i : ι} {n m : Nat} {acts : List (Act ι)}
    (h : lastVersion? i n acts = some m) : n ≤ m := by
  obtain ⟨e, he, rfl⟩ := Option.map_eq_some_iff.mp h
  exact (stamp_bounds i n acts (List.mem_of_mem_filter (List.mem_of_getLast? he))).1

/-- Nothing is recorded at the last version of a unit unless it is looked up at that version. -/
theorem recordedAt_eq_nil {i : ι} {n : Nat} {acts : List (Act ι)}
    (h : lastVersion? i n acts ≠ some (n + acts.count (.bump i))) :
    recordedAt i n acts (n + acts.count (.bump i)) = [] := by
  induction acts using List.reverseRecOn with
  | nil => rfl
  | append_singleton acts act ih =>
      rw [recordedAt_append, recordedAt_singleton]
      rw [lastVersion?_append, lastVersion?_singleton] at h
      by_cases hb : act = .bump i
      · subst hb
        rw [List.count_append, List.count_singleton_self] at h ⊢
        rw [recordedAt_eq_nil_of_lt (by omega), if_neg (by omega), List.nil_append]
      · have hcount : (acts ++ [act]).count (.bump i) = acts.count (.bump i) := by
          rw [List.count_append, List.count_singleton, beq_false_of_ne hb]
          rfl
        rw [hcount] at h ⊢
        by_cases hl : act.lookedUp? = some i
        · rw [if_pos hl] at h
          exact absurd rfl h
        · rw [if_neg hl, Option.none_or] at h
          rw [ih h, if_pos rfl, Act.recorded?_eq_none hl]
          rfl

/-- What one more act calls for. -/
theorem replayed_concat (i : ι) (u : SourceUnit) (acts : List (Act ι)) (act : Act ι) :
    replayed i u (acts ++ [act]) =
      if act.lookedUp? = some i then
        some
          { unit := u.id
            version := u.version + acts.count (.bump i)
            locations := (recordedAt i u.version acts (u.version + acts.count (.bump i)) ++
              (act.recorded? i).toList).eraseDups }
      else replayed i u acts := by
  simp only [replayed, lastVersion?_append, lastVersion?_singleton, recordedAt_append,
    recordedAt_singleton]
  by_cases hl : act.lookedUp? = some i
  · simp only [if_pos hl, Option.some_or, Option.map_some, if_pos]
  · simp only [if_neg hl, Option.none_or, Act.recorded?_eq_none hl, Option.toList_none, ite_self,
      List.append_nil]

/-- **A new version leaves no trace of the ones before**: once a unit that was bumped is looked up
again, its list is what was called for since. -/
theorem replayed_of_bump {i : ι} {u : SourceUnit} {before after : List (Act ι)}
    (h : ∃ act ∈ after, act.lookedUp? = some i) :
    replayed i u (before ++ .bump i :: after) =
      replayed i { u with version := u.version + before.count (.bump i) + 1 } after := by
  have hsome : lastVersion? i (u.version + before.count (.bump i) + 1) after ≠ none := by
    obtain ⟨act, hact, hl⟩ := h
    exact fun hn => lastVersion?_eq_none_iff.mp hn act hact hl
  obtain ⟨m, hm⟩ := Option.ne_none_iff_exists'.mp hsome
  have hle := le_of_lastVersion? hm
  -- nothing from before the bump is under the stamp of the last look-up
  have hbefore : recordedAt i u.version before m = [] := recordedAt_eq_nil_of_lt hle
  simp only [replayed, lastVersion?_append, lastVersion?_bump, hm, Option.some_or, Option.map_some,
    recordedAt_append, recordedAt_bump, hbefore, List.nil_append]

/-- The places in the list that a history calls for. -/
def replayedPlaces (i : ι) (u : SourceUnit) (acts : List (Act ι)) : List PackedSpan :=
  ((replayed i u acts).map UsageList.locations).getD []

/-! ### What a book holds -/

theorem list?_refresh (b : UsageBook) (u : SourceUnit) (k : UnitId) :
    (b.refresh u).list? k = if u.id = k then some (b.current u) else b.list? k :=
  Roster.get?_set _ _ _ _

theorem list?_record (b : UsageBook) (u : SourceUnit) (p : PackedSpan) (k : UnitId) :
    (b.record u p).2.list? k = if u.id = k then some ((b.current u).add p).2 else b.list? k :=
  Roster.get?_set _ _ _ _

theorem keys_refresh (b : UsageBook) (u : SourceUnit) :
    (b.refresh u).lists.keys =
      if u.id ∈ b.lists.keys then b.lists.keys else b.lists.keys ++ [u.id] :=
  Roster.keys_set _ _ _

theorem keys_record (b : UsageBook) (u : SourceUnit) (p : PackedSpan) :
    (b.record u p).2.lists.keys =
      if u.id ∈ b.lists.keys then b.lists.keys else b.lists.keys ++ [u.id] :=
  Roster.keys_set _ _ _

/-- Recording a place adds it to those recorded before it. -/
theorem add_eraseDups (u : UnitId) (n : Nat) (ps : List PackedSpan) (p : PackedSpan) :
    (UsageList.add { unit := u, version := n, locations := ps.eraseDups } p).2 =
      { unit := u, version := n, locations := (ps ++ [p]).eraseDups } := by
  rw [eraseDups_concat, UsageList.add, UsageList.contains]
  by_cases hp : p ∈ ps <;> simp [hp]

/-- The list of the present version, in a book that holds what the history calls for. -/
theorem current_of_replayed {b : UsageBook} {i : ι} {u : SourceUnit} {acts : List (Act ι)}
    (h : b.list? u.id = replayed i u acts) :
    b.current { u with version := u.version + acts.count (.bump i) } =
      { unit := u.id
        version := u.version + acts.count (.bump i)
        locations :=
          (recordedAt i u.version acts (u.version + acts.count (.bump i))).eraseDups } := by
  rw [current]
  dsimp only
  rw [h, replayed]
  by_cases hl : lastVersion? i u.version acts = some (u.version + acts.count (.bump i))
  · simp [hl, UsageList.isCurrent]
  · rw [recordedAt_eq_nil hl]
    cases hv : lastVersion? i u.version acts with
    | none => rfl
    | some m =>
        -- the list is of another version, so it gives way to a new one
        have hm : m ≠ u.version + acts.count (.bump i) := fun he => hl (he ▸ hv)
        simp [UsageList.isCurrent, hm, UsageList.ofUnit]

namespace Desk

theorem run_append (d : Desk ι) (acts rest : List (Act ι)) :
    d.run (acts ++ rest) = (d.run acts).run rest := List.foldl_append

theorem run_singleton (d : Desk ι) (act : Act ι) : d.run [act] = d.act act := rfl

theorem id_act (d : Desk ι) (act : Act ι) (i : ι) : ((d.act act).units i).id = (d.units i).id := by
  cases act with
  | lookUp j | record j p => rfl
  | bump j =>
      show (Function.update d.units j (d.units j).bump i).id = (d.units i).id
      by_cases h : i = j
      · subst h
        rw [Function.update_self]
        rfl
      · rw [Function.update_of_ne h]

theorem id_run (d : Desk ι) (acts : List (Act ι)) (i : ι) :
    ((d.run acts).units i).id = (d.units i).id := by
  induction acts generalizing d with
  | nil => rfl
  | cons act acts ih => exact (ih (d.act act)).trans (d.id_act act i)

/-- Below the highest version, a unit is at as many versions more as it was bumped. -/
theorem units_run (d : Desk ι) {acts : List (Act ι)} {i : ι}
    (hb : (d.units i).version + acts.count (.bump i) ≤ Count.top) :
    (d.run acts).units i =
      { d.units i with version := (d.units i).version + acts.count (.bump i) } := by
  induction acts using List.reverseRecOn with
  | nil => rfl
  | append_singleton acts act ih =>
      rw [List.count_append] at hb ⊢
      have ih := ih (by omega)
      rw [run_append, run_singleton]
      by_cases h : act = .bump i
      · subst h
        rw [List.count_singleton_self] at hb ⊢
        show Function.update (d.run acts).units i ((d.run acts).units i).bump i = _
        rw [Function.update_self, ih, SourceUnit.bump, Count.next, Nat.min_eq_left (by omega)]
        rfl
      · rw [List.count_singleton, beq_false_of_ne h]
        refine Eq.trans ?_ ih
        cases act with
        | lookUp j | record j p => rfl
        | bump j =>
            have hj : i ≠ j := fun he => h (he ▸ rfl)
            exact Function.update_of_ne hj _ _

/-- The identities of the units tell them apart. -/
def Distinct (d : Desk ι) : Prop := Function.Injective fun i => (d.units i).id

theorem Distinct.run {d : Desk ι} (hd : d.Distinct) (acts : List (Act ι)) : (d.run acts).Distinct :=
  fun i j h => hd (by simpa only [id_run] using h)

/-- What an act does to the list of a unit. -/
theorem list?_act {d : Desk ι} (hd : d.Distinct) (act : Act ι) (i : ι) :
    (d.act act).book.list? (d.units i).id =
      if act.lookedUp? = some i then
        some ((act.recorded? i).elim (d.book.current (d.units i))
          fun p => ((d.book.current (d.units i)).add p).2)
      else d.book.list? (d.units i).id := by
  have hi : ∀ j, (d.units j).id = (d.units i).id ↔ j = i := fun j => hd.eq_iff
  cases act with
  | lookUp j =>
      simp only [act, list?_refresh, hi, Act.lookedUp?, Option.some.injEq]
      split
      · next h => rw [h]; rfl
      · rfl
  | record j p =>
      simp only [act, list?_record, hi, Act.lookedUp?, Option.some.injEq]
      split
      · next h => simp only [h, Act.recorded?, if_pos, Option.elim]
      · rfl
  | bump j => rfl

/-- **The list of a unit is what its history calls for.** -/
theorem list?_run {d : Desk ι} (hd : d.Distinct) (he : d.book = {}) {acts : List (Act ι)} {i : ι}
    (hb : (d.units i).version + acts.count (.bump i) ≤ Count.top) :
    (d.run acts).book.list? (d.units i).id = replayed i (d.units i) acts := by
  induction acts using List.reverseRecOn with
  | nil =>
      show d.book.list? (d.units i).id = none
      rw [he]
      rfl
  | append_singleton acts act ih =>
      rw [List.count_append] at hb
      have hb : (d.units i).version + acts.count (.bump i) ≤ Count.top := by omega
      have ih := ih hb
      have hact := list?_act (hd.run acts) act i
      rw [id_run] at hact
      rw [run_append, run_singleton, hact, replayed_concat, units_run d hb, current_of_replayed ih,
        ih]
      split
      · cases act.recorded? i with
        | none => rw [Option.elim, Option.toList_none, List.append_nil]
        | some p => rw [Option.elim, add_eraseDups, Option.toList_some]
      · rfl

/-- **The units of a book are in the order of their first look-ups.** -/
theorem keys_run {d : Desk ι} (hd : d.Distinct) (he : d.book = {}) (acts : List (Act ι)) :
    (d.run acts).book.lists.keys =
      (acts.filterMap Act.lookedUp?).eraseDups.map fun i => (d.units i).id := by
  induction acts using List.reverseRecOn with
  | nil =>
      show d.book.lists.keys = []
      rw [he]
      rfl
  | append_singleton acts act ih =>
      have hmem : ∀ j, (d.units j).id ∈ (d.run acts).book.lists.keys ↔
          j ∈ acts.filterMap Act.lookedUp? := by
        intro j
        rw [ih, List.mem_map_of_injective hd, List.mem_eraseDups]
      have hlook : ∀ j, act.lookedUp? = some j → ((d.run acts).act act).book.lists.keys =
          if (d.units j).id ∈ (d.run acts).book.lists.keys then (d.run acts).book.lists.keys
          else (d.run acts).book.lists.keys ++ [(d.units j).id] := by
        intro j hj
        rw [← id_run d acts j]
        cases act with
        | lookUp k => cases hj; exact keys_refresh _ _
        | record k p => cases hj; exact keys_record _ _ _
        | bump k => cases hj
      rw [run_append, run_singleton, List.filterMap_append]
      cases hj : act.lookedUp? with
      | none =>
          rw [List.filterMap_cons_none hj, List.filterMap_nil, List.append_nil, ← ih]
          cases act with
          | lookUp _ | record _ _ => cases hj
          | bump k => rfl
      | some j =>
          rw [List.filterMap_cons_some hj, List.filterMap_nil, eraseDups_concat, hlook j hj]
          by_cases h : j ∈ acts.filterMap Act.lookedUp?
          · rw [if_pos ((hmem j).mpr h), if_pos h, ih]
          · rw [if_neg (mt (hmem j).mp h), if_neg h, ih, List.map_append, List.map_singleton]

/-- A unit that is not looked up keeps its list, also when it is bumped. -/
theorem list?_run_of_not_lookedUp {d : Desk ι} (hd : d.Distinct) {acts : List (Act ι)} {i : ι}
    (hacts : ∀ act ∈ acts, act.lookedUp? ≠ some i) :
    (d.run acts).book.list? (d.units i).id = d.book.list? (d.units i).id := by
  induction acts generalizing d with
  | nil => rfl
  | cons act acts ih =>
      obtain ⟨hact, hacts⟩ := List.forall_mem_cons.mp hacts
      have hrest := ih (hd.run [act]) hacts
      rw [run_singleton, id_act, list?_act hd, if_neg hact] at hrest
      exact hrest

/-- A unit that is looked up after it was bumped has the list that it would have in a book begun at
the bump. -/
theorem list?_run_of_bump {d : Desk ι} (hd : d.Distinct) (he : d.book = {})
    {before after : List (Act ι)} {i : ι}
    (hb : (d.units i).version + (before ++ .bump i :: after).count (.bump i) ≤ Count.top)
    (h : ∃ act ∈ after, act.lookedUp? = some i) :
    (d.run (before ++ .bump i :: after)).book.list? (d.units i).id =
      (run { units := (d.run (before ++ [.bump i])).units } after).book.list? (d.units i).id := by
  rw [list?_run hd he hb, replayed_of_bump h]
  rw [List.count_append, List.count_cons_self] at hb
  -- the unit as the bump leaves it
  have hunit : (d.run (before ++ [.bump i])).units i =
      { d.units i with version := (d.units i).version + before.count (.bump i) + 1 } := by
    rw [units_run d (by rw [List.count_append, List.count_singleton_self]; omega),
      List.count_append, List.count_singleton_self, Nat.add_assoc]
  have hd' : Distinct { units := (d.run (before ++ [.bump i])).units } := hd.run _
  have hb' : ((d.run (before ++ [.bump i])).units i).version + after.count (.bump i) ≤
      Count.top := by
    rw [hunit]
    dsimp only
    omega
  have hlist := list?_run hd' rfl hb'
  rw [hunit] at hlist
  exact hlist.symm

end Desk

/-- All places of a book, by the units in order. -/
theorem locations_eq (b : UsageBook) :
    b.locations = b.lists.keys.flatMap fun u =>
      ((b.list? u).map fun l => l.locations.map fun p => (u, p.unpack)).getD [] :=
  b.lists.flatMap_entries fun u l => l.locations.map fun (p : PackedSpan) => (u, p.unpack)

theorem sites_eq (b : UsageBook) :
    b.sites = b.lists.keys.flatMap fun u => ((b.list? u).map UsageList.sites).getD [] :=
  b.lists.flatMap_entries fun _ l => l.sites

/-- **A book of usages replays its history.**  Take units with identities of their own, a new book,
and any history in which no unit goes beyond the highest version.  Then each unit is at as many
versions more as it was bumped; its list in the book is of the version at which it was last looked
up, with the places recorded for it at that version, each once, in order of first recording; the
places are listed by the units in the order of their first look-ups.  A unit that is not looked up
further keeps its list.  A unit that was looked up after it was bumped has the list that it would
have in a book begun at the bump. -/
theorem book_replays {d : Desk ι} (hd : d.Distinct) (he : d.book = {}) {acts : List (Act ι)}
    (hb : ∀ i, (d.units i).version + acts.count (.bump i) ≤ Count.top) :
    (∀ i, (d.run acts).units i =
      { d.units i with version := (d.units i).version + acts.count (.bump i) }) ∧
    (∀ i, (d.run acts).book.list? (d.units i).id = replayed i (d.units i) acts) ∧
    (d.run acts).book.lists.keys =
      (acts.filterMap Act.lookedUp?).eraseDups.map (fun i => (d.units i).id) ∧
    (d.run acts).book.locations = (acts.filterMap Act.lookedUp?).eraseDups.flatMap (fun i =>
      (replayedPlaces i (d.units i) acts).map fun p => ((d.units i).id, p.unpack)) ∧
    (d.run acts).book.sites = (acts.filterMap Act.lookedUp?).eraseDups.flatMap (fun i =>
      (replayedPlaces i (d.units i) acts).map fun p => ⟨(d.units i).id, p⟩) ∧
    (∀ i rest, (∀ act ∈ rest, act.lookedUp? ≠ some i) →
      (d.run (acts ++ rest)).book.list? (d.units i).id =
        (d.run acts).book.list? (d.units i).id) ∧
    (∀ i before after, acts = before ++ .bump i :: after →
      (∃ act ∈ after, act.lookedUp? = some i) →
      (d.run acts).book.list? (d.units i).id =
        (Desk.run { units := (d.run (before ++ [.bump i])).units } after).book.list?
          (d.units i).id) := by
  have hlist := fun i => Desk.list?_run hd he (hb i)
  have hkeys := Desk.keys_run hd he acts
  refine ⟨fun i => d.units_run (hb i), hlist, hkeys, ?_, ?_, fun i rest hrest => ?_,
    fun i before after hacts hafter => ?_⟩
  · rw [locations_eq, hkeys, List.flatMap_map]
    refine List.flatMap_congr fun i _ => ?_
    rw [hlist, replayedPlaces]
    cases replayed i (d.units i) acts <;> rfl
  · rw [sites_eq, hkeys, List.flatMap_map]
    refine List.flatMap_congr fun i _ => ?_
    rw [hlist, replayedPlaces, replayed]
    cases lastVersion? i (d.units i).version acts <;> rfl
  · have hrest := Desk.list?_run_of_not_lookedUp (hd.run acts) hrest
    rwa [Desk.id_run, ← Desk.run_append] at hrest
  · subst hacts
    exact Desk.list?_run_of_bump hd he (hb i) hafter

/-- Two units, the second of them at a version of its own. -/
def twoUnits : Desk Bool where
  units
    | false => { id := ⟨1⟩, path := "a" }
    | true => { id := ⟨2⟩, path := "b", version := 7 }

/-- The first unit is read twice at one place, bumped, left stale while the second is read, and read
again, at a new place and at the old one. -/
def staleForAWhile : List (Act Bool) :=
  [.record false ⟨5⟩, .record false ⟨5⟩, .bump false, .lookUp true, .record true ⟨9⟩,
    .record false ⟨8⟩, .record false ⟨5⟩, .bump true, .record false ⟨8⟩]

theorem book_replays_staleForAWhile :
    twoUnits.Distinct ∧ twoUnits.book = {} ∧
    (∀ i, (twoUnits.units i).version + staleForAWhile.count (.bump i) ≤ Count.top) ∧
    (twoUnits.run staleForAWhile).book.list? ⟨1⟩ =
      some { unit := ⟨1⟩, version := 1, locations := [⟨8⟩, ⟨5⟩] } ∧
    (twoUnits.run staleForAWhile).book.list? ⟨2⟩ =
      some { unit := ⟨2⟩, version := 7, locations := [⟨9⟩] } ∧
    (twoUnits.run staleForAWhile).book.sites = [⟨⟨1⟩, ⟨8⟩⟩, ⟨⟨1⟩, ⟨5⟩⟩, ⟨⟨2⟩, ⟨9⟩⟩] := by
  have hd : twoUnits.Distinct := by
    intro i j h
    cases i <;> cases j <;> simp [twoUnits] at h ⊢
  have hb : ∀ i, (twoUnits.units i).version + staleForAWhile.count (.bump i) ≤ Count.top := by
    decide
  obtain ⟨-, hlist, -, -, hsites, -, -⟩ := book_replays hd rfl hb
  exact ⟨hd, rfl, hb, hlist false, hlist true, hsites⟩

end UsageBook

end Prototypal
