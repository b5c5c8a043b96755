import Prototypal.Analysis.Query
import Prototypal.Proofs.ValueSet

/-!
# Prototypal — Proofs — Roster

Rosters through one view, what a key holds (`get?`): the listed pairs are those of keys with what
they hold (`Roster.mem_entries_iff`), and merging two maps of members unites what a name holds in
either (`MemberMap.get?_merge`).  `Roster.map` changes what the keys hold and keeps their places, as
setting a key does that is listed (`Roster.set_eq_map`).
-/

namespace Prototypal

namespace Roster

variable {κ α β γ : Type}

/-- The roster with what each key holds changed. -/
def map (r : Roster κ α) (f : κ → α → β) : Roster κ β where
  entries := r.entries.map fun e => (e.1, f e.1 e.2)
  nodup := by simpa [Function.comp_def] using r.nodup

@[simp] theorem map_id (r : Roster κ α) : (r.map fun _ x => x) = r := by
  simp [map]

@[simp] theorem map_map (r : Roster κ α) (f : κ → α → β) (g : κ → β → γ) :
    (r.map f).map g = r.map fun k x => g k (f k x) := by
  simp [map]

theorem filterMap_map (r : Roster κ α) (f : α → β) (g : β → Option γ) :
    (r.map fun _ x => f x).filterMap g = r.filterMap fun x => g (f x) := by
  simp [map, filterMap]

variable [DecidableEq κ]

theorem lookup_eq_some_iff {k : κ} {x : α} {es : List (κ × α)} (hn : (es.map Prod.fst).Nodup) :
    lookup k es = some x ↔ (k, x) ∈ es := by
  induction es with
  | nil => simp [lookup]
  | cons e es ih =>
      obtain ⟨k', x'⟩ := e
      obtain ⟨hk, hn⟩ := List.nodup_cons.mp hn
      by_cases h : k' = k
      · subst h
        have hx : (k', x) ∉ es := fun hm => hk (List.mem_map.mpr ⟨_, hm, rfl⟩)
        simp [lookup, hx, eq_comm]
      · have h' : ¬ k = k' := fun e => h e.symm
        simp [lookup, h, h', ih hn]

theorem mem_entries_iff {r : Roster κ α} {k : κ} {x : α} : (k, x) ∈ r.entries ↔ r.get? k = some x :=
  (lookup_eq_some_iff r.nodup).symm

theorem mem_keys_iff {r : Roster κ α} {k : κ} : k ∈ r.keys ↔ ∃ x, r.get? k = some x := by
  simp [keys, ← mem_entries_iff]

/-- The listed pairs in terms of the keys and what these hold. -/
theorem flatMap_entries (r : Roster κ α) (f : κ → α → List β) :
    r.entries.flatMap (fun e => f e.1 e.2) =
      r.keys.flatMap fun k => ((r.get? k).map (f k)).getD [] := by
  rw [keys, List.flatMap_map]
  refine List.flatMap_congr fun e he => ?_
  rw [mem_entries_iff.mp he]
  rfl

theorem get?_filterMap (r : Roster κ α) (f : α → Option β) (k : κ) :
    (r.filterMap f).get? k = (r.get? k).bind f := by
  ext y
  rw [← mem_entries_iff, Option.bind_eq_some_iff]
  simp only [filterMap, List.mem_filterMap, Option.map_eq_some_iff, Prod.mk.injEq]
  constructor
  · rintro ⟨⟨k', x⟩, hm, y', hy, rfl, rfl⟩
    exact ⟨x, mem_entries_iff.mp hm, hy⟩
  · rintro ⟨x, hx, hy⟩
    exact ⟨(k, x), mem_entries_iff.mpr hx, y, hy, rfl, rfl⟩

theorem map_congr {r : Roster κ α} {f g : κ → α → β}
    (h : ∀ k x, r.get? k = some x → f k x = g k x) : r.map f = r.map g := by
  have he : (r.entries.map fun e => (e.1, f e.1 e.2)) = r.entries.map fun e => (e.1, g e.1 e.2) :=
    List.map_congr_left fun e he => by rw [h e.1 e.2 (mem_entries_iff.mp he)]
  simp only [map, he]

theorem get?_map (r : Roster κ α) (f : κ → α → β) (k : κ) :
    (r.map f).get? k = (r.get? k).map (f k) := by
  show lookup k (r.entries.map fun e => (e.1, f e.1 e.2)) = (lookup k r.entries).map (f k)
  induction r.entries with
  | nil => rfl
  | cons e es ih =>
      rw [List.map_cons, lookup, lookup, ih]
      split
      · next h => rw [← h, Option.map_some]
      · rfl

theorem place_map (f : κ → α → β) (k : κ) (x : α) (es : List (κ × α)) :
    place k (f k x) (es.map fun e => (e.1, f e.1 e.2)) =
      (place k x es).map fun e => (e.1, f e.1 e.2) := by
  induction es with
  | nil => rfl
  | cons e es ih =>
      rw [List.map_cons, place, place, ih]
      split <;> rfl

theorem map_set (r : Roster κ α) (k : κ) (x : α) (f : κ → α → β) :
    (r.set k x).map f = (r.map f).set k (f k x) := by
  simp only [map, set, place_map]

theorem place_eq_map {k : κ} (x : α) {es : List (κ × α)} (hn : (es.map Prod.fst).Nodup)
    (hk : k ∈ es.map Prod.fst) :
    place k x es = es.map fun e => (e.1, if e.1 = k then x else e.2) := by
  induction es with
  | nil => cases hk
  | cons e es ih =>
      obtain ⟨he, hn⟩ := List.nodup_cons.mp hn
      rw [place, List.map_cons]
      by_cases h : e.1 = k
      · -- the key is not listed again, so the rest stays
        have hes : (es.map fun e => (e.1, if e.1 = k then x else e.2)) = es := by
          refine (List.map_congr_left fun e' he' => ?_).trans es.map_id
          have hne : e'.1 ≠ k := fun h' => he (List.mem_map.mpr ⟨e', he', h'.trans h.symm⟩)
          rw [if_neg hne, id]
        rw [if_pos h, if_pos h, hes, h]
      · have hk' : k ∈ es.map Prod.fst := by
          rcases List.mem_cons.mp hk with hk | hk
          · exact absurd hk.symm h
          · exact hk
        rw [if_neg h, if_neg h, ih hn hk']

/-- Setting a key that is listed changes what is in its place. -/
theorem set_eq_map {r : Roster κ α} {k : κ} (hk : k ∈ r.keys) (x : α) :
    r.set k x = r.map fun k' x' => if k' = k then x else x' := by
  simp only [set, map, place_eq_map x r.nodup hk]

/-- Setting a key to what it holds changes nothing. -/
theorem set_eq_self {r : Roster κ α} {k : κ} {x : α} (h : r.get? k = some x) : r.set k x = r := by
  rw [set_eq_map (mem_keys_iff.mpr ⟨x, h⟩)]
  refine (map_congr fun k' x' h' => ?_).trans r.map_id
  split
  · next hk =>
    rw [hk, h] at h'
    exact Option.some.inj h'
  · rfl

end Roster

namespace MemberMap

/-- What a name holds after the listed members were added one by one. -/
theorem get?_foldl (es : List (String × ValueSet)) (hn : (es.map Prod.fst).Nodup) (m : MemberMap)
    (name : String) :
    (es.foldl (fun m (name, types) => m.set name ((m.get? name).getD ∅ ∪ types)) m).get? name =
      match Roster.lookup name es with
      | none => m.get? name
      | some types => some ((m.get? name).getD ∅ ∪ types) := by
  induction es generalizing m with
  | nil => rfl
  | cons e es ih =>
      obtain ⟨name', types⟩ := e
      obtain ⟨hk, hn⟩ := List.nodup_cons.mp hn
      rw [List.foldl_cons, ih hn, Roster.get?_set, Roster.lookup]
      by_cases h : name' = name
      · subst h
        have hl : Roster.lookup name' es = none := by
          refine Option.eq_none_iff_forall_ne_some.mpr fun x hx => hk ?_
          exact List.mem_map.mpr ⟨_, (Roster.lookup_eq_some_iff hn).mp hx, rfl⟩
        simp [hl]
      · simp [h]

/-- **Merging unites what a name holds in either map.** -/
theorem get?_merge (m n : MemberMap) (name : String) :
    (m.merge n).get? name =
      match n.get? name with
      | none => m.get? name
      | some types => some ((m.get? name).getD ∅ ∪ types) :=
  get?_foldl n.entries n.nodup m name

theorem getD_get?_merge (m n : MemberMap) (name : String) :
    ((m.merge n).get? name).getD ∅ = (m.get? name).getD ∅ ∪ (n.get? name).getD ∅ := by
  rw [get?_merge]
  cases n.get? name <;> simp

theorem mem_keys_merge {m n : MemberMap} {name : String} :
    name ∈ (m.merge n).keys ↔ name ∈ m.keys ∨ name ∈ n.keys := by
  simp only [Roster.mem_keys_iff, get?_merge]
  cases n.get? name <;> simp

end MemberMap

end Prototypal
