/-!
# Prototypal — Roster

Keyed collections whose order is that of first arrival (`Roster`): setting a key that is present
keeps its place, a new key goes to the end, and no key is listed twice.

Main statements: what a key holds after a setting (`Roster.get?_set`), and that the keys are the old
ones followed by the new one, if it is new (`Roster.keys_set`).
-/

namespace Prototypal

variable {κ α β : Type}

/-- Keys with what they hold, in the order in which the keys first arrived. -/
structure Roster (κ α : Type) where
  entries : List (κ × α)
  nodup : (entries.map Prod.fst).Nodup
deriving DecidableEq

namespace Roster

/-- The keys in order of arrival. -/
def keys (r : Roster κ α) : List κ := r.entries.map Prod.fst

/-- The roster without keys. -/
def empty : Roster κ α := ⟨[], List.nodup_nil⟩

instance : EmptyCollection (Roster κ α) := ⟨empty⟩

instance : Inhabited (Roster κ α) := ⟨empty⟩

/-- The number of keys. -/
def size (r : Roster κ α) : Nat := r.entries.length

def isEmpty (r : Roster κ α) : Bool := r.entries.isEmpty

/-- The listed pairs whose data `f` maps to something, with that in its place. -/
def filterMap (r : Roster κ α) (f : α → Option β) : Roster κ β where
  entries := r.entries.filterMap fun e => (f e.2).map (e.1, ·)
  nodup := by
    refine List.Sublist.nodup ?_ r.nodup
    induction r.entries with
    | nil => exact .slnil
    | cons e es ih =>
      cases h : f e.2 with
      | none => simpa [h] using ih.cons e.1
      | some b => simpa [h] using ih

variable [DecidableEq κ]

/-- What `k` holds in a list of pairs. -/
def lookup (k : κ) : List (κ × α) → Option α
  | [] => none
  | (k', a) :: es => if k' = k then some a else lookup k es

/-- The list with `a` under `k`, in the place of `k` if it has one. -/
def place (k : κ) (a : α) : List (κ × α) → List (κ × α)
  | [] => [(k, a)]
  | (k', a') :: es => if k' = k then (k, a) :: es else (k', a') :: place k a es

theorem map_fst_place (k : κ) (a : α) (es : List (κ × α)) :
    (place k a es).map Prod.fst =
      if k ∈ es.map Prod.fst then es.map Prod.fst else es.map Prod.fst ++ [k] := by
  induction es with
  | nil => simp [place]
  | cons e es ih =>
    by_cases h : e.1 = k
    · simp [place, h]
    · have h' : ¬ k = e.1 := fun e' => h e'.symm
      simp only [place, h, if_false, List.map_cons, ih, List.mem_cons, h', false_or]
      split <;> simp

/-- What `k` holds. -/
def get? (r : Roster κ α) (k : κ) : Option α := lookup k r.entries

def contains (r : Roster κ α) (k : κ) : Bool := (r.get? k).isSome

/-- The roster in which `k` holds `a`. -/
def set (r : Roster κ α) (k : κ) (a : α) : Roster κ α where
  entries := place k a r.entries
  nodup := by
    have h := r.nodup
    rw [map_fst_place]
    split
    · exact h
    · next hk => exact List.nodup_append.2 ⟨h, by simp, by grind⟩

@[simp] theorem keys_set (r : Roster κ α) (k : κ) (a : α) :
    (r.set k a).keys = if k ∈ r.keys then r.keys else r.keys ++ [k] :=
  map_fst_place k a r.entries

theorem get?_set (r : Roster κ α) (k k' : κ) (a : α) :
    (r.set k a).get? k' = if k = k' then some a else r.get? k' := by
  obtain ⟨es, _⟩ := r
  simp only [get?, set]
  induction es with
  | nil => simp [place, lookup]
  | cons e es ih =>
    specialize ih (by simp_all)
    by_cases h : e.1 = k
    · by_cases h' : k = k' <;> simp [place, lookup, h, h']
    · by_cases h' : e.1 = k' <;> simp_all [place, lookup]
      grind

end Roster

end Prototypal
