/-!
# Prototypal — Value — Set

Values are known by their identity alone (`ValueId`), and what an expression may evaluate to is a
finite set of identities (`ValueSet`).  A set is the array of its members in strictly ascending
order, so two sets with the same members are the same set, growth shows as a larger size, and
walking a set has one order.

The operations are given on arrays first: two arrays are merged (`ValueId.unite`), a value is put
where the binary search points (`ValueId.place`), a list is sorted and rid of repetitions
(`ValueId.arrange`).  Each keeps the order strict, which makes it an operation on sets.

Main statements: membership in a union is membership in either side (`ValueSet.mem_union`),
collecting a list keeps exactly its elements (`ValueSet.mem_ofList`), and the binary search decides
membership (`ValueSet.contains_iff`).
-/

namespace Prototypal

/-- The identity of a value: its position in the store it was created in. -/
structure ValueId where
  index : Nat
deriving DecidableEq, Repr, Inhabited

namespace ValueId

instance : LT ValueId := ⟨fun a b => a.index < b.index⟩

theorem lt_def {a b : ValueId} : a < b ↔ a.index < b.index := Iff.rfl

instance (a b : ValueId) : Decidable (a < b) := inferInstanceAs (Decidable (a.index < b.index))

theorem eq_of_not_lt {a b : ValueId} (h : ¬ a < b) (h' : ¬ b < a) : a = b := by
  cases a; cases b
  simp only [lt_def, mk.injEq] at *
  omega

theorem lt_trans {a b c : ValueId} (h : a < b) (h' : b < c) : a < c := Nat.lt_trans h h'

theorem lt_irrefl (a : ValueId) : ¬ a < a := Nat.lt_irrefl _

/-- Merges two ascending lists into one, keeping one copy of what both hold. -/
def merge : List ValueId → List ValueId → List ValueId
  | [], ys => ys
  | x :: xs, [] => x :: xs
  | x :: xs, y :: ys =>
    if x < y then x :: merge xs (y :: ys)
    else if y < x then y :: merge (x :: xs) ys
    else x :: merge xs ys
termination_by xs ys => xs.length + ys.length

theorem mem_merge {v : ValueId} (xs ys : List ValueId) : v ∈ merge xs ys ↔ v ∈ xs ∨ v ∈ ys := by
  fun_induction merge xs ys with
  | case1 ys => simp
  | case2 x xs => simp
  | case3 x xs y ys _ ih => simp [ih, or_assoc]
  | case4 x xs y ys _ _ ih => simp only [List.mem_cons, ih]; grind
  | case5 x xs y ys h h' ih => simp only [List.mem_cons, ih, eq_of_not_lt h h']; grind

theorem pairwise_merge (xs ys : List ValueId) (hx : xs.Pairwise (· < ·))
    (hy : ys.Pairwise (· < ·)) : (merge xs ys).Pairwise (· < ·) := by
  fun_induction merge xs ys with
  | case1 ys => exact hy
  | case2 x xs => exact hx
  | case3 x xs y ys h ih =>
    refine List.pairwise_cons.2 ⟨fun v hv => ?_, ih hx.of_cons hy⟩
    rcases (mem_merge _ _).1 hv with hv | hv
    · exact List.rel_of_pairwise_cons hx hv
    · rcases List.mem_cons.1 hv with rfl | hv
      · exact h
      · exact lt_trans h (List.rel_of_pairwise_cons hy hv)
  | case4 x xs y ys _ h ih =>
    refine List.pairwise_cons.2 ⟨fun v hv => ?_, ih hx hy.of_cons⟩
    rcases (mem_merge _ _).1 hv with hv | hv
    · rcases List.mem_cons.1 hv with rfl | hv
      · exact h
      · exact lt_trans h (List.rel_of_pairwise_cons hx hv)
    · exact List.rel_of_pairwise_cons hy hv
  | case5 x xs y ys h h' ih =>
    refine List.pairwise_cons.2 ⟨fun v hv => ?_, ih hx.of_cons hy.of_cons⟩
    rcases (mem_merge _ _).1 hv with hv | hv
    · exact List.rel_of_pairwise_cons hx hv
    · exact eq_of_not_lt h h' ▸ List.rel_of_pairwise_cons hy hv

/-- The values of two ascending arrays.  Nothing is merged where one has nothing to add. -/
def unite (xs ys : Array ValueId) : Array ValueId :=
  if ys.isEmpty || xs = ys then xs
  else if xs.isEmpty then ys
  else (merge xs.toList ys.toList).toArray

theorem mem_unite {v : ValueId} {xs ys : Array ValueId} : v ∈ unite xs ys ↔ v ∈ xs ∨ v ∈ ys := by
  unfold unite
  split
  · next h =>
    rw [Bool.or_eq_true, Array.isEmpty_iff, decide_eq_true_eq] at h
    rcases h with rfl | rfl <;> simp
  · split
    · next h => simp [Array.isEmpty_iff.mp h]
    · rw [List.mem_toArray, mem_merge, Array.mem_toList_iff, Array.mem_toList_iff]

theorem pairwise_unite {xs ys : Array ValueId} (hx : xs.toList.Pairwise (· < ·))
    (hy : ys.toList.Pairwise (· < ·)) : (unite xs ys).toList.Pairwise (· < ·) := by
  unfold unite
  split
  · exact hx
  · split
    · exact hy
    · exact pairwise_merge _ _ hx hy

/-! ### The place of a value -/

/-- The first position in `lo ≤ i < hi` whose value is not below `v`, and `hi` if there is none. -/
def lowerBound (xs : Array ValueId) (v : ValueId) (lo hi : Nat) : Nat :=
  if h : lo < hi then
    if xs.getD ((lo + hi) / 2) v < v then lowerBound xs v ((lo + hi) / 2 + 1) hi
    else lowerBound xs v lo ((lo + hi) / 2)
  else lo
termination_by hi - lo

/-- Below the lower bound values are smaller than `v`, from it on they are not. -/
theorem lowerBound_splits (xs : Array ValueId) (v : ValueId) (lo hi : Nat)
    (asc : xs.toList.Pairwise (· < ·)) (hhi : hi ≤ xs.size) (hle : lo ≤ hi)
    (below : ∀ i w, i < lo → xs[i]? = some w → w < v)
    (above : ∀ i w, hi ≤ i → xs[i]? = some w → ¬ w < v) :
    (∀ i w, i < lowerBound xs v lo hi → xs[i]? = some w → w < v) ∧
      ∀ i w, lowerBound xs v lo hi ≤ i → xs[i]? = some w → ¬ w < v := by
  have mono : ∀ (i j : Nat) (a b : ValueId),
      i < j → xs[i]? = some a → xs[j]? = some b → a < b := by
    intro i j a b hij ha hb
    obtain ⟨hi', rfl⟩ := Array.getElem?_eq_some_iff.1 ha
    obtain ⟨hj', rfl⟩ := Array.getElem?_eq_some_iff.1 hb
    exact List.pairwise_iff_getElem.1 asc i j hi' hj' hij
  fun_induction lowerBound xs v lo hi with
  | case1 lo hi h hv ih =>
    have hm : (lo + hi) / 2 < xs.size := by omega
    rw [Array.getD_eq_getD_getElem?, Array.getElem?_eq_getElem hm, Option.getD_some] at hv
    refine ih hhi (by omega) (fun i w hi' hw => ?_) above
    by_cases heq : i = (lo + hi) / 2
    · subst heq
      rw [Array.getElem?_eq_getElem hm, Option.some.injEq] at hw
      exact hw ▸ hv
    · exact lt_trans (mono _ _ _ _ (by omega) hw (Array.getElem?_eq_getElem hm)) hv
  | case2 lo hi h hv ih =>
    have hm : (lo + hi) / 2 < xs.size := by omega
    rw [Array.getD_eq_getD_getElem?, Array.getElem?_eq_getElem hm, Option.getD_some] at hv
    refine ih (by omega) (by omega) below (fun i w hi' hw hlt => ?_)
    by_cases heq : i = (lo + hi) / 2
    · subst heq
      rw [Array.getElem?_eq_getElem hm, Option.some.injEq] at hw
      exact hv (hw ▸ hlt)
    · exact hv (lt_trans (mono _ _ _ _ (by omega) (Array.getElem?_eq_getElem hm) hw) hlt)
  | case3 lo hi h =>
    obtain rfl : lo = hi := by omega
    exact ⟨below, above⟩

/-- Where `v` stands in an ascending array, or would have to be put. -/
def placeOf (xs : Array ValueId) (v : ValueId) : Nat := lowerBound xs v 0 xs.size

theorem placeOf_splits {xs : Array ValueId} (v : ValueId) (asc : xs.toList.Pairwise (· < ·)) :
    (∀ i w, i < placeOf xs v → xs[i]? = some w → w < v) ∧
      ∀ i w, placeOf xs v ≤ i → xs[i]? = some w → ¬ w < v :=
  lowerBound_splits xs v 0 xs.size asc (Nat.le_refl _) (Nat.zero_le _) (by simp)
    fun i w hi hw => by simp [Array.getElem?_eq_none hi] at hw

/-- Whether `v` stands in its place. -/
def stands (xs : Array ValueId) (v : ValueId) : Bool := xs[placeOf xs v]? == some v

theorem stands_iff {xs : Array ValueId} {v : ValueId} (asc : xs.toList.Pairwise (· < ·)) :
    stands xs v = true ↔ v ∈ xs := by
  obtain ⟨below, above⟩ := placeOf_splits v asc
  rw [stands, beq_iff_eq]
  refine ⟨fun h => Array.mem_of_getElem? h, fun h => ?_⟩
  obtain ⟨i, hi⟩ := Array.getElem?_of_mem h
  have hge : placeOf xs v ≤ i := Nat.le_of_not_lt fun hlt => lt_irrefl v (below i v hlt hi)
  rcases Nat.eq_or_lt_of_le hge with heq | hlt
  · rw [heq, hi]
  · obtain ⟨hi', hiv⟩ := Array.getElem?_eq_some_iff.1 hi
    have hb : placeOf xs v < xs.size := by omega
    have hlow := List.pairwise_iff_getElem.1 asc _ i hb hi' hlt
    rw [Array.getElem_toList, Array.getElem_toList, hiv] at hlow
    exact absurd hlow (above _ _ (Nat.le_refl _) (Array.getElem?_eq_getElem hb))

/-- Puts `v` in its place, unless it stands there. -/
def place (xs : Array ValueId) (v : ValueId) : Array ValueId :=
  if stands xs v then xs
  else (xs.toList.take (placeOf xs v) ++ v :: xs.toList.drop (placeOf xs v)).toArray

theorem mem_place {v w : ValueId} {xs : Array ValueId} (asc : xs.toList.Pairwise (· < ·)) :
    v ∈ place xs w ↔ v ∈ xs ∨ v = w := by
  unfold place
  split
  · next h => exact ⟨Or.inl, fun h' => h'.elim id fun e => e ▸ (stands_iff asc).1 h⟩
  · have hsplit : v ∈ xs ↔
        v ∈ xs.toList.take (placeOf xs w) ∨ v ∈ xs.toList.drop (placeOf xs w) := by
      rw [← List.mem_append, List.take_append_drop, Array.mem_toList_iff]
    rw [List.mem_toArray, List.mem_append, List.mem_cons, hsplit, or_right_comm, or_assoc]

theorem pairwise_place {xs : Array ValueId} (v : ValueId) (asc : xs.toList.Pairwise (· < ·)) :
    (place xs v).toList.Pairwise (· < ·) := by
  unfold place
  split
  · exact asc
  · next h =>
    obtain ⟨below, above⟩ := placeOf_splits v asc
    have hlow : ∀ w ∈ xs.toList.take (placeOf xs v), w < v := by
      intro w hw
      obtain ⟨i, hi, rfl⟩ := List.mem_take_iff_getElem.1 hw
      exact below i _ (by omega) (by rw [← Array.getElem?_toList, List.getElem?_eq_getElem])
    have hhigh : ∀ w ∈ xs.toList.drop (placeOf xs v), v < w := by
      intro w hw
      obtain ⟨i, hi, rfl⟩ := List.mem_drop_iff_getElem.1 hw
      have hnot := above (placeOf xs v + i) _ (by omega)
        (by rw [← Array.getElem?_toList, List.getElem?_eq_getElem (by omega)])
      refine Decidable.byContradiction fun hlt => h ((stands_iff asc).2 ?_)
      rw [← eq_of_not_lt hnot hlt]
      exact Array.mem_toList_iff.1 (List.getElem_mem _)
    rw [List.toList_toArray]
    refine List.pairwise_append.2 ⟨asc.sublist (List.take_sublist _ _), ?_, ?_⟩
    · exact List.pairwise_cons.2 ⟨hhigh, asc.sublist (List.drop_sublist _ _)⟩
    · intro a ha b hb
      rcases List.mem_cons.1 hb with rfl | hb
      · exact hlow a ha
      · exact lt_trans (hlow a ha) (hhigh b hb)

/-! ### Choice and order -/

/-- The values that `keep` accepts. -/
def sift (xs : Array ValueId) (keep : ValueId → Bool) : Array ValueId :=
  if xs.all keep then xs else xs.filter keep

theorem sift_eq_filter (xs : Array ValueId) (keep : ValueId → Bool) :
    sift xs keep = xs.filter keep := by
  unfold sift
  split
  · next h => exact (Array.filter_eq_self.2 (Array.all_eq_true'.1 h)).symm
  · rfl

theorem mem_sift {v : ValueId} {xs : Array ValueId} {keep : ValueId → Bool} :
    v ∈ sift xs keep ↔ v ∈ xs ∧ keep v = true := by
  rw [sift_eq_filter, Array.mem_filter]

theorem pairwise_sift {xs : Array ValueId} (keep : ValueId → Bool)
    (asc : xs.toList.Pairwise (· < ·)) : (sift xs keep).toList.Pairwise (· < ·) := by
  rw [sift_eq_filter, Array.toList_filter]
  exact asc.filter keep

/-- Puts `v` before the first value of an ascending list that is not below it. -/
def sortIn (v : ValueId) : List ValueId → List ValueId
  | [] => [v]
  | w :: ws => if w < v then w :: sortIn v ws else v :: w :: ws

/-- The listed values in ascending order. -/
def sorted (vs : List ValueId) : List ValueId := vs.foldr sortIn []

theorem mem_sortIn {v w : ValueId} (vs : List ValueId) : v ∈ sortIn w vs ↔ v = w ∨ v ∈ vs := by
  fun_induction sortIn w vs with
  | case1 => simp
  | case2 x ws _ ih => rw [List.mem_cons, ih, List.mem_cons, or_left_comm]
  | case3 x ws _ => exact List.mem_cons

theorem pairwise_sortIn (v : ValueId) (vs : List ValueId) (h : vs.Pairwise (¬ · > ·)) :
    (sortIn v vs).Pairwise (¬ · > ·) := by
  fun_induction sortIn v vs with
  | case1 => exact List.pairwise_singleton _ v
  | case2 w ws hlt ih =>
    refine List.pairwise_cons.2 ⟨fun x hx hgt => ?_, ih h.of_cons⟩
    rcases (mem_sortIn ws).1 hx with rfl | hx
    · exact lt_irrefl _ (lt_trans hlt hgt)
    · exact List.rel_of_pairwise_cons h hx hgt
  | case3 w ws hnot =>
    refine List.pairwise_cons.2 ⟨fun x hx hgt => ?_, h⟩
    rcases List.mem_cons.1 hx with rfl | hx
    · exact hnot hgt
    · exact List.rel_of_pairwise_cons h hx (Nat.lt_of_lt_of_le hgt (Nat.le_of_not_lt hnot))

theorem mem_sorted {v : ValueId} (vs : List ValueId) : v ∈ sorted vs ↔ v ∈ vs := by
  induction vs with
  | nil => exact Iff.rfl
  | cons w vs ih => rw [sorted, List.foldr_cons, mem_sortIn, ← sorted, ih, List.mem_cons]

theorem pairwise_sorted (vs : List ValueId) : (sorted vs).Pairwise (¬ · > ·) := by
  induction vs with
  | nil => exact .nil
  | cons w vs ih => exact pairwise_sortIn w _ ih

/-- Leaves out each value that equals the next one. -/
def dropRepeats : List ValueId → List ValueId
  | v :: w :: vs => if v = w then dropRepeats (w :: vs) else v :: dropRepeats (w :: vs)
  | vs => vs

theorem mem_dropRepeats {v : ValueId} (vs : List ValueId) : v ∈ dropRepeats vs ↔ v ∈ vs := by
  fun_induction dropRepeats vs with
  | case1 w vs ih => rw [ih]; simp
  | case2 w x vs _ ih => rw [List.mem_cons, ih, ← List.mem_cons]
  | case3 vs => rfl

theorem pairwise_dropRepeats (vs : List ValueId) (h : vs.Pairwise (¬ · > ·)) :
    (dropRepeats vs).Pairwise (· < ·) := by
  fun_induction dropRepeats vs with
  | case1 w vs ih => exact ih h.of_cons
  | case2 v w vs hne ih =>
    refine List.pairwise_cons.2 ⟨fun x hx => ?_, ih h.of_cons⟩
    have hle : ¬ v > w := List.rel_of_pairwise_cons h List.mem_cons_self
    have hlt : v < w := Decidable.byContradiction fun hge => hne (eq_of_not_lt hge hle)
    rcases List.mem_cons.1 ((mem_dropRepeats _).1 hx) with rfl | hx
    · exact hlt
    · exact Nat.lt_of_lt_of_le hlt (Nat.le_of_not_lt (List.rel_of_pairwise_cons h.of_cons hx))
  | case3 vs hs =>
    match vs with
    | [] => exact .nil
    | [v] => exact List.pairwise_singleton _ v
    | v :: w :: vs => exact absurd rfl (hs v w vs)

/-- The listed values in order, each once. -/
def arrange (vs : List ValueId) : Array ValueId := (dropRepeats (sorted vs)).toArray

theorem mem_arrange {v : ValueId} {vs : List ValueId} : v ∈ arrange vs ↔ v ∈ vs := by
  rw [arrange, List.mem_toArray, mem_dropRepeats, mem_sorted]

theorem pairwise_arrange (vs : List ValueId) : (arrange vs).toList.Pairwise (· < ·) :=
  pairwise_dropRepeats _ (pairwise_sorted vs)

end ValueId

/-- A finite set of values: its members in strictly ascending order. -/
structure ValueSet where
  elems : Array ValueId
  ascending : elems.toList.Pairwise (· < ·)
deriving DecidableEq

namespace ValueSet

/-- The members in ascending order. -/
def toList (s : ValueSet) : List ValueId := s.elems.toList

instance : Membership ValueId ValueSet := ⟨fun s v => v ∈ s.toList⟩

theorem mem_def {v : ValueId} {s : ValueSet} : v ∈ s ↔ v ∈ s.toList := Iff.rfl

theorem mem_elems {v : ValueId} {s : ValueSet} : v ∈ s.elems ↔ v ∈ s := Array.mem_toList_iff.symm

/-- The set without members. -/
def empty : ValueSet := ⟨#[], List.Pairwise.nil⟩

instance : EmptyCollection ValueSet := ⟨empty⟩

instance : Inhabited ValueSet := ⟨empty⟩

/-- The set of one member. -/
def singleton (v : ValueId) : ValueSet := ⟨#[v], List.pairwise_singleton _ v⟩

/-- The number of members. -/
def size (s : ValueSet) : Nat := s.elems.size

def isEmpty (s : ValueSet) : Bool := s.elems.isEmpty

/-- The least member. -/
def first? (s : ValueSet) : Option ValueId := s.elems[0]?

/-- Whether `v` is a member, by binary search. -/
def contains (s : ValueSet) (v : ValueId) : Bool := ValueId.stands s.elems v

/-- The members of either set. -/
def union (s t : ValueSet) : ValueSet :=
  ⟨ValueId.unite s.elems t.elems, ValueId.pairwise_unite s.ascending t.ascending⟩

instance : Union ValueSet := ⟨union⟩

/-- The members of any of the sets. -/
def unionAll (sets : List ValueSet) : ValueSet := sets.foldl union ∅

/-- The set with `v` added. -/
def insert (s : ValueSet) (v : ValueId) : ValueSet :=
  ⟨ValueId.place s.elems v, ValueId.pairwise_place v s.ascending⟩

/-- The members that `keep` accepts. -/
def filter (s : ValueSet) (keep : ValueId → Bool) : ValueSet :=
  ⟨ValueId.sift s.elems keep, ValueId.pairwise_sift keep s.ascending⟩

/-- The set of the listed values, in whatever order and however often they are listed. -/
def ofList (vs : List ValueId) : ValueSet := ⟨ValueId.arrange vs, ValueId.pairwise_arrange vs⟩

/-- Whether every member of `s` is one of `t`; a larger set is none of a smaller one. -/
def isSubset (s t : ValueSet) : Bool := s.size ≤ t.size && s.elems.all t.contains

@[simp] theorem toList_empty : (∅ : ValueSet).toList = [] := rfl

@[simp] theorem not_mem_empty (v : ValueId) : v ∉ (∅ : ValueSet) := by simp [mem_def]

@[simp] theorem mem_singleton {v w : ValueId} : v ∈ singleton w ↔ v = w := by
  simp [mem_def, toList, singleton]

theorem contains_iff {s : ValueSet} {v : ValueId} : s.contains v = true ↔ v ∈ s :=
  (ValueId.stands_iff s.ascending).trans mem_elems

@[simp] theorem mem_union {v : ValueId} {s t : ValueSet} : v ∈ s ∪ t ↔ v ∈ s ∨ v ∈ t := by
  rw [← mem_elems, ← mem_elems, ← mem_elems]
  exact ValueId.mem_unite

@[simp] theorem mem_insert {v w : ValueId} {s : ValueSet} : v ∈ s.insert w ↔ v ∈ s ∨ v = w := by
  rw [← mem_elems, ← mem_elems]
  exact ValueId.mem_place s.ascending

@[simp] theorem mem_filter {v : ValueId} {s : ValueSet} {keep : ValueId → Bool} :
    v ∈ s.filter keep ↔ v ∈ s ∧ keep v = true := by
  rw [← mem_elems, ← mem_elems]
  exact ValueId.mem_sift

@[simp] theorem mem_ofList {v : ValueId} {vs : List ValueId} : v ∈ ofList vs ↔ v ∈ vs := by
  rw [← mem_elems]
  exact ValueId.mem_arrange

end ValueSet

end Prototypal
