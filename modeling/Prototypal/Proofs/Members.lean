import Mathlib.Data.List.Forall2
import Prototypal.Settings.Json.Record
import Prototypal.Proofs.Skipping

/-!
# Prototypal — Proofs — Members

What a record takes from the members of an object, said without an order.

The fields of a record are slots of it (`RecordSlot`): each holds a value of its own, and setting
one leaves the others alone (`RecordLayout`).  A member whose name is that of a slot sets it, at
most once; members of other names set nothing; a slot without a member keeps what the record starts
from (`RecordLayout.Completes`).  The reader goes from member to member, and what it has left to do
is again a completion, from the names and the record so far; so one step of the reader is one step
of the relation.

* `readRecord_object`: an object gives a record just if its members complete what the record starts
  from to it.
-/

namespace Prototypal.Json

variable {ρ : Type}

/-! ### Slots -/

/-- A slot of a record: its name, the value it holds, and what the values of JSON say of it. -/
structure RecordSlot (ρ : Type) where
  name : String
  Value : Type
  get : ρ → Value
  set : Value → ρ → ρ
  Says : Tree → Value → Prop
  get_set : ∀ x a, get (set x a) = x

/-- The slots that make up a record. -/
structure RecordLayout (ρ : Type) where
  slots : List (RecordSlot ρ)
  eq_of_name : ∀ p ∈ slots, ∀ q ∈ slots, p.name = q.name → p = q
  frame : ∀ p ∈ slots, ∀ q ∈ slots, p.name ≠ q.name → ∀ x a, q.get (p.set x a) = q.get a
  ext : ∀ {a b}, (∀ p ∈ slots, p.get a = p.get b) → a = b

/-- What the members of one name give: `start` if there is none, and if there is one what its value
says. -/
inductive Settles {α : Type} (name : String) (Says : Tree → α → Prop) (start : α) :
    List (List Char × Tree) → α → Prop where
  | absent {ms : List (List Char × Tree)} (h : ∀ m ∈ ms, ¬ Denotes m.1 name.toList) :
      Settles name Says start ms start
  | present {l r : List (List Char × Tree)} {key : List Char} {t : Tree} {x : α}
      (hkey : Denotes key name.toList) (h : Says t x)
      (hothers : ∀ m ∈ l ++ r, ¬ Denotes m.1 name.toList) :
      Settles name Says start (l ++ (key, t) :: r) x

namespace Settles

variable {α : Type} {name : String} {Says : Tree → α → Prop} {start x : α}
  {ms : List (List Char × Tree)} {m : List Char × Tree}

theorem absent_iff (h : ∀ m ∈ ms, ¬ Denotes m.1 name.toList) :
    Settles name Says start ms x ↔ x = start := by
  refine ⟨fun hs => ?_, fun hx => hx ▸ .absent h⟩
  cases hs with
  | absent => rfl
  | present hkey => exact absurd hkey (h _ (List.mem_append_right _ List.mem_cons_self))

theorem cons_of_denotes (hm : Denotes m.1 name.toList) :
    Settles name Says start (m :: ms) x ↔
      Says m.2 x ∧ ∀ m' ∈ ms, ¬ Denotes m'.1 name.toList := by
  constructor
  · intro h
    generalize hl : m :: ms = l at h
    cases h with
    | absent h => exact absurd hm (h m (hl ▸ List.mem_cons_self))
    | @present l₁ l₂ key t _ hkey h hothers =>
      cases l₁ with
      | nil =>
        obtain ⟨rfl, rfl⟩ := List.cons.inj hl
        exact ⟨h, hothers⟩
      | cons m' l₁ =>
        obtain ⟨rfl, -⟩ := List.cons.inj hl
        exact absurd hm (hothers m (by simp))
  · rintro ⟨h, hothers⟩
    exact .present (l := []) hm h hothers

theorem cons_of_not_denotes (hm : ¬ Denotes m.1 name.toList) :
    Settles name Says start (m :: ms) x ↔ Settles name Says start ms x := by
  constructor
  · intro h
    generalize hl : m :: ms = l at h
    cases h with
    | absent h =>
      subst hl
      exact .absent fun m' hm' => h m' (List.mem_cons_of_mem _ hm')
    | @present l₁ l₂ key t _ hkey h hothers =>
      cases l₁ with
      | nil =>
        obtain ⟨rfl, -⟩ := List.cons.inj hl
        exact absurd hkey hm
      | cons m' l₁ =>
        obtain ⟨rfl, rfl⟩ := List.cons.inj hl
        exact .present hkey h fun m' hm' => hothers m' (List.mem_cons_of_mem _ hm')
  · intro h
    cases h with
    | absent h => exact .absent (List.forall_mem_cons.mpr ⟨hm, h⟩)
    | @present l₁ l₂ key t _ hkey h hothers =>
      exact .present (l := m :: l₁) hkey h (List.forall_mem_cons.mpr ⟨hm, hothers⟩)

end Settles

/-! ### One slot -/

namespace RecordSlot

variable {p : RecordSlot ρ} {seen : List String} {start x : p.Value} {ms : List (List Char × Tree)}
  {key : List Char} {t : Tree} {name : String}

/-- What the members give to a slot that holds `start`, after members of the names `seen`. -/
def Takes (p : RecordSlot ρ) (seen : List String) (start : p.Value) (ms : List (List Char × Tree))
    (x : p.Value) : Prop :=
  Settles p.name p.Says start ms x ∧
    (p.name ∈ seen → ∀ m ∈ ms, ¬ Denotes m.1 p.name.toList)

theorem takes_nil : p.Takes seen start [] x ↔ x = start := by
  simp [Takes, Settles.absent_iff]

theorem takes_of_mem (h : p.name ∈ seen) :
    p.Takes seen start ms x ↔ x = start ∧ ∀ m ∈ ms, ¬ Denotes m.1 p.name.toList := by
  constructor
  · rintro ⟨hs, hm⟩
    exact ⟨(Settles.absent_iff (hm h)).mp hs, hm h⟩
  · rintro ⟨rfl, hm⟩
    exact ⟨.absent hm, fun _ => hm⟩

/-- A member of its name sets a slot for good. -/
theorem takes_cons_self (hkey : Denotes key p.name.toList) :
    p.Takes seen start ((key, t) :: ms) x ↔
      p.name ∉ seen ∧ ∃ y, p.Says t y ∧ p.Takes (p.name :: seen) y ms x := by
  simp only [takes_of_mem List.mem_cons_self]
  constructor
  · rintro ⟨hs, hm⟩
    obtain ⟨h, hothers⟩ := (Settles.cons_of_denotes hkey).mp hs
    exact ⟨fun hseen => hm hseen _ List.mem_cons_self hkey, x, h, rfl, hothers⟩
  · rintro ⟨hseen, _, h, rfl, hothers⟩
    exact ⟨(Settles.cons_of_denotes hkey).mpr ⟨h, hothers⟩, fun h => absurd h hseen⟩

/-- A member of another name is nothing to a slot. -/
theorem takes_cons_other (hkey : Denotes key name.toList) (hname : p.name ≠ name) :
    p.Takes seen start ((key, t) :: ms) x ↔ p.Takes (name :: seen) start ms x := by
  have hother : ¬ Denotes key p.name.toList := fun h =>
    hname (String.toList_inj.mp (h.unique hkey))
  have hseen : p.name ∈ name :: seen ↔ p.name ∈ seen := by simp [hname]
  have hall : (∀ m ∈ (key, t) :: ms, ¬ Denotes m.1 p.name.toList) ↔
      ∀ m ∈ ms, ¬ Denotes m.1 p.name.toList := by
    rw [List.forall_mem_cons]
    exact and_iff_right hother
  rw [Takes, Takes, hseen, hall, Settles.cons_of_not_denotes hother]

end RecordSlot

/-! ### Completion -/

namespace RecordLayout

variable {L : RecordLayout ρ} {seen : List String} {acc a : ρ} {ms : List (List Char × Tree)}

/-- The members complete `acc` to `a`, after members of the names `seen`. -/
structure Completes (L : RecordLayout ρ) (seen : List String) (acc : ρ)
    (ms : List (List Char × Tree)) (a : ρ) : Prop where
  named : ∀ m ∈ ms, ∃ name : String, Denotes m.1 name.toList
  takes : ∀ p ∈ L.slots, p.Takes seen (p.get acc) ms (p.get a)

/-- How a member changes a record, after members of the names `seen`. -/
inductive Turns (L : RecordLayout ρ) (seen : List String) (name : String) (t : Tree) :
    (ρ → ρ) → Prop where
  | slot {p : RecordSlot ρ} {x : p.Value} (hp : p ∈ L.slots) (hname : p.name = name)
      (hseen : name ∉ seen) (h : p.Says t x) : Turns L seen name t (p.set x)
  | other (h : ∀ p ∈ L.slots, p.name ≠ name) : Turns L seen name t id

theorem completes_nil : L.Completes seen acc [] a ↔ a = acc := by
  constructor
  · intro h
    exact L.ext fun p hp => RecordSlot.takes_nil.mp (h.takes p hp)
  · rintro rfl
    exact ⟨by simp, fun p _ => RecordSlot.takes_nil.mpr rfl⟩

/-- **One member**: what it leaves to complete. -/
theorem completes_cons {key : List Char} {t : Tree} :
    L.Completes seen acc ((key, t) :: ms) a ↔
      ∃ name change, Denotes key (String.toList name) ∧ L.Turns seen name t change ∧
        L.Completes (name :: seen) (change acc) ms a := by
  constructor
  · rintro ⟨hnamed, htakes⟩
    obtain ⟨⟨name, hkey⟩, hnamed⟩ := List.forall_mem_cons.mp hnamed
    -- the slot of that name, if there is one, is set for good, and the others are left alone
    by_cases hslot : ∃ p ∈ L.slots, p.name = name
    · obtain ⟨p, hp, rfl⟩ := hslot
      obtain ⟨hseen, x, hx, hrest⟩ := (RecordSlot.takes_cons_self hkey).mp (htakes p hp)
      refine ⟨p.name, p.set x, hkey, .slot hp rfl hseen hx, hnamed, fun q hq => ?_⟩
      by_cases hpq : p.name = q.name
      · obtain rfl := L.eq_of_name p hp q hq hpq
        rwa [p.get_set]
      · rw [L.frame p hp q hq hpq]
        exact (RecordSlot.takes_cons_other hkey (Ne.symm hpq)).mp (htakes q hq)
    · have hother : ∀ p ∈ L.slots, p.name ≠ name := fun p hp h => hslot ⟨p, hp, h⟩
      exact ⟨name, id, hkey, .other hother, hnamed, fun q hq =>
        (RecordSlot.takes_cons_other hkey (hother q hq)).mp (htakes q hq)⟩
  · rintro ⟨name, change, hkey, hturns, hnamed, htakes⟩
    refine ⟨List.forall_mem_cons.mpr ⟨⟨name, hkey⟩, hnamed⟩, fun q hq => ?_⟩
    cases hturns with
    | @slot p x hp hname hseen hx =>
      subst hname
      have hq' := htakes q hq
      by_cases hpq : p.name = q.name
      · obtain rfl := L.eq_of_name p hp q hq hpq
        rw [p.get_set] at hq'
        exact (RecordSlot.takes_cons_self hkey).mpr ⟨hseen, x, hx, hq'⟩
      · rw [L.frame p hp q hq hpq] at hq'
        exact (RecordSlot.takes_cons_other hkey (Ne.symm hpq)).mpr hq'
    | other hother => exact (RecordSlot.takes_cons_other hkey (hother q hq)).mpr (htakes q hq)

end RecordLayout

/-! ### Members in a text -/

/-- What stands before a member: a comma and a gap, except before the first. -/
inductive Lead : Bool → List Char → Prop where
  | first : Lead true []
  | next {g : List Char} (hg : Dialect.strict.Gap g) : Lead false (',' :: g)

theorem Lead.not_closing {first : Bool} {lead g : List Char} (hlead : Lead first lead)
    (hg : Dialect.strict.Gap g) (s r : List Char) :
    skipSpace (g ++ (lead ++ '"' :: s)) ≠ '\x7d' :: r := by
  rw [skipSpace_gap hg]
  cases hlead <;> simp [skipSpace, isSpace]

/-- The text of the members up to the closing bracket, from the first one on or from behind a
member. -/
inductive Lists : Bool → List (List Char × Tree) → List Char → Prop where
  | done {first : Bool} {g : List Char} (hg : Dialect.strict.Gap g) : Lists first [] g
  | member {first : Bool} {g lead key g₁ g₂ v s : List Char} {t : Tree}
      {ms : List (List Char × Tree)} (hg : Dialect.strict.Gap g) (hlead : Lead first lead)
      (hkey : IsText key) (hg₁ : Dialect.strict.Gap g₁) (hg₂ : Dialect.strict.Gap g₂)
      (hv : Spells .strict (.value t) v) (hs : Lists false ms s) :
      Lists first ((key, t) :: ms)
        (g ++ (lead ++ '"' :: (key ++ '"' :: (g₁ ++ ':' :: (g₂ ++ (v ++ s))))))

theorem Lists.comma {ms : List (List Char × Tree)} {g s : List Char} (hne : ms ≠ [])
    (hg : Dialect.strict.Gap g) (h : Lists true ms s) : Lists false ms (g ++ ',' :: s) := by
  cases h with
  | done => exact absurd rfl hne
  | member hg' hlead hkey hg₁ hg₂ hv hs =>
    cases hlead
    have := Lists.member hg (.next hg') hkey hg₁ hg₂ hv hs
    simpa using this

theorem Lists.of_item {key s tail : List Char} {t : Tree} {ms : List (List Char × Tree)}
    (h : Spells .strict (.item (.member key t)) s)
    (htail : ∀ g, Dialect.strict.Gap g → Lists false ms (g ++ tail)) :
    Lists true ((key, t) :: ms) (s ++ tail) := by
  cases h with
  | member hg hkey hg₁ hg₂ hv hg' =>
    have := Lists.member hg .first hkey hg₁ hg₂ hv (htail _ hg')
    simpa using this

theorem lists_of_spells {ms : List (List Char × Tree)} {s : List Char}
    (h : Spells .strict (.items (ms.map fun m => .member m.1 m.2)) s) : Lists true ms s := by
  induction ms generalizing s with
  | nil => cases h
  | cons m ms ih =>
    generalize his : (m :: ms).map (fun m => Item.member m.1 m.2) = is at h
    rw [List.map_cons] at his
    cases h with
    | last h =>
      obtain ⟨rfl, hms⟩ := List.cons.inj his
      obtain rfl := List.map_eq_nil_iff.mp hms
      rw [← List.append_nil s]
      exact .of_item h fun g hg => .done (by rwa [List.append_nil])
    | more h hr =>
      obtain ⟨rfl, rfl⟩ := List.cons.inj his
      have hne : ms ≠ [] := by
        rintro rfl
        cases hr
      exact .of_item h fun g hg => .comma hne hg (ih hr)

/-- The members of an object stand between its brackets. -/
theorem exists_lists {ms : List (List Char × Tree)} {s : List Char}
    (h : Spells .strict (.value (.object ms)) s) :
    ∃ s', s = '\x7b' :: s' ++ ['\x7d'] ∧ Lists true ms s' := by
  cases h with
  | emptyObject hg => exact ⟨_, rfl, .done hg⟩
  | object h he =>
    cases he
    exact ⟨_, rfl, by simpa using lists_of_spells h⟩

theorem Lists.ends {first : Bool} {ms : List (List Char × Tree)} {s rest : List Char}
    (h : Lists first ms s) (hfirst : first = false) (hrest : Ends rest) : Ends (s ++ rest) := by
  cases h with
  | done hg => exact ends_gap_append hg hrest
  | member hg hlead =>
    cases hlead with
    | first => cases hfirst
    | next =>
      rw [List.append_assoc]
      exact ends_gap_append hg (ends_cons rfl _)

/-! ### The reader -/

/-- A field of the record reads what is said of a slot, and sets the slot to it. -/
structure RecordField.Serves (field : RecordField ρ) (room : Nat) (p : RecordSlot ρ) : Prop where
  name_eq : field.name = p.name
  read_iff : ∀ {t : Tree} {g s rest r : List Char} {change : ρ → ρ}, Dialect.strict.Gap g →
    Spells .strict (.value t) s → Ends rest →
      (field.read room (g ++ (s ++ rest)) = .ok (change, r) ↔
        (∃ x, p.Says t x ∧ change = p.set x) ∧ r = rest)

/-- A field serves a slot if it hands on to it what a reader makes of the value. -/
theorem RecordField.Serves.of_reader {field : RecordField ρ} {room : Nat} {p : RecordSlot ρ}
    (read : List Char → Reading p.Value) (hname : field.name = p.name)
    (hfield : ∀ s, field.read room s =
      match read s with
      | .ok (x, r) => .ok (p.set x, r)
      | .error f => .error f)
    (hread : ∀ {t : Tree} {g s rest r : List Char} {x : p.Value}, Dialect.strict.Gap g →
      Spells .strict (.value t) s → Ends rest →
        (read (g ++ (s ++ rest)) = .ok (x, r) ↔ p.Says t x ∧ r = rest)) :
    field.Serves room p := by
  refine ⟨hname, fun {t g s rest r change} hg hs hrest => ?_⟩
  rw [hfield]
  constructor
  · intro h
    cases hx : read (g ++ (s ++ rest)) with
    | error f => simp [hx] at h
    | ok x =>
      obtain ⟨x, r'⟩ := x
      rw [hx] at h
      obtain ⟨rfl, rfl⟩ := Prod.mk.inj (Except.ok.inj h)
      obtain ⟨hvalue, hr⟩ := (hread hg hs hrest).mp hx
      exact ⟨⟨x, hvalue, rfl⟩, hr⟩
  · rintro ⟨⟨x, hvalue, rfl⟩, rfl⟩
    rw [(hread hg hs hrest).mpr ⟨hvalue, rfl⟩]

section

variable {fields : List (RecordField ρ)} {slots : List (RecordSlot ρ)} {room : Nat}
  {seen : List String} {acc a : ρ} {s r rest : List Char} {name : String}

/-- The field of a name is the one that serves the slot of that name. -/
theorem find?_serves (h : List.Forall₂ (RecordField.Serves · room) fields slots) (name : String) :
    (∃ p ∈ slots, p.name = name ∧
        ∃ field, fields.find? (·.name == name) = some field ∧ field.Serves room p) ∨
      ((∀ p ∈ slots, p.name ≠ name) ∧ fields.find? (·.name == name) = none) := by
  induction h with
  | nil => exact .inr ⟨by simp, rfl⟩
  | @cons field p fields slots h _ ih =>
    by_cases hname : p.name = name
    · refine .inl ⟨p, List.mem_cons_self, hname, field, ?_, h⟩
      simp [h.name_eq, hname]
    · have hfind : (field :: fields).find? (·.name == name) = fields.find? (·.name == name) := by
        simp [h.name_eq, hname]
      rw [hfind]
      rcases ih with ⟨q, hq, hfield⟩ | ⟨hothers, hnone⟩
      · exact .inl ⟨q, List.mem_cons_of_mem _ hq, hfield⟩
      · exact .inr ⟨List.forall_mem_cons.mpr ⟨hname, hothers⟩, hnone⟩

theorem readKey_spelled {first : Bool} {g lead key : List Char} {k : String}
    (hg : Dialect.strict.Gap g) (hlead : Lead first lead) (hkey : IsText key) :
    readKey first (skipSpace (g ++ (lead ++ '"' :: (key ++ '"' :: rest)))) = .ok (k, r) ↔
      Denotes key k.toList ∧ r = rest := by
  have hread : readKey first (skipSpace (g ++ (lead ++ '"' :: (key ++ '"' :: rest)))) =
      readText [] (key ++ '"' :: rest) := by
    rw [skipSpace_gap hg]
    cases hlead with
    | first => rfl
    | @next g' hg' =>
      have hquote : skipSpace (g' ++ '"' :: (key ++ '"' :: rest)) = '"' :: (key ++ '"' :: rest) :=
        skipSpace_gap hg' _
      have hcomma : skipSpace (',' :: (g' ++ '"' :: (key ++ '"' :: rest))) =
          ',' :: (g' ++ '"' :: (key ++ '"' :: rest)) := rfl
      rw [List.cons_append, hcomma, readKey, nextMember, hquote]
      rfl
  rw [hread, readText_eq_ok_iff hkey]
  constructor
  · rintro ⟨t, ht, rfl, rfl⟩
    exact ⟨by simpa using ht, rfl⟩
  · rintro ⟨hk, rfl⟩
    exact ⟨_, hk, by simp, rfl⟩

theorem readValue_spelled {L : RecordLayout ρ}
    (hfields : List.Forall₂ (RecordField.Serves · room) fields L.slots) {t : Tree}
    {g₁ g₂ v : List Char} {change : ρ → ρ} (hg₁ : Dialect.strict.Gap g₁)
    (hg₂ : Dialect.strict.Gap g₂) (hv : Spells .strict (.value t) v) (hrest : Ends rest) :
    (fields.any (·.name == name) && seen.contains name) = false ∧
        readValue fields room name (g₁ ++ ':' :: (g₂ ++ (v ++ rest))) = .ok (change, r) ↔
      L.Turns seen name t change ∧ r = rest := by
  simp only [readValue, passColon_spelled hg₁]
  rcases find?_serves hfields name with ⟨p, hp, hname, field, hfind, hserves⟩ | ⟨hothers, hfind⟩
  · have hany : fields.any (·.name == name) = true :=
      List.any_eq_true.mpr
        ⟨field, List.mem_of_find?_eq_some hfind, by simp [hserves.name_eq, hname]⟩
    simp only [hfind, hany, Bool.true_and, hserves.read_iff hg₂ hv hrest]
    constructor
    · rintro ⟨hseen, ⟨x, hx, rfl⟩, hr⟩
      exact ⟨.slot hp hname (by simpa using hseen) hx, hr⟩
    · rintro ⟨hturns, hr⟩
      cases hturns with
      | slot hp' hname' hseen hx =>
        obtain rfl := L.eq_of_name _ hp _ hp' (hname.trans hname'.symm)
        exact ⟨by simpa using hseen, ⟨_, hx, rfl⟩, hr⟩
      | other h => exact absurd hname (h p hp)
  · have hany : fields.any (·.name == name) = false :=
      List.any_eq_false.mpr (List.find?_eq_none.mp hfind)
    simp only [hfind, hany, Bool.false_and, passOver_spelled hg₂ hv hrest]
    constructor
    · rintro ⟨-, ⟨⟩⟩
      exact ⟨.other hothers, rfl⟩
    · rintro ⟨hturns, rfl⟩
      cases hturns with
      | slot hp hname => exact absurd hname (hothers _ hp)
      | other => exact ⟨trivial, rfl⟩

theorem readMembers_closing (hs : skipSpace s = '\x7d' :: r) :
    readMembers fields room seen acc s = .ok (acc, r) := by
  rw [readMembers, hs]
  rfl

/-- One member: its name, which is no field's a second time, its value, and the members behind. -/
theorem readMembers_eq_ok (hs : ∀ r, skipSpace s ≠ '\x7d' :: r) :
    readMembers fields room seen acc s = .ok (a, r) ↔
      ∃ key r₁ change r₂, readKey seen.isEmpty (skipSpace s) = .ok (key, r₁) ∧
        (fields.any (·.name == key) && seen.contains key) = false ∧
        readValue fields room key r₁ = .ok (change, r₂) ∧
        readMembers fields room (key :: seen) (change acc) r₂ = .ok (a, r) := by
  rw [readMembers]
  split
  · next h => exact absurd h (hs _)
  · cases readKey seen.isEmpty (skipSpace s) with
    | error f => simp
    | ok x =>
      obtain ⟨key, r₁⟩ := x
      simp only [Except.ok.injEq, Prod.mk.injEq, ↓existsAndEq, true_and]
      cases fields.any (·.name == key) && seen.contains key with
      | true => simp
      | false =>
        cases readValue fields room key r₁ with
        | error f => simp
        | ok y =>
          obtain ⟨change, r₂⟩ := y
          simp

/-- **The members of an object**, from the first one on or from behind a member. -/
theorem readMembers_lists {L : RecordLayout ρ}
    (hfields : List.Forall₂ (RecordField.Serves · room) fields L.slots)
    {ms : List (List Char × Tree)} {first : Bool} (hfirst : seen.isEmpty = first)
    (h : Lists first ms s) :
    readMembers fields room seen acc (s ++ '\x7d' :: rest) = .ok (a, r) ↔
      L.Completes seen acc ms a ∧ r = rest := by
  induction h generalizing seen acc with
  | @done _ g hg =>
    have hclosing : skipSpace (g ++ '\x7d' :: rest) = '\x7d' :: rest := skipSpace_gap hg _
    rw [readMembers_closing hclosing, RecordLayout.completes_nil]
    constructor
    · rintro ⟨⟩
      exact ⟨rfl, rfl⟩
    · rintro ⟨rfl, rfl⟩
      rfl
  | @member first g lead key g₁ g₂ v s t ms hg hlead hkey hg₁ hg₂ hv hs ih =>
    have hrest : Ends (s ++ '\x7d' :: rest) := hs.ends rfl (ends_closing .curly rest)
    -- what stands behind the value is what the reader goes on with
    have htext : g ++ (lead ++ '"' :: (key ++ '"' :: (g₁ ++ ':' :: (g₂ ++ (v ++ s))))) ++
        '\x7d' :: rest = g ++ (lead ++ '"' :: (key ++ '"' :: (g₁ ++ ':' :: (g₂ ++ (v ++
          (s ++ '\x7d' :: rest)))))) := by
      simp
    rw [htext, readMembers_eq_ok (hlead.not_closing hg _), hfirst, RecordLayout.completes_cons]
    constructor
    · rintro ⟨name, r₁, change, r₂, hspelled, honce, hvalue, hread⟩
      obtain ⟨hname, rfl⟩ := (readKey_spelled hg hlead hkey).mp hspelled
      obtain ⟨hturns, rfl⟩ := (readValue_spelled hfields hg₁ hg₂ hv hrest).mp ⟨honce, hvalue⟩
      obtain ⟨hcompletes, rfl⟩ := (ih rfl).mp hread
      exact ⟨⟨name, change, hname, hturns, hcompletes⟩, rfl⟩
    · rintro ⟨⟨name, change, hname, hturns, hcompletes⟩, rfl⟩
      obtain ⟨honce, hvalue⟩ := (readValue_spelled hfields hg₁ hg₂ hv hrest).mpr ⟨hturns, rfl⟩
      exact ⟨name, _, change, _, (readKey_spelled hg hlead hkey).mpr ⟨hname, rfl⟩, honce, hvalue,
        (ih rfl).mpr ⟨hcompletes, rfl⟩⟩

/-- **A record in an object** is what the members complete the defaults to. -/
theorem readRecord_object {L : RecordLayout ρ} {title : String} {init : ρ}
    (hfields : List.Forall₂ (RecordField.Serves · room) fields L.slots)
    {ms : List (List Char × Tree)} {g : List Char} (hg : Dialect.strict.Gap g)
    (h : Spells .strict (.value (.object ms)) s) :
    readRecord title fields init (room + 1) (g ++ (s ++ rest)) = .ok (a, r) ↔
      L.Completes [] init ms a ∧ r = rest := by
  obtain ⟨s, rfl, hs⟩ := exists_lists h
  have hopen : skipSpace (g ++ ('\x7b' :: s ++ ['\x7d'] ++ rest)) =
      '\x7b' :: (s ++ '\x7d' :: rest) := by
    rw [skipSpace_gap hg]
    simp [skipSpace, isSpace]
  have hread : readRecord title fields init (room + 1) (g ++ ('\x7b' :: s ++ ['\x7d'] ++ rest)) =
      readObject fields init room (s ++ '\x7d' :: rest) := by
    unfold readRecord
    rw [hopen]
    rfl
  have hmembers : readMembers fields room [] init (s ++ '\x7d' :: rest) = .ok (a, r) ↔
      L.Completes [] init ms a ∧ r = rest :=
    readMembers_lists hfields rfl hs
  rw [hread, readObject, ← hmembers]
  cases readMembers fields room [] init (s ++ '\x7d' :: rest) <;> simp

end

end Prototypal.Json
