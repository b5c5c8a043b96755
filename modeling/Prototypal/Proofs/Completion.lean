import Mathlib.Data.List.Perm.Basic
import Mathlib.Tactic.MkIffOfInductiveProp
import Prototypal.Proofs.Admissible
import Prototypal.Proofs.Spacing

/-!
# Prototypal — Proofs — Completion

Options given as a JSON object.

The object gives for each option the value of the member of its name, and the default if there is
none (`Gives`).  Nothing in this depends on the order of the members, or on members of other
names: whatever they hold, however deep, they may come and go (`Rearranges`).  And an object gives
no options just if a name in it is no text, an option has two members, or its member a value that
it does not admit (`Faulty`).

* `options_complete`: options are read from an object just as it gives them.
-/

namespace Prototypal.Json.Settles

variable {α : Type} {name : String} {Says : Tree → α → Prop} {start x : α}
  {ms ms' : List (List Char × Tree)} {m m' : List Char × Tree}

/-! ### Members of one name -/

/-- The order of the members makes no difference to what those of one name give. -/
theorem perm (h : ms.Perm ms') (hs : Settles name Says start ms x) :
    Settles name Says start ms' x := by
  cases hs with
  | absent hno => exact .absent fun m hm => hno m (h.mem_iff.mpr hm)
  | @present l r key t _ hkey hvalue hothers =>
    obtain ⟨l', r', rfl⟩ := List.append_of_mem
      (h.mem_iff.mp (List.mem_append_right l (List.mem_cons_self (a := (key, t)) (l := r))))
    have hrest : (l ++ r).Perm (l' ++ r') :=
      ((List.perm_middle.symm.trans h).trans List.perm_middle).cons_inv
    exact .present hkey hvalue fun m hm => hothers m (hrest.mem_iff.mpr hm)

theorem perm_iff (h : ms.Perm ms') :
    Settles name Says start ms x ↔ Settles name Says start ms' x :=
  ⟨perm h, perm h.symm⟩

theorem insert_iff (hm : ¬ Denotes m.1 name.toList) :
    Settles name Says start (ms ++ m :: ms') x ↔ Settles name Says start (ms ++ ms') x := by
  rw [perm_iff List.perm_middle, cons_of_not_denotes hm]

theorem value_of_mem (h : Settles name Says start ms x) (hm : m ∈ ms)
    (hkey : Denotes m.1 name.toList) : Says m.2 x := by
  cases h with
  | absent hno => exact absurd hkey (hno m hm)
  | present _ h hothers =>
    rw [List.perm_middle.mem_iff, List.mem_cons] at hm
    rcases hm with rfl | hm
    · exact h
    · exact absurd hkey (hothers m hm)

/-- Of two members one at most has the name. -/
theorem not_twice (h : Settles name Says start ms x) (htwice : [m, m'].Sublist ms)
    (hm : Denotes m.1 name.toList) : ¬ Denotes m'.1 name.toList := by
  induction ms with
  | nil => cases htwice
  | cons m₀ ms ih =>
    by_cases hm₀ : Denotes m₀.1 name.toList
    · have hothers := ((cons_of_denotes hm₀).mp h).2
      cases htwice with
      | cons _ htwice => exact absurd hm (hothers m (htwice.subset List.mem_cons_self))
      | cons_cons _ hrest => exact hothers m' (List.singleton_sublist.mp hrest)
    · cases htwice with
      | cons _ htwice => exact ih ((cons_of_not_denotes hm₀).mp h) htwice
      | cons_cons => exact absurd hm hm₀

/-- A name settles what it stands for, unless it occurs twice or with a value that says nothing. -/
theorem exists_of_admitted (honce : ∀ m m', [m, m'].Sublist ms → Denotes m.1 name.toList →
    ¬ Denotes m'.1 name.toList) (hvalue : ∀ m ∈ ms, Denotes m.1 name.toList → ∃ x, Says m.2 x) :
    ∃ x, Settles name Says start ms x := by
  induction ms with
  | nil => exact ⟨start, .absent (by simp)⟩
  | cons m ms ih =>
    by_cases hm : Denotes m.1 name.toList
    · obtain ⟨x, hx⟩ := hvalue m List.mem_cons_self hm
      have hothers : ∀ m' ∈ ms, ¬ Denotes m'.1 name.toList := fun m' hm' =>
        honce m m' ((List.singleton_sublist.mpr hm').cons_cons m) hm
      exact ⟨x, (cons_of_denotes hm).mpr ⟨hx, hothers⟩⟩
    · obtain ⟨x, hx⟩ := ih (fun m₁ m₂ h => honce m₁ m₂ (h.cons m))
        fun m' hm' => hvalue m' (List.mem_cons_of_mem _ hm')
      exact ⟨x, (cons_of_not_denotes hm).mpr hx⟩

end Prototypal.Json.Settles

namespace Prototypal.Settings

open Json

variable {L : Lowering} {ms ms' : List (List Char × Tree)} {o : Options} {name : String}

/-! ### The options -/

def limitNames : List String := ["maxPrototypeDepth", "maxResolutionIterations"]

def flagNames : List String := ["trackReferences", "filterDeadValues"]

def optionNames : List String := limitNames ++ flagNames

/-- The members give the options: each the value of its one member, or the default. -/
@[mk_iff]
structure Gives (L : Lowering) (ms : List (List Char × Tree)) (o : Options) : Prop where
  named : ∀ m ∈ ms, ∃ name : String, Denotes m.1 name.toList
  depth : Settles "maxPrototypeDepth" IsCount Count.top ms o.limits.depth
  attempts : Settles "maxResolutionIterations" IsCount Count.top ms o.limits.attempts
  recordsUsages : Settles "trackReferences" (IsFlag L) true ms o.recordsUsages
  hidesDead : Settles "filterDeadValues" (IsFlag L) true ms o.hidesDead

/-- A value that an option admits. -/
inductive Admissible (L : Lowering) (name : String) (t : Tree) : Prop where
  | limit {n : Nat} (hname : name ∈ limitNames) (h : IsCount t n)
  | flag {b : Bool} (hname : name ∈ flagNames) (h : IsFlag L t b)

/-- What makes members give no options. -/
inductive Faulty (L : Lowering) (ms : List (List Char × Tree)) : Prop where
  | unnamed {m : List Char × Tree} (hm : m ∈ ms) (h : ∀ name : String, ¬ Denotes m.1 name.toList)
  | twice {m m' : List Char × Tree} {name : String} (hname : name ∈ optionNames)
      (h : [m, m'].Sublist ms) (hm : Denotes m.1 name.toList) (hm' : Denotes m'.1 name.toList)
  | inadmissible {m : List Char × Tree} {name : String} (hname : name ∈ optionNames) (hm : m ∈ ms)
      (hkey : Denotes m.1 name.toList) (h : ¬ Admissible L name m.2)

/-- The members in another order, and without or with more members whose names are no options. -/
inductive Rearranges : List (List Char × Tree) → List (List Char × Tree) → Prop where
  | permute {ms ms' : List (List Char × Tree)} (h : ms.Perm ms') : Rearranges ms ms'
  | insert {ms ms' : List (List Char × Tree)} {m : List Char × Tree} {name : String}
      (hkey : Denotes m.1 name.toList) (hname : name ∉ optionNames) :
      Rearranges (ms ++ ms') (ms ++ m :: ms')
  | remove {ms ms' : List (List Char × Tree)} {m : List Char × Tree} {name : String}
      (hkey : Denotes m.1 name.toList) (hname : name ∉ optionNames) :
      Rearranges (ms ++ m :: ms') (ms ++ ms')
  | trans {ms ms' ms'' : List (List Char × Tree)} (h : Rearranges ms ms')
      (h' : Rearranges ms' ms'') : Rearranges ms ms''

theorem gives_perm (h : ms.Perm ms') : Gives L ms o ↔ Gives L ms' o := by
  simp only [gives_iff, h.mem_iff, Settles.perm_iff h]

/-- A member that is no option is nothing to any of them. -/
theorem gives_insert {m : List Char × Tree} (hkey : Denotes m.1 name.toList)
    (hname : name ∉ optionNames) : Gives L (ms ++ ms') o ↔ Gives L (ms ++ m :: ms') o := by
  have hother : ∀ n ∈ optionNames, ¬ Denotes m.1 n.toList := fun n hn h =>
    hname (String.toList_inj.mp (hkey.unique h) ▸ hn)
  have hnamed : (∀ m' ∈ ms ++ m :: ms', ∃ name : String, Denotes m'.1 name.toList) ↔
      ∀ m' ∈ ms ++ ms', ∃ name : String, Denotes m'.1 name.toList := by
    simp only [List.perm_middle.mem_iff, List.forall_mem_cons]
    exact and_iff_right ⟨name, hkey⟩
  rw [gives_iff, gives_iff, hnamed, Settles.insert_iff (hother _ (by decide)),
    Settles.insert_iff (hother _ (by decide)), Settles.insert_iff (hother _ (by decide)),
    Settles.insert_iff (hother _ (by decide))]

theorem Rearranges.gives (h : Rearranges ms ms') : Gives L ms o ↔ Gives L ms' o := by
  induction h with
  | permute h => exact gives_perm h
  | insert hkey hname => exact gives_insert hkey hname
  | remove hkey hname => exact (gives_insert hkey hname).symm
  | trans _ _ ih ih' => exact ih.trans ih'

theorem mem_optionNames : name ∈ optionNames ↔
    name = "maxPrototypeDepth" ∨ name = "maxResolutionIterations" ∨ name = "trackReferences" ∨
      name = "filterDeadValues" := by
  simp [optionNames, limitNames, flagNames]

theorem Gives.not_faulty (h : Gives L ms o) : ¬ Faulty L ms := by
  rintro (⟨hm, hno⟩ | ⟨hname, htwice, hm, hm'⟩ | ⟨hname, hm, hkey, hno⟩)
  · obtain ⟨name, hname⟩ := h.named _ hm
    exact hno name hname
  · rcases mem_optionNames.mp hname with rfl | rfl | rfl | rfl
    · exact h.depth.not_twice htwice hm hm'
    · exact h.attempts.not_twice htwice hm hm'
    · exact h.recordsUsages.not_twice htwice hm hm'
    · exact h.hidesDead.not_twice htwice hm hm'
  · rcases mem_optionNames.mp hname with rfl | rfl | rfl | rfl
    · exact hno (.limit (by decide) (h.depth.value_of_mem hm hkey))
    · exact hno (.limit (by decide) (h.attempts.value_of_mem hm hkey))
    · exact hno (.flag (by decide) (h.recordsUsages.value_of_mem hm hkey))
    · exact hno (.flag (by decide) (h.hidesDead.value_of_mem hm hkey))

/-- Members without a fault give options. -/
theorem exists_gives (h : ¬ Faulty L ms) : ∃ o, Gives L ms o := by
  have hnamed : ∀ m ∈ ms, ∃ name : String, Denotes m.1 name.toList := by
    intro m hm
    by_contra hno
    exact h (.unnamed hm (not_exists.mp hno))
  have honce : ∀ n ∈ optionNames, ∀ m m', [m, m'].Sublist ms → Denotes m.1 n.toList →
      ¬ Denotes m'.1 n.toList :=
    fun n hn m m' hs hm hm' => h (.twice hn hs hm hm')
  have hadmits : ∀ n ∈ optionNames, ∀ m ∈ ms, Denotes m.1 n.toList → Admissible L n m.2 := by
    intro n hn m hm hkey
    by_contra hno
    exact h (.inadmissible hn hm hkey hno)
  have hdisjoint : ∀ n ∈ limitNames, n ∉ flagNames := by decide
  have hlimit : ∀ n ∈ limitNames, ∃ x, Settles n IsCount Count.top ms x := by
    intro n hn
    have hn' := List.mem_append_left flagNames hn
    refine Settles.exists_of_admitted (honce n hn') fun m hm hkey => ?_
    cases hadmits n hn' m hm hkey with
    | limit _ h => exact ⟨_, h⟩
    | flag hname => exact absurd hname (hdisjoint n hn)
  have hflag : ∀ n ∈ flagNames, ∃ x, Settles n (IsFlag L) true ms x := by
    intro n hn
    have hn' := List.mem_append_right limitNames hn
    refine Settles.exists_of_admitted (honce n hn') fun m hm hkey => ?_
    cases hadmits n hn' m hm hkey with
    | limit hname => exact absurd hn (hdisjoint n hname)
    | flag _ h => exact ⟨_, h⟩
  obtain ⟨depth, hdepth⟩ := hlimit "maxPrototypeDepth" (by decide)
  obtain ⟨attempts, hattempts⟩ := hlimit "maxResolutionIterations" (by decide)
  obtain ⟨usages, husages⟩ := hflag "trackReferences" (by decide)
  obtain ⟨hides, hhides⟩ := hflag "filterDeadValues" (by decide)
  exact ⟨⟨⟨depth, attempts⟩, usages, hides⟩, hnamed, hdepth, hattempts, husages, hhides⟩

/-! ### Reading the options -/

def limitSlot (name : String) (get : Options → Nat) (set : Nat → Options → Options)
    (get_set : ∀ n o, get (set n o) = n) : RecordSlot Options :=
  ⟨name, Nat, get, set, IsCount, get_set⟩

def flagSlot (L : Lowering) (name : String) (get : Options → Bool) (set : Bool → Options → Options)
    (get_set : ∀ b o, get (set b o) = b) : RecordSlot Options :=
  ⟨name, Bool, get, set, IsFlag L, get_set⟩

/-- The options, slot by slot. -/
def optionLayout (L : Lowering) : RecordLayout Options where
  slots :=
    [limitSlot "maxPrototypeDepth" (·.limits.depth)
        (fun n o => { o with limits := { o.limits with depth := n } }) fun _ _ => rfl,
      limitSlot "maxResolutionIterations" (·.limits.attempts)
        (fun n o => { o with limits := { o.limits with attempts := n } }) fun _ _ => rfl,
      flagSlot L "trackReferences" (·.recordsUsages) (fun b o => { o with recordsUsages := b })
        fun _ _ => rfl,
      flagSlot L "filterDeadValues" (·.hidesDead) (fun b o => { o with hidesDead := b })
        fun _ _ => rfl]
  eq_of_name := by
    simp [limitSlot, flagSlot]
  frame := by
    simp [limitSlot, flagSlot]
  ext := by
    simp only [limitSlot, flagSlot, List.forall_mem_cons]
    rintro ⟨⟨d, n⟩, u, h⟩ ⟨⟨d', n'⟩, u', h'⟩ ⟨⟨⟩, ⟨⟩, ⟨⟩, ⟨⟩, -⟩
    rfl

theorem countField_serves {get : Options → Nat} {set : Nat → Options → Options}
    (h : ∀ n o, get (set n o) = n) (name : String) (room : Nat) :
    (countField name set).Serves room (limitSlot name get set h) := by
  refine .of_reader readCount rfl (fun s => ?_) readCount_spelled
  simp only [countField]
  cases readCount s <;> rfl

theorem flagField_serves {get : Options → Bool} {set : Bool → Options → Options}
    (h : ∀ b o, get (set b o) = b) (L : Lowering) (name : String) (room : Nat) :
    (flagField name set).Serves room (flagSlot L name get set h) := by
  refine .of_reader (readFlag room) rfl (fun s => ?_) fun hg hs _ => readFlag_spelled hg hs
  simp only [flagField]
  cases readFlag room s <;> rfl

theorem optionFields_serve (L : Lowering) (room : Nat) :
    List.Forall₂ (RecordField.Serves · room) optionFields (optionLayout L).slots :=
  .cons (countField_serves _ _ room) (.cons (countField_serves _ _ room)
    (.cons (flagField_serves _ L _ room) (.cons (flagField_serves _ L _ room) .nil)))

theorem completes_iff_gives : (optionLayout L).Completes [] {} ms o ↔ Gives L ms o := by
  constructor
  · rintro ⟨hnamed, htakes⟩
    simp only [optionLayout, List.forall_mem_cons] at htakes
    obtain ⟨hdepth, hattempts, husages, hdead, -⟩ := htakes
    exact ⟨hnamed, hdepth.1, hattempts.1, husages.1, hdead.1⟩
  · rintro ⟨hnamed, hdepth, hattempts, husages, hdead⟩
    refine ⟨hnamed, ?_⟩
    simp only [optionLayout, List.forall_mem_cons]
    exact ⟨⟨hdepth, nofun⟩, ⟨hattempts, nofun⟩, ⟨husages, nofun⟩, ⟨hdead, nofun⟩, nofun⟩

theorem parseOptions_eq_ok {text : String} (h : Writes .strict (.object ms) text.toList) :
    parseOptions text = .ok o ↔ Gives L ms o := by
  rw [parseOptions, readDocument_eq_ok]
  generalize text.toList = source at h
  cases h with
  | @value g s g' hg hs hg' =>
    cases hg' with
    | gap hg' =>
      -- the object is the first of the brackets that may be open
      have hread : ∀ r, readOptions maxNesting (g ++ (s ++ g')) = .ok (o, r) ↔
          (optionLayout L).Completes [] {} ms o ∧ r = g' :=
        fun r => readRecord_object (optionFields_serve L 126) hg hs
      have hend : skipSpace g' = [] := by
        rw [← List.append_nil g', skipSpace_gap hg']
        rfl
      simp only [List.append_assoc, hread, completes_iff_gives]
      constructor
      · rintro ⟨r, ⟨hgives, -⟩, -⟩
        exact hgives
      · intro hgives
        exact ⟨g', ⟨hgives, rfl⟩, hend⟩

theorem parseOptions_eq_error_iff {text : String} (h : Writes .strict (.object ms) text.toList) :
    (∃ problem, parseOptions text = .error problem) ↔ Faulty L ms := by
  constructor
  · rintro ⟨problem, hproblem⟩
    by_contra hfaulty
    obtain ⟨o, ho⟩ := exists_gives hfaulty
    rw [(parseOptions_eq_ok h).mpr ho] at hproblem
    cases hproblem
  · intro hfaulty
    cases hparse : parseOptions text with
    | ok o => exact absurd hfaulty ((parseOptions_eq_ok h).mp hparse).not_faulty
    | error problem => exact ⟨problem, rfl⟩

/-- **Options from an object.**  A strict text of an object is read as the options that its members
give, each the value of its member or the default; the order of the members and members of other
names make no difference; and it is refused just if a name is no text, if a name of an option occurs
twice, or if an option does not admit the value of its member. -/
theorem options_complete (L : Lowering) (ms : List (List Char × Tree)) (text : String)
    (h : Writes .strict (.object ms) text.toList) :
    (∀ o, parseOptions text = .ok o ↔ Gives L ms o) ∧
    (∀ ms' (text' : String), Rearranges ms ms' → Writes .strict (.object ms') text'.toList →
      ∀ o, parseOptions text' = .ok o ↔ parseOptions text = .ok o) ∧
    ((∃ problem, parseOptions text = .error problem) ↔ Faulty L ms) := by
  refine ⟨fun o => parseOptions_eq_ok h, fun ms' text' hms h' o => ?_, parseOptions_eq_error_iff h⟩
  calc parseOptions text' = .ok o
      ↔ Gives L ms' o := parseOptions_eq_ok h'
    _ ↔ Gives L ms o := hms.gives.symm
    _ ↔ parseOptions text = .ok o := (parseOptions_eq_ok h).symm

/-- Text without quotes, escapes and control characters stands for itself. -/
theorem denotes_self {s : List Char}
    (h : s.all (fun c => 0x20 ≤ c.toNat && c != '"' && c != '\\') = true) :
    IsText s ∧ Denotes s s := by
  induction s with
  | nil => exact ⟨.nil, .nil⟩
  | cons c s ih =>
    rw [List.all_cons, Bool.and_eq_true] at h
    obtain ⟨⟨hcontrol, hquote⟩, hescape⟩ : (0x20 ≤ c.toNat ∧ c ≠ '"') ∧ c ≠ '\\' := by
      simpa using h.1
    obtain ⟨htext, hdenotes⟩ := ih h.2
    exact ⟨.plain hcontrol hquote hescape htext, .plain hcontrol hquote hescape hdenotes⟩

/-- A member that is no option, with a number two brackets deep. -/
def foreignMember : List Char × Tree :=
  (['a'], .array [.object [(['b'], .number ['-', '0', '.', '5'])]])

/-- A flag by a word with an escape before it. -/
def flagMember : List Char × Tree := ("trackReferences".toList, .text "\\tOFF".toList)

theorem spells_foreignMember : Spells .strict (.item (.member foreignMember.1 foreignMember.2))
    "\"a\":[\x7b\"b\":-0.5\x7d]".toList := by
  have hnumber : Spells .strict (.value (.number ['-', '0', '.', '5'])) ['-', '0', '.', '5'] :=
    .number (.parts (.inr rfl) .zero (.digits (s := ['5']) ⟨by decide, by simp⟩) .none)
  have hobject := @Spells.object .strict [(['b'], .number ['-', '0', '.', '5'])] _ _
    (.last (.member .nil (denotes_self rfl).1 .nil .nil hnumber .nil)) .nil
  have harray := @Spells.array .strict [.object [(['b'], .number ['-', '0', '.', '5'])]] _ _
    (.last (.element .nil hobject .nil)) .nil
  exact .member .nil (denotes_self rfl).1 .nil .nil harray .nil

theorem spells_flagMember : Spells .strict (.item (.member flagMember.1 flagMember.2))
    "\"trackReferences\":\"\\tOFF\"".toList := by
  have hword : IsText "\\tOFF".toList := .short rfl (denotes_self rfl).1
  exact .member .nil (denotes_self rfl).1 .nil .nil (.text hword) .nil

theorem gives_flagMember :
    Gives .single [foreignMember, flagMember] { recordsUsages := false } := by
  have hforeign : Denotes foreignMember.1 "a".toList := (denotes_self rfl).2
  have hflag : Denotes flagMember.1 "trackReferences".toList := (denotes_self rfl).2
  have hno : ∀ {n : String}, n ≠ "a" → n ≠ "trackReferences" →
      ∀ m ∈ [foreignMember, flagMember], ¬ Denotes m.1 n.toList := by
    intro n ha ht
    simp only [List.forall_mem_cons]
    exact ⟨fun h => ha (String.toList_inj.mp (h.unique hforeign)),
      fun h => ht (String.toList_inj.mp (h.unique hflag)), nofun⟩
  have hword : Denotes "\\tOFF".toList "\tOFF".toList := .short rfl (denotes_self rfl).2
  have hvalue : IsFlag .single flagMember.2 false :=
    .word hword (trims_iff.mpr rfl) (by decide)
  refine ⟨?_, .absent (hno (by decide) (by decide)), .absent (hno (by decide) (by decide)), ?_,
    .absent (hno (by decide) (by decide))⟩
  · simp only [List.forall_mem_cons]
    exact ⟨⟨_, hforeign⟩, ⟨_, hflag⟩, nofun⟩
  · refine .present (l := [foreignMember]) hflag hvalue ?_
    simp only [List.append_nil, List.forall_mem_cons]
    exact ⟨fun h => absurd (h.unique hforeign) (by decide), nofun⟩

def bothMembers : String :=
  "\x7b\"a\":[\x7b\"b\":-0.5\x7d],\"trackReferences\":\"\\tOFF\"\x7d"

def oneMember : String := "\x7b\"trackReferences\":\"\\tOFF\"\x7d"

theorem writes_bothMembers :
    Writes .strict (.object [foreignMember, flagMember]) bothMembers.toList := by
  have hobject := @Spells.object .strict [foreignMember, flagMember] _ _
    (.more spells_foreignMember (.last spells_flagMember)) .nil
  exact .value .nil hobject (.gap .nil)

theorem writes_oneMember : Writes .strict (.object [flagMember]) oneMember.toList := by
  have hobject := @Spells.object .strict [flagMember] _ _ (.last spells_flagMember) .nil
  exact .value .nil hobject (.gap .nil)

theorem options_complete_oneMember :
    parseOptions bothMembers = .ok { recordsUsages := false } ∧
    parseOptions oneMember = .ok { recordsUsages := false } := by
  obtain ⟨hgives, hsame, -⟩ := options_complete .single _ _ writes_bothMembers
  have hremove : Rearranges [foreignMember, flagMember] [flagMember] :=
    @Rearranges.remove [] [flagMember] foreignMember "a" (denotes_self rfl).2 (by decide)
  have hparse := (hgives _).mpr gives_flagMember
  exact ⟨hparse, (hsame _ _ hremove writes_oneMember _).mpr hparse⟩

end Prototypal.Settings
