import Prototypal.Proofs.Reading
import Prototypal.Proofs.Resemblance

/-!
# Prototypal — Proofs — Staleness

What has become of a stored descriptor that was kept while the analysis went on.

A stored descriptor names the plain value where deferrals stopped when it was asked for.  That
value stays plain and keeps its member, so the descriptor goes on reading it; but a value that the
deferrals went through may have gained a second prototype since, and then the member is read from
more values than the one named.

* `propertyValue_kept`: what a kept descriptor reads is part of what a new one reads.  It is all of
  it just when no plain value reached now adds anything shown to what the named one holds, and the
  new descriptor is the kept one if no value that was reached has gained a prototype.
* `propertyValue_kept_ne`: a kept descriptor that reads less than a new one.
-/

namespace Prototypal.Analysis

variable {a b : Analysis} {v t : ValueId} {name : String}

/-- What a stored descriptor reads. -/
theorem propertyValue_stored (a : Analysis) (owner : ValueId) (name : String)
    (site : Option Site) :
    (a.propertyValue (.stored owner name) site).answer = a.shown (a.ownTypes owner name) := by
  rw [propertyValue_answer, evaluate, evaluateLevels_stored]

/-- Deferrals stay while the values that are reached gain no prototype. -/
theorem route_defers_of_prototypes_eq {ps : List ValueId} (h : Route a.Defers v ps t)
    (heq : ∀ u, a.Reaches v u → b.prototypes u = a.prototypes u) : Route b.Defers v ps t := by
  induction h with
  | here v => exact .here v
  | @down v p t ps hp _ ih =>
      refine .down ((heq v ⟨[], .here v⟩).trans hp) (ih fun u hu => heq u ?_)
      obtain ⟨qs, hq⟩ := hu
      exact ⟨p :: qs, .down hp.draws hq⟩

/-- **A kept descriptor reads part of what a new one reads.**  It reads all of it just when no plain
value that is reached adds to what is shown of its owner's member, and it is still the descriptor of
the member if the values reached when it was asked for have the prototypes they had. -/
theorem propertyValue_kept (ha : a.Reachable) (hl : a.options.limits = {}) {d : Descriptor}
    (hd : (a.property v name).answer = some d) (hst : d.isEphemeral = false) (cs : List Command)
    (hb : (a.run cs).state = b) (site site' : Option Site) :
    ∃ owner, d = .stored owner name ∧
      (b.propertyValue d site).answer ⊆ b.readProperty v name site' ∧
      ((b.propertyValue d site).answer = b.readProperty v name site' ↔
        ∀ u, b.Reaches v u → b.IsPlain u →
          b.shown (b.ownTypes u name) ⊆ b.shown (b.ownTypes owner name)) ∧
      ((∀ u, a.Reaches v u → b.prototypes u = a.prototypes u) →
        (b.property v name).answer = some d ∧
        (b.propertyValue d site).answer = b.readProperty v name site') := by
  have hg : a.Grows b := hb ▸ a.run_grows cs
  have hlb : b.options.limits = {} := by rw [hg.options]; exact hl
  obtain ⟨hu, hdep⟩ := (hb ▸ ha.run cs : b.Reachable).limits hlb
  obtain ⟨ps, t, hps, hdt⟩ := exists_of_describeLevels hd
  cases hdt with
  | merged => cases hst
  | stored hp hs =>
      -- the owner is still reached, plain and with the member, whatever came in between
      obtain ⟨slot', hs', -⟩ := hg.slot? hs
      have hr : b.Reaches v t := hg.reaches (reaches_of_route_defers hps)
      have hsub : b.shown (b.ownTypes t name) ⊆ b.readProperty v name site' :=
        (readProperty_subset_iff hu hdep v name site').mp (fun _ hw => hw) t hr (hg.isPlain hp)
      rw [propertyValue_stored]
      refine ⟨t, rfl, hsub, ?_, ?_⟩
      · rw [← readProperty_subset_iff hu hdep v name site']
        refine ⟨fun he w hw => ?_, ValueSet.Subset.antisymm hsub⟩
        rw [he]
        exact hw
      · intro heq
        have hnew : (b.property v name).answer = some (.stored t name) :=
          describe_of_route hu hdep (route_defers_of_prototypes_eq hps heq)
            (.stored (hg.isPlain hp) hs')
        refine ⟨hnew, ?_⟩
        rw [readProperty, hnew]
        exact (b.propertyValue_stored t name site').symm

/-- Two objects with a member `n`, and an inheritor of the first. -/
def soleInheritor : Analysis :=
  ((fresh {}).run
    [.createObject .builtin, .createObject .builtin, .createNull .builtin,
      .assign ⟨1⟩ "n" (.singleton ⟨0⟩), .assign ⟨2⟩ "n" (.singleton ⟨3⟩),
      .createInheritor .builtin (.singleton ⟨1⟩)]).state

/-- The same after the inheritor has gained the other object. -/
def joinedInheritor : Analysis := (soleInheritor.run [.addPrototypes ⟨4⟩ (.singleton ⟨2⟩)]).state

/-- The same after the first object's member has been assigned another value instead. -/
def reassignedPrototype : Analysis :=
  (soleInheritor.run [.assign ⟨1⟩ "n" (.singleton ⟨3⟩)]).state

theorem propertyValue_kept_soleInheritor :
    soleInheritor.Reachable ∧ soleInheritor.options.limits = {} ∧
    (soleInheritor.property ⟨4⟩ "n").answer = some (.stored ⟨1⟩ "n") ∧
    (joinedInheritor.propertyValue (.stored ⟨1⟩ "n") none).answer ⊆
      joinedInheritor.readProperty ⟨4⟩ "n" none ∧
    (reassignedPrototype.property ⟨4⟩ "n").answer = some (.stored ⟨1⟩ "n") ∧
    (reassignedPrototype.propertyValue (.stored ⟨1⟩ "n") none).answer =
      reassignedPrototype.readProperty ⟨4⟩ "n" none ∧
    reassignedPrototype.readProperty ⟨4⟩ "n" none = .ofList [⟨0⟩, ⟨3⟩] := by
  have ha : soleInheritor.Reachable := ⟨{}, _, rfl⟩
  have hd : (soleInheritor.property ⟨4⟩ "n").answer = some (.stored ⟨1⟩ "n") := by decide +kernel
  obtain ⟨-, -, hsub, -⟩ := propertyValue_kept (b := joinedInheritor) ha rfl hd rfl _ rfl none none
  obtain ⟨-, -, -, -, hkept⟩ :=
    propertyValue_kept (b := reassignedPrototype) ha rfl hd rfl _ rfl none none
  have hprototypes : ∀ u, reassignedPrototype.prototypes u = soleInheritor.prototypes u :=
    fun u => prototypes_modifyValue_setSlot soleInheritor ⟨1⟩ u "n" _
  obtain ⟨hnew, hall⟩ := hkept fun u _ => hprototypes u
  exact ⟨ha, rfl, hd, hsub, hnew, hall, by decide +kernel⟩

/-- The descriptor of `n` kept from before the inheritor gained its second prototype reads the first
object alone, and a new one reads both. -/
theorem propertyValue_kept_ne :
    soleInheritor.Reachable ∧ soleInheritor.options.limits = {} ∧
    (soleInheritor.property ⟨4⟩ "n").answer = some (.stored ⟨1⟩ "n") ∧
    (Descriptor.stored ⟨1⟩ "n").isEphemeral = false ∧
    (joinedInheritor.propertyValue (.stored ⟨1⟩ "n") none).answer = .singleton ⟨0⟩ ∧
    joinedInheritor.readProperty ⟨4⟩ "n" none = .ofList [⟨0⟩, ⟨3⟩] ∧
    (joinedInheritor.propertyValue (.stored ⟨1⟩ "n") none).answer ≠
      joinedInheritor.readProperty ⟨4⟩ "n" none :=
  ⟨⟨{}, _, rfl⟩, rfl, by decide +kernel, rfl, by decide +kernel, by decide +kernel,
    by decide +kernel⟩

end Prototypal.Analysis
