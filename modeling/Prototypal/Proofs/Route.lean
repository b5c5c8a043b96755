import Mathlib.Data.List.Basic

/-!
# Prototypal — Proofs — Route

Ways through a relation, with the places they enter.  `Route r v ps u` says that one gets from `v`
to `u` by entering the places `ps` one after the other, each related by `r` to the place before;
the start `v` is not entered.

A route that enters a place twice, or comes back to its start, has a detour that can be cut out
(`Route.exists_nodup`).  Every place that a route goes on from is related to another
(`Route.exists_rel_of_mem_dropLast`).
-/

namespace Prototypal

variable {α : Type} {r : α → α → Prop}

/-- Entering the places `ps` in turn leads from `v` to `u`. -/
inductive Route (r : α → α → Prop) : α → List α → α → Prop where
  | here (v : α) : Route r v [] v
  | down {v p u : α} {ps : List α} (h : r v p) (t : Route r p ps u) : Route r v (p :: ps) u

namespace Route

theorem trans {v w u : α} {ps qs : List α} (h : Route r v ps w) (t : Route r w qs u) :
    Route r v (ps ++ qs) u := by
  induction h with
  | here => exact t
  | down h _ ih => exact .down h (ih t)

theorem mono {s : α → α → Prop} (hrs : ∀ v p, r v p → s v p) {v u : α} {ps : List α}
    (h : Route r v ps u) : Route s v ps u := by
  induction h with
  | here v => exact .here v
  | down h _ ih => exact .down (hrs _ _ h) ih

/-- A route goes on from every place it enters. -/
theorem exists_suffix {v w u : α} {ps : List α} (h : Route r v ps u) (hw : w ∈ ps) :
    ∃ qs, Route r w qs u ∧ w :: qs <:+ ps := by
  induction h with
  | here => cases hw
  | @down v p u ps h t ih =>
      rcases List.mem_cons.mp hw with rfl | hw
      · exact ⟨ps, t, List.suffix_refl _⟩
      · obtain ⟨qs, hq, hs⟩ := ih hw
        exact ⟨qs, hq, hs.trans (List.suffix_cons _ _)⟩

/-- Each place that a route enters is related to the one before. -/
theorem exists_rel_of_mem {v u w : α} {ps : List α} (h : Route r v ps u) (hw : w ∈ ps) :
    ∃ p, r p w := by
  induction h with
  | here => cases hw
  | @down v p u ps h _ ih =>
      rcases List.mem_cons.mp hw with rfl | hw
      · exact ⟨v, h⟩
      · exact ih hw

/-- **Detours can be cut out**: where there is a route, there is one that is no longer, enters no
place twice, and does not come back to its start. -/
theorem exists_nodup {v u : α} {ps : List α} (h : Route r v ps u) :
    ∃ qs, Route r v qs u ∧ qs.length ≤ ps.length ∧ (v :: qs).Nodup := by
  induction h with
  | here v => exact ⟨[], .here v, Nat.le_refl _, by simp⟩
  | @down v p u ps h t ih =>
      obtain ⟨qs, hq, hlen, hnd⟩ := ih
      by_cases hv : v ∈ p :: qs
      · -- the route from `p` meets `v` again: start where it does
        obtain ⟨rs, hr, hs⟩ := (Route.down h hq).exists_suffix hv
        have hle := hs.length_le
        simp only [List.length_cons] at hle ⊢
        exact ⟨rs, hr, by omega, hnd.sublist hs.sublist⟩
      · exact ⟨p :: qs, .down h hq, Nat.succ_le_succ hlen, List.nodup_cons.mpr ⟨hv, hnd⟩⟩

/-- Each place of a route but the last is related to the next one. -/
theorem exists_rel_of_mem_dropLast {v u w : α} {ps : List α} (h : Route r v ps u)
    (hw : w ∈ (v :: ps).dropLast) : ∃ p, r w p := by
  induction h with
  | here => simp at hw
  | @down v p u ps h t ih =>
      rw [List.dropLast_cons_of_ne_nil (List.cons_ne_nil _ _)] at hw
      rcases List.mem_cons.mp hw with rfl | hw
      · exact ⟨p, h⟩
      · exact ih hw

end Route

end Prototypal
