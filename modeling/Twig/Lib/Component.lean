import Twig.Lib.Fallible
import Twig.Lib.Run

/-!
# Components of a state

A *component* of a step function is a view of the state and a set of labels that concern it: the
other labels leave the view alone, and whether a concerned label is taken, and what it does to the
view, depends on the view only. The rest of the state is as good as absent.

* `Component.run_filter` — the concerned labels of a run are a run by themselves, with the same
  view at its end;
* `Component.view_congr` — runs with the same concerned labels end in the same view;
* `Component.commute` — labels that concern different components can be exchanged;
* `Component.view_eq_foldl` — a view that concerned labels write as a function of the view says.
-/

universe u v w x

variable {σ : Type u} {α : Type v} {ε : Type w} {ν : Type x}

/-- A view of the state that only the concerned labels change, and that decides what they do. -/
structure Component (step : σ → α → Except ε σ) (concerns : α → Prop) (view : σ → ν) : Prop where
  frame : ∀ {s s' : σ} {a : α}, ¬ concerns a → step s a = .ok s' → view s' = view s
  congr : ∀ {s t : σ} {a : α}, concerns a → view s = view t →
    Fallible.Simulates (fun s' t' => view s' = view t') (step t a) (step s a)

namespace Component

variable {step : σ → α → Except ε σ} {concerns : α → Prop} {view : σ → ν}
  {guard guard' : σ → α → Prop} {s₀ t₀ s t : σ} {tr tr' : List α}

/-! ### Runs -/

/-- The concerned labels, with one label more. -/
theorem filter_snoc [DecidablePred concerns] {a : α} :
    ((tr ++ [a]).filter fun a => concerns a) =
      if concerns a then (tr.filter fun a => concerns a) ++ [a]
      else tr.filter fun a => concerns a := by
  rw [List.filter_append]
  split_ifs with ha <;> simp [ha]

/-- **Projection.** The concerned labels of a run can be taken by themselves, from any state with
the same view, and lead to the same view. -/
theorem run_filter [DecidablePred concerns] (h : Component step concerns view)
    (guard' : σ → α → Prop)
    (hguard : ∀ s t a, concerns a → view s = view t → guard s a → guard' t a)
    (hstart : view s₀ = view t₀) (hrun : Run step guard s₀ tr s) :
    ∃ t, Run step guard' t₀ (tr.filter fun a => concerns a) t ∧ view t = view s := by
  refine hrun.invariant
    (I := fun tr s => ∃ t, Run step guard' t₀ (tr.filter fun a => concerns a) t ∧ view t = view s)
    ⟨t₀, .init, hstart.symm⟩ ?_
  rintro tr s a s' - ⟨t, hrun, hview⟩ hg hs
  rw [filter_snoc]
  split_ifs with ha
  · obtain ⟨t', ht', hview'⟩ := h.congr ha hview.symm s' hs
    exact ⟨t', .snoc hrun (hguard s t a ha hview.symm hg) ht', hview'.symm⟩
  · exact ⟨t, hrun, hview.trans (h.frame ha hs).symm⟩

/-- **Noninterference.** Runs with the same concerned labels, from states with the same view, end
in the same view. -/
theorem view_congr [DecidablePred concerns] (h : Component step concerns view)
    (hstart : view s₀ = view t₀) (hrun : Run step guard s₀ tr s) (hrun' : Run step guard' t₀ tr' t)
    (hsame : (tr.filter fun a => concerns a) = tr'.filter fun a => concerns a) :
    view s = view t := by
  obtain ⟨s₁, hs₁, hview⟩ := h.run_filter (fun _ _ => True) (fun _ _ _ _ _ _ => trivial) hstart
    hrun
  obtain ⟨t₁, ht₁, hview'⟩ := h.run_filter (fun _ _ => True) (fun _ _ _ _ _ _ => trivial) rfl
    hrun'
  rw [← hview, ← hview', hs₁.unique (hsame ▸ ht₁)]

/-- What a view that is written as a function of itself comes to: the concerned labels, applied
one after the other. -/
theorem view_eq_foldl [DecidablePred concerns] (write : ν → α → ν)
    (hframe : ∀ s a s', ¬ concerns a → step s a = .ok s' → view s' = view s)
    (hwrite : ∀ s a s', concerns a → step s a = .ok s' → view s' = write (view s) a)
    (hrun : Run step guard s₀ tr s) :
    view s = (tr.filter fun a => concerns a).foldl write (view s₀) := by
  refine hrun.invariant
    (I := fun tr s => view s = (tr.filter fun a => concerns a).foldl write (view s₀)) rfl ?_
  intro tr s a s' _ hI _ hs
  rw [filter_snoc]
  split_ifs with ha
  · rw [hwrite s a s' ha hs, List.foldl_append, ← hI]
    rfl
  · rw [hframe s a s' ha hs, hI]

/-! ### Exchange -/

/-- **Exchange.** Where the components determine the state, two labels that concern one component
each, not the same one, can be taken in either order. -/
theorem commute {κ : Type*} {concerns : κ → α → Prop} {view : κ → σ → ν}
    (h : ∀ k, Component step (concerns k) (view k))
    (hext : ∀ s t, (∀ k, view k s = view k t) → s = t) {a b : α} {k l : κ} (hkl : k ≠ l)
    (ha : ∀ j, concerns j a ↔ j = k) (hb : ∀ j, concerns j b ↔ j = l) {s s₁ s₂ : σ}
    (hs₁ : step s a = .ok s₁) (hs₂ : step s₁ b = .ok s₂) :
    ∃ t₁, step s b = .ok t₁ ∧ step t₁ a = .ok s₂ := by
  have hal : ¬ concerns l a := fun hla => hkl ((ha l).mp hla).symm
  have hbk : ¬ concerns k b := fun hkb => hkl ((hb k).mp hkb)
  obtain ⟨t₁, ht₁, hlb⟩ := (h l).congr ((hb l).mpr rfl) ((h l).frame hal hs₁) s₂ hs₂
  obtain ⟨t₂, ht₂, hka⟩ := (h k).congr ((ha k).mpr rfl) ((h k).frame hbk ht₁).symm s₁ hs₁
  refine ⟨t₁, ht₁, ht₂.trans (congrArg Except.ok (hext t₂ s₂ ?_))⟩
  intro j
  rcases eq_or_ne j k with rfl | hjk
  · rw [← hka, (h j).frame hbk hs₂]
  · rw [(h j).frame (fun hja => hjk ((ha j).mp hja)) ht₂]
    rcases eq_or_ne j l with rfl | hjl
    · exact hlb.symm
    · have hjb : ¬ concerns j b := fun hjb => hjl ((hb j).mp hjb)
      rw [(h j).frame hjb ht₁, (h j).frame hjb hs₂,
        (h j).frame (fun hja => hjk ((ha j).mp hja)) hs₁]

end Component
