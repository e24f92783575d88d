import Mathlib

/-!
# Runs of a fallible step function

`Run step guard s₀ tr s` says that the labels `tr`, taken in order from `s₀`, all succeed and
lead to `s`, each label meeting `guard` in the state it is taken in. The trace is kept, so that
an invariant may relate the state to the history that produced it.

* `Run.invariant` — the induction principle: an invariant of trace and state that holds at the
  start and is carried over by every guarded successful step holds at the end of every run;
* `Run.trans` — runs compose;
* `Run.unique` — the labels determine the end of a run;
* `Run.project` — a part of the state that some of the labels move runs by itself;
* `Run.look_eq_lastOf` — what is stored at a key is what the last label with that key wrote.
-/

universe u v w

variable {σ : Type u} {α : Type v} {ε : Type w}

/-- The runs of `step` from `s₀` whose labels meet `guard`: trace and state reached. -/
inductive Run (step : σ → α → Except ε σ) (guard : σ → α → Prop) (s₀ : σ) :
    List α → σ → Prop
  | init : Run step guard s₀ [] s₀
  | snoc {tr : List α} {s s' : σ} {a : α} : Run step guard s₀ tr s → guard s a →
      step s a = .ok s' → Run step guard s₀ (tr ++ [a]) s'

namespace Run

variable {step : σ → α → Except ε σ} {guard : σ → α → Prop} {s₀ : σ}

/-- **Invariance.** What holds at the start and is carried over by every guarded successful
step holds of every run. -/
theorem invariant {I : List α → σ → Prop} (hinit : I [] s₀)
    (hstep : ∀ tr s a s', Run step guard s₀ tr s → I tr s → guard s a → step s a = .ok s' →
      I (tr ++ [a]) s')
    {tr : List α} {s : σ} (h : Run step guard s₀ tr s) : I tr s := by
  induction h with
  | init => exact hinit
  | snoc hr hg hs ih => exact hstep _ _ _ _ hr ih hg hs

/-- An invariant of the state alone. -/
theorem state_invariant {I : σ → Prop} (hinit : I s₀)
    (hstep : ∀ s a s', I s → guard s a → step s a = .ok s' → I s')
    {tr : List α} {s : σ} (h : Run step guard s₀ tr s) : I s :=
  h.invariant (I := fun _ s => I s) hinit fun _ _ _ _ _ hI hg hs => hstep _ _ _ hI hg hs

/-- What a successful step says about its label holds of all labels of a run. -/
theorem forall_mem {P : α → Prop} (hstep : ∀ s a s', step s a = .ok s' → P a)
    {tr : List α} {s : σ} (h : Run step guard s₀ tr s) : ∀ a ∈ tr, P a := by
  refine h.invariant (I := fun tr _ => ∀ a ∈ tr, P a) (fun _ ha => absurd ha List.not_mem_nil) ?_
  intro tr s a s' _ hI _ hs b hb
  rcases List.mem_append.mp hb with hb | hb
  · exact hI b hb
  · exact List.mem_singleton.mp hb ▸ hstep s a s' hs

/-- Runs compose. -/
theorem trans {tr tr' : List α} {s₁ s₂ : σ} (h : Run step guard s₀ tr s₁)
    (h' : Run step guard s₁ tr' s₂) : Run step guard s₀ (tr ++ tr') s₂ := by
  induction h' with
  | init => simpa using h
  | snoc _ hg hs ih => rw [← List.append_assoc]; exact .snoc ih hg hs

/-- The labels and the start of a run determine its end, whatever the guards. -/
theorem unique {guard' : σ → α → Prop} {tr : List α} {s t : σ} (h : Run step guard s₀ tr s)
    (h' : Run step guard' s₀ tr t) : s = t := by
  induction h generalizing t with
  | init =>
    generalize hnil : ([] : List α) = tr' at h'
    cases h' with
    | init => rfl
    | snoc _ _ _ => exact absurd hnil.symm (List.concat_ne_nil _ _)
  | @snoc tr s₁ s₂ a _ _ hs ih =>
    generalize hsnoc : tr ++ [a] = tr' at h'
    cases h' with
    | init => exact absurd hsnoc (List.concat_ne_nil _ _)
    | snoc hr _ hs' =>
      obtain ⟨rfl, hlast⟩ := List.append_inj' hsnoc rfl
      obtain rfl := List.singleton_inj.mp hlast
      obtain rfl := ih hr
      exact Except.ok.inj (hs.symm.trans hs')

/-- **Projection.** A part of the state that moves with some of the labels, as a system of its own
says, and stands still with the others: a run of the whole is a run of that system. -/
theorem project {τ : Type*} {β : Type*} {step' : τ → β → Except ε τ} {guard' : τ → β → Prop}
    (part : σ → τ) (label : α → Option β)
    (hother : ∀ s a s', label a = none → guard s a → step s a = .ok s' → part s' = part s)
    (hown : ∀ s a s' b, label a = some b → guard s a → step s a = .ok s' →
      guard' (part s) b ∧ step' (part s) b = .ok (part s'))
    {tr : List α} {s : σ} (h : Run step guard s₀ tr s) :
    Run step' guard' (part s₀) (tr.filterMap label) (part s) := by
  refine h.invariant (I := fun tr s => Run step' guard' (part s₀) (tr.filterMap label) (part s))
    .init ?_
  intro tr s a s' _ hrun hg hs
  rw [List.filterMap_append]
  cases hlabel : label a with
  | none =>
    have hnil : [a].filterMap label = [] := by simp [hlabel]
    rw [hnil, List.append_nil, hother s a s' hlabel hg hs]
    exact hrun
  | some b =>
    have hone : [a].filterMap label = [b] := by simp [hlabel]
    obtain ⟨hg', hs'⟩ := hown s a s' b hlabel hg hs
    rw [hone]
    exact .snoc hrun hg' hs'

/-- **Quiet runs**: what quiet labels leave alone stands still along a run of them. -/
theorem view_eq_of_quiet {τ : Type*} (view : σ → τ) {quiet : α → Prop} {tr : List α} {s : σ}
    (h : Run step guard s₀ tr s) (hquiet : ∀ a ∈ tr, quiet a)
    (hstep : ∀ s a s', quiet a → guard s a → step s a = .ok s' → view s' = view s) :
    view s = view s₀ := by
  induction h with
  | init => rfl
  | snoc _ hg hs ih =>
    rw [hstep _ _ _ (hquiet _ (by simp)) hg hs]
    exact ih fun a ha => hquiet a (List.mem_append_left _ ha)

/-- A list of labels that can be taken one after the other, and that every state allows. -/
theorem of_foldlM {tr : List α} {s : σ} (hg : ∀ s, ∀ a ∈ tr, guard s a)
    (h : tr.foldlM step s₀ = .ok s) : Run step guard s₀ tr s := by
  induction tr generalizing s₀ with
  | nil =>
    obtain rfl : s₀ = s := Except.ok.inj h
    exact .init
  | cons a tr ih =>
    rw [List.foldlM_cons] at h
    cases hs : step s₀ a with
    | error e => rw [hs] at h; exact nomatch h
    | ok s₁ =>
      rw [hs] at h
      have hone : Run step guard s₀ [a] s₁ := .snoc .init (hg s₀ a List.mem_cons_self) hs
      exact hone.trans (ih (fun s b hb => hg s b (List.mem_cons_of_mem a hb)) h)

/-- Labels that can be taken one after the other, each allowed where an invariant holds. -/
theorem of_foldlM_invariant {I : σ → Prop} {tr : List α} {s : σ} (hI : I s₀)
    (hg : ∀ s, ∀ a ∈ tr, I s → guard s a)
    (hstep : ∀ s, ∀ a ∈ tr, ∀ s', I s → step s a = .ok s' → I s')
    (h : tr.foldlM step s₀ = .ok s) : Run step guard s₀ tr s ∧ I s := by
  induction tr generalizing s₀ with
  | nil =>
    obtain rfl : s₀ = s := Except.ok.inj h
    exact ⟨.init, hI⟩
  | cons a tr ih =>
    rw [List.foldlM_cons] at h
    cases hs : step s₀ a with
    | error e => rw [hs] at h; exact nomatch h
    | ok s₁ =>
      rw [hs] at h
      have hone : Run step guard s₀ [a] s₁ := .snoc .init (hg s₀ a List.mem_cons_self hI) hs
      obtain ⟨hrest, hend⟩ := ih (hstep s₀ a List.mem_cons_self s₁ hI hs)
        (fun s b hb => hg s b (List.mem_cons_of_mem a hb))
        (fun s b hb => hstep s b (List.mem_cons_of_mem a hb)) h
      exact ⟨hone.trans hrest, hend⟩

/-- The step that is refused with `e` where the label is not allowed. -/
def checked (step : σ → α → Except ε σ) (guard : σ → α → Prop) [∀ s a, Decidable (guard s a)]
    (e : ε) (s : σ) (a : α) : Except ε σ :=
  if guard s a then step s a else .error e

/-- A list of labels that can be taken one after the other, each one allowed in its state. -/
theorem of_checked [∀ s a, Decidable (guard s a)] {e : ε} {tr : List α} {s : σ}
    (h : tr.foldlM (checked step guard e) s₀ = .ok s) : Run step guard s₀ tr s := by
  induction tr generalizing s₀ with
  | nil =>
    obtain rfl : s₀ = s := Except.ok.inj h
    exact .init
  | cons a tr ih =>
    rw [List.foldlM_cons, checked] at h
    split_ifs at h with hg
    · cases hs : step s₀ a with
      | error e => rw [hs] at h; exact nomatch h
      | ok s₁ =>
        rw [hs] at h
        have hone : Run step guard s₀ [a] s₁ := .snoc .init hg hs
        exact hone.trans (ih h)
    · exact nomatch h

/-- A single step. -/
theorem single {a : α} {s : σ} (hg : guard s₀ a) (hs : step s₀ a = .ok s) :
    Run step guard s₀ [a] s :=
  .snoc .init hg hs

/-! ### Writes -/

section Writes

variable {κ : Type*} {ν : Type*} [DecidableEq κ] {key : α → κ} {k : κ} {tr : List α}

/-- The last label of a trace that has the key. -/
def lastOf (key : α → κ) (k : κ) (tr : List α) : Option α :=
  (tr.filter fun a => key a = k).getLast?

@[simp]
theorem lastOf_snoc {a : α} :
    lastOf key k (tr ++ [a]) = if key a = k then some a else lastOf key k tr := by
  rw [lastOf, List.filter_append]
  split_ifs with ha
  · have hone : ([a].filter fun b => key b = k) = [a] := by simp [ha]
    rw [hone, List.getLast?_concat]
  · have hnone : ([a].filter fun b => key b = k) = [] := by simp [ha]
    rw [hnone, List.append_nil]
    rfl

/-- The last label with a key is one of the trace. -/
theorem mem_of_lastOf {a : α} (h : lastOf key k tr = some a) : a ∈ tr :=
  (List.mem_filter.mp (List.mem_of_getLast? h)).1

/-- **Last write.** Where each step writes at the key of its label and nowhere else, what is
found at a key at the end of a run is what the last label with that key has written. -/
theorem look_eq_lastOf {look : σ → κ → ν} {written : α → ν}
    (hstep : ∀ s a s', step s a = .ok s' → ∀ k,
      look s' k = if key a = k then written a else look s k)
    {s : σ} (h : Run step guard s₀ tr s) (k : κ) :
    look s k = (lastOf key k tr).elim (look s₀ k) written := by
  refine h.invariant (I := fun tr s => look s k = (lastOf key k tr).elim (look s₀ k) written)
    rfl ?_
  intro tr s a s' _ hI _ hs
  rw [hstep s a s' hs k, lastOf_snoc]
  split_ifs with hkey
  · rfl
  · exact hI

end Writes

end Run
