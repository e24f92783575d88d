import Mathlib

/-!
# Fallible computations and their loops

Rules for computations in `Except ε`: inversion of a sequence that returned, and the loop rules
for `List.foldlM`, the shape every loop of a translated program takes here.

* `bind_eq_ok_iff` — a sequence returns exactly when both of its parts do;
* `foldlM_invariant` — what a loop that returned has established;
* `exists_foldlM` — a loop each of whose iterations returns;
* `exists_foldlM_iff` — a loop whose iterations do not decide about each other;
* `foldlM_map` — a loop that mirrors another one ends as that one does;
* `foldlM_congr` — loops whose iterations agree on the elements of the list;
* `returns` — evaluation of a concrete computation, to be decided;
* `NeverFails` — the computations that cannot end in a given error, with its own sequence and
  loop rules;
* `Simulates` — the computations that return whenever another one does, with a related result.

The loop invariants read the *remaining* part of the list, so that a statement about a sum of
the elements is carried as "what is accumulated plus what is still to come".
-/

namespace Fallible

universe u v w

variable {ε : Type u} {α β : Type v} {γ : Type w}

/-! ### Sequencing -/

/-- A sequence returns `b` exactly when its first part returns some `a` from which the second
part returns `b`. -/
@[simp]
theorem bind_eq_ok_iff {x : Except ε α} {f : α → Except ε β} {b : β} :
    (x >>= f) = .ok b ↔ ∃ a, x = .ok a ∧ f a = .ok b := by
  cases x with
  | error e => simp [bind, Except.bind]
  | ok a => simp [bind, Except.bind]

theorem ok_bind {a : α} {f : α → Except ε β} : (Except.ok a >>= f) = f a := rfl

theorem error_bind {e : ε} {f : α → Except ε β} : (Except.error e >>= f) = .error e := rfl

@[simp]
theorem pure_eq_ok_iff {a b : α} : (pure a : Except ε α) = .ok b ↔ a = b := by
  simp [pure, Except.pure]

theorem map_eq_ok_iff {x : Except ε α} {f : α → β} {b : β} :
    x.map f = .ok b ↔ ∃ a, x = .ok a ∧ f a = b := by
  cases x with
  | error e => simp [Except.map]
  | ok a => simp [Except.map]

/-! ### Loops that return -/

/-- **Loop invariant.** An invariant of the remaining list and the accumulator that every
successful iteration carries over holds, with nothing remaining, of a returned result. -/
theorem foldlM_invariant {f : β → γ → Except ε β} (I : List γ → β → Prop)
    (hstep : ∀ c l b b', I (c :: l) b → f b c = .ok b' → I l b') :
    ∀ {l : List γ} {b b' : β}, I l b → l.foldlM f b = .ok b' → I [] b' := by
  intro l
  induction l with
  | nil =>
    intro b b' hI h
    obtain rfl : b = b' := by simpa using h
    exact hI
  | cons c l ih =>
    intro b b' hI h
    rw [List.foldlM_cons, bind_eq_ok_iff] at h
    obtain ⟨b₁, h₁, h₂⟩ := h
    exact ih (hstep c l b b₁ hI h₁) h₂

/-- Loops whose iterations agree on the elements of the list agree. -/
theorem foldlM_congr {f g : β → γ → Except ε β} {l : List γ}
    (h : ∀ c ∈ l, ∀ b, f b c = g b c) {b : β} : l.foldlM f b = l.foldlM g b := by
  induction l generalizing b with
  | nil => rfl
  | cons c l ih =>
    rw [List.foldlM_cons, List.foldlM_cons, h c List.mem_cons_self]
    exact bind_congr fun b' => ih fun c' hc' => h c' (List.mem_cons_of_mem c hc')

/-- **Simulation.** A loop each of whose iterations mirrors one of another loop along `g` ends,
in a result or in an error, as that loop does. -/
theorem foldlM_map {δ : Type v} {f : β → γ → Except ε β} {f' : δ → γ → Except ε δ} (g : β → δ)
    (h : ∀ b c, f' (g b) c = f b c >>= fun b' => pure (g b')) :
    ∀ (l : List γ) (b : β), l.foldlM f' (g b) = l.foldlM f b >>= fun b' => pure (g b') := by
  intro l
  induction l with
  | nil =>
    intro b
    rfl
  | cons c l ih =>
    intro b
    rw [List.foldlM_cons, List.foldlM_cons, h]
    cases f b c with
    | error e => rfl
    | ok b₁ => exact ih b₁

/-- Every element of a loop that returned has had its iteration. -/
theorem exists_of_foldlM {f : β → γ → Except ε β} {l : List γ} {b b' : β}
    (h : l.foldlM f b = .ok b') {c : γ} (hc : c ∈ l) : ∃ b₁ b₂, f b₁ c = .ok b₂ := by
  induction l generalizing b with
  | nil => exact absurd hc List.not_mem_nil
  | cons d l ih =>
    rw [List.foldlM_cons, bind_eq_ok_iff] at h
    obtain ⟨b₁, h₁, h₂⟩ := h
    rcases List.mem_cons.mp hc with rfl | hc
    · exact ⟨b, b₁, h₁⟩
    · exact ih h₂ hc

/-- **A loop returns** when every iteration does from where its invariant holds, and carries the
invariant over. -/
theorem exists_foldlM {f : β → γ → Except ε β} {I : β → Prop} {l : List γ}
    (hstep : ∀ c ∈ l, ∀ b, I b → ∃ b', f b c = .ok b' ∧ I b') :
    ∀ {b : β}, I b → ∃ b', l.foldlM f b = .ok b' ∧ I b' := by
  induction l with
  | nil => exact fun {b} hI => ⟨b, rfl, hI⟩
  | cons c l ih =>
    intro b hI
    obtain ⟨b₁, h₁, hI₁⟩ := hstep c List.mem_cons_self b hI
    rw [List.foldlM_cons, h₁]
    exact ih (fun d hd => hstep d (List.mem_cons_of_mem c hd)) hI₁

/-- **Independent iterations**: a loop none of whose iterations decides about a later one returns
exactly when each of them does from where the loop starts. -/
theorem exists_foldlM_iff {f : β → γ → Except ε β} {R : γ → γ → Prop}
    (hf : ∀ b c b' d, f b c = .ok b' → R c d → ((∃ r, f b' d = .ok r) ↔ ∃ r, f b d = .ok r))
    {l : List γ} (hl : l.Pairwise R) {b : β} :
    (∃ r, l.foldlM f b = .ok r) ↔ ∀ c ∈ l, ∃ r, f b c = .ok r := by
  induction l generalizing b with
  | nil => exact iff_of_true ⟨b, rfl⟩ (by simp)
  | cons c l ih =>
    obtain ⟨hc, hrest⟩ := List.pairwise_cons.mp hl
    simp only [List.foldlM_cons, bind_eq_ok_iff, List.forall_mem_cons]
    constructor
    · rintro ⟨r, b', hb', hloop⟩
      have hlater := (ih hrest).mp ⟨r, hloop⟩
      exact ⟨⟨b', hb'⟩, fun d hd => (hf b c b' d hb' (hc d hd)).mp (hlater d hd)⟩
    · rintro ⟨⟨b', hb'⟩, hall⟩
      obtain ⟨r, hloop⟩ := (ih hrest).mpr fun d hd => (hf b c b' d hb' (hc d hd)).mpr (hall d hd)
      exact ⟨r, b', hb', hloop⟩

/-- A loop without an accumulator returns exactly when every iteration does. -/
theorem forM_eq_ok_iff {f : γ → Except ε PUnit} {l : List γ} {u : PUnit} :
    l.forM f = .ok u ↔ ∀ c ∈ l, f c = .ok .unit := by
  induction l with
  | nil => simp [pure_eq_ok_iff]
  | cons c l ih =>
    have hcons : (c :: l).forM f = (f c >>= fun _ => l.forM f) := rfl
    rw [hcons, bind_eq_ok_iff, List.forall_mem_cons]
    exact ⟨fun ⟨⟨⟩, hc, hl⟩ => ⟨hc, ih.mp hl⟩, fun ⟨hc, hl⟩ => ⟨.unit, hc, ih.mpr hl⟩⟩

/-! ### Evaluation -/

/-- The computation returns a value that passes the test. -/
def returns (x : Except ε α) (p : α → Bool) : Bool :=
  match x with
  | .ok a => p a
  | .error _ => false

theorem returns_iff {x : Except ε α} {p : α → Bool} :
    returns x p = true ↔ ∃ a, x = .ok a ∧ p a = true := by
  cases x with
  | error e => simp [returns]
  | ok a => simp [returns]

/-! ### Computations that avoid an error -/

/-- The computation does not end in the error `e`. -/
def NeverFails (e : ε) (x : Except ε α) : Prop := x ≠ .error e

theorem neverFails_ok {e : ε} {a : α} : NeverFails e (.ok a : Except ε α) := by
  simp [NeverFails]

theorem neverFails_pure {e : ε} {a : α} : NeverFails e (pure a : Except ε α) := by
  simp [NeverFails, pure, Except.pure]

theorem NeverFails.bind {e : ε} {x : Except ε α} {f : α → Except ε β} (hx : NeverFails e x)
    (hf : ∀ a, x = .ok a → NeverFails e (f a)) : NeverFails e (x >>= f) := by
  cases x with
  | error e' =>
    rintro ⟨⟩
    exact hx rfl
  | ok a => exact hf a rfl

/-- A loop avoids an error that no iteration runs into while its invariant holds. -/
theorem neverFails_foldlM {e : ε} {f : β → γ → Except ε β} (I : List γ → β → Prop)
    (hsafe : ∀ c l b, I (c :: l) b → NeverFails e (f b c))
    (hstep : ∀ c l b b', I (c :: l) b → f b c = .ok b' → I l b') :
    ∀ {l : List γ} {b : β}, I l b → NeverFails e (l.foldlM f b) := by
  intro l
  induction l with
  | nil => intro b _; exact neverFails_pure
  | cons c l ih =>
    intro b hI
    rw [List.foldlM_cons]
    exact (hsafe c l b hI).bind fun b₁ h₁ => ih (hstep c l b b₁ hI h₁)

/-! ### Computations in step -/

/-- Whenever `x` returns, so does `y`, with a related result. -/
def Simulates (R : α → β → Prop) (y : Except ε β) (x : Except ε α) : Prop :=
  ∀ a, x = .ok a → ∃ b, y = .ok b ∧ R a b

section Simulates

variable {α' β' : Type v} {R : α → β → Prop} {S : α' → β' → Prop}

theorem simulates_pure {a : α} {b : β} (h : R a b) :
    Simulates R (pure b : Except ε β) (pure a) := by
  rintro _ ⟨⟩
  exact ⟨b, rfl, h⟩

theorem simulates_self {x : Except ε α} : Simulates Eq x x := fun a h => ⟨a, h, rfl⟩

theorem Simulates.mono {T : α → β → Prop} {x : Except ε α} {y : Except ε β}
    (h : Simulates R y x) (hRT : ∀ a b, R a b → T a b) : Simulates T y x := by
  intro a ha
  obtain ⟨b, hb, hab⟩ := h a ha
  exact ⟨b, hb, hRT a b hab⟩

theorem Simulates.bind {x : Except ε α} {y : Except ε β} {f : α → Except ε α'}
    {g : β → Except ε β'} (h : Simulates R y x) (hfg : ∀ a b, R a b → Simulates S (g b) (f a)) :
    Simulates S (y >>= g) (x >>= f) := by
  intro a' ha'
  obtain ⟨a, ha, hfa⟩ := bind_eq_ok_iff.mp ha'
  obtain ⟨b, hb, hab⟩ := h a ha
  rw [hb]
  exact hfg a b hab a' hfa

/-- Two sequences with the same first part. -/
theorem simulates_bind {x : Except ε α} {f : α → Except ε α'} {g : α → Except ε β'}
    (hfg : ∀ a, Simulates S (g a) (f a)) : Simulates S (x >>= g) (x >>= f) :=
  simulates_self.bind fun a _ hab => hab ▸ hfg a

end Simulates

end Fallible
