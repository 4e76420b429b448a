import Mathlib

/-!
# Runs of fallible steps

A step that may fail is a function into `Except`, or into `Option` where the failure is a panic;
a run of such steps over a list of inputs is `List.foldlM`. The rules here are the ones every
proof about a run uses: a bind that succeeded splits into its two successful parts, a run that
`decide` computed to end well has a result, an invariant that every step keeps holds at the end of
a run, and a preorder that every step moves along relates the start and the end of a run.

A counted loop `for i in s..s + n` whose body may panic is a `foldlM` in `Option` over
`List.range' s n`. Its rule is the invariant rule of total correctness: an invariant indexed by
the passes made, which every pass keeps without panicking, holds after the loop, and the loop
does not panic.
-/

namespace Dacha.Run

universe u v w

variable {ε : Type u} {α β : Type v}

/-- A bind that succeeds: both computations succeeded. -/
theorem bind_eq_ok {x : Except ε α} {f : α → Except ε β} {b : β} :
    x >>= f = .ok b ↔ ∃ a, x = .ok a ∧ f a = .ok b := by
  cases x with
  | error e => simp [bind, Except.bind]
  | ok a => simp [bind, Except.bind]

/-- A computed run that ends well, with the computed property of its result. -/
theorem exists_ok_of_any {r : Except ε α} {p : α → Bool} (h : r.toOption.any p = true) :
    ∃ a, r = .ok a ∧ p a = true := by
  cases r with
  | error e => simp [Except.toOption] at h
  | ok a => exact ⟨a, rfl, by simpa [Except.toOption] using h⟩

variable {σ : Type v} {ι : Type w}

variable {f : σ → ι → Except ε σ}

/-- The invariant rule for a run of fallible steps: an invariant that every step over an input
of the run keeps holds at the end of every run that succeeds. -/
theorem foldlM_inv {I : σ → Prop} :
    ∀ (is : List ι), (∀ s, ∀ i ∈ is, ∀ s', I s → f s i = .ok s' → I s') →
      ∀ s s', I s → is.foldlM f s = .ok s' → I s' := by
  intro is
  induction is with
  | nil =>
    intro _ s s' hs h
    cases h
    exact hs
  | cons i is ih =>
    intro hf s s' hs h
    obtain ⟨s₁, h₁, hrest⟩ := bind_eq_ok.mp h
    have hrestf : ∀ s, ∀ j ∈ is, ∀ s', I s → f s j = .ok s' → I s' :=
      fun s j hj => hf s j (List.mem_cons_of_mem i hj)
    exact ih hrestf s₁ s' (hf s i List.mem_cons_self s₁ hs h₁) hrest

/-- The rule for a preorder that every step moves along, under an invariant: it relates the start
and the end of every run that succeeds. -/
theorem foldlM_rel {I : σ → Prop} {R : σ → σ → Prop} [IsPreorder σ R] (is : List ι)
    (hf : ∀ s, ∀ i ∈ is, ∀ s', I s → f s i = .ok s' → I s' ∧ R s s') (s s' : σ) (hs : I s)
    (h : is.foldlM f s = .ok s') : I s' ∧ R s s' := by
  have hstep : ∀ s₁, ∀ i ∈ is, ∀ s₂, I s₁ ∧ R s s₁ → f s₁ i = .ok s₂ → I s₂ ∧ R s s₂ := by
    intro s₁ i hi s₂ ⟨hs₁, hr₁⟩ h₁
    obtain ⟨hs₂, hr₂⟩ := hf s₁ i hi s₂ hs₁ h₁
    exact ⟨hs₂, IsTrans.trans _ _ _ hr₁ hr₂⟩
  exact foldlM_inv is hstep s s' ⟨hs, refl s⟩ h

section Loop

variable {σ : Type*}

/-- The invariant rule for `for i in s..s + n`. -/
theorem foldlM_range'_inv (f : σ → ℕ → Option σ) (n : ℕ) :
    ∀ (s : ℕ) (I : ℕ → σ → Prop),
      (∀ i < n, ∀ st, I i st → ∃ st', f st (s + i) = some st' ∧ I (i + 1) st') →
      ∀ st, I 0 st → ∃ st', (List.range' s n).foldlM f st = some st' ∧ I n st' := by
  induction n with
  | zero =>
    intro s I _ st h0
    exact ⟨st, rfl, h0⟩
  | succ n ih =>
    intro s I hstep st h0
    obtain ⟨st1, hst1, h1⟩ := hstep 0 (by omega) st h0
    have hrest : ∀ i < n, ∀ st, I (i + 1) st →
        ∃ st', f st (s + 1 + i) = some st' ∧ I (i + 1 + 1) st' := by
      intro i hi st hI
      rw [Nat.add_assoc, Nat.add_comm 1 i]
      exact hstep (i + 1) (by omega) st hI
    obtain ⟨st', hrun, hn⟩ := ih (s + 1) (fun i => I (i + 1)) hrest st1 h1
    refine ⟨st', ?_, hn⟩
    rw [List.range'_succ, List.foldlM_cons, Nat.add_zero] at *
    simp [hst1, hrun]

/-- The invariant rule for `for i in 0..n`. -/
theorem foldlM_range_inv (f : σ → ℕ → Option σ) (n : ℕ) (I : ℕ → σ → Prop)
    (hstep : ∀ i < n, ∀ st, I i st → ∃ st', f st i = some st' ∧ I (i + 1) st')
    (st : σ) (h0 : I 0 st) : ∃ st', (List.range n).foldlM f st = some st' ∧ I n st' := by
  rw [List.range_eq_range']
  exact foldlM_range'_inv f n 0 I (fun i hi st hI => by rw [Nat.zero_add]; exact hstep i hi st hI)
    st h0

end Loop

end Dacha.Run
