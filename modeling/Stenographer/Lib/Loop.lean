import Mathlib.Order.Basic
set_option autoImplicit false

/-! A loop `while cont s do s := next s i` in which the environment (a
scheduler, a kernel) picks each pass's choice `i` among those `valid s`
allows. `Ends` says that the loop ends whatever the choices: while it runs
some choice is possible, and every possible choice leads to a state from
which it ends. Two rules settle it: a variant that every pass decreases, with
an invariant that keeps a choice possible, proves `Ends`; a stuck property
that implies the loop goes on and that every pass keeps refutes it. -/

namespace Stenographer.Lib

variable {σ ι : Type*} (cont : σ → Prop) (valid : σ → ι → Prop) (next : σ → ι → σ)

/-- The loop ends from `s` under every sequence of choices. -/
inductive Ends : σ → Prop
  | done {s : σ} : ¬cont s → Ends s
  | step {s : σ} : cont s → (∃ i, valid s i) → (∀ i, valid s i → Ends (next s i)) → Ends s

variable {cont valid next}

/-- The variant rule: an invariant under which a choice is possible while the
loop runs, and every pass it runs decreases a natural number. -/
theorem ends_of_variant (inv : σ → Prop) (μ : σ → ℕ)
    (hprog : ∀ s, inv s → cont s → ∃ i, valid s i)
    (hstep : ∀ s i, inv s → cont s → valid s i → inv (next s i) ∧ μ (next s i) < μ s)
    {s : σ} (hs : inv s) : Ends cont valid next s := by
  obtain ⟨n, hn⟩ : ∃ n, μ s = n := ⟨_, rfl⟩
  induction n using Nat.strongRecOn generalizing s with
  | ind n ih =>
    by_cases hc : cont s
    · refine .step hc (hprog s hs hc) fun i hi => ?_
      obtain ⟨hinv, hlt⟩ := hstep s i hs hc hi
      exact ih _ (hn ▸ hlt) hinv rfl
    · exact .done hc

/-- The stuck rule: a property that keeps the loop going and that every pass
keeps. -/
theorem not_ends_of_stuck (stuck : σ → Prop) (hcont : ∀ s, stuck s → cont s)
    (hstep : ∀ s i, stuck s → valid s i → stuck (next s i)) {s : σ} (hs : stuck s) :
    ¬Ends cont valid next s := by
  intro h
  induction h with
  | done hc => exact hc (hcont _ hs)
  | step _ hex _ ih =>
    obtain ⟨i, hi⟩ := hex
    exact ih i hi (hstep _ i hs hi)

/-- A loop that ends under every choice ends under fewer choices, as long as
one is left while it runs. -/
theorem Ends.anti {valid' : σ → ι → Prop} (hsub : ∀ s i, valid' s i → valid s i)
    (hprog : ∀ s, cont s → ∃ i, valid' s i) {s : σ} (h : Ends cont valid next s) :
    Ends cont valid' next s := by
  induction h with
  | done hc => exact .done hc
  | step hc _ _ ih => exact .step hc (hprog _ hc) fun i hi => ih i (hsub _ i hi)

end Stenographer.Lib
