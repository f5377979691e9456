import Mathlib.Logic.Basic
set_option autoImplicit false

/-! Total correctness in the `Except` monad. `Returns P x` says that the
computation `x` does not fail and that its value satisfies `P`; a proof of it
is a proof that no error path is taken. The rules are those of a Hoare logic
for total correctness: `pure` establishes its postcondition, `bind` threads an
intermediate assertion, and a monadic fold keeps an invariant when every step
does. Recursive programs are handled by induction over their fuel or their
data, with these rules at each step. -/

namespace Stenographer.Lib

universe u v

variable {ε : Type u} {α β : Type v}

/-- `x` returns a value, and that value satisfies `P`. -/
def Returns (P : α → Prop) (x : Except ε α) : Prop := ∃ a, x = .ok a ∧ P a

theorem returns_pure {P : α → Prop} {a : α} (h : P a) : Returns P (pure a : Except ε α) :=
  ⟨a, rfl, h⟩

theorem Returns.mono {P Q : α → Prop} {x : Except ε α} (hx : Returns Q x)
    (h : ∀ a, Q a → P a) : Returns P x := by
  obtain ⟨a, rfl, hQ⟩ := hx
  exact ⟨a, rfl, h a hQ⟩

/-- Sequencing: an intermediate assertion `Q` on the first result. -/
theorem Returns.bind {P : β → Prop} {Q : α → Prop} {x : Except ε α} {f : α → Except ε β}
    (hx : Returns Q x) (hf : ∀ a, Q a → Returns P (f a)) : Returns P (x >>= f) := by
  obtain ⟨a, rfl, hQ⟩ := hx
  exact hf a hQ

theorem Returns.map {P : β → Prop} {Q : α → Prop} {x : Except ε α} {f : α → β}
    (hx : Returns Q x) (hf : ∀ a, Q a → P (f a)) : Returns P (f <$> x) := by
  obtain ⟨a, rfl, hQ⟩ := hx
  exact ⟨f a, rfl, hf a hQ⟩

theorem bind_eq_pure_iff {x : Except ε α} {f : α → Except ε β} {b : β} :
    x >>= f = pure b ↔ ∃ a, x = pure a ∧ f a = pure b := by
  cases x with
  | error e =>
    constructor
    · intro h
      cases h
    · rintro ⟨a, ha, -⟩
      cases ha
  | ok a =>
    constructor
    · intro h
      exact ⟨a, rfl, h⟩
    · rintro ⟨a', ha', h⟩
      cases ha'
      exact h

theorem map_eq_pure_iff {x : Except ε α} {f : α → β} {b : β} :
    f <$> x = pure b ↔ ∃ a, x = pure a ∧ f a = b := by
  cases x with
  | error e =>
    constructor
    · intro h
      cases h
    · rintro ⟨a, ha, -⟩
      cases ha
  | ok a =>
    constructor
    · intro h
      exact ⟨a, rfl, Except.ok.inj h⟩
    · rintro ⟨a', ha', rfl⟩
      cases ha'
      rfl

theorem mapError_eq_pure_iff {ε' : Type u} {x : Except ε α} {f : ε → ε'} {a : α} :
    x.mapError f = pure a ↔ x = pure a := by
  cases x with
  | error e =>
    constructor
    · intro h
      cases h
    · intro h
      cases h
  | ok a' =>
    constructor
    · intro h
      cases h
      rfl
    · intro h
      cases h
      rfl

theorem mapM_eq_pure_map {γ : Type*} {f : γ → Except ε α} {g : γ → α} {l : List γ}
    (h : ∀ c ∈ l, f c = pure (g c)) : l.mapM f = pure (l.map g) := by
  induction l with
  | nil => rfl
  | cons c l ih =>
    rw [List.mapM_cons, h c List.mem_cons_self, ih fun c' hc' => h c' (List.mem_cons_of_mem _ hc')]
    rfl

/-- The loop rule for a monadic left fold: an invariant that every step keeps
on the elements of the list. -/
theorem returns_foldlM {γ : Type*} (inv : β → Prop) (f : β → γ → Except ε β) {l : List γ}
    (hstep : ∀ b c, c ∈ l → inv b → Returns inv (f b c)) {b : β} (h0 : inv b) :
    Returns inv (l.foldlM f b) := by
  induction l generalizing b with
  | nil => exact returns_pure h0
  | cons c l ih =>
    rw [List.foldlM_cons]
    apply Returns.bind (hstep b c List.mem_cons_self h0)
    intro b' hb'
    exact ih (fun b c hc => hstep b c (List.mem_cons_of_mem _ hc)) hb'

end Stenographer.Lib
