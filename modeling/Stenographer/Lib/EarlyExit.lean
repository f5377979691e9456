import Stenographer.Lib.Returns
set_option autoImplicit false

/-! A loop over a list that breaks once its accumulator reaches a stopping
value: `foldlUntil f stop l b` runs the steps of the monadic fold
`l.foldlM f b` and returns as soon as a step leaves an accumulator that
satisfies `stop`. Two facts make such a loop a correct optimisation of the
full fold. When every step maps a stopping accumulator to itself, the full
fold and the loop agree whenever the full fold returns
(`foldlUntil_of_foldlM`); the loop may still return where the full fold fails,
since it never runs the steps it skips. And when the accumulator stands for a
value of a monoid-like operation and a stopping accumulator absorbs everything
combined with it, the loop's result stands for the combination of all the
elements (`foldlUntil_sound`). -/

namespace Stenographer.Lib

variable {ε α β δ : Type*}

/-- A left fold in `Except` that stops, with the accumulator as its value, as
soon as a step leaves an accumulator satisfying `stop`: a loop whose body ends
with `if stop then break`. -/
def foldlUntil (f : β → α → Except ε β) (stop : β → Prop) [DecidablePred stop] :
    List α → β → Except ε β
  | [], b => pure b
  | a :: l, b => do
    let b' ← f b a
    if stop b' then pure b' else foldlUntil f stop l b'

section

variable {f g : β → α → Except ε β} {stop : β → Prop} [DecidablePred stop]

@[simp] theorem foldlUntil_nil (b : β) : foldlUntil f stop [] b = pure b := rfl

theorem foldlUntil_cons (a : α) (l : List α) (b : β) :
    foldlUntil f stop (a :: l) b =
      f b a >>= fun b' => if stop b' then pure b' else foldlUntil f stop l b' := rfl

theorem foldlM_eq_of_absorbing (habs : ∀ b a r, stop b → g b a = pure r → r = b)
    {l : List α} {b r : β} (hb : stop b) (h : l.foldlM g b = pure r) : r = b := by
  induction l generalizing b with
  | nil => exact (Except.ok.inj h).symm
  | cons a l ih =>
    rw [List.foldlM_cons, bind_eq_pure_iff] at h
    obtain ⟨b', hstep, hrest⟩ := h
    have hb' : b' = b := habs b a b' hb hstep
    subst hb'
    exact ih hb hrest

/-- Breaking early returns what the full fold returns, whenever the full fold
returns: each step of the loop returns what the corresponding full step does,
and past a stopping accumulator the full fold changes nothing. -/
theorem foldlUntil_of_foldlM (habs : ∀ b a r, stop b → g b a = pure r → r = b)
    {l : List α} (hfg : ∀ b a r, a ∈ l → g b a = pure r → f b a = pure r) {b r : β}
    (h : l.foldlM g b = pure r) : foldlUntil f stop l b = pure r := by
  induction l generalizing b with
  | nil => exact h
  | cons a l ih =>
    rw [List.foldlM_cons, bind_eq_pure_iff] at h
    obtain ⟨b', hstep, hrest⟩ := h
    rw [foldlUntil_cons, hfg b a b' List.mem_cons_self hstep, pure_bind]
    by_cases hs : stop b'
    · rw [if_pos hs, foldlM_eq_of_absorbing habs hs hrest]
    · rw [if_neg hs]
      exact ih (fun b a r ha => hfg b a r (List.mem_cons_of_mem _ ha)) hrest

/-- The loop rule for a fold that breaks early. The accumulator stands for a
value (`den`) while an invariant holds; each step combines the meaning `m a`
of its element into it with `op`, and a stopping accumulator absorbs whatever
is combined with it. Then a returning loop stands for the combination of every
element, those it skipped included. -/
theorem foldlUntil_sound (op : δ → δ → δ) [Std.Associative op] (e : δ)
    (hid : ∀ x, op x e = x) (inv : β → Prop) (den : β → δ) (m : α → δ) {l : List α}
    (hstep : ∀ b a r, a ∈ l → inv b → f b a = pure r → inv r ∧ den r = op (den b) (m a))
    (hstop : ∀ b x, inv b → stop b → op (den b) x = den b) {b r : β} (h0 : inv b)
    (h : foldlUntil f stop l b = pure r) :
    inv r ∧ den r = op (den b) ((l.map m).foldr op e) := by
  induction l generalizing b with
  | nil =>
    cases h
    exact ⟨h0, (hid _).symm⟩
  | cons a l ih =>
    rw [foldlUntil_cons, bind_eq_pure_iff] at h
    obtain ⟨b', hs, hrest⟩ := h
    obtain ⟨hinv', hden'⟩ := hstep b a b' List.mem_cons_self h0 hs
    have hcomb : op (den b) ((a :: l).map m |>.foldr op e) =
        op (den b') ((l.map m).foldr op e) := by
      rw [hden', List.map_cons, List.foldr_cons]
      exact (Std.Associative.assoc _ _ _).symm
    rw [hcomb]
    by_cases hst : stop b'
    · rw [if_pos hst] at hrest
      have hr : b' = r := Except.ok.inj hrest
      subst hr
      exact ⟨hinv', (hstop b' _ hinv' hst).symm⟩
    · rw [if_neg hst] at hrest
      exact ih (fun b a r ha => hstep b a r (List.mem_cons_of_mem _ ha)) hinv' hrest

end

end Stenographer.Lib
