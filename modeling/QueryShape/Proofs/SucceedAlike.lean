import Mathlib.Init

/-!
# Computations that succeed together

Two computations that are to agree need not agree in how they fail. What matters is that one of them
succeeds if the other one does, and that the results are related.

## What this module delivers

- `SucceedAlike`: computations that succeed together, with related results.
- `SucceedAlike.bind`, `SucceedAlike.map`, `SucceedAlike.foldlM`: what is put together from such
  computations succeeds together as well.
-/

set_option autoImplicit false

namespace QueryShape

theorem error_ne_ok {ε α : Type} {error : ε} {result : α} :
    (Except.error error : Except ε α) ≠ .ok result :=
  nofun

/-- Two computations that succeed together, with related results. Their errors may differ. -/
inductive SucceedAlike {ε α β : Type} (related : α → β → Prop) : Except ε α → Except ε β → Prop
  | ok {first : α} {second : β} (h : related first second) :
      SucceedAlike related (.ok first) (.ok second)
  | error (first second : ε) : SucceedAlike related (.error first) (.error second)

namespace SucceedAlike

variable {ε α β γ δ : Type} {related : α → β → Prop} {first : Except ε α} {second : Except ε β}

theorem exists_ok (h : SucceedAlike related first second) {result : α}
    (hfirst : first = .ok result) :
    ∃ other, second = .ok other ∧ related result other := by
  cases h with
  | ok hrelated =>
      cases hfirst
      exact ⟨_, rfl, hrelated⟩
  | error _ _ => exact nomatch hfirst

theorem symm (h : SucceedAlike related first second) :
    SucceedAlike (fun result other => related other result) second first := by
  cases h with
  | ok hrelated => exact .ok hrelated
  | error _ _ => exact .error _ _

theorem trans {third : Except ε γ} {related' : β → γ → Prop} {related'' : α → γ → Prop}
    (h : SucceedAlike related first second) (h' : SucceedAlike related' second third)
    (hboth : ∀ result middle other, related result middle → related' middle other →
      related'' result other) : SucceedAlike related'' first third := by
  cases h with
  | ok hrelated =>
      cases h' with
      | ok hrelated' => exact .ok (hboth _ _ _ hrelated hrelated')
  | error _ _ =>
      cases h' with
      | error _ _ => exact .error _ _

/-- What is done with the results succeeds together if it does for related ones. -/
theorem bind {related' : γ → δ → Prop} {next : α → Except ε γ} {next' : β → Except ε δ}
    (h : SucceedAlike related first second)
    (hnext : ∀ result other, related result other →
      SucceedAlike related' (next result) (next' other)) :
    SucceedAlike related' (first >>= next) (second >>= next') := by
  cases h with
  | ok hrelated => exact hnext _ _ hrelated
  | error _ _ => exact .error _ _

theorem map {related' : γ → δ → Prop} {f : α → γ} {g : β → δ}
    (h : SucceedAlike related first second)
    (hmap : ∀ result other, related result other → related' (f result) (g other)) :
    SucceedAlike related' (f <$> first) (g <$> second) := by
  cases h with
  | ok hrelated => exact .ok (hmap _ _ hrelated)
  | error _ _ => exact .error _ _

/-- Runs over entries that are the same in some view, step by step. -/
theorem foldlM {view : γ → δ} {step : α → γ → Except ε α} {step' : β → γ → Except ε β}
    (hstep : ∀ state state' entry entry', related state state' → view entry = view entry' →
      SucceedAlike related (step state entry) (step' state' entry'))
    (entries : List γ) {entries' : List γ} (hentries : entries.map view = entries'.map view)
    {state : α} {state' : β} (h : related state state') :
    SucceedAlike related (entries.foldlM step state) (entries'.foldlM step' state') := by
  induction entries generalizing entries' state state' with
  | nil =>
      obtain rfl := List.map_eq_nil_iff.mp hentries.symm
      exact .ok h
  | cons entry entries ih =>
      obtain ⟨entry', rest', rfl, hentry, hrest⟩ := List.map_eq_cons_iff.mp hentries.symm
      rw [List.foldlM_cons, List.foldlM_cons]
      exact (hstep _ _ _ _ h hentry.symm).bind fun _ _ hnext => ih hrest.symm hnext

/-- Computations each of which succeeds if the other one does. -/
theorem of_exists
    (h : ∀ result, first = .ok result → ∃ other, second = .ok other ∧ related result other)
    (h' : ∀ other, second = .ok other → ∃ result, first = .ok result) :
    SucceedAlike related first second := by
  cases first with
  | ok result =>
      obtain ⟨other, rfl, hrelated⟩ := h result rfl
      exact .ok hrelated
  | error _ =>
      cases second with
      | ok other =>
          obtain ⟨result, hresult⟩ := h' other rfl
          exact nomatch hresult
      | error _ => exact .error _ _

end SucceedAlike

end QueryShape
