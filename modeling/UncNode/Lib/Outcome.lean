import Mathlib

/-!
# Outcomes of computations that may fail

`Outcome e P o` says of `o : Option α` that it fails only when `e` holds and that every value it
returns has `P`: partial correctness, together with the one reason the computation may fail.
Where `e` is false, as for an allocator that never fails, the computation returns.

* `Outcome.pure`, `Outcome.fail`, `Outcome.bind`, `Outcome.bind_of_eq`: the rules for `pure`, a
  failure, `bind`, and a `bind` whose first step is known;
* `Outcome.foldlM`: the rule for a loop over a list, by an invariant of the elements left;
* `Outcome.isSome`: a computation whose one reason to fail is false returns.
-/

set_option autoImplicit false

/-- `o` is `none` only when `e` holds, and every value of `o` has `P`. -/
structure Outcome {α : Type} (e : Prop) (P : α → Prop) (o : Option α) : Prop where
  excuse : o = none → e
  holds : ∀ a, o = some a → P a

namespace Outcome

variable {α β γ : Type} {e : Prop} {P P' : α → Prop} {Q : β → Prop} {o : Option α}

theorem pure {a : α} (h : P a) : Outcome e P (some a) :=
  ⟨fun h' => (nomatch h'), fun _ h' => by cases h'; exact h⟩

theorem fail (h : e) : Outcome e P none :=
  ⟨fun _ => h, fun _ h' => (nomatch h')⟩

theorem mono (ho : Outcome e P o) (hP : ∀ a, P a → P' a) : Outcome e P' o :=
  ⟨ho.excuse, fun a h => hP a (ho.holds a h)⟩

theorem bind {x : Option β} {f : β → Option α} (hx : Outcome e Q x)
    (hf : ∀ b, Q b → Outcome e P (f b)) : Outcome e P (x >>= f) := by
  cases hb : x with
  | none => exact fail (hx.excuse hb)
  | some b => exact hf b (hx.holds b hb)

/-- A step whose result is known. -/
theorem bind_of_eq {x : Option β} {b : β} {f : β → Option α} (hx : x = some b)
    (hf : Outcome e P (f b)) : Outcome e P (x >>= f) := by
  rw [hx]
  exact hf

/-- A loop over a list: an invariant of the elements still to visit, kept by each step. -/
theorem foldlM {f : γ → β → Option γ} (I : List β → γ → Prop)
    (hstep : ∀ b l g, I (b :: l) g → Outcome e (I l) (f g b)) :
    ∀ (l : List β) (g : γ), I l g → Outcome e (I []) (l.foldlM f g)
  | [], g, hg => pure hg
  | b :: l, g, hg => by
    rw [List.foldlM_cons]
    exact bind (hstep b l g hg) fun g₁ hg₁ => foldlM I hstep l g₁ hg₁

/-- Without its reason to fail, the computation returns. -/
theorem isSome (ho : Outcome e P o) (he : ¬ e) : ∃ a, o = some a ∧ P a := by
  cases hb : o with
  | none => exact absurd (ho.excuse hb) he
  | some a => exact ⟨a, rfl, ho.holds a hb⟩

end Outcome
