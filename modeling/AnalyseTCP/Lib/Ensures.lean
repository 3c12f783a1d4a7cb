import Mathlib.Logic.Basic

/-!
# Postconditions of fallible code

`Ensures post x`: whenever `x` succeeds, its result meets `post`.  One rule for each way to build
such a computation; the proofs about a function follow its branches.
-/

variable {ε : Type*} {α β : Type*}

def Ensures (post : α → Prop) (x : Except ε α) : Prop := ∀ a, x = .ok a → post a

namespace Ensures

variable {post : α → Prop} {mid : β → Prop}

theorem ok {a : α} (h : post a) : Ensures post (.ok a : Except ε α) := by
  intro b hb
  cases hb
  exact h

theorem error (e : ε) : Ensures post (.error e : Except ε α) := fun _ h => nomatch h

theorem mono {post' : α → Prop} {x : Except ε α} (h : Ensures post x) (himp : ∀ a, post a → post' a) :
    Ensures post' x := fun a ha => himp a (h a ha)

theorem trivial (x : Except ε α) : Ensures (fun _ => True) x := fun _ _ => True.intro

end Ensures

theorem Ensures.bind {ε : Type*} {α β : Type} {post : β → Prop} {mid : α → Prop} {x : Except ε α}
    {f : α → Except ε β} (hx : Ensures mid x) (hf : ∀ a, mid a → Ensures post (f a)) :
    Ensures post (x >>= f) := by
  intro b hb
  cases x with
  | error e => cases hb
  | ok a => exact hf a (hx a rfl) b hb
