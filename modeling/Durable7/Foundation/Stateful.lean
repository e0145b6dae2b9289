import Mathlib.Data.List.Basic

/-!
# Runs of stateful computations

A computation that fails keeps the state it had reached, as an object does when a method throws.
-/

namespace Durable7.Foundation

variable {ε σ α β : Type}

@[simp] theorem get_run (state : σ) : (get : EStateM ε σ σ) state = .ok state state := rfl

@[simp] theorem set_run (state state' : σ) :
    (set state' : EStateM ε σ PUnit) state = .ok ⟨⟩ state' := rfl

@[simp] theorem pure_run (result : α) (state : σ) :
    (pure result : EStateM ε σ α) state = .ok result state := rfl

@[simp] theorem throw_run (problem : ε) (state : σ) :
    (throw problem : EStateM ε σ α) state = .error problem state := rfl

@[simp] theorem bind_run (first : EStateM ε σ α) (next : α → EStateM ε σ β) (state : σ) :
    (first >>= next) state = match first state with
      | .ok result state => next result state
      | .error problem state => .error problem state := by
  simp only [bind, EStateM.bind]
  cases first state <;> rfl

@[simp] theorem map_run (f : α → β) (first : EStateM ε σ α) (state : σ) :
    (f <$> first) state = match first state with
      | .ok result state => .ok (f result) state
      | .error problem state => .error problem state := by
  simp only [Functor.map, EStateM.map]
  cases first state <;> rfl

@[simp] theorem tryCatch_run (first : EStateM ε σ α) (handle : ε → EStateM ε σ α) (state : σ) :
    (tryCatch first handle) state = match first state with
      | .ok result state => .ok result state
      | .error problem state => handle problem state := by
  simp only [tryCatch, tryCatchThe, MonadExceptOf.tryCatch, EStateM.tryCatch]
  cases first state <;> rfl

end Durable7.Foundation
