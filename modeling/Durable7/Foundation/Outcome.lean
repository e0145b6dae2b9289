import Mathlib.Data.List.Forall2
import Mathlib.Algebra.Ring.Nat
import Mathlib.Algebra.Ring.Int.Defs

/-!
# Sequencing of fallible computations

Inversion rules for `Except`.  A computation written as a chain of fallible
steps succeeds exactly when every step does, and the rules below peel such a
chain from the front without unfolding the monad.
-/

namespace Durable7.Foundation

open List

universe u v w x y

variable {ε : Type u} {α β : Type v}

@[simp] theorem except_pure (a : α) : (pure a : Except ε α) = .ok a := rfl

@[simp] theorem except_ok_bind (a : α) (next : α → Except ε β) :
    (Except.ok a >>= next) = next a := rfl

@[simp] theorem except_error_bind (problem : ε) (next : α → Except ε β) :
    ((Except.error problem : Except ε α) >>= next) = .error problem := rfl

variable {γ : Type w}

/-- Sequencing across universes. -/
theorem except_bind_ok (a : α) (next : α → Except ε γ) :
    (Except.ok a : Except ε α).bind next = next a := rfl

variable {first : Except ε α}

theorem bind_eq_ok {next : α → Except ε β} {b : β} :
    (first >>= next) = .ok b ↔ ∃ a, first = .ok a ∧ next a = .ok b := by
  cases first with
  | error problem => simp
  | ok a => simp

theorem map_eq_ok {f : α → β} {b : β} : (f <$> first) = .ok b ↔ ∃ a, first = .ok a ∧ f a = b := by
  cases first with
  | error problem =>
      constructor
      · intro h
        cases h
      · rintro ⟨a, ha, -⟩
        cases ha
  | ok a =>
      constructor
      · intro h
        cases h
        exact ⟨a, rfl, rfl⟩
      · rintro ⟨a', ha, rfl⟩
        cases ha
        rfl

variable {a : α}

theorem mapError_eq_ok {ε' : Type w} {rename : ε → ε'} :
    first.mapError rename = .ok a ↔ first = .ok a := by
  cases first <;> simp [Except.mapError]

/-- Fail with `problem` when the condition holds, and continue otherwise. -/
def rejectIf (condition : Prop) [Decidable condition] (problem : ε) : Except ε PUnit.{v + 1} :=
  if condition then .error problem else .ok ⟨⟩

variable {problem : ε} {condition : Prop}

@[simp] theorem rejectIf_eq_ok [Decidable condition] {done : PUnit.{v + 1}} :
    rejectIf condition problem = .ok done ↔ ¬ condition := by
  unfold rejectIf
  split <;> simp_all

theorem rejectIf_neg [Decidable condition] (h : ¬ condition) :
    rejectIf condition problem = (.ok ⟨⟩ : Except ε PUnit.{v + 1}) :=
  if_neg h

/-- The value that is there, or `problem`. -/
def presentOr (found : Option α) (problem : ε) : Except ε α := found.elim (.error problem) .ok

@[simp] theorem presentOr_eq_ok {found : Option α} :
    presentOr found problem = .ok a ↔ found = some a := by
  cases found <;> simp [presentOr]

variable {items : List α} {check : α → Except ε PUnit.{v + 1}}

theorem forM_eq_ok : items.forM check = .ok ⟨⟩ ↔ ∀ item ∈ items, check item = .ok ⟨⟩ := by
  induction items with
  | nil => simp
  | cons item items ih =>
      change (check item >>= fun _ => items.forM check) = .ok ⟨⟩ ↔ _
      rw [bind_eq_ok]
      constructor
      · rintro ⟨⟨⟩, hitem, hrest⟩ other hother
        rcases mem_cons.mp hother with rfl | hmem
        · exact hitem
        · exact ih.mp hrest other hmem
      · intro h
        exact ⟨⟨⟩, h item (by simp), ih.mpr fun other hother => h other (by simp [hother])⟩

theorem forM_eq_error (h : items.forM check = .error problem) :
    ∃ item ∈ items, check item = .error problem := by
  induction items with
  | nil => cases h
  | cons item items ih =>
      change (check item >>= fun _ => items.forM check) = .error problem at h
      cases hitem : check item with
      | error first =>
          rw [hitem, except_error_bind] at h
          cases h
          exact ⟨item, by simp, hitem⟩
      | ok done =>
          rw [hitem, except_ok_bind] at h
          obtain ⟨other, hother, heq⟩ := ih h
          exact ⟨other, by simp [hother], heq⟩

theorem mapM_eq_ok {f : γ → Except ε β} {items : List γ} {results : List β} :
    items.mapM f = .ok results ↔
      List.Forall₂ (fun item result => f item = .ok result) items results := by
  induction items generalizing results with
  | nil =>
      rw [mapM_nil, forall₂_nil_left_iff]
      exact ⟨fun h => by cases h; rfl, fun h => by rw [h]; rfl⟩
  | cons item items ih =>
      rw [mapM_cons, bind_eq_ok, forall₂_cons_left_iff]
      constructor
      · rintro ⟨result, hitem, hrest⟩
        rw [bind_eq_ok] at hrest
        obtain ⟨others, hothers, heq⟩ := hrest
        cases heq
        exact ⟨result, others, hitem, ih.mp hothers, rfl⟩
      · rintro ⟨result, others, hitem, hothers, rfl⟩
        exact ⟨result, hitem, bind_eq_ok.mpr ⟨others, ih.mpr hothers, rfl⟩⟩

theorem mapM_eq_error {f : α → Except ε β} (h : items.mapM f = .error problem) :
    ∃ item ∈ items, f item = .error problem := by
  induction items with
  | nil => cases h
  | cons item items ih =>
      rw [mapM_cons] at h
      cases hitem : f item with
      | error first =>
          rw [hitem] at h
          cases h
          exact ⟨item, mem_cons_self, hitem⟩
      | ok result =>
          rw [hitem, except_ok_bind] at h
          cases hrest : items.mapM f with
          | error second =>
              rw [hrest] at h
              cases h
              obtain ⟨other, hother, heq⟩ := ih hrest
              exact ⟨other, mem_cons_of_mem _ hother, heq⟩
          | ok results =>
              rw [hrest] at h
              cases h

theorem exists_mapM_eq_ok {f : α → Except ε β} {r : α → β → Prop}
    (h : ∀ item ∈ items, ∃ result, f item = .ok result ∧ r item result) :
    ∃ results, items.mapM f = .ok results ∧ List.Forall₂ r items results := by
  induction items with
  | nil => exact ⟨[], rfl, .nil⟩
  | cons item items ih =>
      obtain ⟨result, hresult, hr⟩ := h item (by simp)
      obtain ⟨results, hresults, hrs⟩ := ih fun other hother => h other (by simp [hother])
      refine ⟨result :: results, ?_, .cons hr hrs⟩
      rw [mapM_cons, hresult, except_ok_bind, hresults, except_ok_bind]
      rfl

/-- Both succeed with related results, or both fail with one problem. -/
inductive Agrees {γ : Type w} (related : α → γ → Prop) : Except ε α → Except ε γ → Prop where
  | ok {a : α} {c : γ} (h : related a c) : Agrees related (.ok a) (.ok c)
  | error (problem : ε) : Agrees related (.error problem) (.error problem)

variable {outcome : Except ε α}

theorem Agrees.of_ok {related : α → γ → Prop} {c : γ} (hok : outcome = .ok a)
    (h : related a c) : Agrees related outcome (.ok c) := by
  rw [hok]
  exact .ok h

theorem Agrees.total {related : α → γ → Prop} {c : γ}
    (h : ∃ a, outcome = .ok a ∧ related a c) : Agrees related outcome (.ok c) := by
  obtain ⟨a, rfl, hrelated⟩ := h
  exact .ok hrelated

theorem Agrees.map {α' : Type x} {γ' : Type y} {related : α → γ → Prop}
    {related' : α' → γ' → Prop} {f : α → α'} {g : γ → γ'} {expected : Except ε γ}
    (h : Agrees related outcome expected) (hmap : ∀ a c, related a c → related' (f a) (g c)) :
    Agrees related' (outcome.map f) (expected.map g) := by
  cases h with
  | ok hrelated => exact .ok (hmap _ _ hrelated)
  | error problem => exact .error problem

theorem Agrees.imp {related weaker : α → γ → Prop} {expected : Except ε γ}
    (h : Agrees related outcome expected) (hweaker : ∀ a c, related a c → weaker a c) :
    Agrees weaker outcome expected := by
  cases h with
  | ok hrelated => exact .ok (hweaker _ _ hrelated)
  | error problem => exact .error problem

/-- An optional result, beside a model that always has one. -/
@[elab_as_elim]
theorem Agrees.some_cases {related : α → γ → Prop} {outcome : Except ε (Option α)}
    {expected : Except ε γ} {motive : Except ε (Option α) → Except ε γ → Prop}
    (h : Agrees (Option.Rel related) outcome (some <$> expected))
    (error : ∀ problem, motive (.error problem) (.error problem))
    (ok : ∀ a c, related a c → motive (.ok (some a)) (.ok c)) : motive outcome expected := by
  cases expected with
  | error problem =>
      cases h
      exact error problem
  | ok made =>
      cases h with
      | ok hoption =>
          cases hoption with
          | some hrelated => exact ok _ _ hrelated

/-- Fallible folds whose steps agree agree. -/
theorem foldlM_agrees {σ : Type x} {τ : Type w} {related : σ → τ → Prop}
    {step : σ → α → Except ε σ} {model : τ → α → Except ε τ}
    (hstep : ∀ state expected item, related state expected →
      Agrees related (step state item) (model expected item))
    (items : List α) {state : σ} {expected : τ} (h : related state expected) :
    Agrees related (items.foldlM step state) (items.foldlM model expected) := by
  induction items generalizing state expected with
  | nil => exact .ok h
  | cons item items ih =>
      rw [foldlM_cons, foldlM_cons]
      have hfirst := hstep state expected item h
      generalize step state item = outcome at hfirst ⊢
      generalize model expected item = other at hfirst ⊢
      cases hfirst with
      | ok hnext => exact ih hnext
      | error problem => exact .error problem

end Durable7.Foundation
