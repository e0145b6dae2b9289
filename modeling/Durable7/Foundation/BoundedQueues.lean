import Durable7.Foundation.Branching
import Mathlib.Algebra.BigOperators.Group.Multiset.Basic

/-!
# Queues of bounded multisets

A queue shows the multiset of its elements, whose number may not pass a limit.  A removal takes
one of the least elements.
-/

namespace Durable7.Foundation.BoundedQueues

open Multiset

variable {ε α β queue tree : Type} {problem : ε} {limit : Nat} {values : Multiset α}

/-! ## Counts -/

def checkedSum (problem : ε) (limit left right : Nat) : Except ε Nat :=
  if right > 0 ∧ left > limit - right then .error problem else .ok (left + right)

theorem checkedSum_ok {left right : Nat} (h : left + right ≤ limit) :
    checkedSum problem limit left right = .ok (left + right) := if_neg (by omega)

theorem checkedSum_error {left right : Nat} (hleft : left ≤ limit) (hright : right ≤ limit)
    (h : limit < left + right) : checkedSum problem limit left right = .error problem :=
  if_pos (by omega)

/-- The depth of the children, when there are any. -/
def depthBelow (problem : ε) (limit depth : Nat) (children : List tree) : Except ε Nat :=
  if children.isEmpty then .ok depth else checkedSum problem limit depth 1

theorem depthBelow_ok {depth : Nat} {children : List tree}
    (h : children ≠ [] → depth + 1 ≤ limit) :
    ∃ below, depthBelow problem limit depth children = .ok below ∧
      (children ≠ [] → below = depth + 1) := by
  unfold depthBelow
  cases children with
  | nil => exact ⟨depth, rfl, fun hne => absurd rfl hne⟩
  | cons child children =>
      have hbound := h (List.cons_ne_nil _ _)
      exact ⟨depth + 1, checkedSum_ok hbound, fun _ => rfl⟩

def atDepth (depth : Nat) (trees : List tree) : List (tree × Nat) :=
  trees.map fun child => (child, depth)

theorem sizes_atDepth (size : tree → Nat) (depth : Nat) (trees : List tree) :
    ((atDepth depth trees).map fun entry => size entry.1).sum = (trees.map size).sum := by
  rw [atDepth, List.map_map]
  rfl

/-- A multiset whose size is within the limit. -/
def bounded (problem : ε) (limit : Nat) (values : Multiset α) : Except ε (Multiset α) :=
  if values.card > limit then .error problem else .ok values

theorem bounded_ok (h : values.card ≤ limit) : bounded problem limit values = .ok values :=
  if_neg (by omega)

theorem bounded_error (h : limit < values.card) : bounded problem limit values = .error problem :=
  if_pos h

/-! ## Insertions -/

section

variable {shows : queue → Multiset α → Prop}

variable (shows) in
/-- Inserting one element after another. -/
theorem foldlM_agrees {insert : queue → β → Except ε queue} {value : β → α}
    (hbounded : ∀ {heap values}, shows heap values → values.card ≤ limit)
    (hinsert : ∀ {heap values} item, shows heap values →
      Agrees shows (insert heap item) (bounded problem limit (value item ::ₘ values)))
    (items : List β) {heap : queue} (h : shows heap values) :
    Agrees shows (items.foldlM insert heap) (bounded problem limit (values + items.map value)) := by
  induction items generalizing heap values with
  | nil =>
      rw [List.map_nil, coe_nil, add_zero, bounded_ok (hbounded h)]
      exact .ok h
  | cons item items ih =>
      have hagrees := hinsert item h
      rw [List.foldlM_cons, List.map_cons, ← cons_coe, add_cons, ← cons_add]
      by_cases hbound : (value item ::ₘ values).card ≤ limit
      · rw [bounded_ok hbound] at hagrees
        generalize insert heap item = inserted at hagrees ⊢
        cases hagrees with
        | ok hshows => exact ih hshows
      · rw [bounded_error (by omega)] at hagrees
        rw [bounded_error (by rw [card_add]; omega)]
        generalize insert heap item = inserted at hagrees ⊢
        cases hagrees
        exact .error _

/-! ## Removals -/

/-- What a removal shows of a multiset. -/
inductive Views (le : α → α → Bool) (shows : queue → Multiset α → Prop) (values : Multiset α) :
    Option (α × queue) → Prop where
  | empty (hvalues : values = 0) : Views le shows values none
  | least {value : α} {rest : Multiset α} {remaining : queue} (hvalues : values = value ::ₘ rest)
      (hleast : ∀ other ∈ values, le value other = true) (h : shows remaining rest) :
      Views le shows values (some (value, remaining))

/-- A removal takes a least element, and adds no version when there is none. -/
def Removes (le : α → α → Bool) (values : Multiset α) (outcome : Except ε (List (Multiset α))) :
    Prop :=
  (values = 0 ∧ outcome = .ok []) ∨
  ∃ least rest, values = least ::ₘ rest ∧ (∀ other ∈ values, le least other = true) ∧
    outcome = .ok [rest]

/-- Removal until the queue is empty, `none` when the steps run out. -/
def drain (minView : queue → Except ε (Option (α × queue))) :
    Nat → queue → Except ε (Option (List α))
  | 0, _ => .ok none
  | steps + 1, heap =>
      (minView heap).bind fun view =>
        match view with
        | none => .ok (some [])
        | some (value, remaining) =>
            (drain minView steps remaining).map fun values => values.map fun rest => value :: rest

variable {le : α → α → Bool} {minView : queue → Except ε (Option (α × queue))}
  (hview : ∀ {heap values}, shows heap values →
    ∃ view, minView heap = .ok view ∧ Views le shows values view)

include hview

theorem removes_agrees {versions : List queue} {models : List (Multiset α)}
    (h : List.Forall₂ shows versions models) (version : Nat) :
    ∃ outcome, (models[version]?.elim (outcome = .ok []) fun values => Removes le values outcome) ∧
      Agrees (List.Forall₂ shows) (onVersion versions version fun heap =>
        (minView heap).map fun view => (view.map Prod.snd).toList) outcome := by
  have hpicked := getElem?_refines h version
  rw [onVersion]
  generalize versions[version]? = picked at hpicked ⊢
  generalize models[version]? = model at hpicked ⊢
  cases hpicked with
  | none => exact ⟨_, rfl, .ok .nil⟩
  | some hshows =>
      obtain ⟨view, hok, hviews⟩ := hview hshows
      rw [Option.elim_some, hok]
      cases hviews with
      | empty hvalues => exact ⟨_, .inl ⟨hvalues, rfl⟩, .ok .nil⟩
      | least hvalues hleast hremaining =>
          exact ⟨_, .inr ⟨_, _, hvalues, hleast, rfl⟩, .ok (.cons hremaining .nil)⟩

theorem drain_spec (steps : Nat) {heap : queue} (h : shows heap values)
    (hsteps : values.card < steps) :
    ∃ drained, drain minView steps heap = .ok (some drained) ∧ (drained : Multiset α) = values ∧
      drained.Pairwise fun earlier later => le earlier later = true := by
  induction steps generalizing heap values with
  | zero => exact absurd hsteps (Nat.not_lt_zero _)
  | succ steps ih =>
      obtain ⟨view, hok, hviews⟩ := hview h
      rw [drain, hok, except_bind_ok]
      cases hviews with
      | empty hvalues => exact ⟨[], rfl, hvalues.symm, List.Pairwise.nil⟩
      | @least value rest remaining hvalues hleast hremaining =>
          rw [hvalues, card_cons] at hsteps
          obtain ⟨drained, hdrained, hcoe, hsorted⟩ := ih hremaining (by omega)
          dsimp only
          rw [hdrained]
          refine ⟨value :: drained, rfl, ?_, List.pairwise_cons.mpr ⟨?_, hsorted⟩⟩
          · rw [← cons_coe, hcoe, hvalues]
          · intro later hlater
            apply hleast
            rw [hvalues, mem_cons, ← hcoe]
            exact .inr hlater

end

end Durable7.Foundation.BoundedQueues
