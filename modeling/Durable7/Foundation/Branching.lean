import Durable7.Foundation.Outcome
import Durable7.Foundation.ListModel

/-!
# Branching histories

Every edit picks an earlier version and adds its result as a new one.  A refinement of
single edits is a refinement of all versions of every history.  An edit that merges reads any
number of earlier versions and may add several.
-/

namespace Durable7.Foundation

open List

universe u v w

variable {σ : Type u} {τ : Type v} {ε : Type w}

def addVersion (step : σ → ε → σ) (versions : List σ) (edit : Nat × ε) : List σ :=
  versions ++ (versions[edit.1]?.map fun version => step version edit.2).toList

def branch (step : σ → ε → σ) (versions : List σ) (edits : List (Nat × ε)) : List σ :=
  edits.foldl (addVersion step) versions

variable {models : List τ} {versions : List σ}

section Refinement

variable {refines : σ → τ → Prop} {step : σ → ε → σ} {model : τ → ε → τ}

theorem getElem?_refines (h : List.Forall₂ refines versions models) (index : Nat) :
    Option.Rel refines versions[index]? models[index]? := by
  induction h generalizing index with
  | nil => exact .none
  | cons hfirst _ ih =>
      cases index with
      | zero => exact .some hfirst
      | succ index => exact ih index

section

variable (hstep : ∀ version state edit, refines version state →
    refines (step version edit) (model state edit))
include hstep

theorem addVersion_refines (h : List.Forall₂ refines versions models) (edit : Nat × ε) :
    List.Forall₂ refines (addVersion step versions edit) (addVersion model models edit) := by
  apply rel_append h
  have hpicked := getElem?_refines h edit.1
  generalize versions[edit.1]? = version at hpicked ⊢
  generalize models[edit.1]? = state at hpicked ⊢
  cases hpicked with
  | none => exact .nil
  | some hrelated => exact .cons (hstep _ _ _ hrelated) .nil

theorem branch_refines (h : List.Forall₂ refines versions models) (edits : List (Nat × ε)) :
    List.Forall₂ refines (branch step versions edits) (branch model models edits) := by
  induction edits generalizing versions models with
  | nil => exact h
  | cons edit edits ih => exact ih (addVersion_refines hstep h edit)

end

end Refinement

/-! ## Merging -/

section Merging

universe x y

variable {π : Type x}

/-- A failed edit adds no version. -/
def grow (produce : List σ → ε → Except π (List σ)) (versions : List σ) (edits : List ε) : List σ :=
  edits.foldl (fun versions edit => versions ++ (produce versions edit).toOption.getD []) versions

theorem grow_append (produce : List σ → ε → Except π (List σ)) (versions : List σ)
    (edits : List ε) (edit : ε) :
    grow produce versions (edits ++ [edit]) =
      grow produce versions edits ++
        (produce (grow produce versions edits) edit).toOption.getD [] := by
  rw [grow, foldl_append]
  rfl

variable {refines : σ → τ → Prop}

/-- Agreeing outcomes keep the versions related. -/
theorem added_refines {outcome : Except π (List σ)}
    {expected : Except π (List τ)} (h : List.Forall₂ refines versions models)
    (hagrees : Agrees (List.Forall₂ refines) outcome expected) :
    List.Forall₂ refines (versions ++ outcome.toOption.getD [])
      (models ++ expected.toOption.getD []) := by
  apply rel_append h
  cases hagrees with
  | ok hadded => exact hadded
  | error problem => exact .nil

section Repeating

variable (first : ε) (append : Nat → ε)

/-- One edit over and over, each time at the newest version. -/
def repeating (amount : Nat) : List ε := first :: (List.range amount).map append

theorem repeating_succ (amount : Nat) :
    repeating first append (amount + 1) = repeating first append amount ++ [append amount] := by
  rw [repeating, range_succ, map_append]
  rfl

/-- A run that repeats one edit has every state that the edit passes through. -/
theorem grow_repeating {model : List τ → ε → Except π (List τ)} {state : Nat → τ}
    (hfirst : model [] first = .ok [state 0])
    (happend : ∀ models version, models[version]? = some (state version) →
      model models (append version) = .ok [state (version + 1)]) (amount : Nat) :
    grow model [] (repeating first append amount) = (List.range (amount + 1)).map state := by
  induction amount with
  | zero =>
      rw [repeating, grow, range_zero, map_nil, foldl_cons, hfirst]
      rfl
  | succ amount ih =>
      rw [repeating_succ, grow_append, ih, happend, range_succ (n := amount + 1), map_append]
      · rfl
      · rw [List.getElem?_map, List.getElem?_range (Nat.lt_succ_self amount)]
        rfl

/-- Where the last repetition fails, the run is one version short. -/
theorem grow_repeating_short {refines : σ → τ → Prop} {produce : List σ → ε → Except π (List σ)}
    {model : List τ → ε → Except π (List τ)} {state : Nat → τ} {amount : Nat} (hmodel : ∀ amount,
      grow model [] (repeating first append amount) = (List.range (amount + 1)).map state)
    (hversions : List.Forall₂ refines (grow produce [] (repeating first append amount))
      (grow model [] (repeating first append amount)))
    (hfails : ∀ versions version, versions[amount]? = some version →
      refines version (state amount) →
      (produce versions (append amount)).toOption = none) :
    (grow produce [] (repeating first append (amount + 1))).length ≠
      (grow model [] (repeating first append (amount + 1))).length := by
  have hnewest := getElem?_refines hversions amount
  have hlength := hversions.length_eq
  rw [hmodel, length_map, length_range] at hlength
  rw [hmodel, List.getElem?_map, List.getElem?_range (Nat.lt_succ_self _)] at hnewest
  rw [hmodel, length_map, length_range, repeating_succ, grow_append, length_append, hlength]
  cases hpicked : (grow produce [] (repeating first append amount))[amount]? with
  | none =>
      rw [hpicked] at hnewest
      cases hnewest
  | some version =>
      rw [hpicked] at hnewest
      cases hnewest with
      | some hrefines =>
          rw [hfails _ _ hpicked hrefines]
          simp

end Repeating

variable {produce : List σ → ε → Except π (List σ)} {model : List τ → ε → Except π (List τ)}

theorem grow_refines (hproduce : ∀ versions models edit, List.Forall₂ refines versions models →
      Agrees (List.Forall₂ refines) (produce versions edit) (model models edit))
    (h : List.Forall₂ refines versions models)
    (edits : List ε) :
    List.Forall₂ refines (grow produce versions edits) (grow model models edits) := by
  induction edits generalizing versions models with
  | nil => exact h
  | cons edit edits ih => exact ih (added_refines h (hproduce _ _ edit h))

/-- Every edit is allowed at the versions it meets. -/
def AllAllowed (produce : List σ → ε → Except π (List σ)) (allowed : List σ → ε → Prop) :
    List σ → List ε → Prop
  | _, [] => True
  | versions, edit :: edits =>
      allowed versions edit ∧
        AllAllowed produce allowed (versions ++ (produce versions edit).toOption.getD []) edits

theorem grow_refines_allowed {allowed : List σ → ε → Prop}
    (hproduce : ∀ versions models edit, List.Forall₂ refines versions models →
      allowed versions edit →
      Agrees (List.Forall₂ refines) (produce versions edit) (model models edit))
    (h : List.Forall₂ refines versions models)
    (edits : List ε) (hallowed : AllAllowed produce allowed versions edits) :
    List.Forall₂ refines (grow produce versions edits) (grow model models edits) := by
  induction edits generalizing versions models with
  | nil => exact h
  | cons edit edits ih => exact ih (added_refines h (hproduce _ _ edit h hallowed.1)) hallowed.2

/-- Values added one by one, each for one unit of the budget. -/
theorem foldlM_refines_within {α : Type x} {refines : Nat → σ → List α → Prop}
    {add : σ → α → Except π σ} {limit spent : Nat} {version : σ} {values : List α}
    (hadd : ∀ spent version values value, refines spent version values → spent + 1 ≤ limit →
      ∃ next, add version value = .ok next ∧ refines (spent + 1) next (values ++ [value]))
    (added : List α) (h : refines spent version values) (hroom : spent + added.length ≤ limit) :
    ∃ next, added.foldlM add version = .ok next ∧
      refines (spent + added.length) next (values ++ added) := by
  induction added generalizing spent version values with
  | nil => exact ⟨version, rfl, by rwa [append_nil]⟩
  | cons value added ih =>
      rw [length_cons] at hroom
      obtain ⟨middle, hmiddle, hrefines⟩ := hadd spent version values value h (by omega)
      obtain ⟨next, hnext, hfinal⟩ := ih hrefines (by omega)
      refine ⟨next, ?_, ?_⟩
      · rw [foldlM_cons, hmiddle, except_ok_bind, hnext]
      · rw [length_cons, Nat.add_comm added.length, ← Nat.add_assoc]
        rwa [append_assoc] at hfinal

section Budgets

variable {refines : Nat → σ → τ → Prop} {observes : σ → τ → Prop} {cost : ε → Nat}
  {limit : Nat}
  (hmono : ∀ spent more version state, refines spent version state →
    refines (spent + more) version state)
  (hproduce : ∀ spent versions models edit, spent + cost edit ≤ limit →
    List.Forall₂ (refines spent) versions models →
    Agrees (List.Forall₂ (refines (spent + cost edit))) (produce versions edit)
      (model models edit))
include hmono hproduce

/-- Edits that spend from a common budget. -/
theorem grow_refines_within {spent : Nat}
    (h : List.Forall₂ (refines spent) versions models) (edits : List ε)
    (hlimit : spent + (edits.map cost).sum ≤ limit) :
    List.Forall₂ (refines (spent + (edits.map cost).sum)) (grow produce versions edits)
      (grow model models edits) := by
  induction edits generalizing spent versions models with
  | nil => exact h
  | cons edit edits ih =>
      rw [map_cons, sum_cons, ← Nat.add_assoc] at hlimit ⊢
      exact ih (added_refines (h.imp (hmono spent (cost edit)))
        (hproduce spent versions models edit (by omega) h)) hlimit

theorem grow_refines_total (edits : List ε) (h : (edits.map cost).sum ≤ limit) :
    List.Forall₂ (refines (edits.map cost).sum) (grow produce [] edits)
      (grow model [] edits) := by
  have hrun := grow_refines_within hmono hproduce .nil edits
    (by rwa [Nat.zero_add])
  rwa [Nat.zero_add] at hrun

/-- What is observed within the budget, also of one more edit. -/
theorem grow_observes_within (hobserves : ∀ spent version state, refines spent version state →
      spent ≤ limit → observes version state)
    (edits : List ε) (h : (edits.map cost).sum ≤ limit) :
    List.Forall₂ observes (grow produce [] edits) (grow model [] edits) ∧
    ∀ edit, (edits.map cost).sum + cost edit ≤ limit →
      Agrees (List.Forall₂ observes) (produce (grow produce [] edits) edit)
        (model (grow model [] edits) edit) := by
  have hversions := grow_refines_total hmono hproduce edits h
  constructor
  · exact hversions.imp fun _ _ hrefines => hobserves _ _ _ hrefines h
  · intro edit hroom
    exact (hproduce _ _ _ edit hroom hversions).imp fun _ _ hadded =>
      hadded.imp fun _ _ hrefines => hobserves _ _ _ hrefines hroom

/-- Where the edit after the last affordable one fails, no observation holds of every run. -/
theorem grow_overflows (first : ε) (append : Nat → ε) (state : Nat → τ)
    (hcosts : cost first = 0 ∧ ∀ version, cost (append version) = 1)
    (hfirst : model [] first = .ok [state 0])
    (happend : ∀ models version, models[version]? = some (state version) →
      model models (append version) = .ok [state (version + 1)])
    (hfails : ∀ versions version, versions[limit]? = some version →
      refines limit version (state limit) →
      (produce versions (append limit)).toOption = none) :
    ¬ ∀ edits, List.Forall₂ observes (grow produce [] edits) (grow model [] edits) := by
  intro h
  have htotal : ((repeating first append limit).map cost).sum = limit := by
    have hone : cost ∘ append = fun _ => 1 := funext hcosts.2
    rw [repeating, map_cons, sum_cons, hcosts.1, map_map, hone, map_const', sum_replicate_nat,
      length_range, Nat.zero_add, Nat.mul_one]
  have hversions := grow_refines_total hmono hproduce (repeating first append limit)
    (Nat.le_of_eq htotal)
  rw [htotal] at hversions
  exact grow_repeating_short first append (grow_repeating first append hfirst happend) hversions
    hfails (h _).length_eq

end Budgets

/-- What an edit makes of the version it names, nothing when there is no such version. -/
def onVersion (versions : List σ) (version : Nat) (edit : σ → Except π (List σ)) :
    Except π (List σ) :=
  versions[version]?.elim (.ok []) edit

theorem onVersion_agrees {refines made : σ → τ → Prop} (h : List.Forall₂ refines versions models)
    (version : Nat) {edit : σ → Except π (List σ)} {expected : τ → Except π (List τ)}
    (hedit : ∀ picked model, refines picked model →
      Agrees (List.Forall₂ made) (edit picked) (expected model)) :
    Agrees (List.Forall₂ made) (onVersion versions version edit)
      (onVersion models version expected) := by
  have hpicked := getElem?_refines h version
  unfold onVersion
  generalize versions[version]? = picked at hpicked ⊢
  generalize models[version]? = model at hpicked ⊢
  cases hpicked with
  | none => exact .ok .nil
  | some hrefines => exact hedit _ _ hrefines

/-- What a read of two versions gives, nothing when one of them does not exist. -/
def onPair {β : Type x} (versions : List σ) (first second : Nat) (read : σ → σ → β) : Option β :=
  versions[first]?.bind fun left => versions[second]?.map fun right => read left right

section

variable {refines : σ → τ → Prop} (h : List.Forall₂ refines versions models)
include h

theorem onPair_rel {β : Type x} {γ : Type y} {related : β → γ → Prop} {read : σ → σ → β}
    {expected : τ → τ → γ}
    (hread : ∀ left right leftModel rightModel, refines left leftModel → refines right rightModel →
      related (read left right) (expected leftModel rightModel)) (first second : Nat) :
    Option.Rel related (onPair versions first second read)
      (onPair models first second expected) := by
  have hfirst := getElem?_refines h first
  have hsecond := getElem?_refines h second
  unfold onPair
  generalize versions[first]? = left at hfirst ⊢
  generalize models[first]? = leftModel at hfirst ⊢
  generalize versions[second]? = right at hsecond ⊢
  generalize models[second]? = rightModel at hsecond ⊢
  cases hfirst with
  | none => exact .none
  | some hleft =>
      cases hsecond with
      | none => exact .none
      | some hright => exact .some (hread _ _ _ _ hleft hright)

theorem onPair_eq {β : Type x} {read : σ → σ → β} {expected : τ → τ → β}
    (hread : ∀ left right leftModel rightModel, refines left leftModel → refines right rightModel →
      read left right = expected leftModel rightModel) (first second : Nat) :
    onPair versions first second read = onPair models first second expected := by
  have hrelated := onPair_rel h hread first second
  generalize onPair versions first second read = found at hrelated ⊢
  generalize onPair models first second expected = other at hrelated ⊢
  cases hrelated with
  | none => rfl
  | some heq => rw [heq]

end

/-- An edit that makes one version. -/
theorem single_agrees {result : Except π σ} {expected : Except π τ}
    (h : Agrees refines result expected) :
    Agrees (List.Forall₂ refines) (result.map fun made => [made])
      (expected.map fun made => [made]) :=
  h.map fun _ _ hrefines => .cons hrefines .nil

/-- An edit that makes a version or none. -/
theorem toList_refines {result : Option σ} {expected : Option τ}
    (h : Option.Rel refines result expected) :
    List.Forall₂ refines result.toList expected.toList := by
  cases h with
  | none => exact .nil
  | some hrefines => exact .cons hrefines .nil

/-- An edit that makes two versions or none. -/
theorem partsList_refines {result : Option (σ × σ)} {expected : Option (τ × τ)}
    (h : Option.Rel (fun parts models => refines parts.1 models.1 ∧ refines parts.2 models.2)
      result expected) : List.Forall₂ refines (partsList result) (partsList expected) := by
  cases h with
  | none => exact .nil
  | some hboth => exact .cons hboth.1 (.cons hboth.2 .nil)

/-- An edit that makes one version of two. -/
theorem onPair_refines (h : List.Forall₂ refines versions models)
    (first second : Nat) {combine : σ → σ → σ} {expected : τ → τ → τ}
    (hcombine : ∀ left right leftModel rightModel, refines left leftModel →
      refines right rightModel → refines (combine left right) (expected leftModel rightModel)) :
    List.Forall₂ refines (onPair versions first second combine).toList
      (onPair models first second expected).toList :=
  toList_refines (onPair_rel h hcombine first second)

/-- A run of a specification that may choose what an edit adds. -/
inductive Grows (spec : List τ → ε → Except π (List τ) → Prop) :
    List τ → List ε → List τ → Prop where
  | nil (models : List τ) : Grows spec models [] models
  | cons {models final : List τ} {edit : ε} {edits : List ε} {outcome : Except π (List τ)}
      (h : spec models edit outcome)
      (hrest : Grows spec (models ++ outcome.toOption.getD []) edits final) :
      Grows spec models (edit :: edits) final

theorem grow_simulates {spec : List τ → ε → Except π (List τ) → Prop}
    (hproduce : ∀ versions models edit, List.Forall₂ refines versions models →
      ∃ outcome, spec models edit outcome ∧
        Agrees (List.Forall₂ refines) (produce versions edit) outcome)
    (h : List.Forall₂ refines versions models)
    (edits : List ε) :
    ∃ final, Grows spec models edits final ∧
      List.Forall₂ refines (grow produce versions edits) final := by
  induction edits generalizing versions models with
  | nil => exact ⟨models, .nil models, h⟩
  | cons edit edits ih =>
      obtain ⟨outcome, hspec, hagrees⟩ := hproduce versions models edit h
      obtain ⟨final, hgrows, hrefines⟩ := ih (added_refines h hagrees)
      exact ⟨final, .cons hspec hgrows, hrefines⟩

/-- An edit adds what is expected, or fails with a problem that what is expected excuses. -/
def Excused (excuse : π → List τ → Prop) (expected : List τ) (outcome : Except π (List τ)) : Prop :=
  outcome = .ok expected ∨ ∃ problem, excuse problem expected ∧ outcome = .error problem

/-- An outcome beside what was expected of it. -/
def AddsOr (refines : σ → τ → Prop) (excuse : π → List τ → Prop) (outcome : Except π (List σ))
    (expected : List τ) : Prop :=
  ∃ allowed, Excused excuse expected allowed ∧ Agrees (List.Forall₂ refines) outcome allowed

section Excused

variable {refines : σ → τ → Prop} {excuse : π → List τ → Prop}

theorem addsOr_ok {made : List σ} {expected : List τ} (h : List.Forall₂ refines made expected) :
    AddsOr refines excuse (.ok made) expected :=
  ⟨.ok expected, .inl rfl, .ok h⟩

theorem addsOr_error {problem : π} {expected : List τ} (h : excuse problem expected) :
    AddsOr refines excuse (.error problem) expected :=
  ⟨.error problem, .inr ⟨problem, h, rfl⟩, .error problem⟩

/-- What an edit of the model makes of the version it names. -/
def onModel (models : List τ) (version : Nat) (edit : τ → List τ) : List τ :=
  models[version]?.elim [] edit

theorem onVersion_addsOr (h : List.Forall₂ refines versions models) (version : Nat)
    {edit : σ → Except π (List σ)} {expected : τ → List τ}
    (hedit : ∀ picked model, refines picked model →
      AddsOr refines excuse (edit picked) (expected model)) :
    AddsOr refines excuse (onVersion versions version edit) (onModel models version expected) := by
  have hpicked := getElem?_refines h version
  unfold onVersion onModel
  generalize versions[version]? = picked at hpicked ⊢
  generalize models[version]? = model at hpicked ⊢
  cases hpicked with
  | none => exact addsOr_ok .nil
  | some hrefines => exact hedit _ _ hrefines

/-- A history whose edits are excused where they fail. -/
theorem grow_addsOr {observes : σ → τ → Prop} {produce : List σ → ε → Except π (List σ)}
    {model : List τ → ε → List τ} (hobserves : ∀ version model, refines version model →
      observes version model)
    (hproduce : ∀ versions models edit, List.Forall₂ refines versions models →
      AddsOr refines excuse (produce versions edit) (model models edit))
    (edits : List ε) :
    ∃ models, Grows (fun models edit => Excused excuse (model models edit)) [] edits models ∧
      List.Forall₂ observes (grow produce [] edits) models ∧
      ∀ edit, AddsOr observes excuse (produce (grow produce [] edits) edit)
        (model models edit) := by
  obtain ⟨models, hgrows, hrefines⟩ := grow_simulates hproduce .nil edits
  refine ⟨models, hgrows, hrefines.imp hobserves, fun edit => ?_⟩
  obtain ⟨allowed, hexcused, hagrees⟩ := hproduce _ _ edit hrefines
  exact ⟨allowed, hexcused, hagrees.imp fun _ _ hadded => hadded.imp hobserves⟩

end Excused

end Merging

end Durable7.Foundation
