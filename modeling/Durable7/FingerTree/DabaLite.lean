import Durable7.Foundation.Stateful

/-!
# Sliding-window aggregates on two lists

A window changes in place and keeps what it had written when a combination raises.  `fails` says
which combinations of one call raise, by their number.
-/

namespace Durable7.FingerTree.DabaLite

open Foundation

structure Window (v : Type) where
  front : List v
  back : List v
  cachedAggregate : v
  size : Nat

variable {v : Type}

def toList (window : Window v) : List v := window.front ++ window.back.reverse

/-- The state of a call: the window and the combinations made so far. -/
abbrev Operation (v : Type) := EStateM Unit (Window v × Nat)

def modifyWindow (change : Window v → Window v) : Operation v Unit :=
  modify fun state => (change state.1, state.2)

section Operations

variable (identity : v) (combine : v → v → v) (fails : Nat → Bool)

def create : Window v := ⟨[], [], identity, 0⟩

def combineCall (left right : v) : Operation v v := do
  let (window, combines) ← get
  set (window, combines + 1)
  if fails combines then throw () else return combine left right

def fold (values : List v) : Operation v v := values.foldlM (combineCall combine fails) identity

def insert (value : v) : Operation v Unit := do
  let (window, _) ← get
  let cachedAggregate ← combineCall combine fails window.cachedAggregate value
  modifyWindow fun window => { window with back := value :: window.back }
  modifyWindow fun window => { window with cachedAggregate }
  modifyWindow fun window => { window with size := window.size + 1 }

def tryEvict : Operation v Bool := do
  let (window, _) ← get
  if window.size = 0 then return false
  else
    match toList window with
    | [] => throw ()
    | _ :: remaining =>
      let cachedAggregate ← fold identity combine fails remaining
      modifyWindow fun window => { window with front := remaining }
      modifyWindow fun window => { window with back := [] }
      modifyWindow fun window => { window with cachedAggregate }
      modifyWindow fun window => { window with size := window.size - 1 }
      return true

def clear : Operation v Unit := do
  modifyWindow fun window => { window with front := [] }
  modifyWindow fun window => { window with back := [] }
  modifyWindow fun window => { window with cachedAggregate := identity }
  modifyWindow fun window => { window with size := 0 }

inductive Call (v : Type) where
  | insert (value : v)
  | tryEvict
  | clear
  deriving DecidableEq

def Call.perform : Call v → Operation v (Option Bool)
  | .insert value => (fun _ => none) <$> DabaLite.insert combine fails value
  | .tryEvict => some <$> DabaLite.tryEvict identity combine fails
  | .clear => (fun _ => none) <$> DabaLite.clear identity

end Operations

/-- What one call did, of whose combinations `fails` says which raise. -/
structure Step (v : Type) where
  call : Call v
  fails : Nat → Bool
  before : Window v
  raised : Bool
  answer : Option Bool
  combines : Nat
  after : Window v

variable (identity : v) (combine : v → v → v)

def step (window : Window v) (call : Call v) (fails : Nat → Bool) : Step v :=
  match call.perform identity combine fails (window, 0) with
  | .ok answer (after, combines) => ⟨call, fails, window, false, answer, combines, after⟩
  | .error _ (after, combines) => ⟨call, fails, window, true, none, combines, after⟩

def trace : List (Call v × (Nat → Bool)) → Window v → List (Step v)
  | [], _ => []
  | (call, fails) :: later, window =>
    let taken := step identity combine window call fails
    taken :: trace later taken.after

/-! ## The window as a list -/

def Call.applyList (values : List v) : Call v → List v
  | .insert value => values ++ [value]
  | .tryEvict => values.tail
  | .clear => []

/-- Whether there was a value to evict. -/
def Call.answer (values : List v) : Call v → Option Bool
  | .tryEvict => some (!values.isEmpty)
  | _ => none

structure Aggregates (window : Window v) : Prop where
  size_eq : window.size = (toList window).length
  aggregate_eq : window.cachedAggregate = (toList window).foldl combine identity

/--
A call raises exactly when a combination it makes does, and then leaves the window.  No call
combines more than `limit` times.
-/
structure Meets (limit : Nat) (taken : Step v) : Prop where
  aggregates : Aggregates identity combine taken.after
  raises : taken.raised = true ↔ ∃ number < taken.combines, taken.fails number = true
  contents : taken.raised = false → toList taken.after = taken.call.applyList (toList taken.before)
  answers : taken.raised = false → taken.answer = taken.call.answer (toList taken.before)
  unchanged : taken.raised = true → taken.after = taken.before
  bounded : taken.combines ≤ limit

/-- No eviction meets a window of more than `limit + 1` values. -/
def Brief (limit : Nat) (taken : Step v) : Prop :=
  taken.call = .tryEvict → taken.before.size ≤ limit + 1

instance [DecidableEq v] (limit : Nat) (taken : Step v) : Decidable (Brief limit taken) :=
  inferInstanceAs (Decidable (_ → _))

variable {identity combine} {fails : Nat → Bool} {window : Window v} {limit : Nat}

@[simp] theorem modifyWindow_run (change : Window v → Window v) (combines : Nat) :
    modifyWindow change (window, combines) = .ok () (change window, combines) := rfl

@[simp] theorem combineCall_run (left right : v) (combines : Nat) :
    combineCall combine fails left right (window, combines) =
      if fails combines then .error () (window, combines + 1)
      else .ok (combine left right) (window, combines + 1) := by
  simp only [combineCall, bind_run, get_run, set_run]
  split <;> rfl

theorem foldlM_cases (combine : v → v → v) (fails : Nat → Bool) (window : Window v)
    (values : List v) (total : v) (combines : Nat) :
    (values.foldlM (combineCall combine fails) total (window, combines) =
        .ok (values.foldl combine total) (window, combines + values.length) ∧
      ∀ number < values.length, fails (combines + number) = false) ∨
      ∃ made < values.length, fails (combines + made) = true ∧
        values.foldlM (combineCall combine fails) total (window, combines) =
          .error () (window, combines + (made + 1)) := by
  induction values generalizing total combines with
  | nil => exact .inl ⟨rfl, by simp⟩
  | cons value values ih =>
      cases hfails : fails combines with
      | true => exact .inr ⟨0, by simp, hfails, by simp [hfails]⟩
      | false =>
          rcases ih (combine total value) (combines + 1) with
            ⟨hok, hquiet⟩ | ⟨made, hmade, hraised, herror⟩
          · refine .inl ⟨by simp [hfails, hok, Nat.add_assoc, Nat.add_comm 1], ?_⟩
            intro number hnumber
            cases number with
            | zero => exact hfails
            | succ number =>
                rw [Nat.add_comm number 1, ← Nat.add_assoc]
                exact hquiet number (Nat.lt_of_succ_lt_succ hnumber)
          · rw [Nat.add_assoc, Nat.add_comm 1] at hraised
            exact .inr ⟨made + 1, by simpa using hmade, hraised,
              by simp [hfails, herror, Nat.add_assoc, Nat.add_comm 1]⟩

theorem toList_nil (front : List v) (cachedAggregate : v) (size : Nat) :
    toList ⟨front, [], cachedAggregate, size⟩ = front := by
  simp [toList]

theorem toList_insert (value cachedAggregate : v) (size : Nat) :
    toList ⟨window.front, value :: window.back, cachedAggregate, size⟩ =
      toList window ++ [value] := by
  simp [toList]

theorem Aggregates.insert (h : Aggregates identity combine window) (value : v) :
    Aggregates identity combine ⟨window.front, value :: window.back,
      combine window.cachedAggregate value, window.size + 1⟩ := by
  constructor
  · simp [toList_insert, h.size_eq]
  · simp [toList_insert, h.aggregate_eq]

theorem step_insert (value : v) (hfails : fails 0 = false) :
    step identity combine window (.insert value) fails =
      ⟨.insert value, fails, window, false, none, 1, ⟨window.front, value :: window.back,
        combine window.cachedAggregate value, window.size + 1⟩⟩ := by
  simp [step, Call.perform, DabaLite.insert, hfails]

theorem insert_meets (value : v) (hlimit : 1 ≤ limit) (h : Aggregates identity combine window) :
    Meets identity combine limit (step identity combine window (.insert value) fails) := by
  cases hfails : fails 0 with
  | true =>
      have hstep : step identity combine window (.insert value) fails =
          ⟨.insert value, fails, window, true, none, 1, window⟩ := by
        simp [step, Call.perform, DabaLite.insert, hfails]
      rewrite [hstep]
      exact ⟨h, by simp [hfails], by simp, by simp, fun _ => rfl, hlimit⟩
  | false =>
      rewrite [step_insert value hfails]
      exact ⟨h.insert value, by simp [hfails], fun _ => toList_insert .., fun _ => rfl, by simp,
        hlimit⟩

theorem step_tryEvict {oldest : v} {remaining : List v} (h : Aggregates identity combine window)
    (hlist : toList window = oldest :: remaining)
    (hok : fold identity combine fails remaining (window, 0) =
      .ok (remaining.foldl combine identity) (window, remaining.length)) :
    step identity combine window .tryEvict fails =
      ⟨.tryEvict, fails, window, false, some true, remaining.length,
        ⟨remaining, [], remaining.foldl combine identity, remaining.length⟩⟩ := by
  have hsize : window.size = remaining.length + 1 := by simp [h.size_eq, hlist]
  simp [step, Call.perform, tryEvict, hsize, hlist, hok]

theorem tryEvict_meets (h : Aggregates identity combine window) (hbrief : window.size ≤ limit + 1) :
    Meets identity combine limit (step identity combine window .tryEvict fails) := by
  cases hlist : toList window with
  | nil =>
      have hstep : step identity combine window .tryEvict fails =
          ⟨.tryEvict, fails, window, false, some false, 0, window⟩ := by
        simp [step, Call.perform, tryEvict, h.size_eq, hlist]
      rewrite [hstep]
      exact ⟨h, by simp, fun _ => by simp [Call.applyList, hlist],
        fun _ => by simp [Call.answer, hlist], by simp, Nat.zero_le _⟩
  | cons oldest remaining =>
      have hsize : window.size = remaining.length + 1 := by simp [h.size_eq, hlist]
      have hbound : remaining.length ≤ limit := by omega
      rcases foldlM_cases combine fails window remaining identity 0 with
        ⟨hok, hquiet⟩ | ⟨made, hmade, hraised, herror⟩
      · have hnone : ¬ ∃ number < remaining.length, fails number = true := by
          rintro ⟨number, hnumber, hfails⟩
          simpa [hfails] using hquiet number hnumber
        rewrite [step_tryEvict h hlist (by simpa [fold] using hok)]
        exact ⟨⟨by simp [toList_nil], by simp [toList_nil]⟩, by simpa using hnone,
          fun _ => by simp [toList_nil, Call.applyList, hlist],
          fun _ => by simp [Call.answer, hlist], by simp, hbound⟩
      · have hstep : step identity combine window .tryEvict fails =
            ⟨.tryEvict, fails, window, true, none, made + 1, window⟩ := by
          simp [step, Call.perform, tryEvict, fold, hsize, hlist, herror]
        rewrite [hstep]
        rewrite [Nat.zero_add] at hraised
        have hstop : ∃ number < made + 1, fails number = true :=
          ⟨made, Nat.lt_succ_self made, hraised⟩
        exact ⟨h, by simpa using hstop, by simp, by simp,
          fun _ => rfl, Nat.le_trans hmade hbound⟩

theorem clear_meets : Meets identity combine limit (step identity combine window .clear fails) :=
  ⟨⟨rfl, rfl⟩, by simp [step, Call.perform, clear], fun _ => rfl, fun _ => rfl,
    by simp [step, Call.perform, clear], Nat.zero_le _⟩

@[simp] theorem step_call (call : Call v) :
    (step identity combine window call fails).call = call := by
  unfold step; split <;> rfl

@[simp] theorem step_before (call : Call v) :
    (step identity combine window call fails).before = window := by
  unfold step; split <;> rfl

theorem step_meets {call : Call v} (hlimit : 1 ≤ limit) (h : Aggregates identity combine window)
    (hbrief : Brief limit (step identity combine window call fails)) :
    Meets identity combine limit (step identity combine window call fails) := by
  cases call with
  | insert value => exact insert_meets value hlimit h
  | tryEvict => exact tryEvict_meets h (by simpa [Brief] using hbrief)
  | clear => exact clear_meets

theorem trace_meets (hlimit : 1 ≤ limit) (history : List (Call v × (Nat → Bool)))
    (h : Aggregates identity combine window)
    (hbrief : ∀ taken ∈ trace identity combine history window, Brief limit taken) :
    ∀ taken ∈ trace identity combine history window, Meets identity combine limit taken := by
  induction history generalizing window with
  | nil => simp [trace]
  | cons entry later ih =>
      simp only [trace, List.forall_mem_cons] at hbrief ⊢
      have hfirst := step_meets hlimit h hbrief.1
      exact ⟨hfirst, ih hfirst.aggregates hbrief.2⟩

/-- Runs whose evictions meet short windows keep the aggregate, raise exactly when a combination
does, and combine at most `limit` times a call. -/
theorem window_bounded (identity : v) (combine : v → v → v) {limit : Nat} (hlimit : 1 ≤ limit)
    (history : List (Call v × (Nat → Bool)))
    (hbrief : ∀ taken ∈ trace identity combine history (create identity), Brief limit taken) :
    ∀ taken ∈ trace identity combine history (create identity),
      Meets identity combine limit taken :=
  trace_meets hlimit history ⟨rfl, rfl⟩ hbrief

def never : Nat → Bool := fun _ => false

def sampleHistory : List (Call Int × (Nat → Bool)) :=
  [(.insert 2, never), (.insert 3, fun _ => true), (.insert 5, never), (.insert 7, never),
    (.tryEvict, (· == 1)), (.tryEvict, never)]

theorem window_bounded_sample :
    (trace 0 (· + ·) sampleHistory (create 0)).Forall (Meets 0 (· + ·) 2) :=
  List.forall_iff_forall_mem.mpr (window_bounded 0 (· + ·) (by decide) sampleHistory (by decide))

theorem foldlM_never (values : List v) (total : v) (combines : Nat) :
    values.foldlM (combineCall combine never) total (window, combines) =
      .ok (values.foldl combine total) (window, combines + values.length) := by
  induction values generalizing total combines with
  | nil => rfl
  | cons value values ih => simp [never, ih, Nat.add_assoc, Nat.add_comm 1]

theorem exists_long_eviction (value : v) (count : Nat) (h : Aggregates identity combine window)
    (hsize : 0 < window.size + count) :
    ∃ taken ∈ trace identity combine
        (List.replicate count (.insert value, never) ++ [(.tryEvict, never)]) window,
      taken.combines + 1 = window.size + count := by
  induction count generalizing window with
  | zero =>
      cases hlist : toList window with
      | nil => simp [h.size_eq, hlist] at hsize
      | cons oldest remaining =>
          refine ⟨_, .head _, ?_⟩
          rewrite [step_tryEvict h hlist (by simp [fold, foldlM_never])]
          simp [h.size_eq, hlist]
  | succ count ih =>
      obtain ⟨taken, hmem, hcombines⟩ := ih (h.insert value)
        (Nat.add_pos_left (Nat.succ_pos _) count)
      refine ⟨taken, ?_, ?_⟩
      · simp only [List.replicate_succ, List.cons_append, trace]
        rewrite [step_insert value rfl]
        exact .tail _ hmem
      · simpa [Nat.add_assoc, Nat.add_comm 1] using hcombines

theorem tryEvict_unbounded : ¬ ∃ limit, ∀ history, ∀ taken ∈
    trace (0 : Int) (· + ·) history (create 0), taken.combines ≤ limit := by
  rintro ⟨limit, hlimit⟩
  have hcreate : Aggregates (0 : Int) (· + ·) (create 0) := ⟨rfl, rfl⟩
  obtain ⟨taken, hmem, hcombines⟩ := exists_long_eviction 1 (limit + 2) hcreate (by omega)
  have hbound := hlimit _ taken hmem
  have hsize : (create (0 : Int)).size = 0 := rfl
  omega

end Durable7.FingerTree.DabaLite
