import Durable7.FingerTree.ChunkedDabaLite.Histories
import Mathlib.Data.List.Nodup

/-!
# Audits along a history

A window that keeps a list passes its audit, and so after every call of a history, whichever
callbacks throw.
-/

namespace Durable7.FingerTree.ChunkedDabaLite

open Foundation

variable {T : Type} {window : Window T} {chunk : Nat → Nat} {low high : Nat} {m : Marks}

def Marks.positions (m : Marks) : List Nat := [m.f, m.l, m.r, m.a, m.b, m.e]

/-- The positions known once the chunks before number `k` were met. -/
def knownBefore (m : Marks) (low k : Nat) : List (Option Nat) :=
  m.positions.map fun p => if p / 64 < k then some (p - 64 * low) else none

theorem Chain.length_le (h : Chain window chunk low high) (hle : low ≤ high) :
    high + 1 - low ≤ window.allocated := by
  have hinjective : ((List.range' low (high + 1 - low)).map chunk).Nodup := by
    refine List.Nodup.map_on (fun j hj k hk heq => ?_) List.nodup_range'
    simp only [List.mem_range'_1] at hj hk
    exact h.injective j k (by omega) (by omega) (by omega) (by omega) heq
  have hsubset : (List.range' low (high + 1 - low)).map chunk ⊆ List.range window.allocated := by
    intro address haddress
    simp only [List.mem_map, List.mem_range'_1] at haddress
    obtain ⟨k, hk, rfl⟩ := haddress
    exact List.mem_range.mpr (h.allocated k (by omega) (by omega))
  simpa using (List.subperm_of_subset hinjective hsubset).length_le

theorem walkChunks_eq_ok (h : Chain window chunk low high)
    (hcursors : cursors window = m.positions.map (place chunk))
    (hbetween : ∀ p ∈ m.positions, low ≤ p / 64 ∧ p / 64 ≤ high)
    (hend : window.e.block = chunk high) (passes : Nat) :
    ∀ (k : Nat) (seen : List Nat), low ≤ k → k ≤ high → high < k + passes →
      (∀ address ∈ seen, ∃ j, low ≤ j ∧ j < k ∧ address = chunk j) →
      walkChunks window passes seen (if k = low then none else some (chunk (k - 1))) (chunk k)
          (64 * (k - low)) (k - low) (knownBefore m low k) =
        .ok (knownBefore m low (high + 1), high + 1 - low) := by
  induction passes with
  | zero => omega
  | succ passes ih =>
      intro k seen hlow hhigh hpasses hseen
      have hnew : chunk k ∉ seen := fun hmem => by
        obtain ⟨j, hj, hjk, heq⟩ := hseen _ hmem
        exact Nat.ne_of_gt hjk (h.injective k j hlow hhigh hj (by omega) heq)
      have hlinks : ¬ ((window.blocks (chunk k)).previous ≠
            (if k = low then none else some (chunk (k - 1))) ∨
          ∃ before ∈ if k = low then none else some (chunk (k - 1)),
            (window.blocks before).next ≠ some (chunk k)) := by
        by_cases hfirst : k = low
        · simp [hfirst, h.front]
        · have hprevious := h.previous (k - 1) (by omega) (by omega)
          have hnext := h.next (k - 1) (by omega) (by omega)
          rw [Nat.sub_add_cancel (by omega)] at hprevious hnext
          simp [hfirst, hprevious, hnext]
      have hknown : List.zipWith (fun cursor position =>
          if cursor.block = chunk k then some (64 * (k - low) + cursor.index) else position)
          (cursors window) (knownBefore m low k) = knownBefore m low (k + 1) := by
        rw [hcursors, knownBefore, List.zipWith_map, List.zipWith_self]
        refine List.map_congr_left fun p hp => ?_
        have hp' := hbetween p hp
        have hblock : chunk (p / 64) = chunk k ↔ p / 64 = k :=
          ⟨h.injective _ _ hp'.1 hp'.2 hlow hhigh, congrArg chunk⟩
        simp only [place, chunkCapacity, hblock]
        split_ifs <;> first | omega | rfl | exact congrArg some (by omega)
      have hlast : chunk k = window.e.block ↔ k = high := by
        rw [hend]
        exact ⟨h.injective _ _ hlow hhigh (by omega) (Nat.le_refl _), congrArg chunk⟩
      simp only [walkChunks, rejectIf_neg hnew, rejectIf_neg hlinks, except_ok_bind, hknown, hlast]
      by_cases hk : k = high
      · have hback : ¬ (window.blocks (chunk high)).next ≠ none := by simp [h.back]
        simp only [hk, if_true, rejectIf_neg hback, except_ok_bind]
        congr 2
        omega
      · have hnext := h.next k hlow (by omega)
        have hrest := ih (k + 1) (chunk k :: seen) (by omega) (by omega) (by omega) (by
          intro address haddress
          cases List.mem_cons.mp haddress with
          | inl heq => exact ⟨k, hlow, Nat.lt_succ_self k, heq⟩
          | inr hmem =>
              obtain ⟨j, hj, hjk, heq⟩ := hseen _ hmem
              exact ⟨j, hj, Nat.lt_succ_of_lt hjk, heq⟩)
        have hbase : 64 * (k - low) + chunkCapacity = 64 * (k + 1 - low) := by
          simp only [chunkCapacity]
          omega
        have hcount : k - low + 1 = k + 1 - low := by omega
        simpa [hk, hnext, hbase, hcount, Nat.ne_of_gt (Nat.lt_succ_of_le hlow)] using hrest

variable [Monoid T] {v : Nat → T} {values : List T}

theorem Holds.audit (h : Holds window chunk v m) :
    ∃ statistics, validateStructure window = .ok statistics := by
  have hle := h.regions.marks_le
  have hbalanced := h.balanced
  have hcount := h.count_eq
  have hcursors : cursors window = m.positions.map (place chunk) := by
    simp [cursors, Marks.positions, h.placed.f_eq, h.placed.l_eq, h.placed.r_eq, h.placed.a_eq,
      h.placed.b_eq, h.placed.e_eq]
  have hbetween : ∀ p ∈ m.positions, m.f / 64 ≤ p / 64 ∧ p / 64 ≤ m.e / 64 := by
    simp only [Marks.positions, List.forall_mem_cons]
    refine ⟨?_, ?_, ?_, ?_, ?_, ?_, by simp⟩ <;> omega
  have hend : window.e.block = chunk (m.e / 64) := by rw [h.placed.e_eq]; rfl
  have hlength := h.chain.length_le (by omega)
  have hwalk := walkChunks_eq_ok h.chain hcursors hbetween hend (window.allocated + 1) (m.f / 64) []
    (Nat.le_refl _) (by omega) (by omega) (by simp)
  have hunknown : knownBefore m (m.f / 64) (m.f / 64) = List.replicate 6 none := by
    simp [knownBefore, Marks.positions]
    omega
  have hknown : knownBefore m (m.f / 64) (m.e / 64 + 1) =
      m.positions.map fun p => some (p - 64 * (m.f / 64)) := by
    refine List.map_congr_left fun p hp => ?_
    rw [if_pos (Nat.lt_succ_of_le (hbetween p hp).2)]
  rw [if_pos rfl, Nat.sub_self, Nat.mul_zero, hunknown, hknown, ← h.first_eq] at hwalk
  have hindexes : (["F", "L", "R", "A", "B", "E"].zip (cursors window)).forM
      (fun item => rejectIf (item.2.index ≥ chunkCapacity)
        ("The DABA Lite " ++ item.1 ++ " cursor has an invalid index.")) = .ok ⟨⟩ := by
    refine forM_eq_ok.mpr fun item hitem => rejectIf_neg ?_
    have hmem := (List.of_mem_zip hitem).2
    rw [hcursors] at hmem
    obtain ⟨p, -, hp⟩ := List.mem_map.mp hmem
    rw [← hp]
    exact Nat.not_le_of_lt (Nat.mod_lt p (by decide))
  have hfirst : ¬ ((window.blocks window.first).previous ≠ none ∨
      window.first ≠ window.f.block) := by
    simp [h.first_eq, h.chain.front, h.placed.f_eq, place, chunkCapacity]
  simp only [validateStructure, hindexes, rejectIf_neg hfirst, hwalk, except_ok_bind,
    Marks.positions, List.map_cons, List.map_nil]
  have hindex : window.f.index = m.f % 64 := by rw [h.placed.f_eq]; rfl
  unfold Balanced at hbalanced
  simp only [auditPositions, hcount, hindex, chunkCapacity]
  rw [rejectIf_neg (by omega), rejectIf_neg (by omega), except_ok_bind, except_ok_bind]
  by_cases hempty : m.e - m.f = 0
  · rw [if_pos hempty, rejectIf_neg (by omega), except_ok_bind, rejectIf_neg (by omega),
      except_ok_bind, rejectIf_neg (by omega)]
    exact ⟨_, rfl⟩
  · rw [if_neg hempty, rejectIf_neg (by omega), except_ok_bind, rejectIf_neg (by omega),
      except_ok_bind, rejectIf_neg (by omega), except_ok_bind, rejectIf_neg (by omega),
      except_ok_bind, rejectIf_neg (by omega)]
    exact ⟨_, rfl⟩

/-! ## Histories -/

inductive Call (T : Type) where
  | insert (value : T)
  | tryEvict
  | clear

def Call.perform (fails : Nat → Bool) : Call T → Operation T (Option Bool)
  | .insert value => (fun _ => none) <$> ChunkedDabaLite.insert fails value
  | .tryEvict => some <$> ChunkedDabaLite.tryEvict fails
  | .clear => (fun _ => none) <$> ChunkedDabaLite.clear fails

def Call.applyList (values : List T) : Call T → List T
  | .insert value => values ++ [value]
  | .tryEvict => values.tail
  | .clear => []

/-- Whether there was a value to evict. -/
def Call.answer (values : List T) : Call T → Option Bool
  | .tryEvict => some (!values.isEmpty)
  | _ => none

/-- Only an insertion into a window of the largest count is refused. -/
def Call.Refused (values : List T) : Call T → Prop
  | .insert _ => values.length = maxSafeInteger
  | _ => False

/--
One call on a list: the callbacks it made and which of them throw, what it returns or throws, the
window it leaves, and the list, which a call that throws leaves.
-/
structure Step (T : Type) where
  earlier : List T
  call : Call T
  fails : Nat → Bool
  callbacks : Nat
  outcome : Except Failure (Option Bool)
  after : Window T
  values : List T

def step (fails : Nat → Bool) (window : Window T) (values : List T) (call : Call T) : Step T :=
  match call.perform fails (window, 0) with
  | .ok result (after, callbacks) =>
      ⟨values, call, fails, callbacks, .ok result, after, call.applyList values⟩
  | .error problem (after, callbacks) =>
      ⟨values, call, fails, callbacks, .error problem, after, values⟩

/-- The calls one after another, each with the callbacks that throw in it. -/
def trace : List (Call T × (Nat → Bool)) → Window T → List T → List (Step T)
  | [], _, _ => []
  | (call, fails) :: later, window, values =>
      let taken := step fails window values call
      taken :: trace later taken.after taken.values

/-- How a call ends and what it leaves behind. -/
structure Kept (taken : Step T) : Prop where
  refused : taken.call.Refused taken.earlier → taken.outcome = .error .windowTooLarge
  thrown : ¬ taken.call.Refused taken.earlier →
    (∃ number < taken.callbacks, taken.fails number = true) → taken.outcome = .error .callback
  answered : ¬ taken.call.Refused taken.earlier →
    (∀ number < taken.callbacks, taken.fails number = false) →
      taken.outcome = .ok (taken.call.answer taken.earlier)
  counted : taken.after.count = taken.values.length
  aggregate : ∀ fails n, aggregate fails (taken.after, n) =
    if fails n then .error .callback (taken.after, n + 1)
    else .ok taken.values.prod (taken.after, n + 1)
  validated : ∃ statistics, validateStructure taken.after = .ok statistics

variable (fails : Nat → Bool)

theorem Leaves.map {α β : Type} {refused : Prop} {done : List T} {answer : α}
    {call : Operation T α} {n : Nat}
    (h : Leaves fails n refused values done answer (call (window, n))) (f : α → β) :
    Leaves fails n refused values done (f answer) ((f <$> call) (window, n)) := by
  rw [map_run]
  revert h
  cases call (window, n) with
  | ok result state => exact fun ⟨hrefused, hquiet, hanswer, hkeeps⟩ =>
      ⟨hrefused, hquiet, congrArg f hanswer, hkeeps⟩
  | error problem state => exact id

theorem perform_leaves (h : Keeps window values) (call : Call T) (n : Nat) :
    Leaves fails n (call.Refused values) values (call.applyList values) (call.answer values)
      (call.perform fails (window, n)) := by
  cases call with
  | insert value => exact (insert_leaves h value n).map fails _
  | tryEvict => exact (tryEvict_leaves fails h n).map fails _
  | clear => exact (clear_leaves h n).map fails _

theorem Keeps.audit (h : Keeps window values) :
    ∃ statistics, validateStructure window = .ok statistics := by
  obtain ⟨chunk, v, m, h, -⟩ := h
  exact h.audit

theorem step_keeps (h : Keeps window values) (call : Call T) :
    Keeps (step fails window values call).after (step fails window values call).values ∧
      Kept (step fails window values call) := by
  have hleaves := perform_leaves fails h call 0
  rw [step]
  revert hleaves
  cases call.perform fails (window, 0) with
  | ok result state =>
      rintro ⟨hrefused, hquiet, rfl, hkeeps⟩
      refine ⟨hkeeps, fun h => absurd h hrefused, ?_, fun _ _ => rfl, hkeeps.count_eq,
        fun fails n => aggregate_eq hkeeps n, hkeeps.audit⟩
      rintro - ⟨number, hmade, hfails⟩
      exact absurd hfails (by simp [hquiet number (Nat.zero_le _) hmade])
  | error problem state =>
      rintro ⟨hended, hkeeps⟩
      refine ⟨hkeeps, fun h => ?_, fun h _ => ?_, fun h hquiet => ?_, hkeeps.count_eq,
        fun fails n => aggregate_eq hkeeps n, hkeeps.audit⟩
      all_goals simp only [h, true_and, not_true, not_false_eq_true, false_and, or_false,
        false_or] at hended
      · rw [hended]
      · rw [hended.1]
      · obtain ⟨-, number, hmade, hfails⟩ := hended
        exact absurd (hquiet number hmade) (by simp [hfails])

theorem trace_kept (history : List (Call T × (Nat → Bool))) (h : Keeps window values) :
    (trace history window values).Forall Kept := by
  induction history generalizing window values with
  | nil => simp [trace]
  | cons entry later ih =>
      obtain ⟨call, fails⟩ := entry
      obtain ⟨hkeeps, hkept⟩ := step_keeps fails h call
      rw [trace, List.forall_cons]
      exact ⟨hkept, ih hkeeps⟩

/--
Whatever is inserted, evicted and cleared, and whichever callbacks throw, a call throws only when
the window is too large or one of the callbacks it made throws, and never leaves its chain.  The
window holds what the calls that did not throw left in it, and passes its audit.
-/
theorem history_kept (history : List (Call T × (Nat → Bool))) :
    (trace history (create : Window T) []).Forall Kept :=
  trace_kept history create_keeps

end Durable7.FingerTree.ChunkedDabaLite
