import Durable7.FingerTree.ChunkedDabaLite.Chunks

/-!
# Histories of a chunked window

Every call keeps a window that holds a list of values in order, whichever of its callbacks throw.
-/

namespace Durable7.FingerTree.ChunkedDabaLite

open Foundation Function

variable {T : Type} {window : Window T} {chunk : Nat → Nat} {low n p : Nat}

/-- The end moved to the slot after `p`, in a new chunk where the last one was full. -/
structure Grows (window : Window T) (chunk : Nat → Nat) (low p : Nat) (grown : Window T)
    (chunk' : Nat → Nat) : Prop where
  chain : Chain grown chunk' low ((p + 1) / 64)
  chunk_eq : ∀ k, k ≤ p / 64 → chunk' k = chunk k
  items_eq : ∀ address, address < window.allocated →
    (grown.blocks address).items = (window.blocks address).items
  fields_eq : grown = { window with blocks := grown.blocks, allocated := grown.allocated }
  allocated_le : window.allocated ≤ grown.allocated
  restored : ∀ stopped : Window T, stopped.blocks = grown.blocks → ∀ n, ∃ after,
    restoreSuccessor (chunk (p / 64)) none (stopped, n) = .ok () (after, n) ∧
      after = { stopped with blocks := after.blocks } ∧
      ∀ address, address < window.allocated → after.blocks address = window.blocks address

/-- The chain with a new chunk behind `last`. -/
def linkChunk (last : Nat) (window : Window T) : Window T :=
  setBlock last (fun block => { block with next := some window.allocated })
    (setBlock window.allocated (fun block => { block with previous := some last })
      { setBlock window.allocated (fun _ => emptyBlock) window with
        allocated := window.allocated + 1 })

theorem linkChunk_blocks {last : Nat} (hlast : last < window.allocated) (address : Nat) :
    (linkChunk last window).blocks address =
      if address = last then { window.blocks last with next := some window.allocated }
      else if address = window.allocated then { emptyBlock with previous := some last }
      else window.blocks address := by
  simp only [linkChunk, setBlock, update_apply]
  split_ifs <;> simp_all

theorem Chain.grows_linked (h : Chain window chunk low (p / 64)) (hlow : low ≤ p / 64)
    (hfull : p % 64 + 1 = 64) :
    Grows window chunk low p (linkChunk (chunk (p / 64)) window)
      (update chunk (p / 64 + 1) window.allocated) := by
  have hlast := h.allocated (p / 64) hlow (Nat.le_refl _)
  have hnumber : (p + 1) / 64 = p / 64 + 1 := by omega
  have hlinked := linkChunk_blocks hlast
  have hold : ∀ k, k ≤ p / 64 → update chunk (p / 64 + 1) window.allocated k = chunk k :=
    fun k hk => update_of_ne (by omega) _ _
  have hlive : ∀ k, low ≤ k → k ≤ p / 64 → chunk k ≠ window.allocated :=
    fun k hlow hhigh => Nat.ne_of_lt (h.allocated k hlow hhigh)
  have hother : ∀ k, low ≤ k → k < p / 64 → chunk k ≠ chunk (p / 64) := fun k hk hk' heq =>
    Nat.ne_of_lt hk' (h.injective k _ hk (by omega) hlow (Nat.le_refl _) heq)
  refine ⟨⟨fun k hk hk' => ?_, fun k hk hk' => ?_, ?_, ?_, fun k hk hk' => ?_,
    fun j k hj hj' hk hk' heq => ?_⟩, hold, fun address hlt => ?_, rfl, Nat.le_succ _,
    fun stopped hstopped n => ?_⟩
  · rw [hold k (by omega), hlinked]
    by_cases hkp : k = p / 64
    · simp [hkp]
    · rw [if_neg (hother k hk (by omega)), if_neg (hlive k hk (by omega)), hold _ (by omega)]
      exact h.next k hk (by omega)
  · rw [hold k (by omega), hlinked]
    by_cases hkp : k = p / 64
    · simp [hkp, Ne.symm (Nat.ne_of_lt hlast)]
    · rw [hold _ (by omega), if_neg (hlive _ (by omega) (by omega))]
      have hprevious := h.previous k hk (by omega)
      split
      · next heq => rw [← heq]; exact hprevious
      · exact hprevious
  · rw [hold low hlow, hlinked, if_neg (hlive low (Nat.le_refl _) hlow)]
    have hfront := h.front
    split
    · next heq => rw [← heq]; exact hfront
    · exact hfront
  · simp [hnumber, hlinked, Ne.symm (Nat.ne_of_lt hlast), emptyBlock]
  · by_cases hkp : k = p / 64 + 1
    · simp [hkp, linkChunk, setBlock]
    · rw [hold k (by omega)]
      exact Nat.lt_succ_of_lt (h.allocated k hk (by omega))
  · rw [hnumber] at hj' hk'
    rcases Nat.lt_or_eq_of_le hj' with hj'' | rfl <;> rcases Nat.lt_or_eq_of_le hk' with hk'' | rfl
    · rw [hold j (by omega), hold k (by omega)] at heq
      exact h.injective j k hj (by omega) hk (by omega) heq
    · rw [hold j (by omega), update_self] at heq
      exact absurd heq (hlive j hj (by omega))
    · rw [hold k (by omega), update_self] at heq
      exact absurd heq.symm (hlive k hk (by omega))
    · rfl
  · rw [hlinked, if_neg (Nat.ne_of_lt hlt)]
    split
    · next heq => rw [heq]
    · rfl
  · refine ⟨_, by simp [restoreSuccessor, hstopped, hlinked]; rfl, rfl, fun address hlt => ?_⟩
    have hback := h.back
    by_cases heq : address = chunk (p / 64)
    · simp [setBlock, update_apply, hstopped, hlinked, heq, Nat.ne_of_lt hlast, ← hback]
    · simp [setBlock, update_apply, hstopped, hlinked, heq, Nat.ne_of_lt hlt]

theorem advanceEnd_grows (h : Chain window chunk low (p / 64)) (hlow : low ≤ p / 64) (n : Nat) :
    ∃ grown chunk', advanceEnd (place chunk p) (window, n) =
      .ok (place chunk' (p + 1)) (grown, n) ∧ Grows window chunk low p grown chunk' := by
  by_cases hroom : p % 64 + 1 < 64
  · have hnumber : (p + 1) / 64 = p / 64 := by omega
    have hindex : (p + 1) % 64 = p % 64 + 1 := by omega
    refine ⟨window, chunk, ?_, ⟨hnumber ▸ h, fun _ _ => rfl, fun _ _ => rfl, rfl, Nat.le_refl _,
      fun stopped hstopped n => ⟨stopped, ?_, rfl, fun _ _ => by rw [hstopped]⟩⟩⟩
    · simp [advanceEnd, place, chunkCapacity, hroom, hnumber, hindex]
    · simp [restoreSuccessor, hstopped, h.back]
  · have hnumber : (p + 1) / 64 = p / 64 + 1 := by omega
    have hindex : (p + 1) % 64 = 0 := by omega
    refine ⟨_, _, ?_, h.grows_linked hlow (by omega)⟩
    simp [advanceEnd, newBlock, place, chunkCapacity, hroom, hnumber, hindex, h.back, linkChunk]

/-! ## Windows that hold a list -/

variable [Monoid T] {fails : Nat → Bool} {v : Nat → T} {m : Marks} {values : List T}

structure Holds (window : Window T) (chunk : Nat → Nat) (v : Nat → T) (m : Marks) : Prop where
  chain : Chain window chunk (m.f / 64) (m.e / 64)
  placed : Placed window chunk m
  regions : Regions v (slot window chunk) m window.aggregateRA window.aggregateB
  balanced : Balanced m
  first_eq : window.first = chunk (m.f / 64)
  count_eq : window.count = m.e - m.f

/-- The window keeps the values, the oldest first. -/
def Keeps (window : Window T) (values : List T) : Prop :=
  ∃ chunk v m, Holds window chunk v m ∧ values = valuesBetween v m.f m.e

/--
A call, which makes its callbacks from number `n` on, is refused, or it stops at a callback that
throws, or it takes the list from `values` to `done` and returns `answer`.  In the first two cases
it leaves the list.
-/
def Leaves {α : Type} (fails : Nat → Bool) (n : Nat) (refused : Prop) (values done : List T)
    (answer : α) : EStateM.Result Failure (Window T × Nat) α → Prop
  | .ok result (after, k) => ¬ refused ∧ Quiet fails n k ∧ result = answer ∧ Keeps after done
  | .error problem (after, k) =>
      (refused ∧ problem = .windowTooLarge ∨
        ¬ refused ∧ problem = .callback ∧ ∃ i < k, fails i = true) ∧ Keeps after values

theorem Holds.marks_le (h : Holds window chunk v m) : m.f ≤ m.e := by
  have hle := h.regions.marks_le
  omega

/-- The invariant is about the chunks of the chain alone. -/
theorem Holds.of_blocks {after : Window T} (h : Holds window chunk v m)
    (hblocks : ∀ address, address < window.allocated → after.blocks address = window.blocks address)
    (hallocated : window.allocated ≤ after.allocated)
    (hfields : after = { window with blocks := after.blocks, allocated := after.allocated }) :
    Holds after chunk v m := by
  have hle := h.marks_le
  have hlive : ∀ k, m.f / 64 ≤ k → k ≤ m.e / 64 →
      after.blocks (chunk k) = window.blocks (chunk k) :=
    fun k hlow hhigh => hblocks _ (h.chain.allocated k hlow hhigh)
  refine ⟨h.chain.congr hallocated (fun k hlow hhigh => by simp [hlive k hlow hhigh]) (by omega),
    ?_, ?_, h.balanced, ?_, ?_⟩
  all_goals rw [hfields]
  · exact ⟨h.placed.f_eq, h.placed.l_eq, h.placed.r_eq, h.placed.a_eq, h.placed.b_eq, h.placed.e_eq⟩
  · refine h.regions.slots_congr fun p hlow hhigh => ?_
    rw [slot, hlive _ (by simp [chunkCapacity]; omega) (by simp [chunkCapacity]; omega), slot]
  · exact h.first_eq
  · exact h.count_eq

theorem Settled.keeps {after : Window T} {f e : Nat} (h : Settled window after chunk v f e)
    (hchain : Chain window chunk (f / 64) (e / 64)) (hfirst : window.first = chunk (f / 64))
    (hcount : window.count = e - f) : Keeps after (valuesBetween v f e) := by
  obtain ⟨m, rfl, rfl, hplaced, hregions, hbalanced⟩ := h.regions
  have hle := hregions.marks_le
  have hchain' := hchain.congr (Nat.le_of_eq h.allocated_eq.symm)
    (fun k _ _ => ⟨h.next_eq _, h.previous_eq _⟩) (by omega)
  exact ⟨chunk, v, m, ⟨hchain', hplaced, hregions, hbalanced, h.first_eq.trans hfirst,
    h.count_eq.trans hcount⟩, rfl⟩

omit [Monoid T] in
theorem setItem_undo (cursor : Cursor) (value : Option T) :
    (setItem cursor ((window.blocks cursor.block).items cursor.index)
      (setItem cursor value window)).blocks = window.blocks := by
  funext address
  by_cases h : address = cursor.block <;> simp [setItem, setBlock, h]

/-- The window of an insertion before its fixup. -/
def pushed (window grown : Window T) (oldEnd newEnd : Cursor) (value : T) : Window T :=
  { setItem oldEnd (some value) grown with
    e := newEnd, count := window.count + 1, aggregateB := window.aggregateB * value }

section Insertion

variable (h : Holds window chunk v m) {grown : Window T} {chunk' : Nat → Nat}
  (hgrows : Grows window chunk (m.f / 64) m.e grown chunk') (value : T)
include h hgrows

variable (fails) in
theorem pushed_ends :
    Ends fails (fixup fails) (pushed window grown (place chunk m.e) (place chunk' (m.e + 1)) value)
      fun _ after => Keeps after (valuesBetween v m.f m.e ++ [value]) := by
  have hle := h.regions.marks_le
  have hplace : ∀ q, q ≤ m.e → place chunk q = place chunk' q := fun q hq => by
    rw [place, place, hgrows.chunk_eq _ (by simp only [chunkCapacity]; omega)]
  obtain ⟨blocks, allocated, rfl⟩ : ∃ blocks allocated,
      grown = { window with blocks, allocated } := ⟨_, _, hgrows.fields_eq⟩
  rw [hplace m.e (Nat.le_refl _)]
  have hchain : Chain (pushed window { window with blocks, allocated } (place chunk' m.e)
      (place chunk' (m.e + 1)) value) chunk' (m.f / 64) ((m.e + 1) / 64) :=
    hgrows.chain.congr (Nat.le_refl _) (by simp [pushed]) (by omega)
  have hregions := (h.regions.insert value).slots_congr
    (t := slot (pushed window { window with blocks, allocated } (place chunk' m.e)
      (place chunk' (m.e + 1)) value) chunk') fun p hlow hhigh => by
    simp only at hlow hhigh
    have hnumber : p / 64 ≤ m.e / 64 := by omega
    have hlive := h.chain.allocated (p / 64) (by omega) hnumber
    change slot (setItem (place chunk' m.e) (some value) _) chunk' p = _
    rw [hgrows.chain.slot_setItem _ (by omega) (by omega)]
    by_cases hp : p = m.e
    · simp [hp]
    · rw [update_of_ne hp, update_of_ne hp, slot, slot]
      simp only [chunkCapacity]
      rw [hgrows.chunk_eq _ hnumber, hgrows.items_eq _ hlive]
  have hplaced : Placed (pushed window { window with blocks, allocated } (place chunk' m.e)
      (place chunk' (m.e + 1)) value) chunk' { m with e := m.e + 1 } :=
    ⟨h.placed.f_eq.trans (hplace _ (by omega)), h.placed.l_eq.trans (hplace _ (by omega)),
      h.placed.r_eq.trans (hplace _ (by omega)), h.placed.a_eq.trans (hplace _ (by omega)),
      h.placed.b_eq.trans (hplace _ (by omega)), rfl⟩
  have hends := fixup_ends fails (m := { m with e := m.e + 1 }) hchain (Nat.le_refl _)
    (Nat.le_refl _) hplaced.f_eq rfl hplaced hregions (h.balanced.insert h.regions)
  rw [← valuesBetween_insert (by omega)]
  refine hends.imp fun _ _ hsettled => hsettled.keeps hchain ?_ ?_
  · exact h.first_eq.trans (hgrows.chunk_eq _ (by omega)).symm
  · have hcount := h.count_eq
    simp only [pushed]
    omega

end Insertion

theorem Keeps.count_eq (h : Keeps window values) : window.count = values.length := by
  obtain ⟨chunk, v, m, h, rfl⟩ := h
  rw [h.count_eq, valuesBetween, List.length_map, List.length_range']

theorem insert_leaves (h : Keeps window values) (value : T) (n : Nat) :
    Leaves fails n (values.length = maxSafeInteger) values (values ++ [value]) ()
      (insert fails value (window, n)) := by
  rw [← h.count_eq]
  obtain ⟨chunk, v, m, h, rfl⟩ := h
  have hkept : Keeps window (valuesBetween v m.f m.e) := ⟨chunk, v, m, h, rfl⟩
  by_cases hmax : window.count = maxSafeInteger
  · simpa [insert, hmax, Leaves] using hkept
  cases hfails : fails n with
  | true =>
      have hstop : ∃ i < n + 1, fails i = true := ⟨n, Nat.lt_succ_self n, hfails⟩
      simpa [insert, hmax, readRaw, combineCall, callback, hfails, Leaves]
        using And.intro hstop hkept
  | false =>
      have hle := h.marks_le
      obtain ⟨grown, chunk', hadvance, hgrows⟩ := advanceEnd_grows h.chain (by omega) (n + 1)
      have hends := pushed_ends fails h hgrows value (n + 1)
      have hback : (window.blocks (place chunk m.e).block).next = none := h.chain.back
      have hitems : (window.blocks (place chunk m.e).block).items =
          (grown.blocks (place chunk m.e).block).items :=
        (hgrows.items_eq _ (h.chain.allocated _ (by omega) (Nat.le_refl (m.e / 64)))).symm
      simp [insert, hmax, readRaw, combineCall, callback, hfails, h.placed.e_eq, hback, hadvance,
        write]
      generalize hfixup : fixup fails (_ : Window T × Nat) = ended
      change fixup fails (pushed window grown (place chunk m.e) (place chunk' (m.e + 1)) value,
          n + 1) = ended at hfixup
      rw [hfixup] at hends
      cases ended with
      | ok _ state => exact ⟨not_false, hends.1.cons hfails, rfl, hends.2⟩
      | error problem state =>
          obtain ⟨rfl, hstop, hstopped⟩ := hends
          obtain ⟨stopped, k⟩ := state
          simp only at hstopped
          subst hstopped
          obtain ⟨after, hrestored, hafter, hblocks⟩ := hgrows.restored (setItem (place chunk m.e)
            ((window.blocks (place chunk m.e).block).items (place chunk m.e).index)
            (pushed window grown (place chunk m.e) (place chunk' (m.e + 1)) value)) (by
              rw [hitems]
              exact @setItem_undo T grown _ _) k
          have hrun : restoreSuccessor (place chunk m.e).block none (setItem (place chunk m.e)
            ((window.blocks (place chunk m.e).block).items (place chunk m.e).index)
            (pushed window grown (place chunk m.e) (place chunk' (m.e + 1)) value), k) =
              .ok () (after, k) := hrestored
          simp [hrun, Leaves, hstop]
          refine ⟨chunk, v, m, h.of_blocks hblocks ?_ ?_, rfl⟩
          · rw [hafter]
            exact hgrows.allocated_le
          · rw [hafter, hgrows.fields_eq, ← h.placed.e_eq]
            rfl

omit [Monoid T] in
/-- The chain without its first chunk, which is unlinked from the next one. -/
theorem Chain.unlinked {high : Nat} (h : Chain window chunk low high) (hlt : low < high)
    {after : Window T} (hallocated : after.allocated = window.allocated)
    (hnext : ∀ k, low < k → k ≤ high →
      (after.blocks (chunk k)).next = (window.blocks (chunk k)).next)
    (hprevious : ∀ k, low + 1 < k → k ≤ high →
      (after.blocks (chunk k)).previous = (window.blocks (chunk k)).previous)
    (hfront : (after.blocks (chunk (low + 1))).previous = none) :
    Chain after chunk (low + 1) high where
  next k hk hk' := by rw [hnext k hk (by omega), h.next k (by omega) hk']
  previous k hk hk' := by rw [hprevious (k + 1) (by omega) hk', h.previous k (by omega) hk']
  front := hfront
  back := by rw [hnext high hlt (Nat.le_refl _), h.back]
  allocated k hk hk' := hallocated ▸ h.allocated k (by omega) hk'
  injective j k hj hj' hk hk' := h.injective j k (by omega) hj' (by omega) hk'

omit [Monoid T] in
theorem trimBefore_run {high : Nat} (h : Chain window chunk (p / 64) high)
    (hp : (p + 1) / 64 ≤ high) (hfirst : window.first = chunk (p / 64)) (n : Nat) :
    ∃ after, trimBefore (place chunk (p + 1)) (window, n) = .ok () (after, n) ∧
      after = { window with blocks := after.blocks, first := chunk ((p + 1) / 64) } ∧
      (∀ address, (after.blocks address).items = (window.blocks address).items) ∧
      Chain after chunk ((p + 1) / 64) high := by
  by_cases hnumber : (p + 1) / 64 = p / 64
  · refine ⟨window, ?_, by rw [hnumber, ← hfirst], fun _ => rfl, by rw [hnumber]; exact h⟩
    simp [trimBefore, place, chunkCapacity, hnumber, hfirst]
  · have hnext : (p + 1) / 64 = p / 64 + 1 := by omega
    rw [hnext] at hp
    have hne : ∀ k, p / 64 < k → k ≤ high → chunk k ≠ chunk (p / 64) := fun k hk hk' heq =>
      Nat.ne_of_gt hk (h.injective _ _ (by omega) hk' (Nat.le_refl _) (by omega) heq)
    have hother : ∀ k, p / 64 + 1 < k → k ≤ high → chunk k ≠ chunk (p / 64 + 1) :=
      fun k hk hk' heq => Nat.ne_of_gt hk (h.injective _ _ (by omega) hk' (by omega) hp heq)
    have hprevious := h.previous (p / 64) (Nat.le_refl _) hp
    refine ⟨_, by simp [trimBefore, place, chunkCapacity, hnext, hfirst, hprevious,
      (hne _ (Nat.lt_succ_self _) hp).symm]; rfl, by simp [setBlock, hnext], fun address => ?_, ?_⟩
    · simp only [setBlock, update_apply]
      split_ifs <;> simp_all
    · rw [hnext]
      refine h.unlinked hp rfl (fun k hk hk' => ?_) (fun k hk hk' => ?_) ?_
      · by_cases hk'' : k = p / 64 + 1
        · simp [setBlock, update_apply, hk'', hne _ (Nat.lt_succ_self _) hp]
        · simp [setBlock, update_apply, hne k hk hk', hother k (by omega) hk']
      · simp [setBlock, update_apply, hne k (by omega) hk', hother k hk hk']
      · simp [setBlock, update_apply, hne _ (Nat.lt_succ_self _) hp]

/-- The evicted slot is emptied and its chunk trimmed. -/
theorem Settled.trimmed {ready after : Window T} (h : Settled ready after chunk v (p + 1) n)
    (hlt : p < n) (hchain : Chain ready chunk (p / 64) (n / 64))
    (hfirst : ready.first = chunk (p / 64)) (hcount : ready.count = n - (p + 1)) (k : Nat) :
    ∃ final, trimBefore (place chunk (p + 1)) (setItem (place chunk p) none after, k) =
        .ok () (final, k) ∧ Keeps final (valuesBetween v (p + 1) n) := by
  obtain ⟨m, hf, rfl, hplaced, hregions, hbalanced⟩ := h.regions
  have hle := hregions.marks_le
  have hcleared : Chain (setItem (place chunk p) none after) chunk (p / 64) (m.e / 64) :=
    hchain.congr (Nat.le_of_eq h.allocated_eq.symm)
      (fun k _ _ => by simp [h.next_eq, h.previous_eq]) (by omega)
  obtain ⟨final, hrun, hfields, hitems, hlinked⟩ :=
    trimBefore_run hcleared (by omega) (h.first_eq.trans hfirst) k
  refine ⟨final, hrun, chunk, v, m, ⟨hf ▸ hlinked, ?_, ?_, hbalanced, ?_, ?_⟩, by rw [hf]⟩
  all_goals rw [hfields]
  · exact ⟨hplaced.f_eq, hplaced.l_eq, hplaced.r_eq, hplaced.a_eq, hplaced.b_eq, hplaced.e_eq⟩
  · refine hregions.slots_congr fun q hlow hhigh => ?_
    have hslot : Chain after chunk _ _ := hchain.congr (Nat.le_of_eq h.allocated_eq.symm)
      (fun k _ _ => ⟨h.next_eq _, h.previous_eq _⟩) (by omega)
    have hne : q ≠ p := by omega
    rw [slot, hitems]
    change slot (setItem (place chunk p) none after) chunk q = _
    rw [hslot.slot_setItem _ (by omega) (by omega), update_of_ne hne]
  · rw [hf]
  · exact h.count_eq.trans (hf ▸ hcount)

variable (fails) in
theorem tryEvict_leaves (h : Keeps window values) (n : Nat) :
    Leaves fails n False values values.tail (!values.isEmpty) (tryEvict fails (window, n)) := by
  have hlength := h.count_eq
  obtain ⟨chunk, v, m, h, rfl⟩ := h
  have hkept : Keeps window (valuesBetween v m.f m.e) := ⟨chunk, v, m, h, rfl⟩
  have hle := h.marks_le
  have hcount := h.count_eq
  by_cases hempty : window.count = 0
  · obtain hfe : m.f = m.e := by omega
    simpa [tryEvict, hempty, Leaves, hfe, Quiet.nil] using hkept
  · have hlt : m.f < m.e := by omega
    have hadvance := h.chain.advance_run (p := m.f) (n := n) (Nat.le_refl _) (by omega)
    have hends := fixup_ends fails (m := { m with f := m.f + 1 })
      (show Chain { window with f := place chunk (m.f + 1), count := window.count - 1 } chunk
        (m.f / 64) (m.e / 64) from
          h.chain.congr (Nat.le_refl _) (fun _ _ _ => ⟨rfl, rfl⟩) (by omega)) (by simp only; omega)
      (Nat.le_refl _) rfl h.placed.e_eq
      ⟨rfl, h.placed.l_eq, h.placed.r_eq, h.placed.a_eq, h.placed.b_eq, h.placed.e_eq⟩
      (h.regions.evict h.balanced hlt) (h.balanced.evict h.regions hlt) n
    simp [tryEvict, hempty, h.placed.f_eq, hadvance, write]
    generalize hfixup : fixup fails (_ : Window T × Nat) = ended at hends ⊢
    cases ended with
    | ok _ state =>
        obtain ⟨after, k⟩ := state
        obtain ⟨final, hrun, hkeeps⟩ := Settled.trimmed hends.2 hlt
          (h.chain.congr (Nat.le_refl _) (fun _ _ _ => ⟨rfl, rfl⟩) (by omega)) h.first_eq
          (by simp only; omega) k
        rw [valuesBetween_evict hlt] at hkeeps
        have hsome : valuesBetween v m.f m.e ≠ [] := List.ne_nil_of_length_pos (by omega)
        simpa [hrun, Leaves, hsome, hends.1] using hkeeps
    | error problem state =>
        obtain ⟨stopped, k⟩ := state
        obtain ⟨rfl, hstop, hstopped⟩ := hends
        change stopped = _ at hstopped
        subst hstopped
        simpa [← h.placed.f_eq, Leaves, hstop] using hkept

theorem fresh_keeps (address : Nat) (block : window.blocks address = emptyBlock)
    (hallocated : address < window.allocated) (hfirst : window.first = address)
    (hcursors : ∀ cursor ∈ cursors window, cursor = ⟨address, 0⟩)
    (haggregate : window.aggregateB = 1) (hcount : window.count = 0) : Keeps window [] := by
  simp only [cursors, List.forall_mem_cons] at hcursors
  obtain ⟨hf, hl, hr, ha, hb, he, -⟩ := hcursors
  refine ⟨fun _ => address, fun _ => 1, ⟨0, 0, 0, 0, 0, 0⟩, ⟨⟨?_, ?_, ?_, ?_, ?_, ?_⟩,
    ⟨hf, hl, hr, ha, hb, he⟩, ⟨?_, ?_, ?_, ?_, ?_, ?_, ?_, ?_⟩, ?_, hfirst, hcount⟩, by simp⟩
  all_goals simp [block, emptyBlock, hallocated, haggregate, Balanced]

theorem clear_leaves (h : Keeps window values) (n : Nat) :
    Leaves fails n False values [] () (clear fails (window, n)) := by
  by_cases hempty : window.count = 0
  · obtain ⟨chunk, v, m, h, rfl⟩ := h
    have hle := h.marks_le
    have hcount := h.count_eq
    obtain hfe : m.f = m.e := by omega
    have hkept : Keeps window (valuesBetween v m.f m.e) := ⟨chunk, v, m, h, rfl⟩
    simpa [clear, hempty, Leaves, hfe, Quiet.nil] using hkept
  · cases hfails : fails n with
    | true =>
        have hstop : ∃ i < n + 1, fails i = true := ⟨n, Nat.lt_succ_self n, hfails⟩
        simpa [clear, hempty, identityCall, callback, hfails, Leaves] using And.intro hstop h
    | false =>
        have hquiet : Quiet fails n (n + 1) := Quiet.nil.cons hfails
        simp [clear, hempty, identityCall, callback, hfails, Leaves, reset, newBlock, hquiet]
        refine fresh_keeps window.allocated ?_ ?_ rfl ?_ rfl rfl
        all_goals simp [setBlock, cursors]

theorem aggregate_eq (h : Keeps window values) (n : Nat) :
    aggregate fails (window, n) =
      if fails n then .error .callback (window, n + 1) else .ok values.prod (window, n + 1) := by
  obtain ⟨chunk, v, m, h, rfl⟩ := h
  have hle := h.marks_le
  have hcount := h.count_eq
  by_cases hempty : window.count = 0
  · obtain hfe : m.f = m.e := by omega
    simp [aggregate, hempty, identityCall, callback, hfe]
    split <;> rfl
  · obtain ⟨front, hfront, hproduct⟩ := h.regions.aggregate h.balanced (by omega)
    have hread := read_run (n := n) hfront
    rw [span] at hproduct
    simp [aggregate, hempty, h.placed.f_eq, hread, combineCall, callback, hproduct]
    split <;> rfl

theorem create_keeps : Keeps (create : Window T) [] :=
  fresh_keeps 0 rfl Nat.one_pos rfl (by simp [create, cursors]) rfl rfl

end Durable7.FingerTree.ChunkedDabaLite
