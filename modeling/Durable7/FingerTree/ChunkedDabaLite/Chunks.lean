import Durable7.FingerTree.ChunkedDabaLite.Operations
import Durable7.FingerTree.ChunkedDabaLite.Regions

/-!
# The chain of chunks

Chunk number `k` holds the slots from `64 * k` on, and `chunk` gives its address.  Cursors move
along the chain, and a fixup moves its marks whenever no callback throws.
-/

namespace Durable7.FingerTree.ChunkedDabaLite

open Foundation Function

variable {T : Type}

/-- The cursor of a slot. -/
def place (chunk : Nat → Nat) (p : Nat) : Cursor := ⟨chunk (p / chunkCapacity), p % chunkCapacity⟩

def slot (window : Window T) (chunk : Nat → Nat) (p : Nat) : Option T :=
  (window.blocks (chunk (p / chunkCapacity))).items (p % chunkCapacity)

/-- The chunks with the numbers from `low` to `high` are doubly linked. -/
structure Chain (window : Window T) (chunk : Nat → Nat) (low high : Nat) : Prop where
  next : ∀ k, low ≤ k → k < high → (window.blocks (chunk k)).next = some (chunk (k + 1))
  previous : ∀ k, low ≤ k → k < high → (window.blocks (chunk (k + 1))).previous = some (chunk k)
  front : (window.blocks (chunk low)).previous = none
  back : (window.blocks (chunk high)).next = none
  allocated : ∀ k, low ≤ k → k ≤ high → chunk k < window.allocated
  injective : ∀ j k, low ≤ j → j ≤ high → low ≤ k → k ≤ high → chunk j = chunk k → j = k

structure Placed (window : Window T) (chunk : Nat → Nat) (m : Marks) : Prop where
  f_eq : window.f = place chunk m.f
  l_eq : window.l = place chunk m.l
  r_eq : window.r = place chunk m.r
  a_eq : window.a = place chunk m.a
  b_eq : window.b = place chunk m.b
  e_eq : window.e = place chunk m.e

variable {window : Window T} {chunk : Nat → Nat} {low high p q n : Nat}

@[simp] theorem getWindow_run : getWindow (window, n) = .ok window (window, n) := rfl

@[simp] theorem modifyWindow_run (change : Window T → Window T) :
    modifyWindow change (window, n) = .ok () (change window, n) := rfl

@[simp] theorem setItem_next (cursor : Cursor) (value : Option T) (address : Nat) :
    ((setItem cursor value window).blocks address).next = (window.blocks address).next := by
  by_cases h : address = cursor.block <;> simp [setItem, setBlock, h]

@[simp] theorem setItem_previous (cursor : Cursor) (value : Option T) (address : Nat) :
    ((setItem cursor value window).blocks address).previous = (window.blocks address).previous := by
  by_cases h : address = cursor.block <;> simp [setItem, setBlock, h]

namespace Chain

variable (h : Chain window chunk low high)
include h

theorem place_inj (hp : low ≤ p / 64 ∧ p / 64 ≤ high) (hq : low ≤ q / 64 ∧ q / 64 ≤ high) :
    place chunk p = place chunk q ↔ p = q := by
  constructor
  · intro heq
    simp only [place, chunkCapacity, Cursor.mk.injEq] at heq
    have hnumber := h.injective _ _ hp.1 hp.2 hq.1 hq.2 heq.1
    omega
  · rintro rfl
    rfl

theorem slot_setItem (value : Option T) (hp : low ≤ p / 64 ∧ p / 64 ≤ high)
    (hq : low ≤ q / 64 ∧ q / 64 ≤ high) :
    slot (setItem (place chunk p) value window) chunk q = update (slot window chunk) p value q := by
  by_cases hpq : q = p
  · simp [hpq, slot, place, setItem, setBlock]
  · by_cases hnumber : q / 64 = p / 64
    · have hindex : q % 64 ≠ p % 64 := by omega
      simp [hpq, slot, place, setItem, setBlock, chunkCapacity, hnumber, hindex]
    · have hne : chunk (q / 64) ≠ chunk (p / 64) := fun heq =>
        hnumber (h.injective _ _ hq.1 hq.2 hp.1 hp.2 heq)
      simp [hpq, slot, place, setItem, setBlock, chunkCapacity, hne]

theorem advance_run (hlow : low ≤ p / 64) (hhigh : (p + 1) / 64 ≤ high) :
    advance (place chunk p) (window, n) = .ok (place chunk (p + 1)) (window, n) := by
  by_cases hroom : p % 64 + 1 < 64
  · have hnumber : (p + 1) / 64 = p / 64 := by omega
    have hindex : (p + 1) % 64 = p % 64 + 1 := by omega
    simp [advance, place, chunkCapacity, hroom, hnumber, hindex]
  · have hnumber : (p + 1) / 64 = p / 64 + 1 := by omega
    have hindex : (p + 1) % 64 = 0 := by omega
    have hnext := h.next (p / 64) hlow (by omega)
    simp [advance, place, chunkCapacity, hroom, hnumber, hindex, hnext]

theorem retreat_run (hlow : low ≤ (p - 1) / 64) (hpos : 0 < p) (hhigh : p / 64 ≤ high) :
    retreat (place chunk p) (window, n) = .ok (place chunk (p - 1)) (window, n) := by
  by_cases hroom : p % 64 ≠ 0
  · have hnumber : (p - 1) / 64 = p / 64 := by omega
    have hindex : (p - 1) % 64 = p % 64 - 1 := by omega
    simp [retreat, place, chunkCapacity, hroom, hnumber, hindex]
  · have hnumber : p / 64 = (p - 1) / 64 + 1 := by omega
    have hindex : (p - 1) % 64 = 63 := by omega
    have hprevious := h.previous ((p - 1) / 64) hlow (by omega)
    rw [← hnumber] at hprevious
    simp [retreat, place, chunkCapacity, hroom, hindex, hprevious]

theorem congr {after : Window T} (hallocated : window.allocated ≤ after.allocated)
    (hlinks : ∀ k, low ≤ k → k ≤ high →
      (after.blocks (chunk k)).next = (window.blocks (chunk k)).next ∧
      (after.blocks (chunk k)).previous = (window.blocks (chunk k)).previous)
    (hle : low ≤ high) : Chain after chunk low high where
  next k hlow hhigh := by rw [(hlinks k hlow (by omega)).1, h.next k hlow hhigh]
  previous k hlow hhigh := by rw [(hlinks (k + 1) (by omega) hhigh).2, h.previous k hlow hhigh]
  front := by rw [(hlinks low (by omega) hle).2, h.front]
  back := by rw [(hlinks high hle (by omega)).1, h.back]
  allocated k hlow hhigh := Nat.lt_of_lt_of_le (h.allocated k hlow hhigh) hallocated
  injective := h.injective

end Chain

theorem read_run {value : T} (h : slot window chunk p = some value) :
    read (place chunk p) (window, n) = .ok value (window, n) := by
  simp only [slot] at h
  simp [read, readRaw, place, h]

/-- None of the callbacks from number `n` up to `k` throws. -/
def Quiet (fails : Nat → Bool) (n k : Nat) : Prop := ∀ i, n ≤ i → i < k → fails i = false

/--
From `window`, the call fails by a callback it made and changes nothing, or no callback it made
throws and it ends as `post` says.
-/
def Ends {α : Type} (fails : Nat → Bool) (call : Operation T α) (window : Window T)
    (post : α → Window T → Prop) : Prop :=
  ∀ n, match call (window, n) with
    | .ok result (after, k) => Quiet fails n k ∧ post result after
    | .error problem (after, k) =>
        problem = .callback ∧ (∃ i < k, fails i = true) ∧ after = window

section Calls

variable {α β : Type} {fails : Nat → Bool} {call : Operation T α} {next : α → Operation T β}
  {result : α} {post : β → Window T → Prop}

theorem Quiet.nil : Quiet fails n n := fun i hlow hhigh => by omega

theorem Quiet.cons {k : Nat} (hfails : fails n = false) (h : Quiet fails (n + 1) k) :
    Quiet fails n k := fun i hlow hhigh => by
  by_cases hi : i = n
  · rw [hi, hfails]
  · exact h i (by omega) hhigh

theorem Ends.imp {post' : α → Window T → Prop} {post : α → Window T → Prop}
    (h : Ends fails call window post)
    (himp : ∀ result after, post result after → post' result after) :
    Ends fails call window post' := by
  intro n
  have hended := h n
  revert hended
  cases call (window, n) with
  | ok result state => exact fun hended => ⟨hended.1, himp result state.1 hended.2⟩
  | error problem state => exact id

theorem Ends.read (hcall : ∀ n, call (window, n) = .ok result (window, n))
    (hnext : Ends fails (next result) window post) : Ends fails (call >>= next) window post := by
  intro n
  simpa [hcall] using hnext n

theorem Ends.callback {next : T → Operation T β} {result : T}
    (hnext : Ends fails (next result) window post) :
    Ends fails (ChunkedDabaLite.callback fails result >>= next) window post := by
  intro n
  cases hfails : fails n with
  | true =>
      have hstop : ∃ number < n + 1, fails number = true := ⟨n, Nat.lt_succ_self n, hfails⟩
      simpa [ChunkedDabaLite.callback, hfails] using hstop
  | false =>
      have hended := hnext (n + 1)
      simp only [bind_run, ChunkedDabaLite.callback, get_run, set_run, hfails]
      simp only [Bool.false_eq_true, if_false, pure_run]
      revert hended
      cases next result (window, n + 1) with
      | ok result state => exact fun hended => ⟨hended.1.cons hfails, hended.2⟩
      | error problem state => exact id

end Calls

variable [Monoid T] {fails : Nat → Bool} {v : Nat → T} {m : Marks} {ra bk : T}

/-- What a fixup leaves: the chain as it was, and balanced marks between the same ends. -/
structure Settled (window after : Window T) (chunk : Nat → Nat) (v : Nat → T) (f e : Nat) :
    Prop where
  next_eq : ∀ address, (after.blocks address).next = (window.blocks address).next
  previous_eq : ∀ address, (after.blocks address).previous = (window.blocks address).previous
  allocated_eq : after.allocated = window.allocated
  first_eq : after.first = window.first
  count_eq : after.count = window.count
  regions : ∃ m : Marks, m.f = f ∧ m.e = e ∧ Placed after chunk m ∧
    Regions v (slot after chunk) m after.aggregateRA after.aggregateB ∧ Balanced m

section Fixup

variable (hchain : Chain window chunk low high) (hlow : low ≤ m.f / 64)
  (hhigh : m.e / 64 ≤ high) (hf : window.f = place chunk m.f) (he : window.e = place chunk m.e)
include hchain hlow hhigh hf he

theorem shrink_ends (h : Regions v (slot window chunk) m ra bk) (hlagging : Lagging m)
    (hlr : m.l < m.r) :
    Ends fails (shrink fails (place chunk m.l) (place chunk m.r) (place chunk m.a) (place chunk m.b)
      ra bk) window fun _ after => Settled window after chunk v m.f m.e := by
  have hle := h.marks_le
  have hsizes := hlagging.2 (by omega)
  have hleft := h.left m.l (Nat.le_refl _) hlr
  have hbefore := h.right (m.a - 1) (by omega) (by omega)
  obtain ⟨hregions, hbalanced⟩ := h.shrink hlagging hlr
  -- both writes, and the marks moved over them
  have hdone : Ends fails (do
      write (place chunk m.l) (some (span v m.l m.r * ra))
      write (place chunk (m.a - 1)) (some (span v (m.a - 1) m.b))
      publish (place chunk (m.l + 1)) (place chunk m.r) (place chunk (m.a - 1))
        (place chunk m.b) ra bk) window fun _ after => Settled window after chunk v m.f m.e := by
    intro n
    simp only [write, publish, bind_run, modifyWindow_run]
    refine ⟨.nil, by simp, by simp, rfl, rfl, rfl, ⟨m.f, m.l + 1, m.r, m.a - 1, m.b, m.e⟩, rfl, rfl,
      ⟨hf, rfl, rfl, rfl, rfl, he⟩, hregions.slots_congr fun p hp hp' => ?_, hbalanced⟩
    have hwritten : Chain (setItem (place chunk m.l) (some (span v m.l m.r * ra)) window) chunk
        low high := hchain.congr (Nat.le_refl _) (by simp) (by omega)
    simp only at hp hp'
    change slot (setItem (place chunk (m.a - 1)) _ (setItem (place chunk m.l) _ window)) chunk p = _
    rw [hwritten.slot_setItem _ (by omega) (by omega)]
    by_cases hlast : p = m.a - 1
    · simp [hlast]
    · rw [update_of_ne hlast, update_of_ne hlast, hchain.slot_setItem _ (by omega) (by omega)]
  refine .read (fun _ => hchain.advance_run (by omega) (by omega)) ?_
  refine .read (fun _ => hchain.retreat_run (by omega) (by omega) (by omega)) ?_
  refine .read (fun _ => read_run hleft) (.callback ?_)
  have hproduct := span_before (v := v) (show m.a - 1 < m.b by omega)
  rw [Nat.sub_add_cancel (by omega)] at hproduct
  by_cases hab : m.a = m.b
  · rw [if_pos (congrArg (place chunk) hab)]
    refine .callback (.read (fun _ => read_run hbefore) (.callback ?_))
    have hidentity : span v m.a m.b = 1 := by rw [hab, span_self]
    rw [← hidentity, hproduct]
    exact hdone
  · have hvalue := h.accumulated m.a (Nat.le_refl _) (by omega)
    rw [if_neg (mt (hchain.place_inj (by omega) (by omega)).mp hab)]
    refine .read (fun _ => read_run hvalue) (.read (fun _ => read_run hbefore) (.callback ?_))
    rw [hproduct]
    exact hdone

variable (fails) in
/-- Without a callback that throws, a fixup settles the window. -/
theorem fixup_ends (hplaced : Placed window chunk m)
    (h : Regions v (slot window chunk) m window.aggregateRA window.aggregateB)
    (hlagging : Lagging m) :
    Ends fails (fixup fails) window fun _ after => Settled window after chunk v m.f m.e := by
  have hle := h.marks_le
  -- what `publish` leaves of new marks
  have hpublished : ∀ {l r a b : Nat} {ra bk : T},
      Regions v (slot window chunk) ⟨m.f, l, r, a, b, m.e⟩ ra bk →
      Balanced ⟨m.f, l, r, a, b, m.e⟩ →
      Ends fails
        (publish (place chunk l) (place chunk r) (place chunk a) (place chunk b) ra bk) window
        fun _ after => Settled window after chunk v m.f m.e :=
    fun {l r a b _ _} hregions hbalanced n => ⟨.nil, fun _ => rfl, fun _ => rfl, rfl, rfl, rfl,
      ⟨m.f, l, r, a, b, m.e⟩, rfl, rfl, ⟨hf, rfl, rfl, rfl, rfl, he⟩, hregions, hbalanced⟩
  refine .read (fun _ => getWindow_run) ?_
  rw [hplaced.f_eq, hplaced.l_eq, hplaced.r_eq, hplaced.a_eq, hplaced.b_eq, hplaced.e_eq]
  simp only [hchain.place_inj (p := m.f) (q := m.b) (by omega) (by omega),
    hchain.place_inj (p := m.l) (q := m.b) (by omega) (by omega),
    hchain.place_inj (p := m.l) (q := m.r) (by omega) (by omega),
    hchain.place_inj (p := m.f) (q := m.r) (by omega) (by omega)]
  by_cases hfb : m.f = m.b
  · rw [if_pos hfb]
    obtain ⟨hregions, hbalanced⟩ := h.restart hlagging hfb
    exact .callback (hpublished hregions hbalanced)
  rw [if_neg hfb]
  by_cases hlb : m.l = m.b
  · have hflipped := hlagging.flip h hlb (by omega)
    have hfr : m.f < m.r := by omega
    rw [if_pos hlb]
    refine .callback ?_
    rw [if_neg (Nat.ne_of_lt hfr)]
    exact shrink_ends (m := ⟨m.f, m.f, m.r, m.e, m.e, m.e⟩) hchain hlow hhigh hf he (h.flip hlb)
      hflipped hfr
  rw [if_neg hlb]
  by_cases hlr : m.l = m.r
  · have hsizes := hlagging.2 (by omega)
    obtain ⟨hregions, hbalanced⟩ := h.shift hlagging hlr (by omega)
    rw [if_pos hlr]
    refine .callback (.read (fun _ => hchain.advance_run (by omega) (by omega)) ?_)
    refine .read (fun _ => hchain.advance_run (by omega) (by omega)) ?_
    refine .read (fun _ => hchain.advance_run (by omega) (by omega)) ?_
    exact hpublished hregions hbalanced
  · rw [if_neg hlr]
    exact shrink_ends hchain hlow hhigh hf he h hlagging (by omega)

end Fixup

end Durable7.FingerTree.ChunkedDabaLite
