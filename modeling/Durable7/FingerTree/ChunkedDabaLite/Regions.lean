import Mathlib.Algebra.BigOperators.Group.List.Basic

/-!
# The regions of an incremental reversal

The slots of the window are numbered without end, and six marks cut them into regions.  What a slot
holds, and what the two running aggregates hold, are products of the values of the window.
-/

namespace Durable7.FingerTree.ChunkedDabaLite

open Function

variable {T : Type}

/-! ## Products of consecutive values -/

/-- The values at the positions from `i` up to `j`. -/
def valuesBetween (v : Nat → T) (i j : Nat) : List T := (List.range' i (j - i)).map v

variable {v : Nat → T} {i j k : Nat}

theorem valuesBetween_append (hij : i ≤ j) (hjk : j ≤ k) :
    valuesBetween v i j ++ valuesBetween v j k = valuesBetween v i k := by
  have hj : j = i + (j - i) := by omega
  have hlength : k - i = (j - i) + (k - j) := by omega
  rw [valuesBetween, valuesBetween, valuesBetween, ← List.map_append, hlength,
    ← List.range'_append_1, ← hj]

@[simp] theorem valuesBetween_self : valuesBetween v i i = [] := by simp [valuesBetween]

@[simp] theorem valuesBetween_one : valuesBetween v i (i + 1) = [v i] := by
  simp [valuesBetween]

theorem valuesBetween_update {value : T} (hjk : j ≤ k) :
    valuesBetween (update v k value) i j = valuesBetween v i j := by
  refine List.map_congr_left fun p hp => ?_
  have hne : p ≠ k := by simp at hp; omega
  simp [hne]

theorem valuesBetween_insert {value : T} (hij : i ≤ j) :
    valuesBetween (update v j value) i (j + 1) = valuesBetween v i j ++ [value] := by
  rw [← valuesBetween_append hij (Nat.le_succ j), valuesBetween_update (Nat.le_refl j)]
  simp

theorem valuesBetween_evict (hij : i < j) :
    valuesBetween v (i + 1) j = (valuesBetween v i j).tail := by
  rw [← valuesBetween_append (Nat.le_succ i) hij]
  simp

variable [Monoid T]

/-- The ordered combination of the values at the positions from `i` up to `j`. -/
def span (v : Nat → T) (i j : Nat) : T := (valuesBetween v i j).prod

theorem span_mul (hij : i ≤ j) (hjk : j ≤ k) : span v i j * span v j k = span v i k := by
  simp [span, ← valuesBetween_append hij hjk]

@[simp] theorem span_self : span v i i = 1 := by simp [span]

@[simp] theorem span_one : span v i (i + 1) = v i := by simp [span]

theorem span_before (h : i < j) : v i * span v (i + 1) j = span v i j := by
  rw [← span_mul (Nat.le_succ i) h, Nat.succ_eq_add_one, span_one]

structure Marks where
  f : Nat
  l : Nat
  r : Nat
  a : Nat
  b : Nat
  e : Nat

/-- What slot contents `s` and aggregates `ra`, `bk` hold of the values `v` between the marks. -/
structure Regions (v : Nat → T) (s : Nat → Option T) (m : Marks) (ra bk : T) : Prop where
  marks_le : m.f ≤ m.l ∧ m.l ≤ m.r ∧ m.r ≤ m.a ∧ m.a ≤ m.b ∧ m.b ≤ m.e
  processed : ∀ p, m.f ≤ p → p < m.l → s p = some (span v p m.b)
  left : ∀ p, m.l ≤ p → p < m.r → s p = some (span v p m.r)
  right : ∀ p, m.r ≤ p → p < m.a → s p = some (v p)
  accumulated : ∀ p, m.a ≤ p → p < m.b → s p = some (span v p m.b)
  back : ∀ p, m.b ≤ p → p < m.e → s p = some (v p)
  aggregateRA : m.l < m.r → ra = span v m.r m.b
  aggregateB : bk = span v m.b m.e

/-- The size equations of the audit. -/
def Balanced (m : Marks) : Prop :=
  m.f < m.e → m.r - m.l = m.a - m.r ∧
    (m.r - m.l) + (m.a - m.r) + (m.b - m.a) + 1 + (m.e - m.b) = m.b - m.f ∧
    m.l - m.f = m.e - m.b + 1

/-- The size equations once a value came or went, before the fixup. -/
def Lagging (m : Marks) : Prop :=
  (m.f = m.b → m.e ≤ m.f + 1) ∧
  (m.f < m.b → m.r - m.l = m.a - m.r ∧
    (m.r - m.l) + (m.a - m.r) + (m.b - m.a) + (m.e - m.b) = m.b - m.f ∧
    m.l - m.f = m.e - m.b)

variable {s : Nat → Option T} {m : Marks} {ra bk : T}

theorem Regions.slots_congr {t : Nat → Option T} (h : Regions v s m ra bk)
    (heq : ∀ p, m.f ≤ p → p < m.e → t p = s p) : Regions v t m ra bk := by
  obtain ⟨hle, hprocessed, hleft, hright, haccumulated, hback, hra, hbk⟩ := h
  refine ⟨hle, fun p hlow hhigh => ?_, fun p hlow hhigh => ?_, fun p hlow hhigh => ?_,
    fun p hlow hhigh => ?_, fun p hlow hhigh => ?_, hra, hbk⟩
  all_goals rw [heq p (by omega) (by omega)]
  · exact hprocessed p hlow hhigh
  · exact hleft p hlow hhigh
  · exact hright p hlow hhigh
  · exact haccumulated p hlow hhigh
  · exact hback p hlow hhigh

theorem Regions.insert (h : Regions v s m ra bk) (value : T) :
    Regions (update v m.e value) (update s m.e (some value)) { m with e := m.e + 1 } ra
      (bk * value) := by
  obtain ⟨hle, hprocessed, hleft, hright, haccumulated, hback, hra, hbk⟩ := h
  have hspan : ∀ {i j}, j ≤ m.e → span (update v m.e value) i j = span v i j :=
    fun hj => by simp [span, valuesBetween_update hj]
  have hslot : ∀ {p}, p < m.e → update s m.e (some value) p = s p :=
    fun hp => update_of_ne (Nat.ne_of_lt hp) _ _
  have hvalue : ∀ {p}, p < m.e → update v m.e value p = v p :=
    fun hp => update_of_ne (Nat.ne_of_lt hp) _ _
  refine ⟨by simp only; omega, fun p hlow hhigh => ?_, fun p hlow hhigh => ?_,
    fun p hlow hhigh => ?_, fun p hlow hhigh => ?_, fun p hlow hhigh => ?_, fun hlr => ?_, ?_⟩
  all_goals simp only at *
  · rw [hslot (by omega), hspan (by omega), hprocessed p hlow hhigh]
  · rw [hslot (by omega), hspan (by omega), hleft p hlow hhigh]
  · rw [hslot (by omega), hvalue (by omega), hright p hlow hhigh]
  · rw [hslot (by omega), hspan (by omega), haccumulated p hlow hhigh]
  · by_cases hp : p < m.e
    · rw [hslot hp, hvalue hp, hback p hlow hp]
    · obtain rfl : p = m.e := by omega
      simp
  · rw [hspan (by omega), hra hlr]
  · rw [← span_mul (j := m.e) (by omega) (by omega), hspan (Nat.le_refl _), hbk]
    simp

theorem Regions.evict (h : Regions v s m ra bk) (hbalanced : Balanced m) (hsome : m.f < m.e) :
    Regions v s { m with f := m.f + 1 } ra bk := by
  have hle := h.marks_le
  have hsizes := hbalanced hsome
  exact { h with
    marks_le := by simp only; omega
    processed := fun p hlow => h.processed p (Nat.le_of_succ_le hlow) }

theorem Balanced.insert (h : Balanced m) (hregions : Regions v s m ra bk) :
    Lagging { m with e := m.e + 1 } := by
  have hle := hregions.marks_le
  unfold Balanced at h
  simp only [Lagging]
  omega

theorem Balanced.evict (h : Balanced m) (hregions : Regions v s m ra bk) (hsome : m.f < m.e) :
    Lagging { m with f := m.f + 1 } := by
  have hle := hregions.marks_le
  have hsizes := h hsome
  simp only [Lagging]
  omega

/-! ## The cases of a fixup -/

theorem Regions.restart (h : Regions v s m ra bk) (hlagging : Lagging m) (hfb : m.f = m.b) :
    Regions v s ⟨m.f, m.e, m.e, m.e, m.e, m.e⟩ 1 1 ∧ Balanced ⟨m.f, m.e, m.e, m.e, m.e, m.e⟩ := by
  have hle := h.marks_le
  have hone := hlagging.1 hfb
  refine ⟨⟨by simp only; omega, fun p hlow hhigh => ?_, ?_, ?_, ?_, ?_, fun _ => span_self.symm,
    span_self.symm⟩, ?_⟩
  all_goals simp only [Balanced, true_and] at *
  · have hback := h.back p (by omega) hhigh
    obtain rfl : m.f = p := by omega
    obtain he : m.e = m.f + 1 := by omega
    simpa [he] using hback
  all_goals omega

theorem Regions.flip (h : Regions v s m ra bk) (hlb : m.l = m.b) :
    Regions v s ⟨m.f, m.f, m.r, m.e, m.e, m.e⟩ bk 1 := by
  have hle := h.marks_le
  have hrb : m.r = m.b := by omega
  refine ⟨by simp only; omega, ?_, fun p hlow hhigh => ?_, fun p hlow hhigh => ?_, ?_, ?_,
    fun _ => ?_, span_self.symm⟩
  all_goals simp only at *
  · omega
  · rw [h.processed p hlow (by omega), hrb]
  · exact h.back p (by omega) hhigh
  · omega
  · omega
  · rw [h.aggregateB, hrb]

theorem Lagging.flip (h : Lagging m) (hregions : Regions v s m ra bk) (hlb : m.l = m.b)
    (hfb : m.f < m.b) : Lagging ⟨m.f, m.f, m.r, m.e, m.e, m.e⟩ := by
  have hle := hregions.marks_le
  have hsizes := h.2 hfb
  simp only [Lagging]
  omega

theorem Regions.shift (h : Regions v s m ra bk) (hlagging : Lagging m) (hlr : m.l = m.r)
    (hlb : m.l < m.b) :
    Regions v s ⟨m.f, m.l + 1, m.r + 1, m.a + 1, m.b, m.e⟩ 1 bk ∧
      Balanced ⟨m.f, m.l + 1, m.r + 1, m.a + 1, m.b, m.e⟩ := by
  have hle := h.marks_le
  have hsizes := hlagging.2 (by omega)
  refine ⟨⟨by simp only; omega, fun p hlow hhigh => ?_, ?_, ?_, fun p hlow hhigh => ?_, ?_, ?_,
    h.aggregateB⟩, ?_⟩
  all_goals simp only [Balanced] at *
  · by_cases hp : p < m.l
    · exact h.processed p hlow hp
    · exact h.accumulated p (by omega) (by omega)
  · omega
  · omega
  · exact h.accumulated p (by omega) hhigh
  · exact h.back
  · omega
  · omega

theorem Regions.shrink (h : Regions v s m ra bk) (hlagging : Lagging m) (hlr : m.l < m.r) :
    Regions v (update (update s m.l (some (span v m.l m.r * ra))) (m.a - 1)
        (some (span v (m.a - 1) m.b)))
        ⟨m.f, m.l + 1, m.r, m.a - 1, m.b, m.e⟩ ra bk ∧
      Balanced ⟨m.f, m.l + 1, m.r, m.a - 1, m.b, m.e⟩ := by
  have hle := h.marks_le
  have hsizes := hlagging.2 (by omega)
  refine ⟨⟨by simp only; omega, fun p hlow hhigh => ?_, fun p hlow hhigh => ?_,
    fun p hlow hhigh => ?_, fun p hlow hhigh => ?_, fun p hlow hhigh => ?_,
    fun _ => h.aggregateRA hlr, h.aggregateB⟩, ?_⟩
  all_goals simp only [Balanced] at *
  · rw [update_of_ne (by omega)]
    by_cases hp : p = m.l
    · rw [hp, update_self, h.aggregateRA hlr, span_mul hle.2.1 (by omega)]
    · rw [update_of_ne hp, h.processed p hlow (by omega)]
  · rw [update_of_ne (by omega), update_of_ne (by omega), h.left p (by omega) hhigh]
  · rw [update_of_ne (by omega), update_of_ne (by omega), h.right p hlow (by omega)]
  · by_cases hp : p = m.a - 1
    · rw [hp, update_self]
    · rw [update_of_ne hp, update_of_ne (by omega), h.accumulated p (by omega) hhigh]
  · rw [update_of_ne (by omega), update_of_ne (by omega), h.back p hlow hhigh]
  · omega

/-- The front slot holds the combination of the front, and the rest is in the back aggregate. -/
theorem Regions.aggregate (h : Regions v s m ra bk) (hbalanced : Balanced m)
    (hsome : m.f < m.e) : ∃ front, s m.f = some front ∧ front * bk = span v m.f m.e := by
  have hle := h.marks_le
  have hsizes := hbalanced hsome
  refine ⟨_, h.processed m.f (Nat.le_refl _) (by omega), ?_⟩
  rw [h.aggregateB, span_mul (by omega) (by omega)]

end Durable7.FingerTree.ChunkedDabaLite
