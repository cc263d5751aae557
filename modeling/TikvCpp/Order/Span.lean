import TikvCpp.Data.OrdMap
import Mathlib.Data.Set.Defs
import Mathlib.Order.BoundedOrder.Basic

/-! Half-open ranges of a linear order with a least element, where the least
element as the upper end stands for no upper bound: as a lower end it is minus
infinity, as an upper end plus infinity. In an ordered map from upper ends the search
for the first end above a key never finds a range without upper bound. -/

namespace TikvCpp.Order

open Data

variable {κ ν : Type*} [LinearOrder κ] [OrderBot κ]

/-- The keys from `lo` up to, but not including, `hi`; all keys from `lo` on if `hi` is `⊥`. -/
def span (lo hi : κ) : Set κ := {k | lo ≤ k ∧ (k < hi ∨ hi = ⊥)}

theorem mem_span {lo hi k : κ} : k ∈ span lo hi ↔ lo ≤ k ∧ (k < hi ∨ hi = ⊥) := Iff.rfl

theorem lower_lt_of_mem {lo hi k : κ} (h : k ∈ span lo hi) (hb : hi ≠ ⊥) : lo < hi :=
  h.1.trans_lt (h.2.resolve_right hb)

/-- A range that ends above a key of another range, and not above its end, meets it. -/
theorem exists_common_of_end_inside {lo hi lo' hi' k x : κ} (hk : k ∈ span lo hi) (hx : x ∈ span lo' hi')
    (h : k < hi') (he : hi' ≤ hi ∨ hi = ⊥) : ∃ y, y ∈ span lo hi ∧ y ∈ span lo' hi' := by
  have hb : hi' ≠ ⊥ := (bot_le.trans_lt h).ne'
  have hlt : max k lo' < hi' := max_lt h (lower_lt_of_mem hx hb)
  refine ⟨max k lo', ⟨hk.1.trans (le_max_left _ _), ?_⟩, le_max_right _ _, .inl hlt⟩
  exact he.imp_left hlt.trans_le

/-- Two ranges that hold a key and have one upper end meet. -/
theorem exists_common_of_same_end {lo lo' hi x y : κ} (hx : x ∈ span lo hi) (hy : y ∈ span lo' hi) :
    ∃ z, z ∈ span lo hi ∧ z ∈ span lo' hi := by
  have hz : max x y < hi ∨ hi = ⊥ := by
    rcases hx.2 with h | h
    · exact hy.2.imp_left (max_lt h)
    · exact .inr h
  exact ⟨max x y, ⟨hx.1.trans (le_max_left x y), hz⟩, ⟨hy.1.trans (le_max_right x y), hz⟩⟩

/-- A key strictly inside a range cuts it into two ranges. -/
theorem mem_span_cut {lo hi m : κ} (hm : m ∈ span lo hi) (hlo : m ≠ lo) (k : κ) :
    k ∈ span lo hi ↔ k ∈ span lo m ∨ k ∈ span m hi := by
  have hb : m ≠ ⊥ := (bot_le.trans_lt (lt_of_le_of_ne hm.1 hlo.symm)).ne'
  simp only [mem_span, hb, or_false]
  constructor
  · rintro ⟨h, h'⟩
    rcases lt_or_ge k m with hkm | hkm
    · exact .inl ⟨h, hkm⟩
    · exact .inr ⟨hkm, h'⟩
  · rintro (⟨h, h'⟩ | ⟨h, h'⟩)
    · exact ⟨h, hm.2.imp_left h'.trans⟩
    · exact ⟨hm.1.trans h, h'⟩

theorem not_mem_both_of_cut {lo hi m k : κ} (hm : lo < m) (h : k ∈ span lo m) : k ∉ span m hi := by
  rintro ⟨h', _⟩
  exact absurd (h.2.resolve_right (bot_le.trans_lt hm).ne') (not_lt.mpr h')

/-! ### Ranges indexed by their ends -/

/-- The search never finds an entry stored under the least key. -/
theorem upperBound_ne_bot {m : OrdMap κ ν} {a k : κ} {v : ν}
    (h : m.upperBound k = some (a, v)) : a ≠ ⊥ :=
  (bot_le.trans_lt (OrdMap.upperBound_eq_some.mp h).2.1).ne'

end TikvCpp.Order
