import Mathlib.Data.Nat.Digits.Defs

/-! Numbers in base sixteen as strings of bytes: the digits of a number, in lower case and
the most significant one first, and the number that a string of digits stands for. -/

namespace TikvCpp.Data.Hex

/-- `0` to `9`, then `a` to `f`. -/
def digit (d : ℕ) : UInt8 := UInt8.ofNat (if d < 10 then 0x30 + d else 0x57 + d)

def digits (n : ℕ) : List UInt8 :=
  if n = 0 then [digit 0] else ((Nat.digits 16 n).map digit).reverse

def digitValue (c : UInt8) : Option ℕ :=
  if 0x30 ≤ c ∧ c ≤ 0x39 then some (c.toNat - 0x30)
  else if 0x61 ≤ c ∧ c ≤ 0x66 then some (c.toNat - 0x57)
  else none

/-- One more digit on the right. -/
def shiftIn (n : ℕ) (c : UInt8) : Option ℕ := (digitValue c).map (16 * n + ·)

/-- The number a string stands for; none if it is empty or has anything but digits. -/
def value (s : List UInt8) : Option ℕ := if s = [] then none else s.foldlM shiftIn 0

theorem digitValue_digit : ∀ d < 16, digitValue (digit d) = some d := by decide

theorem digits_ne_nil (n : ℕ) : digits n ≠ [] := by
  unfold digits
  split_ifs with hn
  · simp
  · simpa [Nat.digits_eq_nil_iff_eq_zero] using hn

theorem mem_digits {n : ℕ} {c : UInt8} (h : c ∈ digits n) : ∃ d < 16, c = digit d := by
  unfold digits at h
  split_ifs at h
  · exact ⟨0, by decide, List.mem_singleton.mp h⟩
  · obtain ⟨d, hd, rfl⟩ := List.mem_map.mp (List.mem_reverse.mp h)
    exact ⟨d, Nat.digits_lt_base (by decide) hd, rfl⟩

/-- Read from the left, digits add up as they do from the right. -/
theorem foldlM_shiftIn {ds : List ℕ} (h : ∀ d ∈ ds, d < 16) :
    (ds.map digit).reverse.foldlM shiftIn 0 = some (Nat.ofDigits 16 ds) := by
  induction ds with
  | nil => rfl
  | cons d ds ih =>
    have ih := ih fun d hd => h d (List.mem_cons_of_mem _ hd)
    have hd := digitValue_digit d (h d List.mem_cons_self)
    rw [List.map_cons, List.reverse_cons, List.foldlM_append, ih, Nat.ofDigits_cons]
    simp only [List.foldlM_cons, List.foldlM_nil, shiftIn, hd, Option.bind_eq_bind, Option.bind_some,
      Option.map_some, Option.pure_def]
    rw [add_comm]

theorem value_digits (n : ℕ) : value (digits n) = some n := by
  unfold value
  rw [if_neg (digits_ne_nil n)]
  unfold digits
  split_ifs with hn
  · rw [hn]
    rfl
  · rw [foldlM_shiftIn fun d hd => Nat.digits_lt_base (by decide) hd, Nat.ofDigits_digits]

end TikvCpp.Data.Hex
