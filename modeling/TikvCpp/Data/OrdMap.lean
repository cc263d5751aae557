import Mathlib.Order.Std
import Mathlib.Order.Compare
import Mathlib.Combinatorics.Enumerative.DoubleCounting
import Mathlib.Data.List.Sort
import Std.Data.ExtTreeMap.Lemmas

/-! Finite maps ordered by their keys, as C++ iterates `std::map` and
`btree::btree_map`. Lookup, insertion and erasure are those of the extensional
tree map; this file adds the search for the first entry strictly above a key
and the comparison of two maps whose entries point at each other. -/

namespace TikvCpp.Data

/-- The comparison of a linear order is one that tree maps accept. -/
instance transCmp_compare {κ : Type*} [LinearOrder κ] : Std.TransCmp (compare : κ → κ → Ordering) where
  eq_swap {a b} := by
    rcases lt_trichotomy a b with h | h | h
    · rw [compare_lt_iff_lt.mpr h, compare_gt_iff_gt.mpr h]; rfl
    · rw [compare_eq_iff_eq.mpr h, compare_eq_iff_eq.mpr h.symm]; rfl
    · rw [compare_gt_iff_gt.mpr h, compare_lt_iff_lt.mpr h]; rfl
  isLE_trans h h' := by
    rw [Ordering.isLE_iff_ne_gt] at *
    exact compare_le_iff_le.mpr ((compare_le_iff_le.mp h).trans (compare_le_iff_le.mp h'))

instance lawfulEqCmp_compare {κ : Type*} [LinearOrder κ] :
    Std.LawfulEqCmp (compare : κ → κ → Ordering) where
  eq_of_compare := compare_eq_iff_eq.mp

/-- A finite map whose entries are iterated in increasing order of their keys. -/
abbrev OrdMap (κ ν : Type*) [LinearOrder κ] := Std.ExtTreeMap κ ν (compare : κ → κ → Ordering)

namespace OrdMap

variable {κ ν κ' ν' : Type*} [LinearOrder κ] [LinearOrder κ']

/-- The first entry, in key order, whose key is greater than `k`. -/
def upperBound (m : OrdMap κ ν) (k : κ) : Option (κ × ν) := m.toList.find? fun e => decide (k < e.1)

theorem get_insert (m : OrdMap κ ν) (a k : κ) (v : ν) [Decidable (a = k)] :
    (m.insert a v)[k]? = if a = k then some v else m[k]? := by
  simp [Std.ExtTreeMap.getElem?_insert]

theorem get_insert_self (m : OrdMap κ ν) (a : κ) (v : ν) : (m.insert a v)[a]? = some v := by
  simp

/-- Storing the value an entry already has changes nothing. -/
theorem insert_of_get {m : OrdMap κ ν} {a : κ} {v : ν} (h : m[a]? = some v) : m.insert a v = m := by
  refine Std.ExtTreeMap.ext_getElem? fun k => ?_
  rw [get_insert]
  split_ifs with hk
  · rw [← hk, h]
  · rfl

theorem get_erase (m : OrdMap κ ν) (a k : κ) [Decidable (a = k)] :
    (m.erase a)[k]? = if a = k then none else m[k]? := by
  simp [Std.ExtTreeMap.getElem?_erase]

theorem size_insert_of_some {m : OrdMap κ ν} {a : κ} {w : ν} (h : m[a]? = some w) (v : ν) :
    (m.insert a v).size = m.size := by
  have hc : m.contains a = true := by
    rw [Std.ExtTreeMap.contains_eq_isSome_getElem?, h]
    rfl
  rw [Std.ExtTreeMap.size_insert, if_pos hc]

theorem size_insert_of_none {m : OrdMap κ ν} {a : κ} (h : m[a]? = none) (v : ν) :
    (m.insert a v).size = m.size + 1 := by
  have hc : ¬ m.contains a = true := by
    rw [Std.ExtTreeMap.contains_eq_isSome_getElem?, h]
    simp
  rw [Std.ExtTreeMap.size_insert, if_neg hc]

/-- Keys of earlier entries are smaller. -/
theorem toList_pairwise (m : OrdMap κ ν) : m.toList.Pairwise fun a b => a.1 < b.1 :=
  Std.ExtTreeMap.ordered_keys_toList.imp fun h => compare_lt_iff_lt.mp h

/-! ### The list of entries -/

theorem mem_toList {m : OrdMap κ ν} {e : κ × ν} : e ∈ m.toList ↔ m[e.1]? = some e.2 :=
  Std.ExtTreeMap.mem_toList_iff_getElem?_eq_some

theorem get_eq_none_iff {m : OrdMap κ ν} {k : κ} : m[k]? = none ↔ ∀ e ∈ m.toList, e.1 ≠ k := by
  constructor
  · rintro hnone e he rfl
    rw [mem_toList, hnone] at he
    cases he
  · intro h
    cases hget : m[k]? with
    | none => rfl
    | some v => exact absurd rfl (h (k, v) (mem_toList.mpr hget))

theorem insertIfNew_of_none {m : OrdMap κ ν} {a : κ} (h : m[a]? = none) (v : ν) : m.insertIfNew a v = m.insert a v := by
  have hmem : a ∉ m := by
    rw [Std.ExtTreeMap.mem_iff_isSome_getElem?, h]
    exact Bool.false_ne_true
  refine Std.ExtTreeMap.ext_getElem? fun k => ?_
  rw [Std.ExtTreeMap.getElem?_insertIfNew, Std.ExtTreeMap.getElem?_insert]
  simp only [hmem, not_false_eq_true, and_true]

theorem insertIfNew_of_some {m : OrdMap κ ν} {a : κ} {w : ν} (h : m[a]? = some w) (v : ν) : m.insertIfNew a v = m := by
  have hmem : a ∈ m := by
    rw [Std.ExtTreeMap.mem_iff_isSome_getElem?, h]
    rfl
  refine Std.ExtTreeMap.ext_getElem? fun k => ?_
  rw [Std.ExtTreeMap.getElem?_insertIfNew, if_neg fun h => h.2 hmem]

/-- An ordered list with the entries of a map is the list of its entries. -/
theorem toList_eq_of_mem_iff {m : OrdMap κ ν} {l : List (κ × ν)} (hl : l.Pairwise fun a b => a.1 < b.1)
    (h : ∀ e, e ∈ l ↔ m[e.1]? = some e.2) : m.toList = l :=
  have : Std.Antisymm fun a b : κ × ν => a.1 < b.1 := ⟨fun _ _ hab hba => absurd hab hba.not_gt⟩
  have : Std.Irrefl fun a b : κ × ν => a.1 < b.1 := ⟨fun _ => lt_irrefl _⟩
  m.toList_pairwise.eq_of_mem_iff hl fun e => mem_toList.trans (h e).symm

/-- A key put between the smaller and the larger ones. -/
theorem toList_insert {m : OrdMap κ ν} {l r : List (κ × ν)} {k : κ} (v : ν)
    (hm : ∀ e, e.1 ≠ k → (e ∈ m.toList ↔ e ∈ l ++ r))
    (hsorted : (l ++ r).Pairwise fun a b => a.1 < b.1) (hl : ∀ e ∈ l, e.1 < k) (hr : ∀ e ∈ r, k < e.1) :
    (m.insert k v).toList = l ++ (k, v) :: r := by
  obtain ⟨hpl, hpr, hlr⟩ := List.pairwise_append.mp hsorted
  apply toList_eq_of_mem_iff
  · refine List.pairwise_append.mpr ⟨hpl, List.pairwise_cons.mpr ⟨hr, hpr⟩, fun a ha b hb => ?_⟩
    rcases List.mem_cons.mp hb with rfl | hb
    · exact hl a ha
    · exact hlr a ha b hb
  · intro e
    rw [get_insert, List.mem_append, List.mem_cons]
    split_ifs with hk
    · constructor
      · rintro (he | rfl | he)
        · exact absurd hk (hl e he).ne'
        · rfl
        · exact absurd hk (hr e he).ne
      · exact fun hv => .inr (.inl (Prod.ext hk.symm (Option.some.inj hv).symm))
    · rw [← mem_toList, hm e (Ne.symm hk), List.mem_append]
      constructor
      · rintro (he | rfl | he)
        · exact .inl he
        · exact absurd rfl hk
        · exact .inr he
      · rintro (he | he)
        · exact .inl he
        · exact .inr (.inr he)

/-- A key taken out. -/
theorem toList_erase {m : OrdMap κ ν} {l r : List (κ × ν)} {e : κ × ν} (hm : m.toList = l ++ e :: r) :
    (m.erase e.1).toList = l ++ r := by
  have hsorted := hm ▸ m.toList_pairwise
  obtain ⟨hpl, hpr, hlr⟩ := List.pairwise_append.mp hsorted
  obtain ⟨her, hpr⟩ := List.pairwise_cons.mp hpr
  apply toList_eq_of_mem_iff
  · exact List.pairwise_append.mpr ⟨hpl, hpr, fun a ha b hb => hlr a ha b (List.mem_cons_of_mem _ hb)⟩
  · intro x
    rw [get_erase, List.mem_append]
    split_ifs with hk
    · constructor
      · rintro (hx | hx)
        · exact absurd hk (hlr x hx e List.mem_cons_self).ne'
        · exact absurd hk (her x hx).ne
      · exact fun h => absurd h (by simp)
    · rw [← mem_toList, hm, List.mem_append, List.mem_cons]
      constructor
      · rintro (hx | hx)
        · exact .inl hx
        · exact .inr (.inr hx)
      · rintro (hx | rfl | hx)
        · exact .inl hx
        · exact absurd rfl hk
        · exact .inr hx

/-! ### The first entry above a key -/

theorem upperBound_eq_some {m : OrdMap κ ν} {k a : κ} {v : ν} :
    m.upperBound k = some (a, v) ↔
      m[a]? = some v ∧ k < a ∧ ∀ b w, m[b]? = some w → k < b → a ≤ b := by
  have hp := m.toList_pairwise
  simp only [← Std.ExtTreeMap.mem_toList_iff_getElem?_eq_some, upperBound]
  generalize m.toList = l at hp
  induction l with
  | nil => simp
  | cons e l ih =>
    obtain ⟨hlt, hl⟩ := List.pairwise_cons.mp hp
    by_cases hk : k < e.1
    · simp only [List.find?_cons, hk, decide_true]
      constructor
      · rintro h
        obtain rfl := Option.some.inj h
        refine ⟨List.mem_cons_self, hk, fun b w hb _ => ?_⟩
        rcases List.mem_cons.mp hb with h' | h'
        · exact (congrArg Prod.fst h').ge
        · exact (hlt _ h').le
      · rintro ⟨hmem, _, hmin⟩
        rcases List.mem_cons.mp hmem with h' | h'
        · rw [h']
        · exact absurd (hlt _ h') (not_lt.mpr (hmin e.1 e.2 List.mem_cons_self hk))
    · simp only [List.find?_cons, hk, decide_false, ih hl]
      constructor
      · rintro ⟨hmem, hka, hmin⟩
        refine ⟨List.mem_cons_of_mem _ hmem, hka, fun b w hb hkb => ?_⟩
        rcases List.mem_cons.mp hb with h' | h'
        · exact absurd (congrArg Prod.fst h' ▸ hkb) hk
        · exact hmin b w h' hkb
      · rintro ⟨hmem, hka, hmin⟩
        rcases List.mem_cons.mp hmem with h' | h'
        · exact absurd (congrArg Prod.fst h' ▸ hka) hk
        · exact ⟨h', hka, fun b w hb => hmin b w (List.mem_cons_of_mem _ hb)⟩

theorem upperBound_eq_none {m : OrdMap κ ν} {k : κ} :
    m.upperBound k = none ↔ ∀ b w, m[b]? = some w → b ≤ k := by
  simp only [upperBound, List.find?_eq_none, decide_eq_true_eq, not_lt,
    ← Std.ExtTreeMap.mem_toList_iff_getElem?_eq_some, Prod.forall]

/-- An entry above `k` bounds the first such entry. -/
theorem exists_upperBound {m : OrdMap κ ν} {k b : κ} {w : ν} (hb : m[b]? = some w) (hk : k < b) :
    ∃ a v, m.upperBound k = some (a, v) ∧ a ≤ b := by
  cases h : m.upperBound k with
  | none => exact absurd (upperBound_eq_none.mp h b w hb) (not_le.mpr hk)
  | some e => exact ⟨e.1, e.2, rfl, (upperBound_eq_some.mp h).2.2 b w hb hk⟩

/-! ### Maps whose entries point at each other -/

theorem card_keys (m : OrdMap κ ν) : m.keys.toFinset.card = m.size := by
  have hn : m.keys.Nodup := Std.ExtTreeMap.distinct_keys.imp fun h hab => h (by simp [hab])
  rw [List.toFinset_card_of_nodup hn, Std.ExtTreeMap.length_keys]

theorem mem_keys_toFinset {m : OrdMap κ ν} {a : κ} : a ∈ m.keys.toFinset ↔ ∃ v, m[a]? = some v := by
  rw [List.mem_toFinset, Std.ExtTreeMap.mem_keys, Std.ExtTreeMap.mem_iff_isSome_getElem?,
    Option.isSome_iff_exists]

/-- Following a pointer from each entry of `m` into `n` and the pointer found
there back leads to the entry one started from, so `m` has no more entries than `n`. -/
theorem size_le_of_pointers {m : OrdMap κ ν} {n : OrdMap κ' ν'} (f : ν → κ') (g : ν' → κ)
    (h : ∀ a v, m[a]? = some v → ∃ w, n[f v]? = some w ∧ g w = a) : m.size ≤ n.size := by
  rw [← card_keys m, ← card_keys n]
  refine Finset.card_le_card_of_forall_subsingleton (fun a b => ∃ v, m[a]? = some v ∧ f v = b) ?_ ?_
  · intro a ha
    obtain ⟨v, hv⟩ := mem_keys_toFinset.mp ha
    obtain ⟨w, hw, _⟩ := h a v hv
    exact ⟨f v, mem_keys_toFinset.mpr ⟨w, hw⟩, v, hv, rfl⟩
  · rintro b _ a₁ ⟨_, v₁, h₁, rfl⟩ a₂ ⟨_, v₂, h₂, h₂₁⟩
    obtain ⟨w₁, hw₁, rfl⟩ := h a₁ v₁ h₁
    obtain ⟨w₂, hw₂, rfl⟩ := h a₂ v₂ h₂
    rw [h₂₁, hw₁] at hw₂
    exact congrArg g (Option.some.inj hw₂)

end OrdMap

end TikvCpp.Data
