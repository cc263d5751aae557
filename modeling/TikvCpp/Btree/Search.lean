import TikvCpp.Btree.Iteration
import TikvCpp.Data.OrdMap

/-! Searches in a tree: within a node by bisection or one value after the other, and from the
root down one child of each node. The values of the tree are `pair`s ordered by their keys. -/

namespace TikvCpp.Btree

/-! ### In a node -/

/-- `binary_search_compare_to`, where `comp i` compares the key at `i` with the one searched
for: a position, and whether `kExactMatch` is set. -/
def binarySearchCompareTo (comp : ℕ → Ordering) (s e : ℕ) : ℕ × Bool :=
  if s < e then
    match comp ((s + e) / 2) with
    | .lt => binarySearchCompareTo comp ((s + e) / 2 + 1) e
    | .gt => binarySearchCompareTo comp s ((s + e) / 2)
    | .eq => ((binarySearchCompareTo comp s ((s + e) / 2)).1, true)
  else (s, false)
termination_by e - s

section

variable {comp : ℕ → Ordering} {n s e : ℕ}

/-- Bisection keeps what is smaller on its left, and the rest on its right. -/
theorem binarySearchCompareTo_position (hlt : ∀ i j, i ≤ j → j < n → comp j = .lt → comp i = .lt)
    (hgt : ∀ i j, i ≤ j → j < n → comp i ≠ .lt → comp j ≠ .lt) (hse : s ≤ e) (hen : e ≤ n)
    (hs : ∀ i < s, comp i = .lt) (he : ∀ i, e ≤ i → i < n → comp i ≠ .lt) :
    (binarySearchCompareTo comp s e).1 ≤ e ∧ (∀ i < (binarySearchCompareTo comp s e).1, comp i = .lt) ∧
      ∀ i, (binarySearchCompareTo comp s e).1 ≤ i → i < n → comp i ≠ .lt := by
  fun_induction binarySearchCompareTo comp s e with
  | case1 s e hlt' heq ih =>
    obtain ⟨hp, hbelow, habove⟩ := ih (by omega) hen (fun i hi => hlt i _ (by omega) (by omega) heq) he
    exact ⟨hp, hbelow, habove⟩
  | case2 s e hlt' heq ih =>
    obtain ⟨hp, hbelow, habove⟩ := ih (by omega) (by omega) hs
      fun i hi hin => hgt _ i hi hin (by rw [heq]; decide)
    exact ⟨by omega, hbelow, habove⟩
  | case3 s e hlt' heq ih =>
    obtain ⟨hp, hbelow, habove⟩ := ih (by omega) (by omega) hs
      fun i hi hin => hgt _ i hi hin (by rw [heq]; decide)
    exact ⟨Nat.le_trans hp (by omega), hbelow, habove⟩
  | case4 s e hge =>
    obtain rfl : s = e := by omega
    exact ⟨Nat.le_refl _, hs, he⟩

/-- `kExactMatch` is set when one of the keys searched is the one searched for. -/
theorem binarySearchCompareTo_exact (hlt : ∀ i j, i ≤ j → j < n → comp j = .lt → comp i = .lt)
    (hgt : ∀ i j, i ≤ j → j < n → comp i = .gt → comp j = .gt) (hen : e ≤ n) :
    (binarySearchCompareTo comp s e).2 = true ↔ ∃ i, s ≤ i ∧ i < e ∧ comp i = .eq := by
  fun_induction binarySearchCompareTo comp s e with
  | case1 s e hlt' heq ih =>
    rw [ih hen]
    constructor
    · rintro ⟨i, hi, hie, hieq⟩
      exact ⟨i, by omega, hie, hieq⟩
    · rintro ⟨i, hi, hie, hieq⟩
      refine ⟨i, Nat.lt_of_not_le fun hle => ?_, hie, hieq⟩
      rw [hlt i _ hle (by omega) heq] at hieq
      cases hieq
  | case2 s e hlt' heq ih =>
    rw [ih (by omega)]
    constructor
    · rintro ⟨i, hi, hie, hieq⟩
      exact ⟨i, hi, by omega, hieq⟩
    · rintro ⟨i, hi, hie, hieq⟩
      refine ⟨i, hi, Nat.lt_of_not_le fun hle => ?_, hieq⟩
      rw [hgt _ i hle (by omega) heq] at hieq
      cases hieq
  | case3 s e hlt' heq ih => exact ⟨fun _ => ⟨_, by omega, by omega, heq⟩, fun _ => rfl⟩
  | case4 s e hge =>
    constructor
    · exact fun h => absurd h Bool.false_ne_true
    · rintro ⟨i, hi, hie, -⟩
      omega

end

variable {K D : Type} [LinearOrder K]

/-- `lower_bound` of a node with these values, with string keys. -/
def lowerBound (k : K) (values : List (K × D)) : ℕ × Bool :=
  binarySearchCompareTo (fun i => match values[i]? with | some e => compare e.1 k | none => .gt) 0 values.length

/-- `upper_bound` of a node, with string keys: `linear_search_plain_compare`. -/
def upperBound (k : K) (values : List (K × D)) : ℕ := values.findIdx fun e => decide (k < e.1)

/-- Ordered by keys, no key twice. -/
def Sorted (l : List (K × D)) : Prop := l.Pairwise fun a b => a.1 < b.1

/-- The values that satisfy `P` come first, and `i` is their number. -/
def Cuts (P : K × D → Prop) (l : List (K × D)) (i : ℕ) : Prop :=
  i ≤ l.length ∧ (∀ e ∈ l.take i, P e) ∧ ∀ e ∈ l.drop i, ¬ P e

theorem cuts_upperBound (k : K) {values : List (K × D)} (hsorted : Sorted values) :
    Cuts (fun e => e.1 ≤ k) values (upperBound k values) := by
  unfold upperBound
  induction values with
  | nil => exact ⟨Nat.le_refl _, by simp, by simp⟩
  | cons e l ih =>
    obtain ⟨hlt, hl⟩ := List.pairwise_cons.mp hsorted
    obtain ⟨hi, hbelow, habove⟩ := ih hl
    rw [List.findIdx_cons]
    by_cases hk : k < e.1
    · simp only [hk, decide_true, cond_true]
      refine ⟨Nat.zero_le _, by simp, fun x hx => not_le.mpr ?_⟩
      rcases List.mem_cons.mp hx with rfl | hx
      · exact hk
      · exact hk.trans (hlt x hx)
    · simp only [hk, decide_false, cond_false]
      refine ⟨Nat.succ_le_succ hi, ?_, habove⟩
      intro x hx
      rcases List.mem_cons.mp hx with rfl | hx
      · exact not_lt.mp hk
      · exact hbelow x hx

theorem Sorted.le {l : List (K × D)} (hl : Sorted l) {i j : ℕ} (hij : i ≤ j) (hi : i < l.length)
    (hj : j < l.length) : l[i].1 ≤ l[j].1 := by
  rcases Nat.lt_or_eq_of_le hij with hij | rfl
  · exact (List.pairwise_iff_getElem.mp hl i j hi hj hij).le
  · exact le_rfl

/-- The position of a lower bound, and that an exact match is the value there. -/
theorem lowerBound_spec (k : K) {values : List (K × D)} (hsorted : Sorted values) :
    Cuts (fun e => e.1 < k) values (lowerBound k values).1 ∧
      ((lowerBound k values).2 = true ↔ ∃ d, values[(lowerBound k values).1]? = some (k, d)) := by
  obtain ⟨comp, hcomp, hdef⟩ : ∃ comp : ℕ → Ordering,
      (∀ i (hi : i < values.length), comp i = compare values[i].1 k) ∧
        lowerBound k values = binarySearchCompareTo comp 0 values.length :=
    ⟨_, fun i hi => by simp only [List.getElem?_eq_getElem hi], rfl⟩
  have hlt (i j : ℕ) (hij : i ≤ j) (hj : j < values.length) (h : comp j = .lt) : comp i = .lt := by
    rw [hcomp j hj, compare_lt_iff_lt] at h
    rw [hcomp i (by omega), compare_lt_iff_lt]
    exact (hsorted.le hij (by omega) hj).trans_lt h
  have hgt (i j : ℕ) (hij : i ≤ j) (hj : j < values.length) (h : comp i = .gt) : comp j = .gt := by
    rw [hcomp i (by omega), compare_gt_iff_gt] at h
    rw [hcomp j hj, compare_gt_iff_gt]
    exact h.trans_le (hsorted.le hij (by omega) hj)
  obtain ⟨hp, hbelow, habove⟩ := binarySearchCompareTo_position hlt (fun i j hij hj h h' => h (hlt i j hij hj h'))
    (Nat.zero_le _) le_rfl (fun i hi => absurd hi (Nat.not_lt_zero i)) fun i hi hi' => absurd hi' (not_lt.mpr hi)
  have hexact := binarySearchCompareTo_exact (s := 0) hlt hgt le_rfl
  rw [← hdef] at hp hbelow habove hexact
  refine ⟨⟨hp, fun e he => ?_, fun e he => ?_⟩, hexact.trans ⟨?_, ?_⟩⟩
  · obtain ⟨i, hi, rfl⟩ := List.mem_take_iff_getElem.mp he
    have hbelow := hbelow i (by omega)
    rw [hcomp i (by omega), compare_lt_iff_lt] at hbelow
    exact hbelow
  · obtain ⟨i, hi, rfl⟩ := List.mem_drop_iff_getElem.mp he
    have habove := habove _ (Nat.le_add_right _ i) (by omega)
    rw [hcomp _ (by omega)] at habove
    exact fun h => habove (compare_lt_iff_lt.mpr h)
  · rintro ⟨i, -, hi, heq⟩
    have hle : (lowerBound k values).1 ≤ i := not_lt.mp fun h => by
      rw [hbelow i h] at heq
      cases heq
    have hplt := hle.trans_lt hi
    have hkey : values[i].1 = k := by
      rw [hcomp i hi] at heq
      exact compare_eq_iff_eq.mp heq
    have hge := habove _ le_rfl hplt
    rw [hcomp _ hplt] at hge
    refine ⟨values[(lowerBound k values).1].2, ?_⟩
    rw [List.getElem?_eq_getElem hplt]
    refine congrArg some (Prod.ext (le_antisymm ?_ ?_) rfl)
    · exact hkey ▸ hsorted.le hle hplt hi
    · exact not_lt.mp fun h => hge (compare_lt_iff_lt.mpr h)
  · rintro ⟨d, hd⟩
    obtain ⟨hplt, hd⟩ := List.getElem?_eq_some_iff.mp hd
    refine ⟨_, Nat.zero_le _, hplt, ?_⟩
    rw [hcomp _ hplt, hd]
    exact compare_eq_iff_eq.mpr rfl

/-! ### In a tree -/

/-- The loop of `internal_lower_bound` and `internal_upper_bound`, where `search` finds the
position in a node: down to a leaf. -/
def descend (search : List (K × D) → ℕ) :
    {h : ℕ} → Path (K × D) h → Node (K × D) (Sub (K × D) h) → Iter (K × D) 0
  | 0, path, node => ⟨node, path, search node.values⟩
  | _ + 1, path, node =>
    let child := path.down node (search node.values)
    descend search child.2 child.1

/-- `internal_lower_bound`. -/
def internalLowerBound (k : K) (t : Tree (K × D)) : Option (Iterator (K × D)) :=
  let it := descend (fun values => (lowerBound k values).1) .root t.root
  internalLast it.path it.node it.position

/-- `internal_upper_bound`. -/
def internalUpperBound (k : K) (t : Tree (K × D)) : Option (Iterator (K × D)) :=
  let it := descend (upperBound k) .root t.root
  internalLast it.path it.node it.position

/-- What `internal_locate` returns: a match at any height, or the place in a leaf where the key
would be. -/
inductive Located (K D : Type)
  | exact (it : Iterator (K × D))
  | absent (it : Iter (K × D) 0)

/-- `internal_locate_compare_to`. -/
def internalLocate (k : K) : {h : ℕ} → Path (K × D) h → Node (K × D) (Sub (K × D) h) → Located K D
  | 0, path, node =>
    let res := lowerBound k node.values
    if res.2 then .exact ⟨0, node, path, res.1⟩ else .absent ⟨node, path, res.1⟩
  | h + 1, path, node =>
    let res := lowerBound k node.values
    if res.2 then .exact ⟨h + 1, node, path, res.1⟩
    else
      let child := path.down node res.1
      internalLocate k child.2 child.1

/-- `internal_find_unique`. -/
def internalFindUnique (k : K) (t : Tree (K × D)) : Option (Iterator (K × D)) :=
  match internalLocate k .root t.root with
  | .exact it => some it
  | .absent _ => none

section

variable {P : K × D → Prop} {h : ℕ} {p : Path (K × D) h} {n : Node (K × D) (Sub (K × D) h)}

theorem sorted_values (hsorted : Sorted (p.zip n).toList) : Sorted n.values := by
  rw [Path.zip_toList] at hsorted
  exact ((hsorted.sublist (List.sublist_append_left _ _)).sublist (List.sublist_append_right _ _)).sublist
    (n.values_sublist _)

/-- A cut of the values of a node is one of all that is below it, around the child there. -/
theorem openAt_cuts {i : ℕ} {n : Node (K × D) (Sub (K × D) (h + 1))} (hP : ∀ a b : K × D, a.1 < b.1 → P b → P a)
    (hsorted : Sorted n.toList) (hcuts : Cuts P n.values i) :
    (∀ e ∈ (n.openAt i).2.before (below (h + 1)), P e) ∧ ∀ e ∈ n.after (below (h + 1)) i, ¬ P e := by
  obtain ⟨hi, hbelow, habove⟩ := hcuts
  rw [n.length_values] at hi
  rw [Node.toList, ← n.upTo_append_after _ i, n.openAt_upTo _ hi] at hsorted
  obtain ⟨hleft, hright, -⟩ := List.pairwise_append.mp hsorted
  constructor
  · cases i with
    | zero =>
      rw [n.openAt_before_zero]
      exact fun e he => absurd he List.not_mem_nil
    | succ j =>
      obtain ⟨v, hv, hbefore⟩ := n.openAt_before_succ (below (h + 1)) hi
      have hPv : P v := hbelow v (List.mem_of_getElem? (i := j) (by rw [List.getElem?_take, if_pos (by omega), hv]))
      rw [hbefore] at hleft ⊢
      intro e he
      rcases List.mem_append.mp he with he | he
      · exact hP e v ((List.pairwise_append.mp (List.pairwise_append.mp hleft).1).2.2 e he v List.mem_cons_self) hPv
      · rw [List.mem_singleton.mp he]
        exact hPv
  · rcases Nat.lt_or_eq_of_le hi with hi | hi
    · obtain ⟨v, rest, hv, hafter⟩ := n.after_of_lt (below (h + 1)) hi
      have hPv : ¬ P v := habove v (List.mem_of_getElem? (i := 0) (by rw [List.getElem?_drop]; exact hv))
      rw [hafter] at hright ⊢
      intro e he
      rcases List.mem_cons.mp he with rfl | he
      · exact hPv
      · exact fun hPe => hPv (hP v e ((List.pairwise_cons.mp hright).1 e he) hPe)
    · rw [hi, n.after_count]
      exact fun e he => absurd he List.not_mem_nil

/-- A step down keeps the cut. -/
theorem down_cuts {i : ℕ} {p : Path (K × D) (h + 1)} {n : Node (K × D) (Sub (K × D) (h + 1))}
    (hP : ∀ a b : K × D, a.1 < b.1 → P b → P a) (hsorted : Sorted (p.zip n).toList) (hcuts : Cuts P n.values i)
    (hbefore : ∀ e ∈ p.before, P e) (hafter : ∀ e ∈ p.after, ¬ P e) :
    (∀ e ∈ (p.down n i).2.before, P e) ∧ ∀ e ∈ (p.down n i).2.after, ¬ P e := by
  have hi : i ≤ n.count := n.length_values ▸ hcuts.1
  rw [Path.zip_toList] at hsorted
  obtain ⟨hleft, hright⟩ := openAt_cuts hP
    ((hsorted.sublist (List.sublist_append_left _ _)).sublist (List.sublist_append_right _ _)) hcuts
  rw [p.down_after hi]
  exact ⟨List.forall_mem_append.mpr ⟨hbefore, hleft⟩, List.forall_mem_append.mpr ⟨hright, hafter⟩⟩

omit [LinearOrder K] in
theorem leaf_cuts {i : ℕ} {p : Path (K × D) 0} {n : Node (K × D) Unit} (hcuts : Cuts P n.values i)
    (hbefore : ∀ e ∈ p.before, P e) (hafter : ∀ e ∈ p.after, ¬ P e) :
    (∀ e ∈ (Iter.mk n p i).before, P e) ∧ ∀ e ∈ (Iter.mk n p i).after, ¬ P e := by
  rw [Iter.before, Iter.after, leaf_upTo, leaf_after]
  exact ⟨List.forall_mem_append.mpr ⟨hbefore, hcuts.2.1⟩, List.forall_mem_append.mpr ⟨hcuts.2.2, hafter⟩⟩

/-- A descent ends where the values that satisfy `P` end. -/
theorem descend_spec {search : List (K × D) → ℕ} (hP : ∀ a b : K × D, a.1 < b.1 → P b → P a)
    (hsearch : ∀ values, Sorted values → Cuts P values (search values)) (hsorted : Sorted (p.zip n).toList)
    (hbefore : ∀ e ∈ p.before, P e) (hafter : ∀ e ∈ p.after, ¬ P e) :
    (descend search p n).tree = p.zip n ∧ (descend search p n).position ≤ (descend search p n).node.count ∧
      (∀ e ∈ (descend search p n).before, P e) ∧ ∀ e ∈ (descend search p n).after, ¬ P e := by
  have hcuts := hsearch n.values (sorted_values hsorted)
  induction h with
  | zero => exact ⟨rfl, n.length_values ▸ hcuts.1, leaf_cuts hcuts hbefore hafter⟩
  | succ h ih =>
    have hzip := p.down_zip (n := n) (n.length_values ▸ hcuts.1)
    obtain ⟨hleft, hright⟩ := down_cuts hP hsorted hcuts hbefore hafter
    rw [← hzip] at hsorted ⊢
    exact ih hsorted hleft hright (hsearch _ (sorted_values hsorted))

/-- Where a bisection finds no match, what is not smaller is larger. -/
theorem lowerBound_absent {k : K} {values : List (K × D)} (hsorted : Sorted values)
    (habsent : ¬ (lowerBound k values).2 = true) : Cuts (fun e => e.1 ≤ k) values (lowerBound k values).1 := by
  obtain ⟨⟨hi, hbelow, habove⟩, hexact⟩ := lowerBound_spec k hsorted
  refine ⟨hi, fun e he => (hbelow e he).le, fun e he hle => habsent (hexact.mpr ?_)⟩
  obtain ⟨j, hj, rfl⟩ := List.mem_drop_iff_getElem.mp he
  have hfirst : values[(lowerBound k values).1].1 = k := by
    refine le_antisymm ((hsorted.le (Nat.le_add_right _ j) (by omega) (by omega)).trans hle) ?_
    exact not_lt.mp (habove _ (List.mem_drop_iff_getElem.mpr ⟨0, by omega, rfl⟩))
  exact ⟨_, (List.getElem?_eq_getElem (by omega)).trans (congrArg some (Prod.ext hfirst rfl))⟩

/-- What `internal_locate` says of a key is right: at a match the key is there, and otherwise the
place in the leaf is the only one where it could be. -/
def Located.Correct (k : K) (t : Tree (K × D)) : Located K D → Prop
  | .exact it => it.2.tree = t ∧ ∃ d, it.2.value = some (k, d)
  | .absent it =>
    it.tree = t ∧ it.position ≤ it.node.count ∧ (∀ e ∈ it.before, e.1 < k) ∧ ∀ e ∈ it.after, ¬ e.1 ≤ k

theorem internalLocate_correct {k : K} (hsorted : Sorted (p.zip n).toList) (hbefore : ∀ e ∈ p.before, e.1 < k)
    (hafter : ∀ e ∈ p.after, ¬ e.1 ≤ k) : (internalLocate k p n).Correct k (p.zip n) := by
  obtain ⟨hcuts, hexact⟩ := lowerBound_spec k (sorted_values hsorted)
  have habsent := lowerBound_absent (k := k) (sorted_values hsorted)
  induction h with
  | zero =>
    rw [internalLocate]
    split_ifs with hfound
    · exact ⟨rfl, hexact.mp hfound⟩
    · exact ⟨rfl, n.length_values ▸ hcuts.1,
        (leaf_cuts hcuts hbefore fun e he hlt => hafter e he hlt.le).1,
        (leaf_cuts (habsent hfound) (fun e he => (hbefore e he).le) hafter).2⟩
  | succ h ih =>
    rw [internalLocate]
    split_ifs with hfound
    · exact ⟨rfl, hexact.mp hfound⟩
    · have hzip := p.down_zip (n := n) (n.length_values ▸ hcuts.1)
      have hleft := (down_cuts (fun a b hab => hab.trans) hsorted hcuts hbefore fun e he hlt => hafter e he hlt.le).1
      have hright := (down_cuts (fun a b hab hb => hab.le.trans hb) hsorted (habsent hfound)
        (fun e he => (hbefore e he).le) hafter).2
      rw [← hzip] at hsorted ⊢
      obtain ⟨hcuts', hexact'⟩ := lowerBound_spec k (sorted_values hsorted)
      exact ih hsorted hleft hright hcuts' hexact' (lowerBound_absent (sorted_values hsorted))

end

section

variable {t : Tree (K × D)} (k : K)

/-- After a descent `internal_last` stands after the values that satisfy `P`. -/
theorem descend_stands {search : List (K × D) → ℕ} {P : K × D → Prop}
    (hP : ∀ a b : K × D, a.1 < b.1 → P b → P a)
    (hsearch : ∀ values, Sorted values → Cuts P values (search values)) (hsorted : Sorted t.toList) :
    ∃ l r, t.toList = l ++ r ∧ (∀ e ∈ l, P e) ∧ (∀ e ∈ r, ¬ P e) ∧
      Stands t l (internalLast (descend search .root t.root).path (descend search .root t.root).node
        (descend search .root t.root).position) := by
  obtain ⟨htree, hposition, hbefore, hafter⟩ := descend_spec (p := .root) (n := t.root) hP hsearch hsorted
    (fun e he => absurd he List.not_mem_nil) fun e he => absurd he List.not_mem_nil
  generalize descend search .root t.root = it at *
  have hlast := internalLast_stands it.path it.node hposition
  obtain rfl : it.tree = t := htree
  exact ⟨it.before, it.after, it.before_append_after.symm, hbefore, hafter, hlast⟩

/-- `internal_upper_bound` stands after the values with keys up to `k`. -/
theorem internalUpperBound_stands (hsorted : Sorted t.toList) :
    ∃ l r, t.toList = l ++ r ∧ (∀ e ∈ l, e.1 ≤ k) ∧ (∀ e ∈ r, ¬ e.1 ≤ k) ∧
      Stands t l (internalUpperBound k t) :=
  descend_stands (fun _ _ hab hb => hab.le.trans hb) (fun _ => cuts_upperBound k) hsorted

/-- `internal_lower_bound` stands after the values with smaller keys. -/
theorem internalLowerBound_stands (hsorted : Sorted t.toList) :
    ∃ l r, t.toList = l ++ r ∧ (∀ e ∈ l, e.1 < k) ∧ (∀ e ∈ r, ¬ e.1 < k) ∧
      Stands t l (internalLowerBound k t) :=
  descend_stands (fun _ _ hab => hab.trans) (fun _ hv => (lowerBound_spec k hv).1) hsorted

end

end TikvCpp.Btree
