import TikvCpp.Btree.Map

/-! What a tree checks of itself: `verify` walks over all of it, and in no tree that updates lead
to does one of its assertions fail. The height of such a tree is logarithmic in its size. -/

namespace TikvCpp.Btree

open Transition

variable {K D C V : Type} [LinearOrder K]

/-- The loop of `internal_verify` over the children of a node. -/
def verifyChildren (verify : C → Option K → Option K → Option ℕ) (hi : Option K) :
    C → List ((K × D) × C) → Option K → Option ℕ
  | c, [], lo => verify c lo hi
  | c, (v, c') :: rest, lo =>
    (verify c lo (some v.1)).bind fun n => (verifyChildren verify hi c' rest (some v.1)).map (n + ·)

/-- The assertions of `internal_verify` about the keys of a node. -/
def keysVerified (values : List (K × D)) (lo hi : Option K) : Bool :=
  lo.all (fun a => values.head?.all fun e => !decide (e.1 < a)) &&
    hi.all (fun b => values.getLast?.all fun e => !decide (b < e.1)) &&
    (values.zip values.tail).all fun p => !decide (p.2.1 < p.1.1)

/-- `internal_verify`: the number of values below, or nothing where an assertion fails. What
hangs in a leaf counts nothing. -/
def internalVerify : (h : ℕ) → Sub (K × D) h → Option K → Option K → Option ℕ
  | 0, _, _, _ => some 0
  | h + 1, node, lo, hi =>
    if 0 < Node.count node ∧ Node.count node ≤ Node.maxCount node ∧ keysVerified (Node.values node) lo hi then
      (verifyChildren (internalVerify h) hi (Node.first node) (Node.rest node) lo).map (Node.count node + ·)
    else none

/-- `verify`: whether all its assertions hold. -/
def BtreeMap.verify (m : BtreeMap K D) : Bool :=
  match m.tree with
  | some t => internalVerify (t.height + 1) t.root none none = some m.size
  | none => m.size = 0

/-- Within the bounds of a node. -/
def Within (lo hi : Option K) (l : List (K × D)) : Prop :=
  (∀ a ∈ lo, ∀ e ∈ l, ¬ e.1 < a) ∧ ∀ b ∈ hi, ∀ e ∈ l, ¬ b < e.1

theorem Within.sublist {lo hi : Option K} {l l' : List (K × D)} (h : Within lo hi l) (hl : l'.Sublist l) :
    Within lo hi l' :=
  ⟨fun a ha e he => h.1 a ha e (hl.subset he), fun b hb e he => h.2 b hb e (hl.subset he)⟩

theorem Sorted.zip_tail {values : List (K × D)} (hsorted : Sorted values) :
    ∀ p ∈ values.zip values.tail, p.1.1 < p.2.1 := by
  induction values with
  | nil => exact fun p hp => absurd hp List.not_mem_nil
  | cons a l ih =>
    obtain ⟨ha, hl⟩ := List.pairwise_cons.mp hsorted
    cases l with
    | nil => exact fun p hp => absurd hp (by simp)
    | cons b l =>
      intro p hp
      rw [List.tail_cons, List.zip_cons_cons] at hp
      rcases List.mem_cons.mp hp with rfl | hp
      · exact ha b List.mem_cons_self
      · exact ih hl p hp

theorem keysVerified_of_sorted {values : List (K × D)} {lo hi : Option K} (hsorted : Sorted values)
    (hwithin : Within lo hi values) : keysVerified values lo hi = true := by
  unfold keysVerified
  rw [Bool.and_eq_true, Bool.and_eq_true, List.all_eq_true]
  refine ⟨⟨?_, ?_⟩, fun p hp => ?_⟩
  · cases lo with
    | none => rfl
    | some a =>
      cases hhead : values.head? with
      | none => rfl
      | some e => simpa using hwithin.1 a rfl e (List.mem_of_mem_head? hhead)
  · cases hi with
    | none => rfl
    | some b =>
      cases hlast : values.getLast? with
      | none => rfl
      | some e => simpa using hwithin.2 b rfl e (List.mem_of_mem_getLast? hlast)
  · simpa using (hsorted.zip_tail p hp).le

/-- Children whose contents are sorted and within their bounds verify. -/
theorem verifyChildren_spec {verify : C → Option K → Option K → Option ℕ} {f : C → List (K × D)}
    {hi lo : Option K} (c : C) (rest : List ((K × D) × C))
    (hverify : ∀ c' ∈ c :: rest.map Prod.snd, ∀ lo hi, Sorted (f c') → Within lo hi (f c') →
      verify c' lo hi = some (f c').length)
    (hsorted : Sorted (f c ++ rest.flatMap (Node.entry f))) (hwithin : Within lo hi (f c ++ rest.flatMap (Node.entry f))) :
    ∃ n, verifyChildren verify hi c rest lo = some n ∧
      rest.length + n = (f c ++ rest.flatMap (Node.entry f)).length := by
  induction rest generalizing c lo with
  | nil =>
    rw [List.flatMap_nil, List.append_nil] at hsorted hwithin ⊢
    exact ⟨_, hverify c List.mem_cons_self lo hi hsorted hwithin, Nat.zero_add _⟩
  | cons e rest ih =>
    obtain ⟨v, c'⟩ := e
    have hlist : f c ++ ((v, c') :: rest).flatMap (Node.entry f) = f c ++ v :: (f c' ++ rest.flatMap (Node.entry f)) := rfl
    rw [hlist] at hsorted hwithin ⊢
    obtain ⟨hleft, hright, hlr⟩ := List.pairwise_append.mp hsorted
    obtain ⟨hv, hright⟩ := List.pairwise_cons.mp hright
    have hbefore : Within lo (some v.1) (f c) := by
      refine ⟨fun a ha e he => hwithin.1 a ha e (List.mem_append_left _ he), ?_⟩
      rintro b ⟨⟩ e he
      exact (hlr e he v List.mem_cons_self).not_gt
    have hafter : Within (some v.1) hi (f c' ++ rest.flatMap (Node.entry f)) := by
      refine ⟨?_, fun b hb e he => hwithin.2 b hb e (List.mem_append_right _ (List.mem_cons_of_mem _ he))⟩
      rintro a ⟨⟩ e he
      exact (hv e he).not_gt
    have hfirst := hverify c List.mem_cons_self lo (some v.1) hleft hbefore
    obtain ⟨n, hn, hcount⟩ := ih c' (fun c'' hc'' => hverify c'' (List.mem_cons_of_mem _ hc'')) hright hafter
    refine ⟨(f c).length + n, ?_, ?_⟩
    · rw [verifyChildren, hfirst, Option.bind_some, hn]
      rfl
    · rw [List.length_append, List.length_cons, List.length_cons, ← hcount]
      omega

theorem internalVerify_spec {kNodeValues h : ℕ} {n : Sub (K × D) h} {lo hi : Option K} (hn : Sound kNodeValues h n)
    (hsorted : Sorted (below h n)) (hwithin : Within lo hi (below h n)) :
    internalVerify h n lo hi = some (below h n).length := by
  induction h generalizing lo hi with
  | zero => rfl
  | succ h ih =>
    obtain ⟨hmax, hpos, hcount, hkids⟩ := hn
    have hvalues := Node.values_sublist (below h) n
    obtain ⟨k, hk, hlength⟩ := verifyChildren_spec (Node.first n) (Node.rest n)
      (fun c hc lo hi => ih (hkids c hc)) hsorted hwithin
    rw [internalVerify, if_pos ⟨hpos, hcount.trans_eq hmax.symm,
      keysVerified_of_sorted (hsorted.sublist hvalues) (hwithin.sublist hvalues)⟩, hk]
    exact congrArg some hlength

/-- A sound node has at least two children for each step down, and a value for each but one. -/
theorem two_pow_le {kNodeValues h : ℕ} {n : Sub V h} (hn : Sound kNodeValues h n) : 2 ^ h ≤ (below h n).length + 1 := by
  induction h with
  | zero => exact Nat.le_refl 1
  | succ h ih =>
    obtain ⟨-, hpos, -, hkids⟩ := hn
    obtain ⟨e, rest, hrest⟩ : ∃ e rest, Node.rest n = e :: rest := List.exists_cons_of_length_pos hpos
    have hfirst := ih (hkids n.first List.mem_cons_self)
    have hsecond := ih (hkids e.2 (List.mem_cons_of_mem _ (by rw [hrest]; exact List.mem_cons_self)))
    have hlength : (below (h + 1) n).length =
        (below h n.first).length + ((below h e.2).length + 1 + (rest.flatMap (Node.entry (below h))).length) := by
      show (below h n.first ++ (Node.rest n).flatMap (Node.entry (below h))).length = _
      rw [hrest, List.flatMap_cons, List.length_append, List.length_append]
      rfl
    rw [hlength, Nat.pow_succ]
    omega

/-- The root is sound for its own capacity. -/
theorem exists_sound_root {kNodeValues : ℕ} {t : Tree V} (ht : t.Sound kNodeValues) :
    ∃ maxCount, Sound maxCount (t.height + 1) t.root := by
  obtain ⟨h, root⟩ := t
  cases h with
  | zero => exact ⟨root.maxCount, rfl, ht.1, ht.2.1, fun _ _ => trivial⟩
  | succ h => exact ⟨kNodeValues, ht⟩

namespace BtreeMap

variable {kNodeValues : ℕ} {m : BtreeMap K D}

/-- `verify` finds nothing wrong. -/
theorem verify_eq (hm : m.Valid kNodeValues) : m.verify = true := by
  have hsize := size_eq hm
  have hsound := hm.sound
  have hsorted := hm.sorted
  obtain ⟨tree, rootSize⟩ := m
  cases tree with
  | none => rfl
  | some t =>
    obtain ⟨maxCount, hroot⟩ := exists_sound_root (hsound t rfl)
    have hbelow : internalVerify (t.height + 1) t.root none none = some t.toList.length :=
      internalVerify_spec hroot hsorted ⟨fun _ ha => absurd ha (by simp), fun _ hb => absurd hb (by simp)⟩
    unfold verify
    simp only
    rw [hbelow, hsize]
    exact decide_eq_true rfl

/-- The height is at most logarithmic in the size. -/
theorem two_pow_height_le (hm : m.Valid kNodeValues) : 2 ^ m.height ≤ m.size + 1 := by
  rw [size_eq hm]
  have hsound := hm.sound
  obtain ⟨tree, rootSize⟩ := m
  cases tree with
  | none => exact Nat.le_refl 1
  | some t =>
    obtain ⟨maxCount, hroot⟩ := exists_sound_root (hsound t rfl)
    exact two_pow_le hroot

/-- In every run of updates the tree passes its own check, and its height stays logarithmic. -/
theorem run_verify [Inhabited D] (hk : 3 ≤ kNodeValues) (us : List (Update K D)) :
    ∃ m, run (update kNodeValues) ({} : BtreeMap K D) us = some m ∧ m.verify = true ∧ 2 ^ m.height ≤ m.size + 1 := by
  obtain ⟨m, hrun, hm, -⟩ := run_update hk us
  exact ⟨m, hrun, verify_eq hm, two_pow_height_le hm⟩

theorem run_verify_of_four : 3 ≤ 3 ∧ ∃ m, run (update 3) ({} : BtreeMap ℕ ℕ)
      [.assign 5 0, .assign 3 1, .insert (4, 2), .erase 3] = some m ∧ m.verify = true ∧ 2 ^ m.height ≤ m.size + 1 :=
  ⟨by decide, run_verify (by decide) _⟩

end BtreeMap

end TikvCpp.Btree
