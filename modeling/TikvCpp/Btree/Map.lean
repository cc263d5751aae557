import TikvCpp.Btree.Erase
import TikvCpp.Transition.Run

/-! `btree_map` with string keys, as a map: every run of its operations from the empty map, on a
tree of any order of growth, is one of the same operations on an ordered map. -/

namespace TikvCpp.Btree

open Data Transition

/-- `btree_map`: the tree, or nothing where the root is `NULL`, and the size that the root carries
when it is an internal node. -/
structure BtreeMap (K D : Type) where
  tree : Option (Tree (K × D)) := none
  rootSize : ℕ := 0

variable {K D : Type} [LinearOrder K]

/-- The value at an iterator with `d` for its `second`. -/
def Iter.setSecond {h : ℕ} (it : Iter (K × D) h) (d : D) : Option (Iter (K × D) h) :=
  match it.value with
  | some e => some { it with node := it.node.setValue it.position (e.1, d) }
  | none => none

namespace BtreeMap

/-- `new_leaf_root_node(1)`. -/
def newLeafRoot : Tree (K × D) := ⟨0, { maxCount := 1, first := (), rest := [] }⟩

def size (m : BtreeMap K D) : ℕ :=
  match m.tree with
  | none => 0
  | some ⟨0, root⟩ => root.count
  | some ⟨_ + 1, _⟩ => m.rootSize

/-- `height`. -/
def height (m : BtreeMap K D) : ℕ :=
  match m.tree with
  | none => 0
  | some t => t.height + 1

/-- `begin`; as everywhere below, no iterator is `end()`. -/
def begin (m : BtreeMap K D) : Option (Iterator (K × D)) := m.tree.map fun t => ⟨0, t.begin⟩

/-- `find`. -/
def find (m : BtreeMap K D) (k : K) : Option (Iterator (K × D)) := m.tree.bind (internalFindUnique k)

/-- `lower_bound`. -/
def lowerBound (m : BtreeMap K D) (k : K) : Option (Iterator (K × D)) := m.tree.bind (internalLowerBound k)

/-- `upper_bound`. -/
def upperBound (m : BtreeMap K D) (k : K) : Option (Iterator (K × D)) := m.tree.bind (internalUpperBound k)

/-- `insert_unique` of `v` under the key `k`: an iterator in the tree that results, whether `v` is
new in it, and the size its root carries. Nothing where an assertion fails. -/
def insertUnique (kNodeValues : ℕ) (m : BtreeMap K D) (k : K) (v : K × D) :
    Option (Iterator (K × D) × Bool × ℕ) :=
  match internalLocate k .root (m.tree.getD newLeafRoot).root with
  | .exact it => (internalLast it.2.path it.2.node it.2.position).map fun it => (it, false, m.rootSize)
  | .absent it => (internalInsert kNodeValues m.rootSize it v).map fun r => (⟨0, r.1⟩, true, r.2)

/-- `insert`. -/
def insert (kNodeValues : ℕ) (m : BtreeMap K D) (v : K × D) : Option (BtreeMap K D) :=
  (m.insertUnique kNodeValues v.1 v).map fun r => { tree := some r.1.2.tree, rootSize := r.2.2 }

/-- `m[k] = d`. -/
def assign [Inhabited D] (kNodeValues : ℕ) (m : BtreeMap K D) (k : K) (d : D) : Option (BtreeMap K D) :=
  match m.insertUnique kNodeValues k (k, default) with
  | some (it, _, size) => (it.2.setSecond d).map fun it => { tree := some it.tree, rootSize := size }
  | none => none

/-- `erase` of a key, with the number of values erased. -/
def eraseUnique (kNodeValues : ℕ) (m : BtreeMap K D) (k : K) : Option (ℕ × BtreeMap K D) :=
  match m.find k with
  | none => some (0, m)
  | some it =>
    let size := if it.1 = 0 ∧ it.2.path.isRoot then m.rootSize else m.rootSize - 1
    (erase (kNodeValues / 2) it.2).map fun t => (1, { tree := t, rootSize := size })

/-- `clear`. -/
def clear (m : BtreeMap K D) : BtreeMap K D := { m with tree := none }

def toList (m : BtreeMap K D) : List (K × D) := toListOf m.tree

/-! ### The invariant -/

/-- What every operation of the map keeps. -/
structure Valid (kNodeValues : ℕ) (m : BtreeMap K D) : Prop where
  sound : ∀ t ∈ m.tree, t.Sound kNodeValues
  sorted : Sorted m.toList
  size : ∀ t ∈ m.tree, 0 < t.height → m.rootSize = t.toList.length

end BtreeMap

section

variable {V : Type} {kNodeValues : ℕ}

theorem Path.height_zip {h : ℕ} (p : Path V h) (n : Node V (Sub V h)) : h ≤ (p.zip n).height := by
  induction p with
  | root => exact le_rfl
  | child fr up ih => exact (Nat.le_succ _).trans (ih (fr.plug n))

/-- The tree around a node is higher than the node unless it is the root. -/
theorem Path.height_zip_pos {p : Path V 0} {n : Node V Unit} : 0 < (p.zip n).height ↔ p.isRoot = false := by
  cases p with
  | root => simp [zip, isRoot]
  | child fr up => exact ⟨fun _ => rfl, fun _ => up.height_zip (fr.plug n)⟩

theorem Path.height_zip_congr {h : ℕ} (p : Path V h) (n m : Node V (Sub V h)) : (p.zip n).height = (p.zip m).height := by
  induction p with
  | root => rfl
  | child fr up ih => exact ih _ _

theorem internalLast_of_lt {h : ℕ} {p : Path V h} {n : Node V (Sub V h)} {i : ℕ} (hi : i < n.count) :
    internalLast p n i = some ⟨h, n, p, i⟩ := by
  cases p <;> rw [internalLast, if_neg (by omega)]

/-- The value at an iterator is the first of those from there on. -/
theorem Iter.after_of_value {h : ℕ} {it : Iter V h} {v : V} (hv : it.value = some v) :
    it.position < it.node.count ∧ ∃ r, it.after = v :: r := by
  obtain ⟨hi, -⟩ := List.getElem?_eq_some_iff.mp hv
  rw [it.node.length_values] at hi
  obtain ⟨v', r, hv', hafter⟩ := it.node.after_of_lt (below h) hi
  obtain rfl := Option.some.inj (hv.symm.trans hv')
  refine ⟨hi, r ++ it.path.after, ?_⟩
  rw [Iter.after, hafter]
  rfl

end

namespace BtreeMap

variable {kNodeValues : ℕ} {m : BtreeMap K D} {k : K} {v : K × D}

omit [LinearOrder K] in
theorem toList_getD (m : BtreeMap K D) : (m.tree.getD newLeafRoot).toList = m.toList := by
  rw [toList]
  cases m.tree <;> rfl

/-- The place of a key that is not there, as one where a value can be inserted. -/
theorem Valid.place (hm : m.Valid kNodeValues) (hk : 3 ≤ kNodeValues) {it : Iter (K × D) 0}
    (htree : it.tree = m.tree.getD newLeafRoot) (hposition : it.position ≤ it.node.count) :
    it.Place kNodeValues ∧ SizeRight it m.rootSize := by
  cases hroot : m.tree with
  | none =>
    rw [hroot, Option.getD_none] at htree
    obtain ⟨node, path, i⟩ := it
    cases path with
    | root =>
      have hnode : (⟨0, node⟩ : Tree (K × D)) = newLeafRoot := htree
      rw [newLeafRoot, Tree.mk.injEq] at hnode
      obtain rfl : node = { maxCount := 1, first := (), rest := [] } := eq_of_heq hnode.2
      exact ⟨⟨hposition, Nat.zero_le _, Nat.one_pos, by show 1 ≤ _; omega, fun h => absurd h (by simp [Path.isRoot]),
        trivial⟩, fun h => absurd h (by simp [Path.isRoot])⟩
    | child fr up =>
      have hheight := Path.height_zip_pos (p := .child fr up) (n := node)
      rw [show (Path.child fr up).zip node = newLeafRoot from htree] at hheight
      exact absurd (hheight.mpr rfl) (Nat.lt_irrefl 0)
  | some t =>
    rw [hroot, Option.getD_some] at htree
    have hsound := hm.sound t hroot
    have hsize := hm.size t hroot
    rw [← htree] at hsound hsize
    have hpos := (sound_of_tree hsound).1
    obtain ⟨hpath, hcount, hle, hfull, -⟩ := looseAt_of_tree hsound
    exact ⟨⟨hposition, hcount, by omega, hle, fun h => hfull (.inl h), hpath⟩,
      fun h => hsize (Path.height_zip_pos.mpr h)⟩

omit [LinearOrder K] in
theorem mem_tree_of_getD {t : Tree (K × D)} (ht : t = m.tree.getD newLeafRoot) (hlist : m.toList ≠ []) :
    t ∈ m.tree := by
  rw [toList] at hlist
  cases hroot : m.tree with
  | none => exact absurd (by rw [hroot]; rfl) hlist
  | some t' => rw [ht, hroot]; rfl

/-- What `insert_unique` leaves: the key between the smaller and the larger ones, with the new
value if it was not there. -/
structure Inserted (kNodeValues : ℕ) (m : BtreeMap K D) (v : K × D) (it : Iterator (K × D)) (fresh : Bool) (size : ℕ)
    (l : List (K × D)) (e : K × D) (r : List (K × D)) : Prop where
  before : it.2.before = l
  after : it.2.after = e :: r
  value : it.2.value = some e
  key : e.1 = v.1
  new : fresh = true → e = v
  list : m.toList = l ++ if fresh then r else e :: r
  left : ∀ x ∈ l, x.1 < v.1
  right : ∀ x ∈ r, v.1 < x.1
  sound : it.2.tree.Sound kNodeValues
  size : 0 < it.2.tree.height → size = it.2.tree.toList.length

theorem insertUnique_spec (hm : m.Valid kNodeValues) (hk : 3 ≤ kNodeValues) (v : K × D) :
    ∃ it fresh size l e r, m.insertUnique kNodeValues v.1 v = some (it, fresh, size) ∧
      Inserted kNodeValues m v it fresh size l e r := by
  have hsorted := hm.sorted
  rw [← toList_getD] at hsorted
  have hlocate := internalLocate_correct (k := v.1) (p := .root) (n := (m.tree.getD newLeafRoot).root) hsorted
    (fun e he => absurd he List.not_mem_nil) fun e he => absurd he List.not_mem_nil
  unfold insertUnique
  cases hres : internalLocate v.1 .root (m.tree.getD newLeafRoot).root with
  | exact it =>
    rw [hres] at hlocate
    obtain ⟨htree, d, hvalue⟩ := hlocate
    obtain ⟨hi, r, hafter⟩ := Iter.after_of_value hvalue
    have hlist : m.toList = it.2.before ++ (v.1, d) :: r := by
      rw [← toList_getD, ← hafter, Iter.before_append_after, htree]
      rfl
    have hmem := mem_tree_of_getD (m := m) htree (by rw [hlist]; simp)
    have hpairs := hlist ▸ hm.sorted
    obtain ⟨-, hpr, hlr⟩ := List.pairwise_append.mp hpairs
    refine ⟨it, false, m.rootSize, it.2.before, (v.1, d), r, ?_, rfl, hafter, hvalue, rfl, fun h => absurd h (by decide),
      hlist, fun x hx => hlr x hx (v.1, d) List.mem_cons_self, (List.pairwise_cons.mp hpr).1, hm.sound _ hmem,
      hm.size _ hmem⟩
    simp only
    rw [internalLast_of_lt hi]
    rfl
  | absent it =>
    rw [hres] at hlocate
    obtain ⟨htree, hposition, hleft, hright⟩ := hlocate
    obtain ⟨hplace, hsize⟩ := hm.place hk htree hposition
    obtain ⟨it', size', heq, hbefore, hafter, hi, hsound, hsize'⟩ := internalInsert_spec v hk hplace hsize
    have hlist : m.toList = it.before ++ it.after := by
      rw [← toList_getD, Iter.before_append_after, htree]
      rfl
    refine ⟨⟨0, it'⟩, true, size', it.before, v, it.after, ?_, hbefore, hafter, ?_, rfl, fun _ => rfl, hlist, hleft,
      fun x hx => not_le.mp (hright x hx), hsound, fun h => hsize' (Path.height_zip_pos.mp h)⟩
    · simp only
      rw [heq]
      rfl
    · obtain ⟨x, hx⟩ : ∃ x, it'.value = some x :=
        ⟨_, List.getElem?_eq_getElem (it'.node.length_values.symm ▸ hi)⟩
      obtain ⟨-, r, hr⟩ := Iter.after_of_value hx
      obtain ⟨rfl, -⟩ := List.cons.inj (hr.symm.trans hafter)
      exact hx

/-- A map around values that are cut at a key. -/
theorem valid_of_cut {t : Tree (K × D)} {size : ℕ} {l r : List (K × D)} {e : K × D} (hlist : t.toList = l ++ e :: r)
    (hsorted : Sorted (l ++ r)) (hl : ∀ x ∈ l, x.1 < e.1) (hr : ∀ x ∈ r, e.1 < x.1) (hsound : t.Sound kNodeValues)
    (hsize : 0 < t.height → size = t.toList.length) : Valid kNodeValues { tree := some t, rootSize := size } := by
  refine ⟨?_, ?_, ?_⟩
  · rintro _ ⟨⟩
    exact hsound
  · show Sorted t.toList
    rw [hlist]
    obtain ⟨hpl, hpr, hlr⟩ := List.pairwise_append.mp hsorted
    refine List.pairwise_append.mpr ⟨hpl, List.pairwise_cons.mpr ⟨hr, hpr⟩, fun a ha b hb => ?_⟩
    rcases List.mem_cons.mp hb with rfl | hb
    · exact hl a ha
    · exact hlr a ha b hb
  · rintro _ ⟨⟩
    exact hsize

namespace Inserted

variable {it : Iterator (K × D)} {fresh : Bool} {size : ℕ} {l r : List (K × D)} {e : K × D}

theorem sorted (hm : m.Valid kNodeValues) (h : Inserted kNodeValues m v it fresh size l e r) : Sorted (l ++ r) := by
  have hsorted := hm.sorted
  rw [h.list] at hsorted
  refine hsorted.sublist ((List.Sublist.refl l).append ?_)
  cases fresh with
  | true => exact List.Sublist.refl r
  | false => exact List.sublist_cons_self e r

/-- Beside the key the values are those there were. -/
theorem mem_iff (h : Inserted kNodeValues m v it fresh size l e r) {x : K × D} (hx : x.1 ≠ v.1) :
    x ∈ m.toList ↔ x ∈ l ++ r := by
  rw [h.list]
  cases fresh with
  | true => rfl
  | false =>
    have hxe : x ≠ e := fun hxe => hx (hxe ▸ h.key)
    simp [hxe]

end Inserted

/-! ### The operations -/

variable {o : OrdMap K D}

omit [LinearOrder K] in
/-- A value changed in place. -/
theorem setSecond_spec (kNodeValues : ℕ) {h : ℕ} {it : Iter (K × D) h} {e : K × D} {r : List (K × D)}
    (hvalue : it.value = some e)
    (hafter : it.after = e :: r) (d : D) :
    ∃ it', it.setSecond d = some it' ∧ it'.before = it.before ∧ it'.after = (e.1, d) :: r ∧
      it'.tree.height = it.tree.height ∧ (it.tree.Sound kNodeValues → it'.tree.Sound kNodeValues) := by
  obtain ⟨hi, -⟩ := Iter.after_of_value hvalue
  obtain ⟨hchildren, hcount, hupTo, x, rest, hx, hnode, hset⟩ := setValue_spec (below h) hi (e.1, d)
  obtain rfl : e = x := Option.some.inj (hvalue.symm.trans hx)
  rw [Iter.after, hnode] at hafter
  obtain rfl := (List.cons.inj hafter).2
  refine ⟨{ it with node := it.node.setValue it.position (e.1, d) }, ?_, ?_, ?_, Path.height_zip_congr _ _ _,
    fun ht => sound_zip_congr (n := it.node) rfl hcount hchildren ht⟩
  · rw [Iter.setSecond, hvalue]
  · exact congrArg (it.path.before ++ ·) hupTo
  · show Node.after _ _ _ ++ _ = _
    rw [hset]
    rfl

theorem assign_spec [Inhabited D] (hm : m.Valid kNodeValues) (hk : 3 ≤ kNodeValues) (ho : m.toList = o.toList) (k : K)
    (d : D) : ∃ m', m.assign kNodeValues k d = some m' ∧ m'.Valid kNodeValues ∧ m'.toList = (o.insert k d).toList := by
  obtain ⟨it, fresh, size, l, e, r, heq, hins⟩ := insertUnique_spec hm hk (k, default)
  obtain ⟨it', hset, hbefore, hafter, hheight, hsound⟩ := setSecond_spec kNodeValues hins.value hins.after d
  rw [hins.before] at hbefore
  rw [hins.key] at hafter
  have hlist : it'.tree.toList = l ++ (k, d) :: r := by
    rw [← Iter.before_append_after, hbefore, hafter]
  refine ⟨_, by rw [assign, heq]; simp only; rw [hset]; rfl, ?_, ?_⟩
  · refine valid_of_cut hlist (hins.sorted hm) hins.left hins.right (hsound hins.sound) fun hpos => ?_
    rw [hheight] at hpos
    rw [hins.size hpos, hlist, ← Iter.before_append_after, hins.before, hins.after]
    simp
  · rw [OrdMap.toList_insert d (fun x hx => ho ▸ hins.mem_iff hx) (hins.sorted hm) hins.left hins.right]
    exact hlist

theorem insert_spec (hm : m.Valid kNodeValues) (hk : 3 ≤ kNodeValues) (ho : m.toList = o.toList) (v : K × D) :
    ∃ m', m.insert kNodeValues v = some m' ∧ m'.Valid kNodeValues ∧ m'.toList = (o.insertIfNew v.1 v.2).toList := by
  obtain ⟨it, fresh, size, l, e, r, heq, hins⟩ := insertUnique_spec hm hk v
  have hlist : it.2.tree.toList = l ++ e :: r := by
    rw [← Iter.before_append_after, hins.before, hins.after]
  refine ⟨_, by rw [insert, heq]; rfl, ?_, ?_⟩
  · exact valid_of_cut hlist (hins.sorted hm) (hins.key ▸ hins.left) (hins.key ▸ hins.right) hins.sound hins.size
  · show it.2.tree.toList = _
    rw [hlist]
    cases fresh with
    | true =>
      obtain rfl := hins.new rfl
      have hnone : o[e.1]? = none := by
        rw [OrdMap.get_eq_none_iff, ← ho, hins.list]
        intro x hx
        rcases List.mem_append.mp hx with hx | hx
        · exact (hins.left x hx).ne
        · exact (hins.right x hx).ne'
      rw [OrdMap.insertIfNew_of_none hnone]
      exact (OrdMap.toList_insert _ (fun x hx => ho ▸ hins.mem_iff hx) (hins.sorted hm) hins.left hins.right).symm
    | false =>
      have hmem : (v.1, e.2) ∈ o.toList := by
        rw [← ho, hins.list, ← hins.key]
        simp
      rw [OrdMap.insertIfNew_of_some (OrdMap.mem_toList.mp hmem), ← ho, hins.list]
      rfl

/-- A lookup finds what the map has under the key, with an iterator to it. -/
theorem find_spec (hm : m.Valid kNodeValues) (ho : m.toList = o.toList) (k : K) :
    (m.find k = none ∧ o[k]? = none) ∨
      ∃ t it d r, m.tree = some t ∧ m.find k = some it ∧ it.2.value = some (k, d) ∧ o[k]? = some d ∧
        Stands t it.2.before (some it) ∧ t.toList = it.2.before ++ (k, d) :: r := by
  unfold find
  cases hroot : m.tree with
  | none =>
    rw [toList, hroot] at ho
    refine .inl ⟨rfl, OrdMap.get_eq_none_iff.mpr ?_⟩
    rw [← ho]
    exact fun e he => absurd he List.not_mem_nil
  | some t =>
    rw [toList, hroot] at ho
    have ho : t.toList = o.toList := ho
    have hsorted := hm.sorted
    rw [toList, hroot] at hsorted
    have hlocate := internalLocate_correct (k := k) (p := .root) (n := t.root) hsorted
      (fun e he => absurd he List.not_mem_nil) fun e he => absurd he List.not_mem_nil
    show (internalFindUnique k t = none ∧ _) ∨ ∃ t' it d r, _ ∧ internalFindUnique k t = some it ∧ _
    unfold internalFindUnique
    cases hres : internalLocate k .root t.root with
    | exact it =>
      rw [hres] at hlocate
      obtain ⟨htree, d, hvalue⟩ := hlocate
      obtain ⟨hi, r, hafter⟩ := Iter.after_of_value hvalue
      have hlist : t.toList = it.2.before ++ (k, d) :: r := by
        rw [← hafter, Iter.before_append_after, htree]
        rfl
      have hmem : (k, d) ∈ o.toList := by
        rw [← ho, hlist]
        simp
      exact .inr ⟨t, it, d, r, rfl, rfl, hvalue, OrdMap.mem_toList.mp hmem, ⟨htree, rfl, hi⟩, hlist⟩
    | absent it =>
      rw [hres] at hlocate
      obtain ⟨htree, -, hleft, hright⟩ := hlocate
      refine .inl ⟨rfl, OrdMap.get_eq_none_iff.mpr fun e he => ?_⟩
      rw [← ho, show t.toList = it.before ++ it.after by rw [Iter.before_append_after, htree]; rfl] at he
      rcases List.mem_append.mp he with he | he
      · exact (hleft e he).ne
      · exact (not_le.mp (hright e he)).ne'

omit [LinearOrder K] in
/-- An iterator after the values that satisfy `P` is at the first one that does not. -/
theorem value_of_stands {P : K × D → Prop} [DecidablePred P] {t : Tree (K × D)} {l r : List (K × D)}
    {it : Option (Iterator (K × D))} (hlist : t.toList = l ++ r) (hl : ∀ e ∈ l, P e) (hr : ∀ e ∈ r, ¬ P e)
    (hit : Stands t l it) : it.map (fun it => it.2.value) = (t.toList.find? fun e => decide (¬ P e)).map some := by
  have hfind : t.toList.find? (fun e => decide (¬ P e)) = r.head? := by
    rw [hlist, List.find?_append, List.find?_eq_none.mpr (by simpa using hl), Option.none_or]
    cases r with
    | nil => rfl
    | cons e r => rw [List.find?_cons_of_pos (by simpa using hr e List.mem_cons_self)]; rfl
  rw [hfind]
  cases it with
  | none =>
    obtain rfl : r = [] := by
      have htlist : t.toList = l := hit
      rw [htlist] at hlist
      exact List.self_eq_append_right.mp hlist
    rfl
  | some it =>
    obtain ⟨htree, hbefore, hi⟩ := hit
    obtain ⟨e, he⟩ : ∃ e, it.2.value = some e :=
      ⟨_, List.getElem?_eq_getElem (it.2.node.length_values.symm ▸ hi)⟩
    obtain ⟨-, r', hafter⟩ := Iter.after_of_value he
    have hr' : r = e :: r' := by
      rw [← htree, ← Iter.before_append_after, hbefore, hafter] at hlist
      exact (List.append_cancel_left hlist).symm
    rw [hr']
    exact congrArg some he

/-- `upper_bound` is at the first entry above the key. -/
theorem upperBound_value (hm : m.Valid kNodeValues) (ho : m.toList = o.toList) (k : K) :
    (m.upperBound k).map (fun it => it.2.value) = (o.upperBound k).map some := by
  have hsorted := hm.sorted
  rw [upperBound, OrdMap.upperBound, ← ho]
  unfold toList at *
  revert hsorted
  cases m.tree with
  | none => exact fun _ => rfl
  | some t =>
    intro hsorted
    obtain ⟨l, r, hlist, hl, hr, hit⟩ := internalUpperBound_stands k hsorted
    simp only [← not_le]
    exact value_of_stands hlist hl hr hit

/-- `lower_bound` is at the first entry not below the key. -/
theorem lowerBound_value (hm : m.Valid kNodeValues) (ho : m.toList = o.toList) (k : K) :
    (m.lowerBound k).map (fun it => it.2.value) = (o.toList.find? fun e => decide (k ≤ e.1)).map some := by
  have hsorted := hm.sorted
  rw [lowerBound, ← ho]
  unfold toList at *
  revert hsorted
  cases m.tree with
  | none => exact fun _ => rfl
  | some t =>
    intro hsorted
    obtain ⟨l, r, hlist, hl, hr, hit⟩ := internalLowerBound_stands k hsorted
    simp only [← not_lt]
    exact value_of_stands hlist hl hr hit

/-- What is left of a tree that is one leaf is one leaf. -/
theorem height_of_erase_root {kMinNodeValues : ℕ} {it : Iter (K × D) 0} {t : Option (Tree (K × D))}
    (hroot : it.path.isRoot = true) (heq : erase kMinNodeValues it = some t) : ∀ t' ∈ t, t'.height = 0 := by
  obtain ⟨node, path, i⟩ := it
  cases path with
  | child fr up => cases hroot
  | root =>
    rw [erase, eraseUp, tryShrink] at heq
    obtain rfl := Option.some.inj heq
    intro t' ht'
    split_ifs at ht' with hpos
    · obtain rfl := Option.some.inj ht'
      rfl
    · cases ht'

theorem eraseUnique_spec (hm : m.Valid kNodeValues) (hk : 3 ≤ kNodeValues) (ho : m.toList = o.toList) (k : K) :
    ∃ m', m.eraseUnique kNodeValues k = some (if k ∈ o then 1 else 0, m') ∧ m'.Valid kNodeValues ∧
      m'.toList = (o.erase k).toList := by
  unfold eraseUnique
  rcases find_spec hm ho k with ⟨hfind, hnone⟩ | ⟨t, it, d, r, hroot, hfind, hvalue, hsome, hit, hlist⟩
  · have hmem : k ∉ o := by
      rw [Std.ExtTreeMap.mem_iff_isSome_getElem?, hnone]
      exact Bool.false_ne_true
    rw [hfind, if_neg hmem]
    refine ⟨m, rfl, hm, ?_⟩
    rw [ho, show o.erase k = o from Std.ExtTreeMap.ext_getElem? fun x => ?_]
    rw [OrdMap.get_erase]
    split_ifs with hx
    · rw [← hx, hnone]
    · rfl
  · have hmem : k ∈ o := by
      rw [Std.ExtTreeMap.mem_iff_isSome_getElem?, hsome]
      rfl
    have htlist : m.toList = it.2.before ++ (k, d) :: r := by
      rw [toList, hroot]
      exact hlist
    have hsorted := hm.sorted
    rw [toList, hroot] at hsorted
    obtain ⟨t', heq, hlist', hsound⟩ := erase_spec (show 0 < kNodeValues / 2 by omega)
      (show kNodeValues / 2 < kNodeValues by omega) (hm.sound t hroot) hsorted hit hlist
    rw [hfind, if_pos hmem]
    refine ⟨_, by simp only; rw [heq]; rfl, ⟨hsound, ?_, ?_⟩, ?_⟩
    · show Sorted (toListOf t')
      rw [hlist']
      have hsorted := hm.sorted
      rw [htlist] at hsorted
      exact hsorted.sublist ((List.Sublist.refl _).append (List.sublist_cons_self _ _))
    · intro t'' ht'' hpos
      obtain ⟨h, it⟩ := it
      simp only
      split_ifs with hleaf
      · obtain ⟨rfl, hpath⟩ := hleaf
        exact absurd (height_of_erase_root hpath heq t'' ht'') hpos.ne'
      · have hheight : 0 < t.height := by
          rw [← hit.1]
          cases h with
          | zero => exact Path.height_zip_pos.mpr (Bool.eq_false_iff.mpr fun h => hleaf ⟨rfl, h⟩)
          | succ h => exact (Nat.succ_pos h).trans_le (it.path.height_zip it.node)
        have ht'' : t' = some t'' := ht''
        rw [ht''] at hlist'
        have hlen : t''.toList.length = (it.before ++ r).length := congrArg List.length hlist'
        rw [hm.size t hroot hheight, hlist, hlen, List.length_append, List.length_append, List.length_cons]
        rfl
    · show toListOf t' = _
      rw [hlist', OrdMap.toList_erase (e := (k, d)) (ho ▸ htlist)]

/-- `size` counts the values. -/
theorem size_eq (hm : m.Valid kNodeValues) : m.size = m.toList.length := by
  obtain ⟨tree, rootSize⟩ := m
  cases tree with
  | none => rfl
  | some t =>
    obtain ⟨h, root⟩ := t
    cases h with
    | zero =>
      show root.count = (Node.toList (h := 0) root).length
      rw [leaf_toList, root.length_values]
    | succ h => exact hm.size _ rfl (Nat.succ_pos h)

/-! ### Runs -/

/-- An update of a map. -/
inductive Update (K D : Type)
  | insert (v : K × D)
  | assign (k : K) (d : D)
  | erase (k : K)
  | clear

def update [Inhabited D] (kNodeValues : ℕ) (m : BtreeMap K D) : Update K D → Option (BtreeMap K D)
  | .insert v => m.insert kNodeValues v
  | .assign k d => m.assign kNodeValues k d
  | .erase k => (m.eraseUnique kNodeValues k).map Prod.snd
  | .clear => some m.clear

/-- What the update means: the same on an ordered map. -/
def Update.apply (o : OrdMap K D) : Update K D → OrdMap K D
  | .insert v => o.insertIfNew v.1 v.2
  | .assign k d => o.insert k d
  | .erase k => o.erase k
  | .clear => ∅

theorem valid_empty : Valid kNodeValues ({} : BtreeMap K D) :=
  ⟨fun _ h => absurd h (by simp), List.Pairwise.nil, fun _ h => absurd h (by simp)⟩

theorem update_spec [Inhabited D] (hk : 3 ≤ kNodeValues) (hm : m.Valid kNodeValues) (ho : m.toList = o.toList)
    (u : Update K D) :
    ∃ m', m.update kNodeValues u = some m' ∧ m'.Valid kNodeValues ∧ m'.toList = (u.apply o).toList := by
  cases u with
  | insert v => exact insert_spec hm hk ho v
  | assign k d => exact assign_spec hm hk ho k d
  | erase k =>
    obtain ⟨m', heq, hm', ho'⟩ := eraseUnique_spec hm hk ho k
    exact ⟨m', by rw [update, heq]; rfl, hm', ho'⟩
  | clear => exact ⟨_, rfl, ⟨fun _ h => absurd h (by simp [clear]), List.Pairwise.nil,
      fun _ h => absurd h (by simp [clear])⟩, rfl⟩

/-- No assertion fails in any run of updates, and the map that results has the entries of the
ordered map after the same updates. -/
theorem run_update [Inhabited D] (hk : 3 ≤ kNodeValues) (us : List (Update K D)) :
    ∃ m, run (update kNodeValues) ({} : BtreeMap K D) us = some m ∧ m.Valid kNodeValues ∧
      m.toList = (us.foldl Update.apply ∅).toList := by
  induction us using List.reverseRecOn with
  | nil => exact ⟨_, rfl, valid_empty, rfl⟩
  | append_singleton us u ih =>
    obtain ⟨m, hrun, hm, ho⟩ := ih
    obtain ⟨m', heq, hm', ho'⟩ := update_spec hk hm ho u
    refine ⟨m', run_snoc_eq_some.mpr ⟨m, hrun, heq⟩, hm', ?_⟩
    rw [List.foldl_append]
    exact ho'

theorem find_value (hm : m.Valid kNodeValues) (ho : m.toList = o.toList) (k : K) :
    (m.find k).map (fun it => it.2.value) = o[k]?.map fun d => some (k, d) := by
  rcases find_spec hm ho k with ⟨hfind, hnone⟩ | ⟨t, it, d, r, -, hfind, hvalue, hsome, -⟩
  · rw [hfind, hnone]
    rfl
  · rw [hfind, hsome]
    exact congrArg some hvalue

/-- In every run of updates the lookups, the size and the result of erasing a key are those of the
ordered map after the same updates. -/
theorem run_lookups [Inhabited D] (hk : 3 ≤ kNodeValues) (us : List (Update K D)) :
    ∃ m, run (update kNodeValues) ({} : BtreeMap K D) us = some m ∧ m.size = (us.foldl Update.apply ∅).size ∧
      ∀ k, (m.find k).map (fun it => it.2.value) = (us.foldl Update.apply ∅)[k]?.map (fun d => some (k, d)) ∧
        (m.upperBound k).map (fun it => it.2.value) = ((us.foldl Update.apply ∅).upperBound k).map some ∧
        (m.lowerBound k).map (fun it => it.2.value) =
          ((us.foldl Update.apply ∅).toList.find? fun e => decide (k ≤ e.1)).map some ∧
        (m.eraseUnique kNodeValues k).map Prod.fst = some (if k ∈ us.foldl Update.apply ∅ then 1 else 0) := by
  obtain ⟨m, hrun, hm, ho⟩ := run_update hk us
  refine ⟨m, hrun, ?_, fun k => ⟨find_value hm ho k, upperBound_value hm ho k, lowerBound_value hm ho k, ?_⟩⟩
  · rw [size_eq hm, ho, Std.ExtTreeMap.length_toList]
  · obtain ⟨m', heq, -⟩ := eraseUnique_spec hm hk ho k
    rw [heq]
    rfl

theorem run_lookups_of_five : 3 ≤ 3 ∧ ∃ m, run (update 3) ({} : BtreeMap ℕ ℕ)
      [.assign 5 0, .assign 3 1, .insert (4, 2), .assign 1 3, .assign 4 4, .erase 3] = some m ∧
    m.size = ([.assign 5 0, .assign 3 1, .insert (4, 2), .assign 1 3, .assign 4 4, .erase 3].foldl
      Update.apply (∅ : OrdMap ℕ ℕ)).size := by
  obtain ⟨m, hrun, hsize, -⟩ := run_lookups (K := ℕ) (D := ℕ) (by decide : 3 ≤ 3)
    [.assign 5 0, .assign 3 1, .insert (4, 2), .assign 1 3, .assign 4 4, .erase 3]
  exact ⟨by decide, m, hrun, hsize⟩

theorem walk_none {V : Type} (fuel : ℕ) : walk fuel (none : Option (Iterator V)) = [] := by
  cases fuel <;> rfl

/-- In `size()` rounds the loop has reached `end()`, and more rounds add nothing. -/
theorem walk_begin (hm : m.Valid kNodeValues) {fuel : ℕ} (hfuel : m.size ≤ fuel) : walk fuel m.begin = m.toList := by
  have hsize := size_eq hm
  unfold begin
  cases hroot : m.tree with
  | none =>
    rw [toList, hroot]
    exact walk_none _
  | some t =>
    rw [toList, hroot] at hsize ⊢
    exact walk_eq fuel (hm.sound t hroot) (Tree.begin_stands (hm.sound t hroot)) (hsize ▸ Nat.le_add_left_of_le hfuel)

theorem walk_lowerBound (hm : m.Valid kNodeValues) {fuel : ℕ} (hfuel : m.size ≤ fuel) (k : K) :
    walk fuel (m.lowerBound k) = m.toList.filter fun e => decide (k ≤ e.1) := by
  have hsize := size_eq hm
  have hsorted := hm.sorted
  unfold lowerBound
  cases hroot : m.tree with
  | none =>
    rw [toList, hroot]
    exact walk_none _
  | some t =>
    rw [toList, hroot] at hsize hsorted ⊢
    obtain ⟨l, r, hlist, hl, hr, hit⟩ := internalLowerBound_stands k hsorted
    have hwalk := walk_eq fuel (hm.sound t hroot) hit (hsize ▸ Nat.le_add_left_of_le hfuel)
    have hleft : l.filter (fun e => decide (k ≤ e.1)) = [] :=
      List.filter_eq_nil_iff.mpr fun e he h => (of_decide_eq_true h).not_gt (hl e he)
    have hright : r.filter (fun e => decide (k ≤ e.1)) = r :=
      List.filter_eq_self.mpr fun e he => decide_eq_true (not_lt.mp (hr e he))
    show walk fuel (internalLowerBound k t) = t.toList.filter _
    rw [hlist] at hwalk ⊢
    rw [List.filter_append, hleft, hright, List.nil_append]
    exact List.append_cancel_left hwalk

end BtreeMap

end TikvCpp.Btree
