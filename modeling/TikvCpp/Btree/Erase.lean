import TikvCpp.Btree.Insert
import TikvCpp.Btree.Search

/-! Erasing from a tree: the value is taken out of a leaf, and from there up a node with too few
values is merged with a sibling or takes values from one. -/

namespace TikvCpp.Btree

variable {V : Type}

section

variable {h : ℕ} (kMinNodeValues : ℕ) (fr : Frame V (Sub V (h + 1))) (node : Node V (Sub V h)) (position : ℕ)
  (otherwise : Option (Bool × Node V (Sub V (h + 1)) × ℕ))

/-- `try_merge_or_rebalance`: merging with the left sibling. It returns whether nodes were merged,
the parent, and the position of the iterator; here and below `otherwise` is what follows. -/
def mergeLeft : Option (Bool × Node V (Sub V (h + 1)) × ℕ) :=
  match fr.left with
  | (left, d) :: rest =>
    if 1 + Node.count left + node.count ≤ Node.maxCount left then
      some (true, Frame.plug { fr with left := rest } (Node.merge left d node), position + (1 + Node.count left))
    else otherwise
  | [] => otherwise

/-- Merging with the right sibling, or taking values from it. -/
def mergeOrRebalanceRight : Option (Bool × Node V (Sub V (h + 1)) × ℕ) :=
  match fr.right with
  | (d, right) :: rest =>
    if 1 + node.count + Node.count right ≤ Node.maxCount right then
      some (true, Frame.plug { fr with right := rest } (node.merge d right), position)
    else if kMinNodeValues < Node.count right ∧ (node.count = 0 ∨ 0 < position) then
      let move := min ((Node.count right - node.count) / 2) (Node.count right - 1)
      match node.rebalanceRightToLeft d right move with
      | some (node, d, right) => some (false, Frame.plug { fr with right := (d, right) :: rest } node, position)
      | none => none
    else otherwise
  | [] => otherwise

/-- Taking values from the left sibling. -/
def rebalanceFromLeft : Option (Bool × Node V (Sub V (h + 1)) × ℕ) :=
  match fr.left with
  | (left, d) :: rest =>
    if kMinNodeValues < Node.count left ∧ (node.count = 0 ∨ position < node.count) then
      let move := min ((Node.count left - node.count) / 2) (Node.count left - 1)
      match Node.rebalanceLeftToRight left d node move with
      | some (left, d, node) => some (false, Frame.plug { fr with left := (left, d) :: rest } node, position + move)
      | none => none
    else otherwise
  | [] => otherwise

/-- `try_merge_or_rebalance`; nothing where an assertion fails. -/
def tryMergeOrRebalance : Option (Bool × Node V (Sub V (h + 1)) × ℕ) :=
  mergeLeft fr node position <| mergeOrRebalanceRight kMinNodeValues fr node position <|
    rebalanceFromLeft kMinNodeValues fr node position <| some (false, fr.plug node, position)

end

/-- `try_shrink`. -/
def tryShrink : (t : Tree V) → Option (Tree V)
  | ⟨0, root⟩ => if 0 < root.count then some ⟨0, root⟩ else none
  | ⟨h + 1, root⟩ => if 0 < root.count then some ⟨h + 1, root⟩ else some ⟨h, root.first⟩

/-- The loop of `erase` up from a node. The position is the one in the leaf, moved by what
was merged below; it is not set anew for the parent. -/
def eraseUp (kMinNodeValues : ℕ) : {h : ℕ} → Path V h → Node V (Sub V h) → ℕ → Option (Option (Tree V))
  | h, .root, node, _ => some (tryShrink ⟨h, node⟩)
  | _, .child fr up, node, position =>
    if kMinNodeValues ≤ node.count then some (some (up.zip (fr.plug node)))
    else
      match tryMergeOrRebalance kMinNodeValues fr node position with
      | some (true, parent, position) => eraseUp kMinNodeValues up parent position
      | some (false, parent, _) => some (some (up.zip parent))
      | none => none

/-- `erase` of the value an iterator points at: what is left of the tree, if anything is. In an
internal node the value is first swapped with the one before it, the last of a leaf. -/
def erase {K D : Type} [LinearOrder K] (kMinNodeValues : ℕ) :
    {h : ℕ} → Iter (K × D) h → Option (Option (Tree (K × D)))
  | 0, it => eraseUp kMinNodeValues it.path (it.node.removeValue it.position) it.position
  | _ + 1, it =>
    let child := it.path.down it.node it.position
    let leaf := (rightmostLeaf child.2 child.1).1
    match it.node.values[it.position]?, leaf.values[leaf.count - 1]? with
    | some erased, some last =>
      if erased.1 < last.1 then none
      else
        let child := it.path.down (it.node.setValue it.position last) it.position
        let leaf := rightmostLeaf child.2 child.1
        let position := leaf.1.count - 1
        eraseUp kMinNodeValues leaf.2 ((leaf.1.setValue position erased).removeValue position) position
    | _, _ => none

/-! ### Repairing a node -/

/-- What a node may be after one of its values was taken out. -/
structure Loose (kNodeValues : ℕ) {h : ℕ} (n : Node V (Sub V h)) : Prop where
  maxCount : n.maxCount = kNodeValues
  count : n.count ≤ kNodeValues
  children : ∀ c ∈ n.children, Sound kNodeValues h c

section

variable {kNodeValues kMinNodeValues h : ℕ} {n l r node : Node V (Sub V h)} {d : V}
  {fr : Frame V (Sub V (h + 1))} {up : Path V (h + 1)} {position : ℕ}

theorem Loose.sound (hn : Loose kNodeValues n) (hpos : 0 < n.count) : Sound kNodeValues (h + 1) n :=
  ⟨hn.maxCount, hpos, hn.count, hn.children⟩

theorem loose_of_sound (hn : Sound kNodeValues (h + 1) n) : Loose kNodeValues n := ⟨hn.1, hn.2.2.1, hn.2.2.2⟩

theorem toList_plug (fr : Frame V (Sub V (h + 1))) (n : Node V (Sub V h)) :
    (fr.plug n).toList = fr.before (below (h + 1)) ++ n.toList ++ fr.after (below (h + 1)) := fr.contents_plug n _

theorem toList_plug_left (fr : Frame V (Sub V (h + 1))) (hn : Node.Parts n l d r) :
    Node.toList (h := h + 1) (Frame.plug { fr with left := (l, d) :: fr.left } r) = (fr.plug n).toList := by
  rw [toList_plug, toList_plug, Node.toList, Node.toList, hn.contents, Frame.before, Frame.before, Frame.beforeIn]
  simp only [List.append_assoc]
  rfl

theorem toList_plug_right (fr : Frame V (Sub V (h + 1))) (hn : Node.Parts n l d r) :
    Node.toList (h := h + 1) (Frame.plug { fr with right := (d, r) :: fr.right } l) = (fr.plug n).toList := by
  rw [toList_plug, toList_plug, Node.toList, Node.toList, hn.contents, Frame.after, Frame.after, List.flatMap_cons]
  simp only [List.append_assoc]
  rfl

/-- A sound node in a sound parent. -/
theorem loose_plug {fr : Frame V (Sub V (h + 1))} (hpath : (Path.child fr up).Sound kNodeValues)
    (hn : Sound kNodeValues (h + 1) n) : Loose kNodeValues (h := h + 1) (fr.plug n) ∧ 0 < (fr.plug n).count := by
  obtain ⟨hmax, hpos, hcount, hsiblings, -⟩ := hpath
  refine ⟨⟨hmax, ?_, (fr.forall_children_plug n).mpr ⟨hn, hsiblings⟩⟩, ?_⟩
  · rw [fr.count_plug]
    exact hcount
  · rw [fr.count_plug]
    exact hpos

/-- A sound node in a parent that lost an entry. -/
theorem Fits.loose_plug (hfits : Fits kNodeValues fr up) (hn : Sound kNodeValues (h + 1) n) :
    Loose kNodeValues (h := h + 1) (fr.plug n) := by
  refine ⟨hfits.maxCount, ?_, (fr.forall_children_plug n).mpr ⟨hn, hfits.siblings⟩⟩
  rw [fr.count_plug]
  exact hfits.count.le

/-- Two siblings put together, or with the value between them moved. -/
theorem Loose.of_parts {m : Node V (Sub V h)} (hm : ∀ c ∈ m.children, Sound kNodeValues h c) (hn : Node.Parts m l d r)
    (hl : l.maxCount = kNodeValues) (hr : r.maxCount = kNodeValues) (hlcount : l.count ≤ kNodeValues)
    (hrcount : r.count ≤ kNodeValues) : Loose kNodeValues l ∧ Loose kNodeValues r :=
  ⟨⟨hl, hlcount, ((parts_children hn).mp hm).1⟩, ⟨hr, hrcount, ((parts_children hn).mp hm).2⟩⟩

/-- The outcome of `try_merge_or_rebalance` is a parent of the same values; only a merge can
leave it empty. -/
def Repairs (kNodeValues : ℕ) (fr : Frame V (Sub V (h + 1))) (node : Node V (Sub V h))
    (r : Option (Bool × Node V (Sub V (h + 1)) × ℕ)) : Prop :=
  ∃ merged parent position, r = some (merged, parent, position) ∧
    Node.toList (h := h + 1) parent = (fr.plug node).toList ∧ Loose kNodeValues (h := h + 1) parent ∧
    (merged = false → 0 < parent.count)

theorem mergeLeft_repairs {otherwise : Option (Bool × Node V (Sub V (h + 1)) × ℕ)}
    (hpath : (Path.child fr up).Sound kNodeValues) (hnode : Loose kNodeValues node)
    (hotherwise : (∀ e rest, fr.left = e :: rest → kNodeValues < 1 + Node.count e.1 + node.count) →
      Repairs kNodeValues fr node otherwise) :
    Repairs kNodeValues fr node (mergeLeft fr node position otherwise) := by
  unfold mergeLeft
  cases hleft : fr.left with
  | nil => exact hotherwise fun e rest he => absurd (hleft.symm.trans he) (List.cons_ne_nil e rest).symm
  | cons e rest =>
    obtain ⟨left, d⟩ := e
    obtain ⟨hfits, hl⟩ := Fits.of_left hleft hpath
    have hl := loose_of_sound hl
    have hcount := (Node.parts_merge left d node).count
    simp only
    split_ifs with hmerge
    · rw [hl.maxCount] at hmerge
      have hkids := (parts_children (Node.parts_merge left d node)).mpr ⟨hl.children, hnode.children⟩
      have hsame := (toList_plug_left { fr with left := rest } (Node.parts_merge left d node)).symm
      simp only [← hleft] at hsame
      exact ⟨_, _, _, rfl, hsame, hfits.loose_plug ⟨hl.maxCount, by omega, by omega, hkids⟩,
        fun h => absurd h (by decide)⟩
    · rw [hl.maxCount] at hmerge
      refine hotherwise fun e rest' he => ?_
      obtain ⟨rfl, rfl⟩ := List.cons.inj (hleft.symm.trans he)
      exact Nat.lt_of_not_le hmerge

/-- Where the right sibling neither takes nor gives values, there is none or the node has some. -/
theorem mergeOrRebalanceRight_repairs {otherwise : Option (Bool × Node V (Sub V (h + 1)) × ℕ)}
    (hmin : 0 < kMinNodeValues) (hk : kMinNodeValues < kNodeValues) (hpath : (Path.child fr up).Sound kNodeValues)
    (hnode : Loose kNodeValues node) (hfew : node.count < kMinNodeValues)
    (hotherwise : fr.right = [] ∨ 0 < node.count → Repairs kNodeValues fr node otherwise) :
    Repairs kNodeValues fr node (mergeOrRebalanceRight kMinNodeValues fr node position otherwise) := by
  unfold mergeOrRebalanceRight
  cases hright : fr.right with
  | nil => exact hotherwise (.inl hright)
  | cons e rest =>
    obtain ⟨d, right⟩ := e
    obtain ⟨hfits, hr⟩ := Fits.of_right hright hpath
    have hrpos : 0 < Node.count right := hr.2.1
    have hr := loose_of_sound hr
    have hrcount : Node.count right ≤ kNodeValues := hr.count
    have hcount := (Node.parts_merge node d right).count
    have hkids := (parts_children (Node.parts_merge node d right)).mpr ⟨hnode.children, hr.children⟩
    have hsame := (toList_plug_right { fr with right := rest } (Node.parts_merge node d right)).symm
    simp only [← hright] at hsame
    simp only
    rw [hr.maxCount]
    by_cases hmerge : 1 + node.count + Node.count right ≤ kNodeValues
    · rw [if_pos hmerge]
      exact ⟨_, _, _, rfl, hsame, hfits.loose_plug ⟨hnode.maxCount, by omega, by omega, hkids⟩,
        fun h => absurd h (by decide)⟩
    · rw [if_neg hmerge]
      by_cases htry : kMinNodeValues < Node.count right ∧ (node.count = 0 ∨ 0 < position)
      · have hroom := htry.1
        rw [if_pos htry]
        obtain ⟨move, hmove⟩ : ∃ move, move = min ((Node.count right - node.count) / 2) (Node.count right - 1) :=
          ⟨_, rfl⟩
        rw [← hmove]
        obtain ⟨l, d', r, heq, hparts, hlcount, hlmax, hrmax⟩ := Node.rebalanceRightToLeft_parts node d
          right move (by omega) (by omega) (by omega)
        have hparts' := hparts.count
        obtain ⟨hl', hr'⟩ := Loose.of_parts hkids hparts (hlmax.trans hnode.maxCount) (hrmax.trans hr.maxCount)
          (by omega) (by omega)
        obtain ⟨hloose, hpos⟩ := loose_plug (hfits.add_right (d := d') (hr'.sound (by omega))) (hl'.sound (by omega))
        rw [heq]
        exact ⟨_, _, _, rfl, (toList_plug_right { fr with right := rest } hparts).trans hsame, hloose, fun _ => hpos⟩
      · rw [if_neg htry]
        exact hotherwise (.inr (by omega))

/-- The same for the left sibling, when it cannot be merged with the node. -/
theorem rebalanceFromLeft_repairs {otherwise : Option (Bool × Node V (Sub V (h + 1)) × ℕ)}
    (hmin : 0 < kMinNodeValues) (hk : kMinNodeValues < kNodeValues) (hpath : (Path.child fr up).Sound kNodeValues)
    (hnode : Loose kNodeValues node) (hfew : node.count < kMinNodeValues)
    (hnot : ∀ e rest, fr.left = e :: rest → kNodeValues < 1 + Node.count e.1 + node.count)
    (hotherwise : fr.left = [] ∨ 0 < node.count → Repairs kNodeValues fr node otherwise) :
    Repairs kNodeValues fr node (rebalanceFromLeft kMinNodeValues fr node position otherwise) := by
  unfold rebalanceFromLeft
  cases hleft : fr.left with
  | nil => exact hotherwise (.inl hleft)
  | cons e rest =>
    obtain ⟨left, d⟩ := e
    have hnot : kNodeValues < 1 + Node.count left + node.count := hnot _ _ hleft
    obtain ⟨hfits, hl⟩ := Fits.of_left hleft hpath
    have hlpos : 0 < Node.count left := hl.2.1
    have hl := loose_of_sound hl
    have hlcount : Node.count left ≤ kNodeValues := hl.count
    have hcount := (Node.parts_merge left d node).count
    have hkids := (parts_children (Node.parts_merge left d node)).mpr ⟨hl.children, hnode.children⟩
    have hsame := (toList_plug_left { fr with left := rest } (Node.parts_merge left d node)).symm
    simp only [← hleft] at hsame
    simp only
    by_cases htry : kMinNodeValues < Node.count left ∧ (node.count = 0 ∨ position < node.count)
    · have hroom := htry.1
      rw [if_pos htry]
      obtain ⟨move, hmove⟩ : ∃ move, move = min ((Node.count left - node.count) / 2) (Node.count left - 1) :=
        ⟨_, rfl⟩
      rw [← hmove]
      obtain ⟨l, d', r, heq, hparts, hlcount', hlmax, hrmax⟩ := Node.rebalanceLeftToRight_parts left d
        node move (by omega) (by omega) (by omega)
      have hparts' := hparts.count
      obtain ⟨hl', hr'⟩ := Loose.of_parts hkids hparts (hlmax.trans hl.maxCount) (hrmax.trans hnode.maxCount)
        (by omega) (by omega)
      obtain ⟨hloose, hpos⟩ := loose_plug (hfits.add_left (d := d') (hl'.sound (by omega))) (hr'.sound (by omega))
      rw [heq]
      exact ⟨_, _, _, rfl, (toList_plug_left { fr with left := rest } hparts).trans hsame, hloose, fun _ => hpos⟩
    · rw [if_neg htry]
      exact hotherwise (.inr (by omega))

/-- A node with too few values always finds values, or a sibling to be merged with. -/
theorem tryMergeOrRebalance_repairs (position : ℕ) (hmin : 0 < kMinNodeValues) (hk : kMinNodeValues < kNodeValues)
    (hpath : (Path.child fr up).Sound kNodeValues) (hnode : Loose kNodeValues node) (hfew : node.count < kMinNodeValues) :
    Repairs kNodeValues fr node (tryMergeOrRebalance kMinNodeValues fr node position) := by
  apply mergeLeft_repairs hpath hnode
  intro hnot
  apply mergeOrRebalanceRight_repairs hmin hk hpath hnode hfew
  intro hright
  apply rebalanceFromLeft_repairs hmin hk hpath hnode hfew hnot
  intro hleft
  have hpos : 0 < node.count := by
    have hsome : 0 < fr.count := hpath.2.1
    rcases hleft with hleft | hpos
    · rcases hright with hright | hpos
      · rw [Frame.count, hleft, hright] at hsome
        exact absurd hsome (Nat.lt_irrefl 0)
      · exact hpos
    · exact hpos
  obtain ⟨hloose, hparent⟩ := loose_plug hpath (hnode.sound hpos)
  exact ⟨_, _, _, rfl, rfl, hloose, fun _ => hparent⟩

end

/-! ### Up to the root -/

/-- The values of a tree, if there is one. -/
def toListOf (t : Option (Tree V)) : List V := t.elim [] Tree.toList

section

variable {kNodeValues kMinNodeValues : ℕ}

theorem sound_tree_of_sub {h : ℕ} {n : Node V (Sub V h)} (hn : Sound kNodeValues (h + 1) n) :
    Tree.Sound kNodeValues ⟨h, n⟩ := by
  cases h with
  | zero => exact ⟨hn.2.1, hn.2.2.1.trans_eq hn.1.symm, hn.1.le⟩
  | succ h => exact hn

theorem sound_zip_of_sound {h : ℕ} {p : Path V h} {n : Node V (Sub V h)} (hp : p.Sound kNodeValues)
    (hn : Sound kNodeValues (h + 1) n) : (p.zip n).Sound kNodeValues := by
  rw [Path.sound_zip]
  cases p with
  | root => exact sound_tree_of_sub hn
  | child fr up => exact ⟨hp, hn⟩

/-- A node from which a value was taken out, with sound surroundings. -/
structure LooseAt (kNodeValues : ℕ) {h : ℕ} (p : Path V h) (n : Node V (Sub V h)) : Prop where
  path : p.Sound kNodeValues
  count : n.count ≤ n.maxCount
  le : n.maxCount ≤ kNodeValues
  full : p.isRoot = false ∨ 0 < h → n.maxCount = kNodeValues
  children : ∀ c ∈ n.children, Sound kNodeValues h c

theorem tryShrink_spec {h : ℕ} {n : Node V (Sub V h)} (hn : LooseAt kNodeValues .root n) :
    toListOf (tryShrink ⟨h, n⟩) = n.toList ∧ ∀ t ∈ tryShrink ⟨h, n⟩, t.Sound kNodeValues := by
  cases h with
  | zero =>
    rw [tryShrink]
    split_ifs with hpos
    · refine ⟨rfl, ?_⟩
      rintro t ⟨⟩
      exact ⟨hpos, hn.count, hn.le⟩
    · refine ⟨?_, fun t ht => absurd ht (by simp)⟩
      have hempty := n.upTo_count (f := below 0)
      rw [leaf_upTo, Nat.eq_zero_of_not_pos hpos] at hempty
      exact hempty
  | succ h =>
    have hmax := hn.full (.inr (Nat.succ_pos h))
    have hcount := hn.count
    rw [tryShrink]
    split_ifs with hpos
    · refine ⟨rfl, ?_⟩
      rintro t ⟨⟩
      exact ⟨hmax, hpos, by omega, hn.children⟩
    · refine ⟨?_, ?_⟩
      · have hrest : n.rest = [] := List.eq_nil_of_length_eq_zero (Nat.eq_zero_of_not_pos hpos)
        show below (h + 1) n.first = n.contents (below (h + 1))
        rw [Node.contents, hrest, List.flatMap_nil, List.append_nil]
      · rintro t ⟨⟩
        exact sound_tree_of_sub (hn.children n.first List.mem_cons_self)

/-- From a node that lost a value up to the root no assertion fails, and what is left of the tree
is sound and has the same values. -/
theorem eraseUp_spec (hmin : 0 < kMinNodeValues) (hk : kMinNodeValues < kNodeValues) {h : ℕ} {p : Path V h}
    {n : Node V (Sub V h)} (hn : LooseAt kNodeValues p n) (position : ℕ) :
    ∃ t, eraseUp kMinNodeValues p n position = some t ∧ toListOf t = (p.zip n).toList ∧
      ∀ t' ∈ t, t'.Sound kNodeValues := by
  induction p generalizing position with
  | root => exact ⟨_, rfl, tryShrink_spec hn⟩
  | child fr up ih =>
    have hmax := hn.full (.inl rfl)
    have hcount := hn.count
    have hloose : Loose kNodeValues n := ⟨hmax, by omega, hn.children⟩
    rw [eraseUp]
    split_ifs with henough
    · refine ⟨_, rfl, rfl, ?_⟩
      rintro t ⟨⟩
      show ((Path.child fr up).zip n).Sound kNodeValues
      exact sound_zip_of_sound hn.path (hloose.sound (by omega))
    · obtain ⟨merged, parent, position', heq, hlist, hparent, hpos⟩ := tryMergeOrRebalance_repairs position
        hmin hk hn.path hloose (by omega)
      have hzip : (up.zip parent).toList = ((Path.child fr up).zip n).toList := by
        rw [Path.zip, Path.zip_toList, Path.zip_toList, hlist]
      have hup : up.Sound kNodeValues := hn.path.2.2.2.2
      rw [heq]
      cases merged with
      | true =>
        obtain ⟨t, ht, htlist, htsound⟩ := ih ⟨hup, hparent.count.trans_eq hparent.maxCount.symm, hparent.maxCount.le,
          fun _ => hparent.maxCount, hparent.children⟩ position'
        exact ⟨t, ht, htlist.trans hzip, htsound⟩
      | false =>
        refine ⟨_, rfl, hzip, ?_⟩
        rintro t ⟨⟩
        exact sound_zip_of_sound hup (hparent.sound (hpos rfl))

/-! ### The value erased -/

theorem looseAt_of_tree {h : ℕ} {p : Path V h} {n : Node V (Sub V h)} (ht : (p.zip n).Sound kNodeValues) :
    LooseAt kNodeValues p n := by
  rw [Path.sound_zip] at ht
  cases p with
  | root =>
    cases h with
    | zero => exact ⟨trivial, ht.2.1, ht.2.2, fun h => absurd h (by simp [Path.isRoot]), fun _ _ => trivial⟩
    | succ h => exact ⟨trivial, ht.2.2.1.trans_eq ht.1.symm, ht.1.le, fun _ => ht.1, ht.2.2.2⟩
  | child fr up => exact ⟨ht.1, ht.2.2.2.1.trans_eq ht.2.1.symm, ht.2.1.le, fun _ => ht.2.1, ht.2.2.2.2⟩

theorem leaf_toList (n : Node V Unit) : Node.toList (h := 0) n = n.values := by
  rw [Node.toList, ← n.upTo_count, leaf_upTo, ← n.length_values, List.take_length]

theorem values_removeValue {C : Type} (n : Node V C) (i : ℕ) :
    (n.removeValue i).values = n.values.take i ++ n.values.drop (i + 1) := by
  show (n.rest.eraseIdx i).map Prod.fst = _
  rw [List.eraseIdx_eq_take_drop_succ, List.map_append, List.map_take, List.map_drop]
  rfl

/-- Taking a value out of a leaf. -/
theorem looseAt_removeValue {p : Path V 0} {n : Node V Unit} (hn : LooseAt kNodeValues p n) (i : ℕ) :
    LooseAt kNodeValues p (n.removeValue i) :=
  ⟨hn.path, (List.length_eraseIdx_le n.rest i).trans hn.count, hn.le, hn.full, fun _ _ => trivial⟩

/-- A value of a node replaced. -/
theorem setValue_spec {C : Type} (f : C → List V) {n : Node V C} {i : ℕ} (hi : i < n.count) (y : V) :
    (n.setValue i y).children = n.children ∧ (n.setValue i y).count = n.count ∧
      (n.setValue i y).upTo f i = n.upTo f i ∧
      ∃ x rest, n.values[i]? = some x ∧ n.after f i = x :: rest ∧ (n.setValue i y).after f i = y :: rest := by
  obtain ⟨l₁, e, l₂, hrest, hlen, hset⟩ := List.exists_of_modify (fun e : V × C => (y, e.2)) hi
  have hset : (n.setValue i y).rest = l₁ ++ (y, e.2) :: l₂ := hset
  refine ⟨?_, ?_, ?_, e.1, f e.2 ++ l₂.flatMap (Node.entry f), ?_, ?_, ?_⟩
  · unfold Node.children
    rw [hset, hrest]
    simp [Node.setValue]
  · unfold Node.count
    rw [hset, hrest]
    simp
  · unfold Node.upTo
    rw [hset, hrest, List.take_left' hlen, List.take_left' hlen]
    rfl
  · rw [Node.values, hrest, List.getElem?_map, List.getElem?_append_right hlen.le, hlen, Nat.sub_self]
    rfl
  · unfold Node.after
    rw [hrest, List.drop_left' hlen]
    rfl
  · unfold Node.after
    rw [hset, List.drop_left' hlen]
    rfl

theorem rightmostLeaf_node {h : ℕ} (p q : Path V h) (n : Node V (Sub V h)) :
    (rightmostLeaf p n).1 = (rightmostLeaf q n).1 := by
  induction h with
  | zero => rfl
  | succ h ih => exact ih _ _ _

/-- In a leaf the value is taken out where it is. -/
theorem erase_leaf (hmin : 0 < kMinNodeValues) (hk : kMinNodeValues < kNodeValues) {p : Path V 0} {n : Node V Unit}
    {i : ℕ} (ht : (p.zip n).Sound kNodeValues) (hi : i < n.count) (position : ℕ) :
    ∃ t, eraseUp kMinNodeValues p (n.removeValue i) position = some t ∧
      toListOf t = (Iter.mk n p i).before ++ (Iter.mk n p i).after.tail ∧ ∀ t' ∈ t, t'.Sound kNodeValues := by
  obtain ⟨t, heq, hlist, hsound⟩ := eraseUp_spec hmin hk (looseAt_removeValue (looseAt_of_tree ht) i) position
  refine ⟨t, heq, hlist.trans ?_, hsound⟩
  have hdrop := List.drop_eq_getElem_cons (l := n.values) (n.length_values.symm ▸ hi)
  rw [Path.zip_toList, leaf_toList, values_removeValue, Iter.before, Iter.after, leaf_upTo, leaf_after, hdrop]
  simp only [List.append_assoc, List.cons_append, List.tail_cons]

theorem rightmostLeaf_before {h : ℕ} (p : Path V h) (n : Node V (Sub V h)) :
    (rightmostLeaf p n).2.before ++ (rightmostLeaf p n).1.values = p.before ++ n.toList := by
  obtain ⟨hzip, hafter⟩ := rightmostLeaf_spec p n
  have hlist := congrArg Tree.toList hzip
  rw [Path.zip_toList, Path.zip_toList, hafter, leaf_toList] at hlist
  exact List.append_cancel_right hlist

/-- Soundness does not depend on the values. -/
theorem sound_zip_congr {h : ℕ} {p : Path V h} {n m : Node V (Sub V h)} (hmax : m.maxCount = n.maxCount)
    (hcount : m.count = n.count) (hchildren : m.children = n.children) (ht : (p.zip n).Sound kNodeValues) :
    (p.zip m).Sound kNodeValues := by
  have hsub (hn : Sound kNodeValues (h + 1) n) : Sound kNodeValues (h + 1) m := by
    unfold Sound at *
    rw [hmax, hcount, hchildren]
    exact hn
  rw [Path.sound_zip] at ht ⊢
  cases p with
  | root =>
    cases h with
    | zero =>
      unfold Path.Holds Tree.Sound at *
      simp only [hmax, hcount]
      exact ht
    | succ h => exact hsub ht
  | child fr up => exact ⟨ht.1, hsub ht.2⟩

section

variable {K D : Type} [LinearOrder K]

/-- In an internal node the value before it takes its place. -/
theorem erase_internal (hmin : 0 < kMinNodeValues) (hk : kMinNodeValues < kNodeValues) {h : ℕ} {it : Iter (K × D) (h + 1)}
    (ht : it.tree.Sound kNodeValues) (hsorted : Sorted it.tree.toList) (hi : it.position < it.node.count) :
    ∃ t, erase kMinNodeValues it = some t ∧ toListOf t = it.before ++ it.after.tail ∧
      ∀ t' ∈ t, t'.Sound kNodeValues := by
  obtain ⟨n, p, i⟩ := it
  have hi : i < n.count := hi
  have ht : (p.zip n).Sound kNodeValues := ht
  -- the leaf the value before is in
  obtain ⟨child, hchild⟩ : ∃ child, child = p.down n i := ⟨_, rfl⟩
  obtain ⟨leaf, hleaf⟩ : ∃ leaf, leaf = rightmostLeaf child.2 child.1 := ⟨_, rfl⟩
  have hbefore : leaf.2.before ++ leaf.1.values = p.before ++ n.upTo (below (h + 1)) i := by
    rw [hleaf, rightmostLeaf_before, hchild, p.down_before hi.le]
  have hpos : 0 < leaf.1.count := by
    obtain ⟨hzip, -⟩ := rightmostLeaf_spec child.2 child.1
    rw [← hleaf, hchild, p.down_zip hi.le] at hzip
    rw [← hzip] at ht
    exact (sound_of_tree ht).1
  obtain ⟨position, hposition⟩ : ∃ position, position = leaf.1.count - 1 := ⟨_, rfl⟩
  have hlt : position < leaf.1.count := by omega
  obtain ⟨y, hy⟩ : ∃ y, leaf.1.values[position]? = some y :=
    ⟨_, List.getElem?_eq_getElem (leaf.1.length_values.symm ▸ hlt)⟩
  -- the values before and after the swap
  obtain ⟨hchildren, hcount, hupTo, x, rest, hx, hafter, hafter'⟩ := setValue_spec (below (h + 1)) hi y
  obtain ⟨hlchildren, hlcount, hlupTo, y', lrest, hy', hlafter, hlafter'⟩ := setValue_spec (below 0) hlt x
  obtain rfl : y = y' := Option.some.inj (hy.symm.trans hy')
  have hvalues : leaf.1.values = leaf.1.values.take position ++ [y] := by
    have hdrop := List.drop_eq_getElem_cons (l := leaf.1.values) (leaf.1.length_values.symm ▸ hlt)
    rw [List.drop_of_length_le (i := position + 1) (by rw [leaf.1.length_values]; omega),
      (List.getElem?_eq_some_iff.mp hy).2] at hdrop
    rw [← hdrop, List.take_append_drop]
  obtain rfl : lrest = [] := by
    rw [leaf_after] at hlafter
    have hlen := congrArg List.length hlafter
    rw [List.length_drop, leaf.1.length_values, List.length_cons] at hlen
    exact List.eq_nil_of_length_eq_zero (by omega)
  have hyx : ¬ x.1 < y.1 := by
    have hsorted : Sorted (p.zip n).toList := hsorted
    rw [Path.zip_toList, Node.toList, ← n.upTo_append_after _ i, hafter, ← List.append_assoc, ← hbefore,
      hvalues] at hsorted
    have hyx := (List.pairwise_append.mp (List.pairwise_append.mp hsorted).1).2.2 y (by simp) x List.mem_cons_self
    exact hyx.le.not_gt
  -- the same leaf, in the tree with the values swapped
  obtain ⟨swapped, hswapped⟩ : ∃ swapped, swapped = p.down (n.setValue i y) i := ⟨_, rfl⟩
  have hsame : swapped.1 = child.1 := by
    have hnew := (n.setValue i y).openAt_child (hcount ▸ hi.le)
    rw [hchildren, n.openAt_child hi.le] at hnew
    rw [hswapped, hchild]
    exact (Option.some.inj hnew).symm
  obtain ⟨leaf', hleaf'⟩ : ∃ leaf', leaf' = rightmostLeaf swapped.2 swapped.1 := ⟨_, rfl⟩
  have hnode : leaf'.1 = leaf.1 := by
    rw [hleaf', hleaf, hsame]
    exact rightmostLeaf_node _ _ _
  have hleft : leaf'.2.before = leaf.2.before := by
    refine (List.append_left_inj leaf.1.values).mp (Eq.trans ?_ hbefore.symm)
    rw [← hnode, hleaf', rightmostLeaf_before, hswapped, p.down_before (hcount ▸ hi.le), hupTo]
  have hright : leaf'.2.after = y :: rest ++ p.after := by
    rw [hleaf', (rightmostLeaf_spec _ _).2, hswapped, p.down_after (hcount ▸ hi.le), hafter']
  have hsound : (leaf'.2.zip (leaf.1.setValue position x)).Sound kNodeValues := by
    have htree := sound_zip_congr (n := n) (m := n.setValue i y) rfl hcount hchildren ht
    rw [← p.down_zip (i := i) (hcount ▸ hi.le), ← hswapped, ← (rightmostLeaf_spec _ _).1, ← hleaf', hnode] at htree
    exact sound_zip_congr (h := 0) (n := leaf.1) rfl hlcount hlchildren htree
  obtain ⟨t, heq, hlist, hsounds⟩ := erase_leaf hmin hk hsound (hlcount ▸ hlt) position
  refine ⟨t, ?_, hlist.trans ?_, hsounds⟩
  · unfold erase
    simp only
    rw [← hchild, ← hleaf, ← hposition, hx, hy]
    simp only
    rw [if_neg hyx, ← hswapped, ← hleaf', hnode, ← hposition]
    exact heq
  · show (_ ++ Node.upTo (below 0) _ position) ++ (Node.after (below 0) _ position ++ _).tail =
      (p.before ++ n.upTo (below (h + 1)) i) ++ (n.after (below (h + 1)) i ++ p.after).tail
    rw [hlupTo, hlafter', hafter, hleft, hright, ← hbefore, leaf_upTo]
    nth_rewrite 2 [hvalues]
    simp

/-- `erase` takes exactly the value the iterator points at out of a tree, and keeps it sound. -/
theorem erase_spec (hmin : 0 < kMinNodeValues) (hk : kMinNodeValues < kNodeValues) {t : Tree (K × D)}
    (ht : t.Sound kNodeValues) (hsorted : Sorted t.toList) {l r : List (K × D)} {v : K × D} {it : Iterator (K × D)}
    (hit : Stands t l (some it)) (hlist : t.toList = l ++ v :: r) :
    ∃ t', erase kMinNodeValues it.2 = some t' ∧ toListOf t' = l ++ r ∧ ∀ t'' ∈ t', t''.Sound kNodeValues := by
  obtain ⟨h, it⟩ := it
  obtain ⟨rfl, rfl, hposition⟩ := hit
  have hafter : it.after = v :: r := by
    rw [← Iter.before_append_after] at hlist
    exact List.append_cancel_left hlist
  have hr : r = it.after.tail := by
    rw [hafter]
    rfl
  rw [hr]
  cases h with
  | zero => exact erase_leaf hmin hk ht hposition _
  | succ h => exact erase_internal hmin hk ht hsorted hposition

end

end

end TikvCpp.Btree
