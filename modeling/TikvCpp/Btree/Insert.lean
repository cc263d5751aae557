import TikvCpp.Btree.Iteration

/-! Insertion into a tree. Room is made in a full node by shifting values into a sibling or by a
split, and a split first makes room in the parent. Through all of this an insertion position
stays between the same two values and beside the same child. -/

namespace TikvCpp.Btree

variable {V : Type}

/-- How many values `rebalance_or_split` shifts into a sibling with room for `free` more. -/
def toMove (free : ℕ) (biased : Bool) : ℕ := max 1 (free / (1 + biased.toNat))

/-- Where a node has become `node` and `right` with `d` between them, the place of the
insertion position. -/
def pickSide {h : ℕ} (fr : Frame V (Sub V (h + 1))) (up : Path V (h + 1)) (node : Node V (Sub V h)) (d : V)
    (right : Node V (Sub V h)) (insertPosition : ℕ) : Iter V h :=
  if node.count < insertPosition then
    ⟨right, .child { fr with left := (node, d) :: fr.left } up, insertPosition - node.count - 1⟩
  else ⟨node, .child { fr with right := (d, right) :: fr.right } up, insertPosition⟩

/-- `assert(node->count() < node->max_count())`. -/
def Iter.assertRoom {h : ℕ} (it : Iter V h) : Option (Iter V h) :=
  if it.node.count < it.node.maxCount then some it else none

section

variable {h : ℕ} (fr : Frame V (Sub V (h + 1))) (up : Path V (h + 1)) (node : Node V (Sub V h))
  (insertPosition : ℕ)

/-- The attempt of `rebalance_or_split` with the left sibling, and `otherwise` the rest. -/
def rebalanceLeft (otherwise : Option (Iter V h)) : Option (Iter V h) :=
  match fr.left with
  | (left, d) :: rest =>
    let move := toMove (Node.maxCount left - Node.count left) (insertPosition < Node.maxCount left)
    if Node.count left < Node.maxCount left ∧
        (move ≤ insertPosition ∨ Node.count left + move < Node.maxCount left) then
      match Node.rebalanceRightToLeft left d node move with
      | some (left, d, node) =>
        if node.maxCount - node.count = move then
          Iter.assertRoom <|
            if move ≤ insertPosition then
              ⟨node, .child { fr with left := (left, d) :: rest } up, insertPosition - move⟩
            else ⟨left, .child { fr with left := rest, right := (d, node) :: fr.right } up,
              insertPosition + left.count + 1 - move⟩
        else none
      | none => none
    else otherwise
  | [] => otherwise

/-- The attempt with the right sibling. -/
def rebalanceRight (otherwise : Option (Iter V h)) : Option (Iter V h) :=
  match fr.right with
  | (d, right) :: rest =>
    let move := toMove (Node.maxCount right - Node.count right) (0 < insertPosition)
    if Node.count right < Node.maxCount right ∧
        (insertPosition + move ≤ node.count ∨ Node.count right + move < Node.maxCount right) then
      match node.rebalanceLeftToRight d right move with
      | some (node, d, right) => Iter.assertRoom (pickSide { fr with right := rest } up node d right insertPosition)
      | none => none
    else otherwise
  | [] => otherwise

/-- The split at the end of `rebalance_or_split`; nothing where the parent has no room. -/
def splitNode (kNodeValues : ℕ) : Option (Iter V h) :=
  if fr.count < fr.maxCount then
    match node.split insertPosition kNodeValues with
    | some (node, d, right) => some (pickSide fr up node d right insertPosition)
    | none => none
  else none

end

/-- A root without values around its one child. -/
def newRoot (kNodeValues : ℕ) {h : ℕ} : Frame V (Sub V (h + 1)) := { maxCount := kNodeValues, left := [], right := [] }

/-- `rebalance_or_split`: nothing where an assertion fails. Above the root a new one without
values is put first; where the root is an internal node the source moves its values to a
new node instead, below the old one. -/
def rebalanceOrSplit (kNodeValues : ℕ) : {h : ℕ} → Path V h → Node V (Sub V h) → ℕ → Option (Iter V h)
  | _, .root, node, insertPosition =>
    if node.count = node.maxCount then
      splitNode (newRoot kNodeValues) .root node insertPosition kNodeValues
    else none
  | _, .child fr up, node, insertPosition =>
    if node.count = node.maxCount then
      rebalanceLeft fr up node insertPosition <| rebalanceRight fr up node insertPosition <|
        if fr.count = fr.maxCount then
          -- the node is in the parent where the position of `parent_iter` is now
          match rebalanceOrSplit kNodeValues up (fr.plug node) fr.position with
          | some parent => splitNode (parent.node.openAt parent.position).2 parent.path node insertPosition kNodeValues
          | none => none
        else splitNode fr up node insertPosition kNodeValues
    else none

/-! ### The same place in two trees -/

/-- Between the same values, and at the same child. -/
structure Alike {h : ℕ} (it it' : Iter V h) : Prop where
  before : it.before = it'.before
  after : it.after = it'.after
  child : it.node.children[it.position]? = it'.node.children[it'.position]?

namespace Alike

variable {h : ℕ} {it₁ it₂ it₃ : Iter V h}

theorem symm (h : Alike it₁ it₂) : Alike it₂ it₁ := ⟨h.1.symm, h.2.symm, h.3.symm⟩

theorem trans (h : Alike it₁ it₂) (h' : Alike it₂ it₃) : Alike it₁ it₃ :=
  ⟨h.1.trans h'.1, h.2.trans h'.2, h.3.trans h'.3⟩

theorem toList (h : Alike it₁ it₂) : it₁.tree.toList = it₂.tree.toList := by
  rw [← Iter.before_append_after, ← Iter.before_append_after, h.before, h.after]

end Alike

section

variable {h : ℕ} {n l r : Node V (Sub V h)} {d : V} (fr : Frame V (Sub V (h + 1))) (up : Path V (h + 1)) {i : ℕ}

/-- Left of the value at which a node falls apart. -/
theorem alike_left (hn : Node.Parts n l d r) (hi : i ≤ l.count) :
    Alike ⟨l, .child { fr with right := (d, r) :: fr.right } up, i⟩ ⟨n, .child fr up, i⟩ := by
  obtain ⟨hchild, hupTo, hafter⟩ := hn.left (f := below h) hi
  refine ⟨?_, ?_, hchild.symm⟩
  · rw [Iter.before, Iter.before]
    show _ ++ l.upTo (below h) i = _ ++ n.upTo (below h) i
    rw [hupTo]
    rfl
  · rw [Iter.after, Iter.after]
    show l.after (below h) i ++ _ = n.after (below h) i ++ _
    rw [hafter, Path.after, Path.after, Frame.after, Frame.after, List.flatMap_cons]
    simp only [List.append_assoc]
    rfl

/-- Right of it. -/
theorem alike_right (hn : Node.Parts n l d r) :
    Alike ⟨r, .child { fr with left := (l, d) :: fr.left } up, i⟩ ⟨n, .child fr up, l.count + 1 + i⟩ := by
  obtain ⟨hchild, hupTo, hafter⟩ := hn.right (f := below h) i
  refine ⟨?_, ?_, hchild.symm⟩
  · rw [Iter.before, Iter.before]
    show _ ++ r.upTo (below h) i = _ ++ n.upTo (below h) (l.count + 1 + i)
    rw [hupTo, Path.before, Path.before, Frame.before, Frame.before, Frame.beforeIn]
    simp only [List.append_assoc]
    rfl
  · rw [Iter.after, Iter.after]
    show r.after (below h) i ++ _ = n.after (below h) (l.count + 1 + i) ++ _
    rw [hafter]
    rfl

end

/-! ### Making room -/

/-- An insertion position in a node whose own count aside all is sound. -/
structure Iter.Ready (kNodeValues : ℕ) {h : ℕ} (it : Iter V h) : Prop where
  maxCount : it.node.maxCount = kNodeValues
  position : it.position ≤ it.node.count
  children : ∀ c ∈ it.node.children, Sound kNodeValues h c
  path : it.path.Sound kNodeValues

/-- `r` is the place of `it` with room for one more value. -/
def MakesRoom (kNodeValues : ℕ) {h : ℕ} (it : Iter V h) (r : Option (Iter V h)) : Prop :=
  ∃ it', r = some it' ∧ Alike it' it ∧ it'.Ready kNodeValues ∧ it'.node.count < kNodeValues

section

variable {kNodeValues h : ℕ} {n l r : Node V (Sub V h)} {d : V} {fr : Frame V (Sub V (h + 1))}
  {up : Path V (h + 1)} {i : ℕ}

theorem parts_children (hn : Node.Parts n l d r) :
    (∀ c ∈ n.children, Sound kNodeValues h c) ↔
      (∀ c ∈ l.children, Sound kNodeValues h c) ∧ ∀ c ∈ r.children, Sound kNodeValues h c := by
  rw [hn.children, List.forall_mem_append]

/-- A parent with room for one more value, and all nodes beside and above it sound. -/
structure Fits (kNodeValues : ℕ) (fr : Frame V (Sub V (h + 1))) (up : Path V (h + 1)) : Prop where
  maxCount : fr.maxCount = kNodeValues
  count : fr.count < kNodeValues
  siblings : ∀ c ∈ fr.siblings, Sound kNodeValues (h + 1) c
  up : up.Sound kNodeValues

theorem Fits.add_left (hfr : Fits kNodeValues fr up) (hl : Sound kNodeValues (h + 1) l) :
    (Path.child { fr with left := (l, d) :: fr.left } up).Sound kNodeValues := by
  refine ⟨hfr.maxCount, ?_, ?_, ?_, hfr.up⟩
  · rw [fr.count_cons_left]
    omega
  · rw [fr.count_cons_left]
    exact hfr.count
  · intro c hc
    rcases List.mem_cons.mp hc with rfl | hc
    · exact hl
    · exact hfr.siblings c hc

theorem Fits.add_right (hfr : Fits kNodeValues fr up) (hr : Sound kNodeValues (h + 1) r) :
    (Path.child { fr with right := (d, r) :: fr.right } up).Sound kNodeValues := by
  refine ⟨hfr.maxCount, ?_, ?_, ?_, hfr.up⟩
  · rw [fr.count_cons_right]
    omega
  · rw [fr.count_cons_right]
    exact hfr.count
  · intro c hc
    rw [Frame.siblings, List.map_cons, List.mem_append, List.mem_cons] at hc
    rcases hc with hc | rfl | hc
    · exact hfr.siblings c (List.mem_append_left _ hc)
    · exact hr
    · exact hfr.siblings c (List.mem_append_right _ hc)

/-- A sibling on the left, and the parent without it. -/
theorem Fits.of_left {c : Sub V (h + 1)} {rest : List (Sub V (h + 1) × V)} (hfr : fr.left = (c, d) :: rest)
    (hpath : (Path.child fr up).Sound kNodeValues) :
    Fits kNodeValues { fr with left := rest } up ∧ Sound kNodeValues (h + 1) c := by
  obtain ⟨hmax, -, hcount, hsiblings, hup⟩ := hpath
  have hlength := congrArg List.length hfr
  rw [List.length_cons] at hlength
  rw [Frame.siblings, hfr] at hsiblings
  refine ⟨⟨hmax, ?_, fun c hc => hsiblings c (List.mem_cons_of_mem _ hc), hup⟩, hsiblings c List.mem_cons_self⟩
  show rest.length + fr.right.length < kNodeValues
  unfold Frame.count at hcount
  omega

theorem Fits.of_right {c : Sub V (h + 1)} {rest : List (V × Sub V (h + 1))} (hfr : fr.right = (d, c) :: rest)
    (hpath : (Path.child fr up).Sound kNodeValues) :
    Fits kNodeValues { fr with right := rest } up ∧ Sound kNodeValues (h + 1) c := by
  obtain ⟨hmax, -, hcount, hsiblings, hup⟩ := hpath
  have hlength := congrArg List.length hfr
  rw [List.length_cons] at hlength
  rw [Frame.siblings, hfr, List.map_cons] at hsiblings
  refine ⟨⟨hmax, ?_, fun c hc => hsiblings c ?_, hup⟩, hsiblings c ?_⟩
  · show fr.left.length + rest.length < kNodeValues
    unfold Frame.count at hcount
    omega
  · rcases List.mem_append.mp hc with hc | hc
    · exact List.mem_append_left _ hc
    · exact List.mem_append_right _ (List.mem_cons_of_mem _ hc)
  · exact List.mem_append_right _ List.mem_cons_self

variable {n' : Node V (Sub V h)}

/-- The place left of the value at which a node falls apart has room, when the right part
is sound. -/
theorem makesRoom_left (hn : Node.Parts n l d r) (hfr : Fits kNodeValues fr up)
    (hkids : ∀ c ∈ n.children, Sound kNodeValues h c) (hi : i ≤ l.count) (hl : l.maxCount = kNodeValues)
    (hlcount : l.count < kNodeValues) (hr : r.maxCount = kNodeValues) (hrpos : 0 < r.count)
    (hrcount : r.count ≤ kNodeValues) :
    MakesRoom kNodeValues ⟨n, .child fr up, i⟩
      (some ⟨l, .child { fr with right := (d, r) :: fr.right } up, i⟩) := by
  obtain ⟨hlkids, hrkids⟩ := (parts_children hn).mp hkids
  exact ⟨_, rfl, alike_left fr up hn hi, ⟨hl, hi, hlkids, hfr.add_right ⟨hr, hrpos, hrcount, hrkids⟩⟩, hlcount⟩

theorem makesRoom_right (hn : Node.Parts n l d r) (hfr : Fits kNodeValues fr up)
    (hkids : ∀ c ∈ n.children, Sound kNodeValues h c) (hi : i ≤ r.count) (hr : r.maxCount = kNodeValues)
    (hrcount : r.count < kNodeValues) (hl : l.maxCount = kNodeValues) (hlpos : 0 < l.count)
    (hlcount : l.count ≤ kNodeValues) :
    MakesRoom kNodeValues ⟨n, .child fr up, l.count + 1 + i⟩
      (some ⟨r, .child { fr with left := (l, d) :: fr.left } up, i⟩) := by
  obtain ⟨hlkids, hrkids⟩ := (parts_children hn).mp hkids
  exact ⟨_, rfl, alike_right fr up hn, ⟨hr, hi, hrkids, hfr.add_left ⟨hl, hlpos, hlcount, hlkids⟩⟩, hrcount⟩

/-- The place `pickSide` picks has room, when the part on the other side is sound. -/
theorem makesRoom_pickSide (hn : Node.Parts n l d r) (hfr : Fits kNodeValues fr up)
    (hkids : ∀ c ∈ n.children, Sound kNodeValues h c) (hi : i ≤ n.count) (hl : l.maxCount = kNodeValues)
    (hr : r.maxCount = kNodeValues) (hlcount : l.count ≤ kNodeValues) (hrcount : r.count ≤ kNodeValues)
    (hleft : i ≤ l.count → l.count < kNodeValues ∧ 0 < r.count)
    (hright : l.count < i → r.count < kNodeValues ∧ 0 < l.count) :
    MakesRoom kNodeValues ⟨n, .child fr up, i⟩ (some (pickSide fr up l d r i)) := by
  have hcount := hn.count
  rw [pickSide]
  split_ifs with hlt
  · have hplace := makesRoom_right hn hfr hkids (i := i - l.count - 1) (by omega) hr (hright hlt).1 hl
      (hright hlt).2 hlcount
    rw [show l.count + 1 + (i - l.count - 1) = i by omega] at hplace
    exact hplace
  · have hle := Nat.not_lt.mp hlt
    exact makesRoom_left hn hfr hkids hle hl (hleft hle).1 hr (hleft hle).2 hrcount

theorem MakesRoom.of_alike {it it' : Iter V h} {r : Option (Iter V h)} (hr : MakesRoom kNodeValues it r)
    (halike : Alike it it') : MakesRoom kNodeValues it' r := by
  obtain ⟨it'', rfl, hit, hready⟩ := hr
  exact ⟨it'', rfl, hit.trans halike, hready⟩

theorem MakesRoom.assertRoom {it it' : Iter V h} (hr : MakesRoom kNodeValues it (some it')) :
    MakesRoom kNodeValues it it'.assertRoom := by
  obtain ⟨_, ⟨⟩, hit, hready, hcount⟩ := hr
  rw [Iter.assertRoom, if_pos (by rw [hready.maxCount]; exact hcount)]
  exact ⟨it', rfl, hit, hready, hcount⟩

theorem one_le_toMove (free : ℕ) (biased : Bool) : 1 ≤ toMove free biased := Nat.le_max_left _ _

theorem toMove_le {free : ℕ} (hfree : 1 ≤ free) (biased : Bool) : toMove free biased ≤ free :=
  Nat.max_le.mpr ⟨hfree, Nat.div_le_self _ _⟩

/-! ### The three ways -/

theorem rebalanceLeft_makesRoom {node : Node V (Sub V h)} {otherwise : Option (Iter V h)}
    (hready : (Iter.mk node (.child fr up) i).Ready kNodeValues) (hfull : node.count = kNodeValues)
    (hotherwise : MakesRoom kNodeValues ⟨node, .child fr up, i⟩ otherwise) :
    MakesRoom kNodeValues ⟨node, .child fr up, i⟩ (rebalanceLeft fr up node i otherwise) := by
  obtain ⟨hmax, hi, hkids, hpath⟩ := hready
  have hmax : node.maxCount = kNodeValues := hmax
  have hi : i ≤ node.count := hi
  unfold rebalanceLeft
  cases hleft : fr.left with
  | nil => exact hotherwise
  | cons e rest =>
    obtain ⟨left, d⟩ := e
    obtain ⟨hfits, hlmax, hlpos, -, hlkids⟩ := Fits.of_left hleft hpath
    have hlpos : 0 < Node.count left := hlpos
    have hmove := one_le_toMove (Node.maxCount left - Node.count left) (i < Node.maxCount left)
    have hfree : Node.count left < Node.maxCount left → _ := fun h =>
      toMove_le (Nat.sub_pos_of_lt h) (i < Node.maxCount left)
    simp only
    generalize toMove (Node.maxCount left - Node.count left) (i < Node.maxCount left) = move at hmove hfree
    by_cases htry : Node.count left < Node.maxCount left ∧ (move ≤ i ∨ Node.count left + move < Node.maxCount left)
    · have hfree := hfree htry.1
      obtain ⟨l, d', r, heq, hparts, hlcount, hlmax', hrmax⟩ := Node.rebalanceRightToLeft_parts left d
        node move (by omega) hmove (by omega)
      have hcount := hparts.count
      have hmerged := (Node.parts_merge left d node).count
      rw [if_pos htry, heq]
      simp only
      rw [if_pos (by omega)]
      -- the place seen from the two nodes put together
      have hplace : Alike ⟨Node.merge left d node, .child { fr with left := rest } up, Node.count left + 1 + i⟩
          ⟨node, .child fr up, i⟩ := by
        have hright := (alike_right { fr with left := rest } up (Node.parts_merge left d node) (i := i)).symm
        simp only [← hleft] at hright
        exact hright
      have hmkids := (parts_children (Node.parts_merge left d node)).mpr ⟨hlkids, hkids⟩
      apply MakesRoom.assertRoom
      apply MakesRoom.of_alike _ hplace
      by_cases hstay : move ≤ i
      · have hright := makesRoom_right hparts hfits hmkids (i := i - move) (by omega) (by omega) (by omega)
          (by omega) (by omega) (by omega)
        rw [if_pos hstay]
        rw [show l.count + 1 + (i - move) = Node.count left + 1 + i by omega] at hright
        exact hright
      · have hleft := makesRoom_left hparts hfits hmkids (i := i + l.count + 1 - move) (by omega) (by omega)
          (by omega) (by omega) (by omega) (by omega)
        rw [if_neg hstay]
        rw [show i + l.count + 1 - move = Node.count left + 1 + i by omega] at hleft ⊢
        exact hleft
    · rw [if_neg htry]
      exact hotherwise

theorem rebalanceRight_makesRoom {node : Node V (Sub V h)} {otherwise : Option (Iter V h)}
    (hready : (Iter.mk node (.child fr up) i).Ready kNodeValues) (hfull : node.count = kNodeValues)
    (hotherwise : MakesRoom kNodeValues ⟨node, .child fr up, i⟩ otherwise) :
    MakesRoom kNodeValues ⟨node, .child fr up, i⟩ (rebalanceRight fr up node i otherwise) := by
  obtain ⟨hmax, hi, hkids, hpath⟩ := hready
  have hmax : node.maxCount = kNodeValues := hmax
  have hi : i ≤ node.count := hi
  unfold rebalanceRight
  cases hright : fr.right with
  | nil => exact hotherwise
  | cons e rest =>
    obtain ⟨d, right⟩ := e
    obtain ⟨hfits, hrmax, hrpos, -, hrkids⟩ := Fits.of_right hright hpath
    have hrpos : 0 < Node.count right := hrpos
    have hmove := one_le_toMove (Node.maxCount right - Node.count right) (0 < i)
    have hfree : Node.count right < Node.maxCount right → _ := fun h => toMove_le (Nat.sub_pos_of_lt h) (0 < i)
    simp only
    generalize toMove (Node.maxCount right - Node.count right) (0 < i) = move at hmove hfree
    by_cases htry : Node.count right < Node.maxCount right ∧
        (i + move ≤ node.count ∨ Node.count right + move < Node.maxCount right)
    · have hfree := hfree htry.1
      obtain ⟨l, d', r, heq, hparts, hlcount, hlmax, hrmax'⟩ := Node.rebalanceLeftToRight_parts node d
        right move (by omega) hmove (by omega)
      have hcount := hparts.count
      have hmerged := (Node.parts_merge node d right).count
      rw [if_pos htry, heq]
      have hplace : Alike ⟨node.merge d right, .child { fr with right := rest } up, i⟩ ⟨node, .child fr up, i⟩ := by
        have hleft := (alike_left { fr with right := rest } up (Node.parts_merge node d right) hi).symm
        simp only [← hright] at hleft
        exact hleft
      have hmkids := (parts_children (Node.parts_merge node d right)).mpr ⟨hkids, hrkids⟩
      apply MakesRoom.assertRoom
      apply MakesRoom.of_alike _ hplace
      exact makesRoom_pickSide hparts hfits hmkids (by omega) (by omega) (by omega) (by omega) (by omega)
        (by omega) (by omega)
    · rw [if_neg htry]
      exact hotherwise

theorem splitNode_makesRoom {node : Node V (Sub V h)} (hfits : Fits kNodeValues fr up) (hk : 3 ≤ kNodeValues)
    (hmax : node.maxCount = kNodeValues) (hi : i ≤ node.count) (hkids : ∀ c ∈ node.children, Sound kNodeValues h c)
    (hfull : node.count = kNodeValues) :
    MakesRoom kNodeValues ⟨node, .child fr up, i⟩ (splitNode fr up node i kNodeValues) := by
  obtain ⟨l, d, r, heq, hparts, hlmax, hrmax, hlcount, hrcount, hrpos, hlpos⟩ :=
    Node.split_parts node i kNodeValues (by omega) (by omega)
  have hroom : fr.count < fr.maxCount := by
    rw [hfits.maxCount]
    exact hfits.count
  rw [splitNode, if_pos hroom, heq]
  exact makesRoom_pickSide hparts hfits hkids hi (by omega) hrmax (by omega) (by omega)
    (fun h => ⟨by omega, hrpos h⟩) fun h => ⟨by omega, hlpos h⟩

end

theorem fits_newRoot (kNodeValues : ℕ) {h : ℕ} (hk : 0 < kNodeValues) :
    Fits kNodeValues (newRoot kNodeValues) (.root (V := V) (h := h + 1)) :=
  ⟨rfl, hk, fun _ hc => absurd hc List.not_mem_nil, trivial⟩

theorem alike_newRoot (kNodeValues : ℕ) {h : ℕ} (node : Node V (Sub V h)) (i : ℕ) :
    Alike ⟨node, .child (newRoot kNodeValues) .root, i⟩ ⟨node, .root, i⟩ := ⟨rfl, rfl, rfl⟩

/-- A node is found again in its parent after there has been made room. -/
theorem reopen {kNodeValues h : ℕ} {fr : Frame V (Sub V (h + 1))} {up : Path V (h + 1)} {node : Node V (Sub V h)}
    {parent : Iter V (h + 1)} (hparent : Alike parent ⟨fr.plug node, up, fr.position⟩)
    (hready : parent.Ready kNodeValues) (hcount : parent.node.count < kNodeValues) (i : ℕ) :
    Fits kNodeValues (parent.node.openAt parent.position).2 parent.path ∧
      Alike ⟨node, .child (parent.node.openAt parent.position).2 parent.path, i⟩ ⟨node, .child fr up, i⟩ := by
  obtain ⟨hmax, hposition, hkids, hup⟩ := hready
  have hchild := hparent.child.trans (fr.child_plug node)
  rw [parent.node.openAt_child hposition] at hchild
  have hchild := Option.some.inj hchild
  refine ⟨⟨hmax, ?_, ((parent.node.forall_openAt hposition).mp hkids).2, hup⟩, ?_, ?_, rfl⟩
  · rw [parent.node.count_openAt hposition]
    exact hcount
  · have hbefore := hparent.before
    rw [Iter.before, Iter.before, parent.node.openAt_upTo _ hposition, fr.upTo_plug, hchild, ← List.append_assoc,
      ← List.append_assoc] at hbefore
    exact congrArg (· ++ _) (List.append_cancel_right hbefore)
  · have hafter := hparent.after
    rw [Iter.after, Iter.after, parent.node.openAt_after _ hposition, fr.after_plug] at hafter
    exact congrArg (_ ++ ·) hafter

/-- A full node keeps its insertion position and gets room, in a tree of the same values. -/
theorem rebalanceOrSplit_makesRoom {kNodeValues h : ℕ} (hk : 3 ≤ kNodeValues) {p : Path V h}
    {node : Node V (Sub V h)} {i : ℕ} (hready : (Iter.mk node p i).Ready kNodeValues)
    (hfull : node.count = kNodeValues) :
    MakesRoom kNodeValues ⟨node, p, i⟩ (rebalanceOrSplit kNodeValues p node i) := by
  induction p generalizing i with
  | root =>
    obtain ⟨hmax, hi, hkids, -⟩ := hready
    rw [rebalanceOrSplit, if_pos (hfull.trans hmax.symm)]
    exact (splitNode_makesRoom (fits_newRoot kNodeValues (by omega)) hk hmax hi hkids hfull).of_alike
      (alike_newRoot kNodeValues node i)
  | @child h fr up ih =>
    obtain ⟨hmax, hi, hkids, hpath⟩ := id hready
    obtain ⟨hfrmax, hfrpos, hfrcount, hsiblings, hup⟩ := id hpath
    rw [rebalanceOrSplit, if_pos (hfull.trans hmax.symm)]
    apply rebalanceLeft_makesRoom hready hfull
    apply rebalanceRight_makesRoom hready hfull
    split_ifs with hparent
    · have hnode : Sound kNodeValues (h + 1) node := ⟨hmax, by omega, Nat.le_of_eq hfull, hkids⟩
      obtain ⟨parent, heq, halike, hparent, hcount⟩ := @ih (fr.plug node) fr.position
        ⟨hfrmax, by show _ ≤ (fr.plug node).count; rw [fr.count_plug]; exact fr.position_le,
          (fr.forall_children_plug node).mpr ⟨hnode, hsiblings⟩, hup⟩ (by rw [fr.count_plug]; omega)
      obtain ⟨hfits, halike⟩ := reopen halike hparent hcount i
      rw [heq]
      exact (splitNode_makesRoom hfits hk hmax hi hkids hfull).of_alike halike
    · have hlt : fr.count < kNodeValues := by omega
      exact splitNode_makesRoom ⟨hfrmax, hlt, hsiblings, hup⟩ hk hmax hi hkids hfull

/-! ### Putting in a value -/

def Path.isRoot : {h : ℕ} → Path V h → Bool
  | _, .root => true
  | _, .child _ _ => false

/-- `insert_value` in a leaf; nothing where its assertion fails or the leaf has no room. -/
def Iter.insertValue (it : Iter V 0) (v : V) : Option (Iter V 0) :=
  if it.position ≤ it.node.count ∧ it.node.count < it.node.maxCount then
    some { it with node := it.node.insertValue it.position v () }
  else none

/-- A leaf at the root with its values in a new node of up to twice the capacity. -/
def grow (kNodeValues : ℕ) (root : Node V Unit) : Node V Unit :=
  { root with maxCount := min kNodeValues (2 * root.maxCount) }

/-- `internal_insert` at a place in a leaf of a tree whose root, if internal, carries `size`:
the new value, and the size carried then. A root that was a leaf passes its count on. -/
def internalInsert (kNodeValues size : ℕ) (it : Iter V 0) (v : V) : Option (Iter V 0 × ℕ) :=
  if it.node.count = it.node.maxCount then
    if it.node.maxCount < kNodeValues then
      if it.path.isRoot then
        (Iter.insertValue { it with node := grow kNodeValues it.node } v).map fun it' => (it', size)
      else none
    else
      match rebalanceOrSplit kNodeValues it.path it.node it.position with
      | some room =>
        (room.insertValue v).map fun it' => (it', (if it.path.isRoot then it.node.count else size) + 1)
      | none => none
  else (it.insertValue v).map fun it' => (it', if it.path.isRoot then size else size + 1)

/-- A place in a leaf of a sound tree, or in an empty leaf. -/
structure Iter.Place (kNodeValues : ℕ) (it : Iter V 0) : Prop where
  position : it.position ≤ it.node.count
  count : it.node.count ≤ it.node.maxCount
  pos : 0 < it.node.maxCount
  le : it.node.maxCount ≤ kNodeValues
  full : it.path.isRoot = false → it.node.maxCount = kNodeValues
  path : it.path.Sound kNodeValues

section

variable {kNodeValues size : ℕ} {it : Iter V 0} (v : V)

theorem sound_leaf (hit : it.Place kNodeValues) (hpos : 0 < it.node.count) : it.tree.Sound kNodeValues := by
  obtain ⟨-, hcount, -, hle, hfull, hpath⟩ := hit
  rw [Iter.tree, Path.sound_zip]
  cases hp : it.path with
  | root => exact ⟨hpos, hcount, hle⟩
  | child fr up =>
    rw [hp] at hfull hpath
    have hmax := hfull rfl
    exact ⟨hpath, hmax, hpos, by omega, fun _ _ => trivial⟩

theorem insertValue_spec (it : Iter V 0) (v : V) (hit : it.Place kNodeValues) (hroom : it.node.count < it.node.maxCount) :
    ∃ it', it.insertValue v = some it' ∧ it'.path = it.path ∧ it'.before = it.before ∧ it'.after = v :: it.after ∧
      it'.position < it'.node.count ∧ it'.tree.Sound kNodeValues := by
  obtain ⟨hposition, -, hpos, hle, hfull, hpath⟩ := hit
  have hlen : (it.node.rest.take it.position).length = it.position := by
    rw [List.length_take]
    exact Nat.min_eq_left hposition
  have hcount : (it.node.insertValue it.position v ()).count = it.node.count + 1 := by
    show (it.node.rest.take it.position ++ (v, ()) :: it.node.rest.drop it.position).length = _
    rw [List.length_append, hlen, List.length_cons, List.length_drop]
    unfold Node.count at *
    omega
  rw [Iter.insertValue, if_pos ⟨hposition, hroom⟩]
  refine ⟨_, rfl, rfl, ?_, ?_, ?_, ?_⟩
  · rw [Iter.before, Iter.before]
    show _ ++ Node.upTo (below 0) (it.node.insertValue it.position v ()) it.position = _
    rw [Node.upTo, Node.upTo, Node.insertValue]
    simp only
    rw [List.take_left' hlen]
  · rw [Iter.after, Iter.after]
    show Node.after (below 0) (it.node.insertValue it.position v ()) it.position ++ _ = _
    rw [Node.after, Node.after, Node.insertValue]
    simp only
    rw [List.drop_left' hlen]
    rfl
  · show it.position < (it.node.insertValue it.position v ()).count
    omega
  · refine sound_leaf ⟨?_, ?_, hpos, hle, hfull, hpath⟩ ?_
    · show it.position ≤ (it.node.insertValue it.position v ()).count
      omega
    · show (it.node.insertValue it.position v ()).count ≤ it.node.maxCount
      omega
    · show 0 < (it.node.insertValue it.position v ()).count
      omega

/-- The size an internal root carries is that of the tree. -/
def SizeRight (it : Iter V 0) (size : ℕ) : Prop := it.path.isRoot = false → size = it.tree.toList.length

theorem length_of_isRoot (hroot : it.path.isRoot = true) : it.tree.toList.length = it.node.count := by
  obtain ⟨node, path, i⟩ := it
  cases path with
  | root =>
    show (Node.contents (below 0) node).length = _
    rw [← node.upTo_count, leaf_upTo, ← node.length_values, List.take_length]
  | child fr up => cases hroot

/-- An insertion puts the value at the place given and leaves a sound tree of the right size. -/
theorem internalInsert_spec (hk : 3 ≤ kNodeValues) (hit : it.Place kNodeValues) (hsize : SizeRight it size) :
    ∃ it' size', internalInsert kNodeValues size it v = some (it', size') ∧ it'.before = it.before ∧
      it'.after = v :: it.after ∧ it'.position < it'.node.count ∧ it'.tree.Sound kNodeValues ∧
      SizeRight it' size' := by
  have hlength {it' : Iter V 0} (hbefore : it'.before = it.before) (hafter : it'.after = v :: it.after) :
      it'.tree.toList.length = it.tree.toList.length + 1 := by
    rw [← it'.before_append_after, ← it.before_append_after, hbefore, hafter, List.length_append,
      List.length_append, List.length_cons]
    rfl
  obtain ⟨hposition, hcount, hpos, hle, hfull, hpath⟩ := id hit
  unfold internalInsert
  by_cases heq : it.node.count = it.node.maxCount
  · rw [if_pos heq]
    by_cases hlt : it.node.maxCount < kNodeValues
    · -- a small leaf that is the root grows
      have hroot : it.path.isRoot = true := by
        by_contra hroot
        have := hfull (Bool.eq_false_iff.mpr hroot)
        omega
      have hgrow : it.node.count < (grow kNodeValues it.node).maxCount := by
        show it.node.count < min kNodeValues (2 * it.node.maxCount)
        omega
      obtain ⟨it', hit', hp, hbefore, hafter, hlast, hsound⟩ :=
        insertValue_spec { it with node := grow kNodeValues it.node } v
          ⟨hposition, Nat.le_of_lt hgrow, Nat.zero_lt_of_lt hgrow, Nat.min_le_left _ _,
            fun h => absurd (hroot.symm.trans h) (by decide), hpath⟩ hgrow
      rw [if_pos hlt, if_pos hroot, hit']
      refine ⟨it', _, rfl, hbefore, hafter, hlast, hsound, fun h => ?_⟩
      rw [hp] at h
      exact absurd (hroot.symm.trans h) (by decide)
    · have hready : it.Ready kNodeValues := ⟨by omega, hposition, fun _ _ => trivial, hpath⟩
      obtain ⟨room, hroom, halike, hready, hcount'⟩ := rebalanceOrSplit_makesRoom hk hready (by omega)
      obtain ⟨hmax, hposition', -, hpath'⟩ := hready
      obtain ⟨it', hit', hp, hbefore, hafter, hlast, hsound⟩ := insertValue_spec room v
        ⟨hposition', by omega, by omega, by omega, fun _ => hmax, hpath'⟩ (by omega)
      have hbefore := hbefore.trans halike.before
      have hafter := hafter.trans (congrArg _ halike.after)
      rw [if_neg hlt, hroom]
      simp only
      rw [hit']
      refine ⟨it', _, rfl, hbefore, hafter, hlast, hsound, fun _ => ?_⟩
      rw [hlength hbefore hafter]
      split_ifs with hroot
      · rw [length_of_isRoot hroot]
      · rw [hsize (Bool.eq_false_iff.mpr hroot)]
  · rw [if_neg heq]
    obtain ⟨it', hit', hp, hbefore, hafter, hlast, hsound⟩ := insertValue_spec it v hit (by omega)
    rw [hit']
    refine ⟨it', _, rfl, hbefore, hafter, hlast, hsound, fun hroot => ?_⟩
    rw [hp] at hroot
    rw [hlength hbefore hafter, ← hsize hroot, hroot]
    rfl

end

end TikvCpp.Btree
