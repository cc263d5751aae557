import Mathlib.Data.List.Basic
import Mathlib.Tactic.SplitIfs

/-! The nodes of `btree.h`. A node holds `count` values and has `count + 1` children around
them; a leaf is a node whose children are all `Unit`, so the functions on nodes are the same
for leaves and internal nodes. What rebalancing, splitting and merging do is said by one
relation: a node falls apart at one of its values into a node on the left and a node on
the right. -/

namespace TikvCpp.Btree

/-- `btree_node`: child `0`, and each value with the child on its right. -/
structure Node (V C : Type) where
  maxCount : ℕ
  first : C
  rest : List (V × C)

namespace Node

variable {V C : Type}

def count (n : Node V C) : ℕ := n.rest.length

def values (n : Node V C) : List V := n.rest.map Prod.fst

def children (n : Node V C) : List C := n.first :: n.rest.map Prod.snd

theorem length_children (n : Node V C) : n.children.length = n.count + 1 := by
  rw [children, List.length_cons, List.length_map, count]

/-- `insert_value` at `i`, and in an internal node the child to the right of the new value. -/
def insertValue (n : Node V C) (i : ℕ) (x : V) (c : C) : Node V C :=
  { n with rest := n.rest.take i ++ (x, c) :: n.rest.drop i }

/-- `remove_value`: the value at `i` and, in an internal node, the child on its right. -/
def removeValue (n : Node V C) (i : ℕ) : Node V C := { n with rest := n.rest.eraseIdx i }

/-- The value at `i` replaced, as a swap with another node does. -/
def setValue (n : Node V C) (i : ℕ) (x : V) : Node V C :=
  { n with rest := n.rest.modify i fun e => (x, e.2) }

/-- `rebalance_right_to_left` on a node, the value `d` between it and its right sibling
`src` in their parent, and `src`; nothing where an assertion fails. -/
def rebalanceRightToLeft (n : Node V C) (d : V) (src : Node V C) (toMove : ℕ) :
    Option (Node V C × V × Node V C) :=
  if n.count ≤ src.count ∧ 1 ≤ toMove ∧ toMove ≤ src.count then
    match src.rest.drop (toMove - 1) with
    | (d', c) :: rest =>
      some ({ n with rest := n.rest ++ (d, src.first) :: src.rest.take (toMove - 1) }, d',
        { src with first := c, rest := rest })
    | [] => none
  else none

/-- `rebalance_left_to_right` on a node, the value between it and its right sibling, and
that sibling. -/
def rebalanceLeftToRight (n : Node V C) (d : V) (dest : Node V C) (toMove : ℕ) :
    Option (Node V C × V × Node V C) :=
  if dest.count ≤ n.count ∧ 1 ≤ toMove ∧ toMove ≤ n.count then
    match n.rest.drop (n.count - toMove) with
    | (d', c) :: moved =>
      some ({ n with rest := n.rest.take (n.count - toMove) }, d',
        { dest with first := c, rest := moved ++ (d, dest.first) :: dest.rest })
    | [] => none
  else none

/-- `split`: what stays, the value that goes up, and the new right sibling, which has
room for `destMax` values. -/
def split (n : Node V C) (insertPosition destMax : ℕ) : Option (Node V C × V × Node V C) :=
  let destCount :=
    if insertPosition = 0 then n.count - 1
    else if insertPosition = n.maxCount then 0
    else n.count / 2
  let left := n.count - destCount
  if 1 ≤ left then
    match n.rest.drop (left - 1) with
    | (d, c) :: moved =>
      some ({ n with rest := n.rest.take (left - 1) }, d, { maxCount := destMax, first := c, rest := moved })
    | [] => none
  else none

/-- `merge` of a node, the value between it and its right sibling, and that sibling. -/
def merge (n : Node V C) (d : V) (src : Node V C) : Node V C :=
  { n with rest := n.rest ++ (d, src.first) :: src.rest }

/-- `n` falls apart at the value `d`. -/
structure Parts (n l : Node V C) (d : V) (r : Node V C) : Prop where
  first : l.first = n.first
  rest : n.rest = l.rest ++ (d, r.first) :: r.rest

theorem parts_merge (l : Node V C) (d : V) (r : Node V C) : Parts (l.merge d r) l d r := ⟨rfl, rfl⟩

theorem Parts.count {n l r : Node V C} {d : V} (h : Parts n l d r) : n.count = l.count + 1 + r.count := by
  unfold Node.count
  rw [h.rest, List.length_append, List.length_cons]
  omega

theorem drop_eq_cons {α : Type} {l : List α} {i : ℕ} (h : i < l.length) :
    ∃ a rest, l.drop i = a :: rest ∧ l = l.take i ++ a :: rest := by
  obtain ⟨a, rest, hdrop⟩ := List.exists_cons_of_ne_nil (mt List.drop_eq_nil_iff.mp (Nat.not_le.mpr h))
  exact ⟨a, rest, hdrop, by rw [← hdrop, List.take_append_drop]⟩

/-- A rebalance moves the value between two nodes within what they hold together. -/
theorem rebalanceRightToLeft_parts (n : Node V C) (d : V) (src : Node V C) (toMove : ℕ) (hle : n.count ≤ src.count)
    (hmove : 1 ≤ toMove) (hsrc : toMove ≤ src.count) :
    ∃ l d' r, n.rebalanceRightToLeft d src toMove = some (l, d', r) ∧ Parts (n.merge d src) l d' r ∧
      l.count = n.count + toMove ∧ l.maxCount = n.maxCount ∧ r.maxCount = src.maxCount := by
  obtain ⟨⟨d', c⟩, rest, hdrop, hsplit⟩ :=
    drop_eq_cons (l := src.rest) (i := toMove - 1) (by unfold count at hsrc; omega)
  rw [rebalanceRightToLeft, if_pos ⟨hle, hmove, hsrc⟩, hdrop]
  refine ⟨_, _, _, rfl, ⟨rfl, ?_⟩, ?_, rfl, rfl⟩
  · show n.rest ++ (d, src.first) :: src.rest = (n.rest ++ (d, src.first) :: src.rest.take (toMove - 1)) ++ (d', c) :: rest
    rw [List.append_assoc, List.cons_append, ← hsplit]
  · unfold count at *
    rw [List.length_append, List.length_cons, List.length_take]
    omega

theorem rebalanceLeftToRight_parts (n : Node V C) (d : V) (dest : Node V C) (toMove : ℕ) (hle : dest.count ≤ n.count)
    (hmove : 1 ≤ toMove) (hn : toMove ≤ n.count) :
    ∃ l d' r, n.rebalanceLeftToRight d dest toMove = some (l, d', r) ∧ Parts (n.merge d dest) l d' r ∧
      l.count + toMove = n.count ∧ l.maxCount = n.maxCount ∧ r.maxCount = dest.maxCount := by
  obtain ⟨⟨d', c⟩, moved, hdrop, hsplit⟩ :=
    drop_eq_cons (l := n.rest) (i := n.count - toMove) (by unfold count at *; omega)
  rw [rebalanceLeftToRight, if_pos ⟨hle, hmove, hn⟩, hdrop]
  refine ⟨_, _, _, rfl, ⟨rfl, ?_⟩, ?_, rfl, rfl⟩
  · show n.rest ++ (d, dest.first) :: dest.rest =
      n.rest.take (n.count - toMove) ++ (d', c) :: (moved ++ (d, dest.first) :: dest.rest)
    rw [← List.cons_append, ← List.append_assoc, ← hsplit]
  · unfold count at *
    rw [List.length_take]
    omega

/-- A split leaves room on the side where the insertion is to go. -/
theorem split_parts (n : Node V C) (insertPosition destMax : ℕ) (hcount : 3 ≤ n.count)
    (hfull : n.count = n.maxCount) :
    ∃ l d r, n.split insertPosition destMax = some (l, d, r) ∧ Parts n l d r ∧
      l.maxCount = n.maxCount ∧ r.maxCount = destMax ∧ l.count < n.count ∧ r.count < n.count ∧
      (insertPosition ≤ l.count → 0 < r.count) ∧ (l.count < insertPosition → 0 < l.count) := by
  set destCount := if insertPosition = 0 then n.count - 1 else if insertPosition = n.maxCount then 0 else n.count / 2
    with hdest
  have hbound : destCount ≤ n.count - 1 ∧ (insertPosition = 0 → destCount = n.count - 1) ∧
      (insertPosition = n.maxCount → insertPosition ≠ 0 → destCount = 0) ∧
      (insertPosition ≠ 0 → insertPosition ≠ n.maxCount → destCount = n.count / 2) := by
    rw [hdest]
    split_ifs <;> omega
  obtain ⟨⟨d, c⟩, moved, hdrop, hsplit⟩ :=
    drop_eq_cons (l := n.rest) (i := n.count - destCount - 1) (by unfold count at *; omega)
  have hlen := congrArg List.length hsplit
  rw [List.length_append, List.length_take, List.length_cons] at hlen
  simp only [split, ← hdest]
  rw [if_pos (by omega), hdrop]
  refine ⟨_, _, _, rfl, ⟨rfl, hsplit⟩, rfl, rfl, ?_⟩
  unfold count at *
  simp only [List.length_take]
  omega

theorem Parts.children {n l r : Node V C} {d : V} (h : Parts n l d r) :
    n.children = l.children ++ r.children := by
  unfold Node.children
  rw [h.rest, h.first, List.map_append, List.map_cons, List.cons_append]

/-! ### What a node contains -/

section

variable (f : C → List V) (n : Node V C)

/-- A value and what the child on its right contains. -/
def entry (e : V × C) : List V := e.1 :: f e.2

/-- The values below a node in order, where `f` says what a child contains. -/
def contents : List V := f n.first ++ n.rest.flatMap (entry f)

/-- The values up to the end of child `i`. -/
def upTo (i : ℕ) : List V := f n.first ++ (n.rest.take i).flatMap (entry f)

/-- The values from the one at `i` on. -/
def after (i : ℕ) : List V := (n.rest.drop i).flatMap (entry f)

theorem upTo_append_after (i : ℕ) : n.upTo f i ++ n.after f i = n.contents f := by
  unfold upTo after contents
  rw [List.append_assoc, ← List.flatMap_append, List.take_append_drop]

theorem upTo_count : n.upTo f n.count = n.contents f := by
  unfold upTo contents count
  rw [List.take_length]

theorem after_count : n.after f n.count = [] := by
  unfold after count
  rw [List.drop_length, List.flatMap_nil]

variable {f n} {l r : Node V C} {d : V}

theorem Parts.contents (h : Parts n l d r) : n.contents f = l.contents f ++ d :: r.contents f := by
  unfold Node.contents
  rw [h.rest, h.first, List.flatMap_append, List.flatMap_cons, List.append_assoc]
  rfl

/-- A position left of `d`. -/
theorem Parts.left (h : Parts n l d r) {i : ℕ} (hi : i ≤ l.count) :
    n.children[i]? = l.children[i]? ∧ n.upTo f i = l.upTo f i ∧ n.after f i = l.after f i ++ d :: r.contents f := by
  refine ⟨?_, ?_, ?_⟩
  · rw [h.children, List.getElem?_append_left (by rw [length_children]; omega)]
  · unfold upTo
    rw [h.rest, h.first, List.take_append_of_le_length hi]
  · unfold after Node.contents
    rw [h.rest, List.drop_append_of_le_length hi, List.flatMap_append, List.flatMap_cons]
    rfl

/-- A position right of `d`. -/
theorem Parts.right (h : Parts n l d r) (i : ℕ) :
    n.children[l.count + 1 + i]? = r.children[i]? ∧ n.upTo f (l.count + 1 + i) = l.contents f ++ d :: r.upTo f i ∧
      n.after f (l.count + 1 + i) = r.after f i := by
  have hi : l.count + 1 + i - l.rest.length = i + 1 := by
    unfold Node.count
    omega
  refine ⟨?_, ?_, ?_⟩
  · rw [h.children, List.getElem?_append_right (by rw [length_children]; omega), length_children, Nat.add_sub_cancel_left]
  · unfold upTo Node.contents
    rw [h.rest, h.first, List.take_append, List.take_of_length_le (by unfold Node.count; omega), hi,
      List.take_succ_cons, List.flatMap_append, List.flatMap_cons, List.append_assoc]
    rfl
  · unfold after
    rw [h.rest, List.drop_append, List.drop_of_length_le (by unfold Node.count; omega), hi, List.drop_succ_cons,
      List.nil_append]

end

end Node

/-! ### A node without one of its children -/

/-- The parent of a node, and by what is on both sides the node's position in it. The
entries on the left are listed from the nearest one on. -/
structure Frame (V C : Type) where
  maxCount : ℕ
  left : List (C × V)
  right : List (V × C)

variable {V C : Type}

namespace Frame

def position (fr : Frame V C) : ℕ := fr.left.length

def count (fr : Frame V C) : ℕ := fr.left.length + fr.right.length

/-- The first child, and the values with the children on their right. -/
def closeOver : List (C × V) → C → List (V × C) → C × List (V × C)
  | [], c, right => (c, right)
  | (c', v) :: left, c, right => closeOver left c' ((v, c) :: right)

/-- The parent with `c` in its place. -/
def plug (fr : Frame V C) (c : C) : Node V C :=
  { maxCount := fr.maxCount, first := (closeOver fr.left c fr.right).1, rest := (closeOver fr.left c fr.right).2 }

end Frame

/-- Move `i` children to the right. -/
def openFrom (left : List (C × V)) (c : C) : List (V × C) → ℕ → C × List (C × V) × List (V × C)
  | (v, c') :: rest, i + 1 => openFrom ((c, v) :: left) c' rest i
  | rest, _ => (c, left, rest)

/-- The child at `i`, and the node without it. -/
def Node.openAt (n : Node V C) (i : ℕ) : C × Frame V C :=
  let o := openFrom [] n.first n.rest i
  (o.1, { maxCount := n.maxCount, left := o.2.1, right := o.2.2 })

namespace Frame

/-- The children other than the missing one. -/
def siblings (fr : Frame V C) : List C := fr.left.map Prod.fst ++ fr.right.map Prod.snd

/-- What comes before the missing child. -/
def beforeIn (f : C → List V) : List (C × V) → List V
  | [] => []
  | e :: left => beforeIn f left ++ f e.1 ++ [e.2]

def before (f : C → List V) (fr : Frame V C) : List V := beforeIn f fr.left

/-- What comes after it. -/
def after (f : C → List V) (fr : Frame V C) : List V := fr.right.flatMap (Node.entry f)

theorem closeOver_children (left : List (C × V)) (c : C) (right : List (V × C)) :
    (closeOver left c right).1 :: (closeOver left c right).2.map Prod.snd =
      (left.map Prod.fst).reverse ++ c :: right.map Prod.snd := by
  induction left generalizing c right with
  | nil => rfl
  | cons e left ih =>
    rw [closeOver, ih]
    simp

theorem closeOver_drop (left : List (C × V)) (c : C) (right : List (V × C)) :
    (closeOver left c right).2.drop left.length = right := by
  induction left generalizing c right with
  | nil => rfl
  | cons e left ih => rw [closeOver, List.length_cons, ← List.drop_drop, ih, List.drop_succ_cons, List.drop_zero]

theorem closeOver_contents (f : C → List V) (left : List (C × V)) (c : C) (right : List (V × C)) :
    f (closeOver left c right).1 ++ (closeOver left c right).2.flatMap (Node.entry f) =
      beforeIn f left ++ f c ++ right.flatMap (Node.entry f) := by
  induction left generalizing c right with
  | nil => rfl
  | cons e left ih =>
    rw [closeOver, ih, beforeIn, List.flatMap_cons]
    simp [Node.entry]

variable (fr : Frame V C) (c : C)

theorem children_plug : (fr.plug c).children = (fr.left.map Prod.fst).reverse ++ c :: fr.right.map Prod.snd :=
  closeOver_children fr.left c fr.right

@[simp] theorem maxCount_plug : (fr.plug c).maxCount = fr.maxCount := rfl

@[simp] theorem count_plug : (fr.plug c).count = fr.count := by
  have hlen := (fr.plug c).length_children
  rw [children_plug, List.length_append, List.length_reverse, List.length_map, List.length_cons, List.length_map]
    at hlen
  unfold count
  omega

theorem count_cons_left (e : C × V) : ({ fr with left := e :: fr.left } : Frame V C).count = fr.count + 1 :=
  Nat.add_right_comm fr.left.length 1 fr.right.length

theorem count_cons_right (e : V × C) : ({ fr with right := e :: fr.right } : Frame V C).count = fr.count + 1 := rfl

theorem position_le : fr.position ≤ fr.count := Nat.le_add_right _ _

theorem child_plug : (fr.plug c).children[fr.position]? = some c := by
  rw [children_plug, List.getElem?_append_right (by simp [position])]
  simp [position]

theorem forall_children_plug {P : C → Prop} :
    (∀ x ∈ (fr.plug c).children, P x) ↔ P c ∧ ∀ x ∈ fr.siblings, P x := by
  rw [children_plug, siblings]
  simp only [List.mem_append, List.mem_reverse, List.mem_cons]
  constructor
  · exact fun h => ⟨h c (.inr (.inl rfl)), fun x hx => h x (hx.imp id .inr)⟩
  · rintro ⟨hc, h⟩ x (hx | rfl | hx)
    · exact h x (.inl hx)
    · exact hc
    · exact h x (.inr hx)

variable (f : C → List V)

theorem contents_plug : (fr.plug c).contents f = fr.before f ++ f c ++ fr.after f :=
  closeOver_contents f fr.left c fr.right

theorem after_plug : (fr.plug c).after f fr.position = fr.after f := by
  show ((closeOver fr.left c fr.right).2.drop fr.left.length).flatMap _ = _
  rw [closeOver_drop]
  rfl

theorem upTo_plug : (fr.plug c).upTo f fr.position = fr.before f ++ f c := by
  have h := (fr.plug c).upTo_append_after f fr.position
  rw [contents_plug, after_plug] at h
  exact List.append_cancel_right h

end Frame

theorem closeOver_openFrom (left : List (C × V)) (c : C) (rest : List (V × C)) (i : ℕ) (h : i ≤ rest.length) :
    Frame.closeOver (openFrom left c rest i).2.1 (openFrom left c rest i).1 (openFrom left c rest i).2.2 =
      Frame.closeOver left c rest ∧ (openFrom left c rest i).2.1.length = left.length + i := by
  induction rest generalizing left c i with
  | nil =>
    obtain rfl : i = 0 := Nat.le_zero.mp h
    exact ⟨rfl, rfl⟩
  | cons e rest ih =>
    cases i with
    | zero => exact ⟨rfl, rfl⟩
    | succ i =>
      obtain ⟨hclose, hlen⟩ := ih ((c, e.1) :: left) e.2 i (Nat.le_of_succ_le_succ h)
      refine ⟨hclose, hlen.trans ?_⟩
      rw [List.length_cons]
      omega

namespace Node

variable {n : Node V C} {i : ℕ}

/-- Opening a node and closing it again. -/
theorem plug_openAt (h : i ≤ n.count) : (n.openAt i).2.plug (n.openAt i).1 = n := by
  have hclose : Frame.closeOver (n.openAt i).2.left (n.openAt i).1 (n.openAt i).2.right = (n.first, n.rest) :=
    (closeOver_openFrom [] n.first n.rest i h).1
  rw [Frame.plug, hclose]
  rfl

theorem position_openAt (h : i ≤ n.count) : (n.openAt i).2.position = i := by
  have hlen := (closeOver_openFrom [] n.first n.rest i h).2
  rw [List.length_nil, Nat.zero_add] at hlen
  exact hlen

theorem openAt_child (h : i ≤ n.count) : n.children[i]? = some (n.openAt i).1 := by
  have hchild := (n.openAt i).2.child_plug (n.openAt i).1
  rw [plug_openAt h, position_openAt h] at hchild
  exact hchild

variable (f : C → List V)

theorem openAt_upTo (h : i ≤ n.count) : n.upTo f i = (n.openAt i).2.before f ++ f (n.openAt i).1 := by
  have hupTo := (n.openAt i).2.upTo_plug (n.openAt i).1 f
  rw [plug_openAt h, position_openAt h] at hupTo
  exact hupTo

theorem openAt_after (h : i ≤ n.count) : n.after f i = (n.openAt i).2.after f := by
  have hafter := (n.openAt i).2.after_plug (n.openAt i).1 f
  rw [plug_openAt h, position_openAt h] at hafter
  exact hafter

theorem count_openAt (h : i ≤ n.count) : (n.openAt i).2.count = n.count := by
  rw [← (n.openAt i).2.count_plug (n.openAt i).1, plug_openAt h]

theorem forall_openAt {P : C → Prop} (h : i ≤ n.count) :
    (∀ x ∈ n.children, P x) ↔ P (n.openAt i).1 ∧ ∀ x ∈ (n.openAt i).2.siblings, P x := by
  rw [← Frame.forall_children_plug, plug_openAt h]

end Node

end TikvCpp.Btree
