import TikvCpp.Btree.Node

/-! The trees of `btree.h` and the iterators into them. The height of a node is part of its
type, so all leaves of a tree are equally deep. An iterator is a node with the way up from it
to the root: what the source reaches through `parent()` and `position()`. -/

namespace TikvCpp.Btree

/-- What hangs between the values of a node: nothing in a leaf, and otherwise nodes of one
height less. -/
@[reducible] def Sub (V : Type) : ℕ → Type
  | 0 => Unit
  | h + 1 => Node V (Sub V h)

variable {V : Type}

/-- The values below a child, in order. -/
def below : (h : ℕ) → Sub V h → List V
  | 0, _ => []
  | h + 1, n => Node.contents (below h) n

/-- The values of a node of height `h` and of all nodes below it. -/
def Node.toList {h : ℕ} (n : Node V (Sub V h)) : List V := n.contents (below h)

/-- A root with what is below it. -/
structure Tree (V : Type) where
  height : ℕ
  root : Node V (Sub V height)

def Tree.toList (t : Tree V) : List V := t.root.toList

/-- The way from a node of height `h` up to the root, as the parents without the child one
comes from. -/
inductive Path (V : Type) : ℕ → Type
  | root {h : ℕ} : Path V h
  | child {h : ℕ} (fr : Frame V (Sub V (h + 1))) (up : Path V (h + 1)) : Path V h

namespace Path

/-- The tree around a node. -/
def zip : {h : ℕ} → Path V h → Node V (Sub V h) → Tree V
  | h, .root, n => ⟨h, n⟩
  | _, .child fr up, n => up.zip (fr.plug n)

/-- What comes before the node in the tree. -/
def before : {h : ℕ} → Path V h → List V
  | _, .root => []
  | h, .child fr up => up.before ++ fr.before (below (h + 1))

/-- What comes after it. -/
def after : {h : ℕ} → Path V h → List V
  | _, .root => []
  | h, .child fr up => fr.after (below (h + 1)) ++ up.after

end Path

/-- `btree_iterator` at a node of height `h`. -/
structure Iter (V : Type) (h : ℕ) where
  node : Node V (Sub V h)
  path : Path V h
  position : ℕ

/-- A `btree_iterator` at any height. -/
abbrev Iterator (V : Type) : Type := (h : ℕ) × Iter V h

namespace Iter

variable {h : ℕ}

def tree (it : Iter V h) : Tree V := it.path.zip it.node

/-- The values before the iterator. -/
def before (it : Iter V h) : List V := it.path.before ++ it.node.upTo (below h) it.position

/-- The values from the iterator on. -/
def after (it : Iter V h) : List V := it.node.after (below h) it.position ++ it.path.after

end Iter

theorem Path.zip_toList {h : ℕ} (p : Path V h) (n : Node V (Sub V h)) :
    (p.zip n).toList = p.before ++ n.toList ++ p.after := by
  induction p with
  | root => rw [zip, before, after, List.nil_append, List.append_nil]; rfl
  | child fr up ih =>
    rw [zip, ih, before, after, Node.toList, fr.contents_plug]
    simp only [List.append_assoc]
    rfl

theorem Iter.before_append_after {h : ℕ} (it : Iter V h) : it.before ++ it.after = it.tree.toList := by
  rw [before, after, tree, Path.zip_toList, Node.toList, ← it.node.upTo_append_after _ it.position]
  simp only [List.append_assoc]

/-! ### Moving within a tree -/

/-- One step down, to the child at `i`. -/
def Path.down {h : ℕ} (p : Path V (h + 1)) (n : Node V (Sub V (h + 1))) (i : ℕ) :
    Node V (Sub V h) × Path V h :=
  ((n.openAt i).1, .child (n.openAt i).2 p)

/-- `internal_last`, and the loop of `increment_slow` in a leaf: while the position is the
end of the node, the place of the node in its parent; `none` for the end of the tree. -/
def internalLast : {h : ℕ} → Path V h → Node V (Sub V h) → ℕ → Option (Iterator V)
  | h, .root, node, position => if position = node.count then none else some ⟨h, node, .root, position⟩
  | h, .child fr up, node, position =>
    if position = node.count then internalLast up (fr.plug node) fr.position
    else some ⟨h, node, .child fr up, position⟩

/-- The first child of the first child and so on, down to a leaf. -/
def leftmostLeaf : {h : ℕ} → Path V h → Node V (Sub V h) → Node V Unit × Path V 0
  | 0, path, node => (node, path)
  | _ + 1, path, node => leftmostLeaf (path.down node 0).2 (path.down node 0).1

/-- The last child of the last child and so on. -/
def rightmostLeaf : {h : ℕ} → Path V h → Node V (Sub V h) → Node V Unit × Path V 0
  | 0, path, node => (node, path)
  | _ + 1, path, node => rightmostLeaf (path.down node node.count).2 (path.down node node.count).1

/-- `begin`. -/
def Tree.begin (t : Tree V) : Iter V 0 :=
  let leaf := leftmostLeaf .root t.root
  ⟨leaf.1, leaf.2, 0⟩

/-- `increment`; `none` is `end()`. -/
def Iter.increment : {h : ℕ} → Iter V h → Option (Iterator V)
  | 0, it => internalLast it.path it.node (it.position + 1)
  | _ + 1, it =>
    let child := it.path.down it.node (it.position + 1)
    let leaf := leftmostLeaf child.2 child.1
    some ⟨0, leaf.1, leaf.2, 0⟩

/-- The value an iterator points at. -/
def Iter.value {h : ℕ} (it : Iter V h) : Option V := it.node.values[it.position]?

/-! ### Sound nodes -/

/-- A node other than the root: of full capacity, neither empty nor overfull. -/
def Sound (kNodeValues : ℕ) : (h : ℕ) → Sub V h → Prop
  | 0, _ => True
  | h + 1, n =>
    Node.maxCount n = kNodeValues ∧ 0 < Node.count n ∧ Node.count n ≤ kNodeValues ∧
      ∀ c ∈ Node.children n, Sound kNodeValues h c

/-- All nodes beside and above the path are sound. -/
def Path.Sound (kNodeValues : ℕ) : {h : ℕ} → Path V h → Prop
  | _, .root => True
  | h, .child fr up =>
    fr.maxCount = kNodeValues ∧ 0 < fr.count ∧ fr.count ≤ kNodeValues ∧
      (∀ c ∈ fr.siblings, Btree.Sound kNodeValues (h + 1) c) ∧ up.Sound kNodeValues

/-- A tree the code builds: a root that is a leaf may have a smaller capacity. -/
def Tree.Sound (kNodeValues : ℕ) : Tree V → Prop
  | ⟨0, n⟩ => 0 < n.count ∧ n.count ≤ n.maxCount ∧ n.maxCount ≤ kNodeValues
  | ⟨h + 1, n⟩ => Btree.Sound kNodeValues (h + 2) n

variable {kNodeValues : ℕ}

/-- A node at the lower end of a path, and the path, are as in a sound tree. -/
def Path.Holds (kNodeValues : ℕ) : {h : ℕ} → Path V h → Node V (Sub V h) → Prop
  | h, .root, n => Tree.Sound kNodeValues ⟨h, n⟩
  | h, .child fr up, n => (Path.child fr up).Sound kNodeValues ∧ Btree.Sound kNodeValues (h + 1) n

theorem sound_plug {h : ℕ} (fr : Frame V (Sub V (h + 1))) (n : Node V (Sub V h)) :
    Btree.Sound kNodeValues (h + 2) (fr.plug n) ↔
      (fr.maxCount = kNodeValues ∧ 0 < fr.count ∧ fr.count ≤ kNodeValues ∧
        ∀ c ∈ fr.siblings, Btree.Sound kNodeValues (h + 1) c) ∧ Btree.Sound kNodeValues (h + 1) n := by
  rw [Btree.Sound, fr.maxCount_plug, fr.count_plug, fr.forall_children_plug]
  tauto

/-- The soundness of a tree is that of its nodes, from any of them up to the root and down. -/
theorem Path.sound_zip {h : ℕ} (p : Path V h) (n : Node V (Sub V h)) :
    (p.zip n).Sound kNodeValues ↔ p.Holds kNodeValues n := by
  induction p with
  | root => rfl
  | child fr up ih =>
    have hplug := @sound_plug V kNodeValues _ fr n
    rw [zip, ih (fr.plug n)]
    cases up with
    | root =>
      simp only [Holds, Tree.Sound, Path.Sound, and_true]
      exact hplug
    | child fr' up =>
      simp only [Holds, Path.Sound]
      tauto

end TikvCpp.Btree
