import TikvCpp.Btree.Tree

/-! Iterators step through the values of a tree in order. Where an iterator stands is said by
the values before it; a step takes one more value to that side. -/

namespace TikvCpp.Btree

variable {V : Type} {kNodeValues : ℕ}

/-! ### Leaves and entries -/

theorem leaf_after (n : Node V Unit) (i : ℕ) : n.after (below 0) i = n.values.drop i := by
  unfold Node.after Node.values
  rw [← List.map_drop]
  induction n.rest.drop i with
  | nil => rfl
  | cons e rest ih => rw [List.flatMap_cons, ih]; rfl

theorem leaf_upTo (n : Node V Unit) (i : ℕ) : n.upTo (below 0) i = n.values.take i := by
  unfold Node.upTo Node.values
  rw [← List.map_take]
  induction n.rest.take i with
  | nil => rfl
  | cons e rest ih =>
    rw [List.flatMap_cons, List.map_cons, ← ih]
    rfl

/-- The value at `i` stands between the child at `i` and the next one. -/
theorem Node.upTo_succ {C : Type} (f : C → List V) {n : Node V C} {i : ℕ} (hi : i < n.count) :
    ∃ v, n.values[i]? = some v ∧
      n.upTo f (i + 1) = n.upTo f i ++ v :: f (n.openAt (i + 1)).1 := by
  obtain ⟨e, he⟩ : ∃ e, n.rest[i]? = some e := ⟨_, List.getElem?_eq_getElem hi⟩
  have hchild := n.openAt_child hi
  rw [children, List.getElem?_cons_succ, List.getElem?_map, he] at hchild
  refine ⟨e.1, by rw [values, List.getElem?_map, he]; rfl, ?_⟩
  rw [← Option.some.inj hchild, upTo, upTo, List.take_add_one, he, List.flatMap_append, List.append_assoc]
  show _ ++ (_ ++ [e].flatMap (entry f)) = _
  rw [List.flatMap_singleton]
  rfl

theorem Node.openAt_before_zero {C : Type} (f : C → List V) (n : Node V C) : (n.openAt 0).2.before f = [] := by
  have hposition := n.position_openAt (Nat.zero_le _)
  rw [Frame.before, List.eq_nil_of_length_eq_zero hposition]
  rfl

/-- What is before a child other than the first ends with a value of the node. -/
theorem Node.openAt_before_succ {C : Type} (f : C → List V) {n : Node V C} {i : ℕ} (hi : i < n.count) :
    ∃ v, n.values[i]? = some v ∧ (n.openAt (i + 1)).2.before f = n.upTo f i ++ [v] := by
  obtain ⟨v, hv, hupTo⟩ := n.upTo_succ f hi
  refine ⟨v, hv, (List.append_left_inj (f (n.openAt (i + 1)).1)).mp ?_⟩
  rw [← n.openAt_upTo f hi, hupTo, List.append_assoc]
  rfl

/-- What is after a child other than the last begins with a value of the node. -/
theorem Node.after_of_lt {C : Type} (f : C → List V) {n : Node V C} {i : ℕ} (hi : i < n.count) :
    ∃ v rest, n.values[i]? = some v ∧ n.after f i = v :: rest := by
  obtain ⟨e, rest, hdrop, -⟩ := Node.drop_eq_cons hi
  refine ⟨e.1, f e.2 ++ rest.flatMap (Node.entry f), ?_, ?_⟩
  · have hhead := congrArg List.head? hdrop
    rw [List.head?_drop] at hhead
    rw [values, List.getElem?_map, hhead]
    rfl
  · rw [after, hdrop]
    rfl

theorem Node.values_sublist {C : Type} (f : C → List V) (n : Node V C) : n.values.Sublist (n.contents f) := by
  have hrest : (n.rest.map Prod.fst).Sublist (n.rest.flatMap (Node.entry f)) := by
    induction n.rest with
    | nil => exact List.Sublist.refl _
    | cons e rest ih => exact (ih.trans (List.sublist_append_right _ _)).cons_cons e.1
  exact hrest.trans (List.sublist_append_right _ _)

theorem Node.length_values {C : Type} (n : Node V C) : n.values.length = n.count := List.length_map _

/-! ### Where iterators stand -/

/-- `it` stands after the values `l` of `t`: on a value, or at the end. -/
def Stands (t : Tree V) (l : List V) : Option (Iterator V) → Prop
  | none => t.toList = l
  | some it => it.2.tree = t ∧ it.2.before = l ∧ it.2.position < it.2.node.count

theorem internalLast_stands {h : ℕ} (p : Path V h) (n : Node V (Sub V h)) {i : ℕ} (hi : i ≤ n.count) :
    Stands (p.zip n) (p.before ++ n.upTo (below h) i) (internalLast p n i) := by
  induction p generalizing i with
  | root =>
    rw [internalLast]
    split_ifs with hend
    · rw [hend, n.upTo_count]
      rfl
    · exact ⟨rfl, rfl, Nat.lt_of_le_of_ne hi hend⟩
  | child fr up ih =>
    rw [internalLast]
    split_ifs with hend
    · have hup := ih (fr.plug n) (show fr.position ≤ _ by rw [fr.count_plug]; exact fr.position_le)
      rw [fr.upTo_plug] at hup
      rw [hend, n.upTo_count, Path.before, List.append_assoc]
      exact hup
    · exact ⟨rfl, rfl, Nat.lt_of_le_of_ne hi hend⟩

theorem Path.down_zip {h : ℕ} (p : Path V (h + 1)) {n : Node V (Sub V (h + 1))} {i : ℕ} (hi : i ≤ n.count) :
    (p.down n i).2.zip (p.down n i).1 = p.zip n := by
  show p.zip ((n.openAt i).2.plug (n.openAt i).1) = _
  rw [n.plug_openAt hi]

theorem Path.down_before {h : ℕ} (p : Path V (h + 1)) {n : Node V (Sub V (h + 1))} {i : ℕ} (hi : i ≤ n.count) :
    (p.down n i).2.before ++ (p.down n i).1.toList = p.before ++ n.upTo (below (h + 1)) i := by
  rw [n.openAt_upTo _ hi, ← List.append_assoc]
  rfl

theorem Path.down_after {h : ℕ} (p : Path V (h + 1)) {n : Node V (Sub V (h + 1))} {i : ℕ} (hi : i ≤ n.count) :
    (p.down n i).2.after = n.after (below (h + 1)) i ++ p.after := by
  rw [n.openAt_after _ hi]
  rfl

/-- Down the first children nothing is passed. -/
theorem leftmostLeaf_spec {h : ℕ} (p : Path V h) (n : Node V (Sub V h)) :
    (leftmostLeaf p n).2.zip (leftmostLeaf p n).1 = p.zip n ∧ (leftmostLeaf p n).2.before = p.before := by
  induction h with
  | zero => exact ⟨rfl, rfl⟩
  | succ h ih =>
    obtain ⟨hzip, hbefore⟩ := ih (p.down n 0).2 (p.down n 0).1
    rw [p.down_zip (Nat.zero_le _)] at hzip
    have hfirst := p.down_before (n := n) (Nat.zero_le _)
    have hupTo : n.upTo (below (h + 1)) 0 = (p.down n 0).1.toList := by
      rw [Node.upTo, List.take_zero, List.flatMap_nil, List.append_nil]
      exact congrArg _ (Option.some.inj (n.openAt_child (Nat.zero_le _)))
    rw [hupTo] at hfirst
    exact ⟨hzip, hbefore.trans (List.append_cancel_right hfirst)⟩

theorem leftmostLeaf_pos {h : ℕ} (p : Path V h) {n : Node V (Sub V h)} (hn : 0 < n.count)
    (hkids : ∀ c ∈ n.children, Sound kNodeValues h c) : 0 < (leftmostLeaf p n).1.count := by
  induction h with
  | zero => exact hn
  | succ h ih =>
    have hfirst : Sound kNodeValues (h + 1) (p.down n 0).1 :=
      ((n.forall_openAt (Nat.zero_le _)).mp hkids).1
    exact ih _ hfirst.2.1 hfirst.2.2.2

/-- Down the last children nothing is passed either. -/
theorem rightmostLeaf_spec {h : ℕ} (p : Path V h) (n : Node V (Sub V h)) :
    (rightmostLeaf p n).2.zip (rightmostLeaf p n).1 = p.zip n ∧ (rightmostLeaf p n).2.after = p.after := by
  induction h with
  | zero => exact ⟨rfl, rfl⟩
  | succ h ih =>
    obtain ⟨hzip, hafter⟩ := ih (p.down n n.count).2 (p.down n n.count).1
    rw [p.down_zip (Nat.le_refl _)] at hzip
    rw [p.down_after (Nat.le_refl _), n.after_count, List.nil_append] at hafter
    exact ⟨hzip, hafter⟩

theorem sound_of_tree {h : ℕ} {p : Path V h} {n : Node V (Sub V h)} (ht : (p.zip n).Sound kNodeValues) :
    0 < n.count ∧ ∀ c ∈ n.children, Sound kNodeValues h c := by
  rw [Path.sound_zip] at ht
  cases p with
  | root =>
    cases h with
    | zero => exact ⟨ht.1, fun _ _ => trivial⟩
    | succ h => exact ⟨ht.2.1, ht.2.2.2⟩
  | child fr up => exact ⟨ht.2.2.1, ht.2.2.2.2⟩

/-- The first value of a sound tree. -/
theorem Tree.begin_stands {t : Tree V} (ht : t.Sound kNodeValues) : Stands t [] (some ⟨0, t.begin⟩) := by
  have hroot := sound_of_tree (p := .root) (n := t.root) ht
  obtain ⟨hzip, hbefore⟩ := leftmostLeaf_spec .root t.root
  refine ⟨hzip, ?_, leftmostLeaf_pos .root hroot.1 hroot.2⟩
  show (leftmostLeaf .root t.root).2.before ++ _ = _
  rw [hbefore, leaf_upTo]
  rfl

/-- A step of an iterator takes it past the value it points at. -/
theorem Iter.increment_stands {t : Tree V} (ht : t.Sound kNodeValues) {l : List V} {it : Iterator V}
    (hit : Stands t l (some it)) : ∃ v, it.2.value = some v ∧ Stands t (l ++ [v]) it.2.increment := by
  obtain ⟨h, it⟩ := it
  obtain ⟨rfl, rfl, hposition⟩ := hit
  have hposition : it.position < it.node.count := hposition
  obtain ⟨v, hv, hupTo⟩ := Node.upTo_succ (below h) hposition
  refine ⟨v, hv, ?_⟩
  cases h with
  | zero =>
    have hlast := internalLast_stands it.path it.node hposition
    rw [hupTo, ← List.append_assoc] at hlast
    exact hlast
  | succ h =>
    -- the next value is the first one below the child on the right
    have hchild : Sound kNodeValues (h + 1) (it.path.down it.node (it.position + 1)).1 :=
      ((it.node.forall_openAt hposition).mp (sound_of_tree ht).2).1
    have hdown := it.path.down_before (n := it.node) hposition
    rw [hupTo] at hdown
    obtain ⟨hzip, hbefore⟩ := leftmostLeaf_spec (it.path.down it.node (it.position + 1)).2
      (it.path.down it.node (it.position + 1)).1
    rw [it.path.down_zip hposition] at hzip
    refine ⟨hzip, ?_, leftmostLeaf_pos _ hchild.2.1 hchild.2.2.2⟩
    show (leftmostLeaf _ _).2.before ++ _ = _
    rw [hbefore, leaf_upTo, List.take_zero, List.append_nil]
    refine List.append_cancel_right (hdown.trans ?_)
    rw [Iter.before]
    simp only [List.append_assoc]
    rfl

/-! ### Loops over a tree -/

/-- `for (it = ...; it != end(); ++it)`: the values the body sees, in at most `fuel` rounds. -/
def walk : ℕ → Option (Iterator V) → List V
  | _, none => []
  | 0, some _ => []
  | fuel + 1, some it => it.2.value.toList ++ walk fuel it.2.increment

theorem Stands.length_le {t : Tree V} {l : List V} {it : Option (Iterator V)} (hit : Stands t l it) :
    l.length ≤ t.toList.length := by
  cases it with
  | none => exact Nat.le_of_eq (congrArg List.length hit).symm
  | some it =>
    obtain ⟨rfl, rfl, -⟩ := hit
    rw [← Iter.before_append_after, List.length_append]
    omega

/-- The loop sees each value once, in order, and ends. -/
theorem walk_eq (fuel : ℕ) {t : Tree V} (ht : t.Sound kNodeValues) {l : List V} {it : Option (Iterator V)}
    (hit : Stands t l it) (hfuel : t.toList.length ≤ l.length + fuel) : l ++ walk fuel it = t.toList := by
  induction fuel generalizing l it with
  | zero =>
    cases it with
    | none => exact (List.append_nil l).trans hit.symm
    | some it =>
      obtain ⟨v, -, hnext⟩ := Iter.increment_stands ht hit
      have hlt := hnext.length_le
      rw [List.length_append, List.length_singleton] at hlt
      omega
  | succ fuel ih =>
    cases it with
    | none => exact (List.append_nil l).trans hit.symm
    | some it =>
      obtain ⟨v, hv, hnext⟩ := Iter.increment_stands ht hit
      rw [walk, hv]
      show l ++ ([v] ++ _) = _
      rw [← List.append_assoc]
      apply ih hnext
      rw [List.length_append, List.length_singleton]
      omega

end TikvCpp.Btree
