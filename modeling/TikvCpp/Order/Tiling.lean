import TikvCpp.Order.Span
import Mathlib.Logic.Function.Basic

/-! Families of ranges that tile the keys: every key lies in exactly one range, and no
range is empty. A range is cut at a key and its two parts are put at two indices, over
whatever ranges were there. The family still tiles in exactly the cases below. -/

namespace TikvCpp.Order

open Function

section Cut

variable {ι κ : Type*} [DecidableEq ι] {R : ι → Option (κ × κ)} {i j : ι} {s : κ × κ} {k : κ}

/-- The part of `s` below `k` is put at `i`, and then the part from `k` on at `j`. -/
def cutAt (R : ι → Option (κ × κ)) (i j : ι) (s : κ × κ) (k : κ) : ι → Option (κ × κ) :=
  update (update R i (some (s.1, k))) j (some (k, s.2))

theorem cutAt_upper : cutAt R i j s k j = some (k, s.2) := update_self ..

theorem cutAt_lower (hij : i ≠ j) : cutAt R i j s k i = some (s.1, k) := by
  rw [cutAt, update_of_ne hij, update_self]

theorem cutAt_other {a : ι} (hi : a ≠ i) (hj : a ≠ j) : cutAt R i j s k a = R a := by
  rw [cutAt, update_of_ne hj, update_of_ne hi]

omit [DecidableEq ι] in
theorem ne_of_some_of_none {a : ι} {t : κ × κ} (ha : R a = some t) (hi : R i = none) : a ≠ i := by
  rintro rfl
  rw [hi] at ha
  contradiction

/-- A range of the family after the cut is the upper part, the lower part or an old one. -/
theorem eq_of_cutAt {a : ι} {t : κ × κ} (h : cutAt R i j s k a = some t) :
    (a = j ∧ t = (k, s.2)) ∨ (a = i ∧ i ≠ j ∧ t = (s.1, k)) ∨ (a ≠ i ∧ a ≠ j ∧ R a = some t) := by
  by_cases hj : a = j
  · subst hj
    rw [cutAt_upper] at h
    exact .inl ⟨rfl, (Option.some.inj h).symm⟩
  · by_cases hi : a = i
    · subst hi
      rw [cutAt_lower hj] at h
      exact .inr (.inl ⟨rfl, hj, (Option.some.inj h).symm⟩)
    · rw [cutAt_other hi hj] at h
      exact .inr (.inr ⟨hi, hj, h⟩)

end Cut

variable {ι κ : Type*} [LinearOrder κ] [OrderBot κ]

/-- Every key lies in exactly one range of the family, and every range holds its lower end. -/
structure Tiles (R : ι → Option (κ × κ)) : Prop where
  covers : ∀ k, ∃ i s, R i = some s ∧ k ∈ span s.1 s.2
  unique : ∀ i j s t k, R i = some s → R j = some t → k ∈ span s.1 s.2 → k ∈ span t.1 t.2 → i = j
  start_mem : ∀ i s, R i = some s → s.1 ∈ span s.1 s.2

variable [DecidableEq ι] {R : ι → Option (κ × κ)} {i j : ι} {s : κ × κ} {k : κ}

/-- The family with one range, over all keys. -/
def whole (i : ι) : ι → Option (κ × κ) := update (fun _ => none) i (some (⊥, ⊥))

theorem eq_of_whole {a : ι} {s : κ × κ} (h : whole i a = some s) : a = i ∧ s = (⊥, ⊥) := by
  by_cases ha : a = i
  · subst ha
    rw [whole, update_self] at h
    exact ⟨rfl, (Option.some.inj h).symm⟩
  · rw [whole, update_of_ne ha] at h
    contradiction

theorem tiles_whole (i : ι) : Tiles (whole (κ := κ) i) where
  covers k := ⟨i, (⊥, ⊥), update_self .., bot_le, .inr rfl⟩
  unique a b s t k hs ht _ _ := (eq_of_whole hs).1.trans (eq_of_whole ht).1.symm
  start_mem a s hs := by
    rw [(eq_of_whole hs).2]
    exact ⟨le_rfl, .inr rfl⟩

namespace Tiles

/-- A key strictly inside cuts a range into two, when the upper part gets an index of its own. -/
theorem cut (h : Tiles R) (hi : R i = some s) (hj : R j = none) (hk : k ∈ span s.1 s.2) (hne : k ≠ s.1) :
    Tiles (cutAt R i j s k) := by
  have hij : i ≠ j := ne_of_some_of_none hi hj
  have hlt : s.1 < k := lt_of_le_of_ne hk.1 hne.symm
  -- both parts hold keys of the old range only
  have hparent : ∀ a t x, cutAt R i j s k a = some t → x ∈ span t.1 t.2 →
      ∃ u, R (if a = j then i else a) = some u ∧ x ∈ span u.1 u.2 := by
    intro a t x ht hx
    rcases eq_of_cutAt ht with ⟨ha, rfl⟩ | ⟨rfl, haj, rfl⟩ | ⟨_, haj, hR⟩
    · exact ⟨s, by rw [if_pos ha, hi], (mem_span_cut hk hne x).mpr (.inr hx)⟩
    · exact ⟨s, by rw [if_neg haj, hi], (mem_span_cut hk hne x).mpr (.inl hx)⟩
    · exact ⟨t, by rw [if_neg haj, hR], hx⟩
  constructor
  · intro x
    obtain ⟨a, t, ht, hx⟩ := h.covers x
    by_cases ha : a = i
    · subst ha
      obtain rfl := Option.some.inj (ht.symm.trans hi)
      rcases (mem_span_cut hk hne x).mp hx with hx | hx
      · exact ⟨a, _, cutAt_lower hij, hx⟩
      · exact ⟨j, _, cutAt_upper, hx⟩
    · exact ⟨a, t, by rw [cutAt_other ha (ne_of_some_of_none ht hj), ht], hx⟩
  · intro a b t u x ht hu hx hx'
    obtain ⟨t', ht', hxt⟩ := hparent a t x ht hx
    obtain ⟨u', hu', hxu⟩ := hparent b u x hu hx'
    have hpar := h.unique _ _ t' u' x ht' hu' hxt hxu
    rcases eq_of_cutAt ht with ⟨rfl, rfl⟩ | ⟨rfl, haj, rfl⟩ | ⟨hai, haj, -⟩ <;>
      rcases eq_of_cutAt hu with ⟨rfl, rfl⟩ | ⟨rfl, hbj, rfl⟩ | ⟨hbi, hbj, -⟩
    · rfl
    · exact absurd hx (not_mem_both_of_cut hlt hx')
    · rw [if_pos rfl, if_neg hbj] at hpar
      exact absurd hpar.symm hbi
    · exact absurd hx' (not_mem_both_of_cut hlt hx)
    · rfl
    · rwa [if_neg haj, if_neg hbj] at hpar
    · rw [if_neg haj, if_pos rfl] at hpar
      exact absurd hpar hai
    · rwa [if_neg haj, if_neg hbj] at hpar
    · rwa [if_neg haj, if_neg hbj] at hpar
  · intro a t ht
    rcases eq_of_cutAt ht with ⟨_, rfl⟩ | ⟨_, _, rfl⟩ | ⟨_, _, hR⟩
    · exact ⟨le_rfl, hk.2⟩
    · exact ⟨le_rfl, .inl hlt⟩
    · exact h.start_mem a t hR

/-- If the two parts of a range are in a tiling, under two indices, the cut is strictly inside. -/
theorem inside_of_cutAt (hij : i ≠ j) (hs : s.1 ∈ span s.1 s.2) (h : Tiles (cutAt R i j s k)) :
    k ∈ span s.1 s.2 ∧ s.1 < k := by
  have hlow := (h.start_mem i _ (cutAt_lower hij)).2
  have hup := (h.start_mem j _ cutAt_upper).2
  have hlt : s.1 < k := by
    rcases hlow with hlow | rfl
    · exact hlow
    · -- cut at the least key, both parts have the lower end
      exact absurd (h.unique i j _ _ s.1 (cutAt_lower hij) cutAt_upper ⟨le_rfl, .inr rfl⟩ ⟨bot_le, hs.2⟩) hij
  exact ⟨⟨hlt.le, hup⟩, hlt⟩

/-- The upper part then has an index of its own: the range it would replace goes missing. -/
theorem none_of_cutAt (h : Tiles R) (hi : R i = some s) (hij : i ≠ j) (h' : Tiles (cutAt R i j s k)) :
    R j = none := by
  obtain ⟨hk, hlt⟩ := inside_of_cutAt hij (h.start_mem i s hi) h'
  cases hj : R j with
  | none => rfl
  | some t =>
    exfalso
    have ht := h.start_mem j t hj
    have hnot : t.1 ∉ span s.1 s.2 := fun hs => hij (h.unique i j s t t.1 hi hj hs ht)
    obtain ⟨a, u, hu, hx⟩ := h'.covers t.1
    rcases eq_of_cutAt hu with ⟨_, rfl⟩ | ⟨_, _, rfl⟩ | ⟨_, haj, hR⟩
    · exact hnot ((mem_span_cut hk hlt.ne' t.1).mpr (.inr hx))
    · exact hnot ((mem_span_cut hk hlt.ne' t.1).mpr (.inl hx))
    · exact haj (h.unique a j u t t.1 hR hj hx ht)

/-- When both parts are put at the old index, so that only the upper one stays, the cut is
at the lower end. -/
theorem start_of_cutAt (h : Tiles R) (hi : R i = some s) (h' : Tiles (cutAt R i i s k)) : k = s.1 := by
  obtain ⟨a, t, ht, hx⟩ := h'.covers s.1
  rcases eq_of_cutAt ht with ⟨_, rfl⟩ | ⟨_, hne, _⟩ | ⟨hai, _, hR⟩
  · -- the upper part has the lower end; below it is some other range
    rcases lt_or_eq_of_le hx.1 with hlt | heq
    · obtain ⟨b, u, hu, hk⟩ := h'.covers k
      obtain ⟨b', u', hu', hk'⟩ := h.covers k
      have hki : b' ≠ i := by
        rintro rfl
        obtain rfl := Option.some.inj (hu'.symm.trans hi)
        exact absurd hk'.1 (not_le.mpr hlt)
      have hup : k ∈ span k s.2 := h'.start_mem i _ cutAt_upper
      exact absurd (h'.unique b' i u' _ k (by rw [cutAt_other hki hki, hu']) cutAt_upper hk' hup) hki
    · exact heq
  · contradiction
  · exact absurd (h.unique a i t s s.1 hR hi hx (h.start_mem i s hi)) hai

/-- Cutting a range of a tiling leaves a tiling exactly when the cut is strictly inside
and the upper part gets a free index, or when nothing changes. -/
theorem cutAt_iff (h : Tiles R) (hi : R i = some s) :
    Tiles (cutAt R i j s k) ↔ (k ∈ span s.1 s.2 ∧ k ≠ s.1 ∧ R j = none) ∨ (j = i ∧ k = s.1) := by
  constructor
  · intro h'
    by_cases hij : i = j
    · subst hij
      exact .inr ⟨rfl, h.start_of_cutAt hi h'⟩
    · obtain ⟨hk, hlt⟩ := inside_of_cutAt hij (h.start_mem i s hi) h'
      exact .inl ⟨hk, hlt.ne', h.none_of_cutAt hi hij h'⟩
  · rintro (⟨hk, hne, hj⟩ | ⟨rfl, rfl⟩)
    · exact h.cut hi hj hk hne
    · have hsame : cutAt R j j s s.1 = R := by
        rw [cutAt, update_idem, ← hi]
        exact update_eq_self j R
      rwa [hsame]

/-- Putting the parts of the whole key space into a tiling that has no range at the index
of the lower part: the upper part must replace all that was there. -/
theorem cutAt_whole_iff (h : Tiles R) (hi : R i = none) :
    Tiles (cutAt R i j (⊥, ⊥) k) ↔ k ≠ ⊥ ∧ ∀ a t, R a = some t → a = j := by
  constructor
  · intro h'
    have hij : i ≠ j := by
      rintro rfl
      obtain ⟨a, t, ht, hx⟩ := h.covers k
      have hai : a ≠ i := ne_of_some_of_none ht hi
      exact hai (h'.unique a i t _ k (by rw [cutAt_other hai hai, ht]) cutAt_upper hx ⟨le_rfl, .inr rfl⟩)
    obtain ⟨-, hlt⟩ := inside_of_cutAt hij ⟨le_rfl, .inr rfl⟩ h'
    refine ⟨hlt.ne', fun a t ht => ?_⟩
    by_contra haj
    have hai : a ≠ i := ne_of_some_of_none ht hi
    have hmem := h.start_mem a t ht
    have hget : cutAt R i j (⊥, ⊥) k a = some t := by rw [cutAt_other hai haj, ht]
    rcases lt_or_ge t.1 k with hk | hk
    · exact hai (h'.unique a i t _ t.1 hget (cutAt_lower hij) hmem ⟨bot_le, .inl hk⟩)
    · exact haj (h'.unique a j t _ t.1 hget cutAt_upper hmem ⟨hk, .inr rfl⟩)
  · rintro ⟨hk, hall⟩
    have hij : i ≠ j := by
      rintro rfl
      obtain ⟨a, t, ht, -⟩ := h.covers k
      rw [hall a t ht, hi] at ht
      contradiction
    have hsame : cutAt R i j (⊥, ⊥) k = cutAt (whole i) i j (⊥, ⊥) k := by
      funext a
      by_cases haj : a = j
      · rw [haj, cutAt_upper, cutAt_upper]
      · by_cases hai : a = i
        · rw [hai, cutAt_lower hij, cutAt_lower hij]
        · rw [cutAt_other hai haj, cutAt_other hai haj, whole, update_of_ne hai]
          exact Option.eq_none_iff_forall_ne_some.mpr fun t ht => haj (hall a t ht)
    rw [hsame]
    refine (tiles_whole i).cut (update_self ..) ?_ ⟨bot_le, .inr rfl⟩ hk
    rw [whole, update_of_ne hij.symm]

end Tiles

end TikvCpp.Order
