import TikvCpp.Data.OrdMap
import TikvCpp.Order.Span
import Mathlib.Data.List.Lex
import Mathlib.Data.Prod.Lex
import Mathlib.Order.BoundedOrder.Basic

/-! The data types of `meta.h`. Every `std::string` is its list of bytes, ordered
as `std::string::compare` orders it: lexicographically by unsigned bytes, a
proper prefix first. Ids and versions are 64-bit words. -/

namespace TikvCpp

open Data

instance linearOrderUInt8 : LinearOrder UInt8 where
  le_refl := UInt8.le_refl
  le_trans _ _ _ := UInt8.le_trans
  le_antisymm _ _ := UInt8.le_antisymm
  le_total := UInt8.le_total
  lt_iff_le_not_ge _ _ := Std.LawfulOrderLT.lt_iff _ _
  toDecidableLE := inferInstance
  toDecidableEq := inferInstance
  toDecidableLT := inferInstance

instance linearOrderUInt64 : LinearOrder UInt64 where
  le_refl := UInt64.le_refl
  le_trans _ _ _ := UInt64.le_trans
  le_antisymm _ _ := UInt64.le_antisymm
  le_total := UInt64.le_total
  lt_iff_le_not_ge _ _ := Std.LawfulOrderLT.lt_iff _ _
  toDecidableLE := inferInstance
  toDecidableEq := inferInstance
  toDecidableLT := inferInstance

/-- A `std::string`: keys, addresses, names and labels. -/
abbrev Str := List UInt8

instance linearOrderStr : LinearOrder Str := List.instLinearOrder

/-- The empty string is the least one. -/
instance orderBotStr : OrderBot Str where
  bot := []
  bot_le s := not_lt.mp (List.not_lt_nil s)

@[simp] theorem str_bot : (⊥ : Str) = [] := rfl

/-- `Error`: the message of a failed operation. -/
structure Error where
  error : String
  deriving DecidableEq, Repr

@[simp] theorem isOk_ok {α : Type} (a : α) : (Except.ok a : Except Error α).isOk = true := rfl

@[simp] theorem isOk_error {α : Type} (err : Error) : (Except.error err : Except Error α).isOk = false := rfl

/-! ### Versions -/

structure RegionVerID where
  id : UInt64 := 0
  confVer : UInt64 := 0
  ver : UInt64 := 0
  deriving DecidableEq, Repr, Inhabited

namespace RegionVerID

/-- `RegionVerID::operator<`. -/
def less (a b : RegionVerID) : Bool :=
  if a.id = b.id then
    if a.ver = b.ver then decide (a.confVer < b.confVer) else decide (a.ver < b.ver)
  else decide (a.id < b.id)

/-- The id, the version and the configuration version, compared in this order. -/
def sortKey (v : RegionVerID) : UInt64 ×ₗ UInt64 ×ₗ UInt64 := toLex (v.id, toLex (v.ver, v.confVer))

theorem less_iff {a b : RegionVerID} : a.less b = true ↔ a.sortKey < b.sortKey := by
  simp only [less, sortKey, Prod.Lex.toLex_lt_toLex]
  split_ifs with hi hv <;> simp [*]

theorem sortKey_injective : Function.Injective sortKey := by
  rintro ⟨i, c, v⟩ ⟨i', c', v'⟩ h
  simp only [sortKey, EmbeddingLike.apply_eq_iff_eq, Prod.mk.injEq] at h
  simp [h]

instance : LT RegionVerID := ⟨fun a b => a.less b = true⟩
instance : LE RegionVerID := ⟨fun a b => b.less a = false⟩
instance : DecidableLT RegionVerID := fun a b => inferInstanceAs (Decidable (a.less b = true))
instance : DecidableLE RegionVerID := fun a b => inferInstanceAs (Decidable (b.less a = false))

theorem lt_iff {a b : RegionVerID} : a < b ↔ a.sortKey < b.sortKey := less_iff

theorem le_iff {a b : RegionVerID} : a ≤ b ↔ a.sortKey ≤ b.sortKey := by
  rw [← not_lt, ← less_iff]
  exact (Bool.not_eq_true _).symm.to_iff

instance : LinearOrder RegionVerID where
  le_refl a := le_iff.mpr le_rfl
  le_trans a b c h h' := le_iff.mpr ((le_iff.mp h).trans (le_iff.mp h'))
  le_antisymm a b h h' := sortKey_injective ((le_iff.mp h).antisymm (le_iff.mp h'))
  le_total a b := by simpa only [le_iff] using le_total a.sortKey b.sortKey
  lt_iff_le_not_ge a b := by simpa only [le_iff, lt_iff] using lt_iff_le_not_ge
  toDecidableLE := inferInstance
  toDecidableEq := inferInstance
  toDecidableLT := inferInstance

end RegionVerID

/-! ### Regions -/

structure Peer where
  id : UInt64 := 0
  storeId : UInt64 := 0
  deriving DecidableEq, Repr, Inhabited

structure Region where
  verId : RegionVerID := {}
  startKey : Str := []
  endKey : Str := []
  peers : List Peer := []
  leader : Peer := {}
  deriving DecidableEq, Repr, Inhabited

namespace Region

/-- `Region::contains`: an empty end key means no upper bound. -/
def contains (r : Region) (key : Str) : Bool :=
  decide (r.startKey ≤ key) && (decide (key < r.endKey) || r.endKey.length == 0)

theorem contains_iff {r : Region} {key : Str} :
    r.contains key = true ↔ key ∈ Order.span r.startKey r.endKey := by
  simp [contains, Order.mem_span]

/-- The scan shared by `switch_leader` and `switch_leader_by_peer_id`: every
matching peer overwrites the leader, so the last match stays. -/
def switchLeaderTo (r : Region) (pick : Peer → Bool) : Region :=
  { r with leader := r.peers.foldl (fun leader p => if pick p then p else leader) r.leader }

/-- `Region::switch_leader`. -/
def switchLeader (r : Region) (storeId : UInt64) : Region :=
  r.switchLeaderTo fun p => p.storeId == storeId

/-- `Region::switch_leader_by_peer_id`. -/
def switchLeaderByPeerId (r : Region) (peerId : UInt64) : Region :=
  r.switchLeaderTo fun p => p.id == peerId

@[simp] theorem switchLeaderTo_verId (r : Region) (f : Peer → Bool) :
    (r.switchLeaderTo f).verId = r.verId := rfl

@[simp] theorem switchLeaderTo_startKey (r : Region) (f : Peer → Bool) :
    (r.switchLeaderTo f).startKey = r.startKey := rfl

@[simp] theorem switchLeaderTo_endKey (r : Region) (f : Peer → Bool) :
    (r.switchLeaderTo f).endKey = r.endKey := rfl

@[simp] theorem switchLeaderTo_peers (r : Region) (f : Peer → Bool) :
    (r.switchLeaderTo f).peers = r.peers := rfl

/-- The scan keeps the old leader or ends at a matching peer. -/
theorem switchLeaderTo_leader (r : Region) (f : Peer → Bool) :
    ((r.switchLeaderTo f).leader ∈ r.peers ∧ f (r.switchLeaderTo f).leader = true) ∨
      ((r.switchLeaderTo f).leader = r.leader ∧ ∀ p ∈ r.peers, f p = false) := by
  simp only [switchLeaderTo]
  induction r.peers using List.reverseRecOn with
  | nil => simp
  | append_singleton ps p ih =>
    simp only [List.foldl_append, List.foldl_cons, List.foldl_nil, List.mem_append,
      List.mem_singleton]
    split_ifs with hp
    · exact .inl ⟨.inr rfl, hp⟩
    · rcases ih with ⟨hmem, hf⟩ | ⟨heq, hnone⟩
      · exact .inl ⟨.inl hmem, hf⟩
      · refine .inr ⟨heq, fun q hq => ?_⟩
        rcases hq with hq | rfl
        · exact hnone q hq
        · simpa using hp

end Region

/-! ### Stores -/

inductive StoreState
  | up | offline | tombstone
  deriving DecidableEq, Repr

structure Store where
  id : UInt64 := 0
  state : StoreState := .offline
  addr : Str := []
  labels : OrdMap Str Str := ∅
  deriving DecidableEq

/-! ### Servers of PD -/

structure PDServerInfo where
  id : UInt64 := 0
  clusterId : UInt64 := 0
  isLeader : Bool := false
  name : Str := []
  clientUrls : List Str := []
  deriving DecidableEq

end TikvCpp
