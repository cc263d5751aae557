import TikvCpp.Meta

/-! What `pd_client.cc` makes of the answers PD sends. A message field that is
absent reads as its default, so a message is the record of its fields; fields
that no handler reads are left out, but for the error in a header. An RPC that
fails leaves its error message. -/

namespace TikvCpp

open Data

namespace Metapb

structure Peer where
  id : UInt64 := 0
  storeId : UInt64 := 0

structure RegionEpoch where
  confVer : UInt64 := 0
  version : UInt64 := 0

structure Region where
  id : UInt64 := 0
  startKey : Str := []
  endKey : Str := []
  regionEpoch : RegionEpoch := {}
  peers : List Peer := []

/-- The open enumeration `metapb::StoreState`: a peer may send any number. -/
inductive StoreState
  | up | offline | tombstone
  | other (number : ℤ)

structure StoreLabel where
  key : Str := []
  value : Str := []

structure Store where
  id : UInt64 := 0
  address : Str := []
  state : StoreState := .up
  labels : List StoreLabel := []

end Metapb

namespace Pdpb

/-- The open enumeration `pdpb::ErrorType`. -/
inductive ErrorType
  | ok | unknown | notBootstrapped | storeTombstone | alreadyBootstrapped
  | other (number : ℤ)

/-- What PD reports of a request it has received. -/
structure Error where
  type : ErrorType := .ok
  message : Str := []

structure ResponseHeader where
  clusterId : UInt64 := 0
  error : Error := {}

structure GetRegionResponse where
  header : ResponseHeader := {}
  region : Metapb.Region := {}
  leader : Metapb.Peer := {}

structure GetStoreResponse where
  header : ResponseHeader := {}
  store : Metapb.Store := {}

structure GetAllStoresResponse where
  header : ResponseHeader := {}
  stores : List Metapb.Store := []

structure Member where
  name : Str := []
  memberId : UInt64 := 0
  clientUrls : List Str := []

structure GetMembersResponse where
  header : ResponseHeader := {}
  members : List Member := []
  leader : Member := {}

end Pdpb

namespace PDClient

/-- `parse_get_region_result`: the region, its leader switched to the peer with
the id of PD's leader, and PD's leader itself. -/
def parseGetRegionResult (resp : Pdpb.GetRegionResponse) : Region × Peer :=
  let ret : Region :=
    { verId :=
        { id := resp.region.id
          confVer := resp.region.regionEpoch.confVer
          ver := resp.region.regionEpoch.version }
      startKey := resp.region.startKey
      endKey := resp.region.endKey
      peers := resp.region.peers.map fun it => { id := it.id, storeId := it.storeId } }
  let leader : Peer := { storeId := resp.leader.storeId, id := resp.leader.id }
  (ret.switchLeaderByPeerId leader.id, leader)

/-- `get_region_inner` and `get_region_by_id_inner` once the RPC is done. -/
def getRegionInner (rpc : Except Error Pdpb.GetRegionResponse) : Except Error (Region × Peer) :=
  rpc.map parseGetRegionResult

/-- `convert_from_pb`, which fills in `ret`; an unknown state is only logged. -/
def convertFromPb (store : Metapb.Store) (ret : Store) : Store :=
  let state := match store.state with
    | .up => StoreState.up
    | .offline => StoreState.offline
    | .tombstone => StoreState.tombstone
    | .other _ => ret.state
  { id := store.id
    addr := store.address
    state := state
    labels := store.labels.foldl (fun labels it => labels.insert it.key it.value) ret.labels }

/-- `get_store_by_id_inner` once the RPC is done. -/
def getStoreByIdInner (rpc : Except Error Pdpb.GetStoreResponse) : Except Error Store :=
  rpc.map fun resp => convertFromPb resp.store {}

/-- `get_all_stores_inner` once the RPC is done. -/
def getAllStoresInner (rpc : Except Error Pdpb.GetAllStoresResponse) : Except Error (List Store) :=
  rpc.map fun resp => resp.stores.map fun it => convertFromPb it {}

/-- What `get_pd_members_inner` keeps of a server. -/
def serverInfo (it : Pdpb.Member) (isLeader : Bool) : PDServerInfo where
  id := it.memberId
  isLeader := isLeader
  name := it.name
  clientUrls := it.clientUrls

/-- The servers by id and the leader, which is written last and over its own entry. -/
def pdMembers (resp : Pdpb.GetMembersResponse) : OrdMap UInt64 PDServerInfo × PDServerInfo :=
  let ret : OrdMap UInt64 PDServerInfo := resp.members.foldl
    (fun ret it => let info := serverInfo it false; ret.insert info.id info) ∅
  let leader := serverInfo resp.leader true
  (ret.insert leader.id leader, leader)

/-- `get_pd_members_inner` once the RPC is done, with the cluster id it puts out. -/
def getPdMembersInner (rpc : Except Error Pdpb.GetMembersResponse) :
    Except Error ((OrdMap UInt64 PDServerInfo × PDServerInfo) × UInt64) :=
  rpc.map fun resp => (pdMembers resp, resp.header.clusterId)

@[simp] theorem pdMembers_leader (resp : Pdpb.GetMembersResponse) :
    (pdMembers resp).2 = serverInfo resp.leader true := rfl

/-- The entry of the leader is the leader, and every other one a listed member. -/
theorem pdMembers_get {resp : Pdpb.GetMembersResponse} {id : UInt64} {info : PDServerInfo}
    (h : (pdMembers resp).1[id]? = some info) :
    (id = resp.leader.memberId ∧ info = serverInfo resp.leader true) ∨
      (id ≠ resp.leader.memberId ∧ ∃ it ∈ resp.members, it.memberId = id ∧ info = serverInfo it false) := by
  have hlisted : ∀ (l : List Pdpb.Member) (id : UInt64) (info : PDServerInfo),
      (l.foldl (fun ret it => let info := serverInfo it false; ret.insert info.id info)
        (∅ : OrdMap UInt64 PDServerInfo))[id]? = some info →
        ∃ it ∈ l, it.memberId = id ∧ info = serverInfo it false := by
    intro l
    induction l using List.reverseRecOn with
    | nil => simp
    | append_singleton l it ih =>
      intro id info h
      rw [List.foldl_append, List.foldl_cons, List.foldl_nil, OrdMap.get_insert] at h
      split_ifs at h with hid
      · exact ⟨it, by simp, hid, (Option.some.inj h).symm⟩
      · obtain ⟨it', hit', hinfo⟩ := ih id info h
        exact ⟨it', by simp [hit'], hinfo⟩
  simp only [pdMembers, OrdMap.get_insert] at h
  split_ifs at h with hid
  · exact .inl ⟨hid.symm, (Option.some.inj h).symm⟩
  · exact .inr ⟨Ne.symm hid, hlisted _ _ _ h⟩

theorem pdMembers_get_leader (resp : Pdpb.GetMembersResponse) :
    (pdMembers resp).1[resp.leader.memberId]? = some (serverInfo resp.leader true) :=
  OrdMap.get_insert_self _ _ _

/-- Exactly one entry is flagged, that of the leader. -/
theorem pdMembers_flagged {resp : Pdpb.GetMembersResponse} {id : UInt64} {info : PDServerInfo} :
    ((pdMembers resp).1[id]? = some info ∧ info.isLeader = true) ↔
      id = resp.leader.memberId ∧ info = serverInfo resp.leader true := by
  constructor
  · rintro ⟨h, hflag⟩
    rcases pdMembers_get h with hleader | ⟨-, it, -, -, rfl⟩
    · exact hleader
    · contradiction
  · rintro ⟨rfl, rfl⟩
    exact ⟨pdMembers_get_leader resp, rfl⟩

/-- A store PD answers keeps the address PD sent, the empty one included. -/
@[simp] theorem convertFromPb_addr (store : Metapb.Store) (ret : Store) :
    (convertFromPb store ret).addr = store.address := rfl

end PDClient

end TikvCpp
