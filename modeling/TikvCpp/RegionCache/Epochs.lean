import TikvCpp.RegionCache.Provenance

/-! Versions of one region over time. `insert_region_to_cache` compares no versions,
so the order in which a cache entry takes the versions of a region is the order of
the inserts, not that of PD's answers. The PD request of `locate_key` holds no lock:
a load that was answered early and inserts late puts an older version over a newer
one. That is the only way: between any other two loads of a region the version does
not go back, if it does not in PD's answers. -/

namespace TikvCpp.RegionCache

open Data Transition PDClient

variable {ι : Type}

/-- Later answers for a region id do not have smaller versions. -/
def NeverBack (rs : List Region) : Prop :=
  rs.Pairwise fun a b => a.verId.id = b.verId.id → a.verId ≤ b.verId

instance instDecidableNeverBack (rs : List Region) : Decidable (NeverBack rs) :=
  inferInstanceAs (Decidable (List.Pairwise _ rs))

/-- Client `i` inserts `r` after the history `pre`, and client `j` inserts `r'` after
`mid` more. PD answered `j` before it answered `i`, and `j` made no step in between:
its load was in flight all the time that of `i` was. -/
def Overtaken (pre mid : List (Event ι)) (i j : ι) (r r' : Region) : Prop :=
  ∃ a b c key key' resp resp',
    pre = a ++ .request j key' (.ok resp') :: (b ++ .request i key (.ok resp) :: c) ∧
      loadRegionFromPd (getRegionInner (.ok resp)) = .ok r ∧
      loadRegionFromPd (getRegionInner (.ok resp')) = .ok r' ∧
      i ≠ j ∧ ∀ e ∈ b ++ c ++ mid, e.client ≠ j

/-- The answers a history ends with are later than those it begins with. -/
theorem NeverBack.le {a b c : List (Event ι)} {i j : ι} {key key' : Str}
    {resp resp' : Pdpb.GetRegionResponse} {r r' : Region}
    (hm : NeverBack (regionAnswers (a ++ .request i key (.ok resp) :: (b ++ .request j key' (.ok resp') :: c))))
    (hr : loadRegionFromPd (getRegionInner (.ok resp)) = .ok r)
    (hr' : loadRegionFromPd (getRegionInner (.ok resp')) = .ok r') (hid : r.verId.id = r'.verId.id) :
    r.verId ≤ r'.verId := by
  have hans : ∀ (k : ι) (key : Str) (ans : Pdpb.GetRegionResponse) (l : List (Event ι)),
      regionAnswers (.request k key (.ok ans) :: l) = (parseGetRegionResult ans).1 :: regionAnswers l :=
    fun _ _ _ _ => rfl
  obtain ⟨_, h, hk⟩ := loadRegionFromPd_ok hr
  obtain rfl := Except.ok.inj h
  obtain ⟨_, h', hk'⟩ := loadRegionFromPd_ok hr'
  obtain rfl := Except.ok.inj h'
  rw [regionAnswers_append, hans, regionAnswers_append, hans] at hm
  have htail := (List.pairwise_append.mp hm).2.1
  have hle := (List.pairwise_cons.mp htail).1 (parseGetRegionResult resp').1 (by simp)
  rw [(keyLoc_eq_iff.mp hk).1, (keyLoc_eq_iff.mp hk').1] at hle
  exact hle hid

variable [DecidableEq ι] {tr : List (Event ι)} {s : Sys ι}

/-- Of two inserts of a region the later one has the smaller version only if its load
was overtaken. -/
theorem le_or_overtaken (h : run step (Sys.init ι) tr = some s) (hm : NeverBack (regionAnswers tr))
    {pre mid post : List (Event ι)} {i j : ι} {r r' : Region} {t t' : Time}
    (htr : tr = pre ++ .insert i r t :: (mid ++ .insert j r' t' :: post))
    (hid : r.verId.id = r'.verId.id) : r.verId ≤ r'.verId ∨ Overtaken pre mid i j r r' := by
  obtain ⟨key, p₁, resp, p₂, hp, hr, hp₂⟩ := requested_of_insert h htr
  have htr' : tr = (pre ++ .insert i r t :: mid) ++ .insert j r' t' :: post := by
    rw [htr, List.append_assoc, List.cons_append]
  obtain ⟨key', q₁, resp', q₂, hq, hr', hq₂⟩ := requested_of_insert h htr'
  have hpos : p₁ ++ .request i key (.ok resp) :: (p₂ ++ .insert i r t :: mid) =
      q₁ ++ .request j key' (.ok resp') :: q₂ := by
    rw [← hq, hp, List.append_assoc, List.cons_append]
  rcases append_cons_eq_append_cons hpos with ⟨_, hreq, rfl⟩ | ⟨m, rfl, hm₂⟩ | ⟨m, rfl, rfl⟩
  · -- one request does not serve two inserts of a client
    obtain ⟨rfl, _, _⟩ := Event.request.inj hreq
    exact absurd rfl (hq₂ (.insert i r t) (by simp))
  · left
    rw [htr', hq] at hm
    simp only [List.append_assoc, List.cons_append] at hm
    exact hm.le hr hr' hid
  · right
    refine ⟨q₁, m, p₂, key, key', resp, resp', ?_, hr, hr', ?_, fun e he => hq₂ e ?_⟩
    · rw [hp, List.append_assoc, List.cons_append]
    · exact hq₂ (.insert i r t) (by simp)
    · simp only [List.mem_append, List.mem_cons] at he ⊢
      tauto

/-- The entry under an end key is what the last insert under it put there. -/
theorem sorted_inserted (h : run step (Sys.init ι) tr = some s) {e : Str} {R : Region}
    (hR : s.cache.sorted[e]? = some R) : ∃ pre i t post, tr = pre ++ .insert i R t :: post ∧
      R.endKey = e ∧ ∀ j r t', .insert j r t' ∈ post → r.endKey ≠ e := by
  refine run_induction (P := fun tr s => ∀ R : Region, s.cache.sorted[e]? = some R →
    ∃ pre i t post, tr = pre ++ .insert i R t :: post ∧ R.endKey = e ∧
      ∀ j r t', .insert j r t' ∈ post → r.endKey ≠ e) ?_ ?_ h R hR
  · intro R hR
    simp [Sys.init] at hR
  · intro tr m ev m' _ ih he R hR
    rw [(step_cases he).cache] at hR
    rcases commit_sorted hR with ⟨hR, hev⟩ | ⟨i, t, rfl, hend⟩
    · obtain ⟨pre, i, t, post, rfl, hend, hpost⟩ := ih R hR
      refine ⟨pre, i, t, post ++ [ev], by simp, hend, fun j r t' hmem => ?_⟩
      rcases List.mem_append.mp hmem with hmem | hmem
      · exact hpost j r t' hmem
      · exact hev j r t' (List.mem_singleton.mp hmem).symm
    · exact ⟨tr, i, t, [], rfl, hend, by simp⟩

/-- An entry of `sorted_` that is replaced by another entry for the same region id does
not lose version, and no search hit has a smaller version than a region ever inserted
for its region id under the end key of the entry it is found by: unless the load of
the smaller version was overtaken by that of the greater one. -/
theorem epoch_le_or_overtaken (h : run step (Sys.init ι) tr = some s)
    (hm : NeverBack (regionAnswers tr)) :
    (∀ pre post j r' t' m R, tr = pre ++ .insert j r' t' :: post →
      run step (Sys.init ι) pre = some m → m.cache.sorted[r'.endKey]? = some R →
      R.verId.id = r'.verId.id →
        R.verId ≤ r'.verId ∨ ∃ pre₁ i t mid, pre = pre₁ ++ .insert i R t :: mid ∧
          Overtaken pre₁ mid i j R r') ∧
    (∀ (key : Str) (t now : Time) (R : Region), (s.cache.searchCache key t now).1 = some R →
      ∃ e S, s.cache.sorted.upperBound key = some (e, S) ∧ S.verId = R.verId ∧
        ∀ pre post i r t₀, tr = pre ++ .insert i r t₀ :: post → r.endKey = e →
          r.verId.id = R.verId.id → r.verId ≤ R.verId ∨
            ∃ mid j t₁ post', post = mid ++ .insert j S t₁ :: post' ∧ Overtaken pre mid i j r S) := by
  constructor
  · intro pre post j r' t' m R htr hrun hR hid
    obtain ⟨pre₁, i, t, mid, rfl, _, _⟩ := sorted_inserted hrun hR
    rw [List.append_assoc, List.cons_append] at htr
    have hle := le_or_overtaken h hm htr hid
    exact hle.imp_right fun hov => ⟨pre₁, i, t, mid, rfl, hov⟩
  · intro key t now R hfound
    obtain ⟨e, S, hub, _, hg⟩ := searchCache_eq_some.mp hfound
    obtain ⟨c, hc, _, rfl⟩ := getCachedRegion_eq_some.mp hg
    have hver : S.verId = c.region.verId := ((owned h).cached_ver S.verId c hc).symm
    obtain ⟨q, j, t₁, post', hq, hSe, hlast⟩ := sorted_inserted h (OrdMap.upperBound_eq_some.mp hub).1
    refine ⟨e, S, hub, hver, fun pre post i r t₀ htr hre hid => ?_⟩
    rw [← hver] at hid ⊢
    rcases append_cons_eq_append_cons (htr ▸ hq) with ⟨_, hins, _⟩ | ⟨mid, rfl, rfl⟩ | ⟨mid, rfl, rfl⟩
    · obtain ⟨_, rfl, _⟩ := Event.insert.inj hins
      exact .inl le_rfl
    · have hle := le_or_overtaken h hm htr hid
      exact hle.imp_right fun hov => ⟨mid, j, t₁, post', rfl, hov⟩
    · exact absurd hre (hlast i r t₀ (by simp))

/-- PD's region of the keys from `a` to `m` before and after a peer was added. -/
def answerEpoch (confVer : UInt64) : Pdpb.GetRegionResponse where
  region :=
    { id := 2, startKey := [0x61], endKey := [0x6d], regionEpoch := { confVer := confVer, version := 1 }
      peers := [{ id := 21, storeId := 1 }] }
  leader := { id := 21, storeId := 1 }

def regionEpoch (confVer : UInt64) : Region where
  verId := { id := 2, confVer := confVer, ver := 1 }
  startKey := [0x61]
  endKey := [0x6d]
  peers := [{ id := 21, storeId := 1 }]
  leader := { id := 21, storeId := 1 }

/-- Two clients miss; PD answers the first, then, with a newer version, the second,
which inserts at once. -/
def overtaking : List (Event Bool) :=
  [.search true [0x62] 5 5, .search false [0x62] 5 5, .request true [0x62] (.ok (answerEpoch 1)),
    .request false [0x62] (.ok (answerEpoch 2)), .insert false (regionEpoch 2) 5]

/-- The first client inserts its older version. -/
def overtaken : List (Event Bool) := overtaking ++ [.insert true (regionEpoch 1) 6]

theorem overtaking_isSome : (run step (Sys.init Bool) overtaking).isSome := by decide

theorem overtaken_isSome : (run step (Sys.init Bool) overtaken).isSome := by decide

theorem epoch_le_or_overtaken_overtaken :
    ∃ pre₁ i t mid, overtaking = pre₁ ++ .insert i (regionEpoch 2) t :: mid ∧
      Overtaken pre₁ mid i true (regionEpoch 2) (regionEpoch 1) := by
  have h := (Option.some_get overtaken_isSome).symm
  have hm := (Option.some_get overtaking_isSome).symm
  have hle := (epoch_le_or_overtaken h (by decide)).1 overtaking [] true (regionEpoch 1) 6 _
    (regionEpoch 2) rfl hm rfl rfl
  exact hle.resolve_left (by decide)

/-- PD's answers never go back, but the late insert of the first client takes the entry
back to the older version, which is what the next lookup finds. -/
theorem epoch_back :
    NeverBack (regionAnswers overtaken) ∧
      ∃ m s, run step (Sys.init Bool) overtaking = some m ∧ run step (Sys.init Bool) overtaken = some s ∧
        m.cache.sorted[(regionEpoch 1).endKey]? = some (regionEpoch 2) ∧
        s.cache.sorted[(regionEpoch 1).endKey]? = some (regionEpoch 1) ∧
        (s.cache.searchCache [0x62] 7 7).1 = some (regionEpoch 1) ∧
        (regionEpoch 1).verId.id = (regionEpoch 2).verId.id ∧
        (regionEpoch 1).verId < (regionEpoch 2).verId :=
  ⟨by decide, _, _, (Option.some_get overtaking_isSome).symm, (Option.some_get overtaken_isSome).symm,
    rfl, rfl, rfl, rfl, by decide⟩

end TikvCpp.RegionCache
