import TikvCpp.RegionCache.IndexAgreement
import TikvCpp.Utils

/-! What `dump_cache` prints. A line has the range of a cached region, in the tokens of `to_hex`, and the
store of its leader. The tokens are not always the bytes of the key, but they tell keys apart, and so a
dump tells what is cached. -/

namespace TikvCpp.RegionCache

open Data

/-! ### The lines -/

/-- The line of a cached region. -/
def dumpLine (c : CachedRegion) : DumpLine := ⟨c.region.startKey, c.region.endKey, c.region.leader.storeId⟩

theorem foldl_dumpEntry {rc : RegionCache} {l : List (Str × Region)} (h : ∀ it ∈ l, it.2.verId ∈ rc.cachedRegions)
    (lines : List DumpLine) :
    l.foldl dumpEntry (lines, rc) = (lines ++ l.map fun it => dumpLine (rc.cachedRegions.getD it.2.verId {}), rc) := by
  induction l generalizing lines with
  | nil => rw [List.foldl_nil, List.map_nil, List.append_nil]
  | cons it l ih =>
    have hsame : rc.cachedRegions.insertIfNew it.2.verId {} = rc.cachedRegions := by
      obtain ⟨c, hc⟩ := Option.isSome_iff_exists.mp (Std.ExtTreeMap.mem_iff_isSome_getElem?.mp (h it List.mem_cons_self))
      exact OrdMap.insertIfNew_of_some hc {}
    have hentry : dumpEntry (lines, rc) it = (lines ++ [dumpLine (rc.cachedRegions.getD it.2.verId {})], rc) := by
      rw [dumpEntry, hsame]
      rfl
    rw [List.foldl_cons, hentry, ih (fun it' h' => h it' (List.mem_cons_of_mem _ h')), List.map_cons, List.append_assoc,
      List.singleton_append]

/-- The lines of a dump, where the maps agree. -/
theorem dumpCache_eq {rc : RegionCache} (h : Agreement rc) :
    ∃ lines, rc.dumpCache = (lines, rc) ∧ lines.Pairwise (fun line line' => line.endKey < line'.endKey) ∧
      ∀ line, line ∈ lines ↔
        ∃ (v : RegionVerID) (c : CachedRegion), rc.cachedRegions[v]? = some c ∧ dumpLine c = line := by
  have hcached : ∀ it ∈ rc.sorted.toList, ∃ c : CachedRegion, rc.cachedRegions[it.2.verId]? = some c ∧
      rc.cachedRegions.getD it.2.verId {} = c ∧ c.region.endKey = it.1 := by
    intro it hit
    have hR := OrdMap.mem_toList.mp hit
    obtain ⟨c, hc, hkey⟩ := h.sorted_cached it.1 it.2 hR
    refine ⟨c, hc, ?_, ?_⟩
    · rw [Std.ExtTreeMap.getD_eq_getD_getElem?, hc]
      rfl
    · rw [(keyLoc_eq_iff.mp hkey).2.2, h.sorted_end it.1 it.2 hR]
  have hend : ∀ it ∈ rc.sorted.toList, (dumpLine (rc.cachedRegions.getD it.2.verId {})).endKey = it.1 := by
    intro it hit
    obtain ⟨c, -, hget, hkey⟩ := hcached it hit
    rw [hget]
    exact hkey
  have hmem : ∀ it ∈ rc.sorted.toList, it.2.verId ∈ rc.cachedRegions := by
    intro it hit
    obtain ⟨c, hc, -⟩ := hcached it hit
    rw [Std.ExtTreeMap.mem_iff_isSome_getElem?, hc]
    rfl
  refine ⟨_, foldl_dumpEntry hmem [], ?_, fun line => ?_⟩
  · rw [List.nil_append, List.pairwise_map]
    refine rc.sorted.toList_pairwise.imp_of_mem fun hit hit' hlt => ?_
    rw [hend _ hit, hend _ hit']
    exact hlt
  · rw [List.nil_append, List.mem_map]
    constructor
    · rintro ⟨it, hit, rfl⟩
      obtain ⟨c, hc, hget, -⟩ := hcached it hit
      exact ⟨it.2.verId, c, hc, by rw [hget]⟩
    · rintro ⟨v, c, hc, rfl⟩
      obtain ⟨R, hR, hkey⟩ := h.cached_sorted v c hc
      have hv : R.verId = v := by rw [(keyLoc_eq_iff.mp hkey).1, h.cached_ver v c hc]
      refine ⟨(c.region.endKey, R), OrdMap.mem_toList.mpr hR, ?_⟩
      rw [Std.ExtTreeMap.getD_eq_getD_getElem?, hv, hc]
      rfl

/-! ### Their text -/

/-- A number as a stream prints it in base ten. -/
def decimal (n : ℕ) : Str := ((if n = 0 then [0] else Nat.digits 10 n).map Hex.digit).reverse

/-- `") => Leader store:"` -/
def leaderText : Str :=
  [0x29, 0x20, 0x3d, 0x3e, 0x20, 0x4c, 0x65, 0x61, 0x64, 0x65, 0x72, 0x20, 0x73, 0x74, 0x6f, 0x72, 0x65, 0x3a]

/-- The message of a line, up to its end. -/
def DumpLine.text (line : DumpLine) : Option Str := do
  let startKey ← toHex line.startKey
  let endKey ← toHex line.endKey
  return [0x5b] ++ startKey ++ [0x2c] ++ endKey ++ leaderText ++ decimal line.leaderStoreId.toNat

/-- The messages of a dump, each ended by `std::endl`. -/
def dumpText (lines : List DumpLine) : Option Str := (lines.mapM DumpLine.text).map fun texts => texts.flatMap (· ++ [0x0a])

theorem digits_lt (n : ℕ) : ∀ d ∈ (if n = 0 then [0] else Nat.digits 10 n), d < 10 := by
  intro d hd
  split_ifs at hd
  · rw [List.mem_singleton.mp hd]
    decide
  · exact Nat.digits_lt_base (by decide) hd

theorem mem_decimal {n : ℕ} {c : UInt8} (h : c ∈ decimal n) : ∃ d < 16, c = Hex.digit d := by
  obtain ⟨d, hd, rfl⟩ := List.mem_map.mp (List.mem_reverse.mp h)
  have := digits_lt n d hd
  exact ⟨d, by omega, rfl⟩

theorem decimal_injective : Function.Injective decimal := by
  have hvalues : ∀ n, (decimal n).reverse.map Hex.digitValue = (if n = 0 then [0] else Nat.digits 10 n).map some := by
    intro n
    rw [decimal, List.reverse_reverse, List.map_map]
    refine List.map_congr_left fun d hd => Hex.digitValue_digit d ?_
    have := digits_lt n d hd
    omega
  have hread : ∀ n, Nat.ofDigits 10 (if n = 0 then [0] else Nat.digits 10 n) = n := by
    intro n
    split_ifs with hn
    · rw [hn]
      rfl
    · exact Nat.ofDigits_digits 10 n
  intro n m h
  have hsome := hvalues n
  rw [h, hvalues m] at hsome
  have hdigits := List.map_injective_iff.mpr (Option.some_injective ℕ) hsome
  rw [← hread n, ← hdigits, hread m]

/-- No byte is printed as another. -/
theorem toHex_inj {data data' s : Str} (h : toHex data = some s) (h' : toHex data' = some s) : data = data' := by
  have hbyte : Function.Injective fun c : UInt8 => some (toUnsignedInt c).toNat := by
    intro c c' hcc
    have hnat := Option.some.inj hcc
    rw [toUnsignedInt_toNat, toUnsignedInt_toNat] at hnat
    have := c.toNat_lt
    have := c'.toNat_lt
    apply UInt8.toNat_inj.mp
    split_ifs at hnat <;> omega
  exact List.map_injective_iff.mpr hbyte ((values_toHex h).symm.trans (values_toHex h'))

/-- What a token is made of. -/
theorem mem_putHex {n : UInt32} {c : UInt8} (h : c ∈ putHex 2 0x30 n) : c = 0x78 ∨ ∃ d < 16, c = Hex.digit d := by
  rcases List.mem_append.mp h with hpad | hmem
  · exact .inr ⟨0, by decide, List.eq_of_mem_replicate hpad⟩
  split_ifs at hmem
  · exact .inr (Hex.mem_digits hmem)
  · rcases List.mem_append.mp hmem with hbase | hmem
    · rcases List.mem_cons.mp hbase with rfl | hx
      · exact .inr ⟨0, by decide, rfl⟩
      · exact .inl (List.mem_singleton.mp hx)
    · exact .inr (Hex.mem_digits hmem)

/-- A byte that separates what is printed: no digit, no `x`, and none of what stands around the tokens. -/
def Separates (c : UInt8) : Prop := c ∉ ([0x5b, 0x20, 0x5d, 0x78] : Str) ∧ ∀ d < 16, c ≠ Hex.digit d

instance (c : UInt8) : Decidable (Separates c) := inferInstanceAs (Decidable (_ ∧ _))

theorem Separates.notMem_toHex {c : UInt8} (hc : Separates c) {data s : Str} (h : toHex data = some s) : c ∉ s := by
  obtain ⟨-, rfl⟩ := toHex_eq_some.mp h
  intro hmem
  rcases List.mem_append.mp hmem with hmem | hmem
  · rcases List.mem_append.mp hmem with hmem | hmem
    · rw [List.mem_singleton] at hmem
      exact hc.1 (by rw [hmem]; decide)
    · obtain ⟨tok, htok, hmem⟩ := List.mem_flatMap.mp hmem
      obtain ⟨b, -, rfl⟩ := List.mem_map.mp htok
      rcases List.mem_append.mp hmem with hmem | hmem
      · rcases mem_putHex hmem with rfl | ⟨d, hd, rfl⟩
        · exact hc.1 (by decide)
        · exact hc.2 d hd rfl
      · rw [List.mem_singleton] at hmem
        exact hc.1 (by rw [hmem]; decide)
  · rw [List.mem_singleton] at hmem
    exact hc.1 (by rw [hmem]; decide)

theorem Separates.notMem_decimal {c : UInt8} (hc : Separates c) (n : ℕ) : c ∉ decimal n := by
  intro hmem
  obtain ⟨d, hd, rfl⟩ := mem_decimal hmem
  exact hc.2 d hd rfl

theorem text_eq_some {line : DumpLine} {s : Str} (h : line.text = some s) :
    ∃ startKey endKey, toHex line.startKey = some startKey ∧ toHex line.endKey = some endKey ∧
      s = (0x5b :: startKey) ++ 0x2c :: (endKey ++ (leaderText ++ decimal line.leaderStoreId.toNat)) := by
  obtain ⟨startKey, hstart, h⟩ := Option.bind_eq_some_iff.mp h
  obtain ⟨endKey, hend, h⟩ := Option.bind_eq_some_iff.mp h
  refine ⟨startKey, endKey, hstart, hend, (Option.some.inj h).symm.trans ?_⟩
  simp only [List.append_assoc, List.cons_append, List.nil_append]

theorem DumpLine.text_inj {line line' : DumpLine} {s : Str} (h : line.text = some s) (h' : line'.text = some s) :
    line = line' := by
  have hcomma : Separates 0x2c := by decide
  have hparen : Separates 0x29 := by decide
  obtain ⟨startKey, endKey, hstart, hend, rfl⟩ := text_eq_some h
  obtain ⟨startKey', endKey', hstart', hend', heq⟩ := text_eq_some h'
  -- the first comma is where the start key ends
  have hfirst : (0x2c : UInt8) ∉ 0x5b :: startKey' := by
    rw [List.mem_cons, not_or]
    exact ⟨by decide, hcomma.notMem_toHex hstart'⟩
  have hrest : (0x2c : UInt8) ∉ endKey' ++ (leaderText ++ decimal line'.leaderStoreId.toNat) := by
    simp only [List.mem_append, not_or]
    exact ⟨hcomma.notMem_toHex hend', by decide, hcomma.notMem_decimal _⟩
  obtain ⟨hkeys, -, htail⟩ := (List.append_cons_inj_of_notMem hfirst hrest).mp heq.symm
  obtain rfl : startKey' = startKey := (List.cons.inj hkeys).2
  -- the first parenthesis after it is where the end key ends
  have hafter : (0x29 : UInt8) ∉ leaderText.tail ++ decimal line'.leaderStoreId.toNat := by
    rw [List.mem_append, not_or]
    exact ⟨by decide, hparen.notMem_decimal _⟩
  have htail : endKey' ++ 0x29 :: (leaderText.tail ++ decimal line'.leaderStoreId.toNat) =
    endKey ++ 0x29 :: (leaderText.tail ++ decimal line.leaderStoreId.toNat) := htail
  obtain ⟨rfl, -, hstore⟩ := (List.append_cons_inj_of_notMem (hparen.notMem_toHex hend') hafter).mp htail
  have hid := decimal_injective (List.append_cancel_left hstore)
  cases line
  cases line'
  simp only [DumpLine.mk.injEq]
  exact ⟨toHex_inj hstart hstart', toHex_inj hend hend', (UInt64.toNat_inj.mp hid).symm⟩

theorem newline_notMem_text {line : DumpLine} {s : Str} (h : line.text = some s) : 0x0a ∉ s := by
  have hnewline : Separates 0x0a := by decide
  obtain ⟨startKey, endKey, hstart, hend, rfl⟩ := text_eq_some h
  simp only [List.mem_append, List.mem_cons, not_or]
  exact ⟨⟨by decide, hnewline.notMem_toHex hstart⟩, by decide, hnewline.notMem_toHex hend, by decide,
    hnewline.notMem_decimal _⟩

/-- The texts of the lines, one by one. -/
theorem texts_of_mapM {lines : List DumpLine} {texts : List Str} (h : lines.mapM DumpLine.text = some texts) :
    lines.map DumpLine.text = texts.map some := by
  induction lines generalizing texts with
  | nil =>
    obtain rfl := Option.some.inj h
    rfl
  | cons line lines ih =>
    rw [List.mapM_cons] at h
    obtain ⟨text, htext, h⟩ := Option.bind_eq_some_iff.mp h
    obtain ⟨texts', htexts, h⟩ := Option.bind_eq_some_iff.mp h
    obtain rfl := Option.some.inj h
    rw [List.map_cons, List.map_cons, htext, ih htexts]

theorem lines_inj {lines lines' : List DumpLine} {texts : List Str} (h : lines.map DumpLine.text = texts.map some)
    (h' : lines'.map DumpLine.text = texts.map some) : lines = lines' := by
  induction texts generalizing lines lines' with
  | nil => rw [List.map_eq_nil_iff.mp h, List.map_eq_nil_iff.mp h']
  | cons text texts ih =>
    obtain ⟨line, rest, rfl, htext, hrest⟩ := List.map_eq_cons_iff.mp h
    obtain ⟨line', rest', rfl, htext', hrest'⟩ := List.map_eq_cons_iff.mp h'
    rw [DumpLine.text_inj htext htext', ih hrest hrest']

/-- A dump has no other lines than those it has been printed from. -/
theorem dumpText_inj {lines lines' : List DumpLine} {s : Str} (h : dumpText lines = some s)
    (h' : dumpText lines' = some s) : lines = lines' := by
  have hsplit : ∀ {lines : List DumpLine}, dumpText lines = some s →
      ∃ texts, lines.map DumpLine.text = texts.map some ∧ s.splitOn 0x0a = texts ++ [[]] := by
    intro lines h
    obtain ⟨texts, htexts, rfl⟩ := Option.map_eq_some_iff.mp h
    have hlines := texts_of_mapM htexts
    refine ⟨texts, hlines, splitOn_flatMap fun text hmem => ?_⟩
    have hsome : some text ∈ lines.map DumpLine.text := by
      rw [hlines]
      exact List.mem_map_of_mem hmem
    obtain ⟨line, -, htext⟩ := List.mem_map.mp hsome
    exact newline_notMem_text htext
  obtain ⟨texts, hlines, htexts⟩ := hsplit h
  obtain ⟨texts', hlines', htexts'⟩ := hsplit h'
  obtain rfl : texts = texts' := List.append_cancel_right (htexts.symm.trans htexts')
  exact lines_inj hlines hlines'

end TikvCpp.RegionCache
