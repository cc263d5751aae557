import TikvCpp.Meta
import TikvCpp.Data.Hex
import Mathlib.Data.List.Infix

/-! Strings of `utils.cc`: the address a URL leads to, and how the bytes of a key are
printed. -/

namespace TikvCpp

open Data

/-! ### Addresses -/

/-- `std::string::find`: where `pat` occurs first. -/
def find (s pat : Str) : Option ℕ := (List.range (s.length + 1)).find? fun i => pat.isPrefixOf (s.drop i)

/-- `strip_url`: what comes after the scheme, and nothing where there is no scheme. -/
def stripUrl (addr : Str) : Str :=
  let substr : Str := [0x3a, 0x2f, 0x2f]
  match find addr substr with
  | some i => addr.drop (i + substr.length)
  | none => []

example : stripUrl [0x70, 0x64, 0x3a, 0x2f, 0x2f, 0x68, 0x3a, 0x32] = [0x68, 0x3a, 0x32] := by decide

theorem find_eq_some {s pat : Str} {i : ℕ} :
    find s pat = some i ↔ i ≤ s.length ∧ pat <+: s.drop i ∧ ∀ j < i, ¬ pat <+: s.drop j := by
  unfold find
  rw [List.find?_range_eq_some]
  simp only [List.isPrefixOf_iff_prefix, List.mem_range, Nat.lt_succ_iff, Bool.not_eq_true',
    ← Bool.not_eq_true]
  tauto

theorem find_eq_none {s pat : Str} : find s pat = none ↔ ¬ pat <:+: s := by
  unfold find
  rw [List.find?_eq_none]
  simp only [List.mem_range, Nat.lt_succ_iff, List.isPrefixOf_iff_prefix]
  constructor
  · intro h hinfix
    obtain ⟨t, hpre, hsuf⟩ := List.infix_iff_prefix_suffix.mp hinfix
    rw [List.suffix_iff_eq_drop.mp hsuf] at hpre
    exact h (s.length - t.length) (Nat.sub_le _ _) hpre
  · exact fun h i _ hpre => h (List.infix_iff_prefix_suffix.mpr ⟨_, hpre, List.drop_suffix i s⟩)

/-- No proper end of the string is also a beginning of it. -/
def Unbordered (pat : Str) : Prop := ∀ k < pat.length, 0 < k → ¬ pat.drop k <+: pat

/-- Such a string occurs first where it has been put, unless it was there before. -/
theorem find_append {s pat : Str} (h : Str) (hpat : Unbordered pat) (hs : ¬ pat <:+: s) :
    find (s ++ pat ++ h) pat = some s.length := by
  rw [List.append_assoc, find_eq_some]
  refine ⟨by simp, by simp, fun j hj hocc => ?_⟩
  rw [List.drop_append_of_le_length hj.le] at hocc
  have hbefore : ¬ pat <+: s.drop j := fun hpre =>
    hs (List.infix_iff_prefix_suffix.mpr ⟨_, hpre, List.drop_suffix j s⟩)
  -- the occurrence does not end within `s`, so it overlaps `pat`
  rcases List.prefix_or_prefix_of_prefix hocc (List.prefix_append _ _) with hpre | ⟨t, ht⟩
  · exact hbefore hpre
  have hlen : (s.drop j).length = s.length - j := List.length_drop
  have hdrop : pat.drop (s.length - j) = t := by rw [← ht, ← hlen, List.drop_left]
  rw [← ht, List.prefix_append_right_inj] at hocc
  have htlen : t.length ≤ pat.length := by rw [← ht, List.length_append]; omega
  have hborder : t <+: pat := List.prefix_of_prefix_length_le hocc (by rw [ht]; exact List.prefix_append _ _) htlen
  by_cases hk : s.length - j < pat.length
  · exact hpat _ hk (by omega) (hdrop ▸ hborder)
  · have hnil : t = [] := by rw [← hdrop, List.drop_eq_nil_iff]; omega
    rw [hnil, List.append_nil] at ht
    exact hbefore (ht ▸ List.prefix_rfl)

/-- `://` -/
def schemeEnd : Str := [0x3a, 0x2f, 0x2f]

theorem unbordered_schemeEnd : Unbordered schemeEnd := by
  unfold Unbordered
  decide

theorem stripUrl_eq (addr : Str) :
    stripUrl addr = match find addr schemeEnd with | some i => addr.drop (i + 3) | none => [] := rfl

/-- The first `://` is where the scheme ends, whatever follows it. -/
theorem stripUrl_scheme {s : Str} (h : Str) (hs : ¬ schemeEnd <:+: s) : stripUrl (s ++ schemeEnd ++ h) = h := by
  rw [stripUrl_eq, find_append h unbordered_schemeEnd hs]
  exact List.drop_left' (by simp [schemeEnd])

/-- Without a scheme nothing is left of an address. -/
theorem stripUrl_schemeless {addr : Str} (h : ¬ schemeEnd <:+: addr) : stripUrl addr = [] := by
  rw [stripUrl_eq, find_eq_none.mpr h]

/-- An address of which `strip_url` leaves what is to be dialed: the scheme is gone if
there is one, and nothing else. -/
structure Stripped (addr : Str) : Prop where
  scheme : ∀ s h, addr = s ++ schemeEnd ++ h → ¬ schemeEnd <:+: s → stripUrl addr = h
  plain : ¬ schemeEnd <:+: addr → stripUrl addr = addr

theorem stripped_iff {addr : Str} : Stripped addr ↔ schemeEnd <:+: addr ∨ addr = [] := by
  constructor
  · intro h
    by_cases hscheme : schemeEnd <:+: addr
    · exact .inl hscheme
    · exact .inr ((h.plain hscheme).symm.trans (stripUrl_schemeless hscheme))
  · intro h
    refine ⟨fun s rest heq hs => heq ▸ stripUrl_scheme rest hs, fun hplain => ?_⟩
    obtain rfl := h.resolve_left hplain
    exact stripUrl_schemeless hplain

/-! ### Keys in print -/

/-- `(unsigned int)` of a `char`, which is signed: the sign fills the upper 24 bits. -/
def toUnsignedInt (c : UInt8) : UInt32 := c.toInt8.toInt32.toUInt32

/-- What a stream makes of a number under `std::hex` and `std::showbase`, with a width and a
fill character. Zero has no base prefix. -/
def putHex (width : ℕ) (fill : UInt8) (n : UInt32) : Str :=
  (if n = 0 then Hex.digits 0 else [0x30, 0x78] ++ Hex.digits n.toNat).leftpad width fill

/-- The tokens of `to_hex`, each with a space after it. -/
def hexToken (c : UInt8) : Str := putHex 2 0x30 (toUnsignedInt c)

/-- `to_hex`. Its loop counts in an `int`, which overflows on longer strings. -/
def toHex (data : Str) : Option Str :=
  if data.length < 2 ^ 31 then some ([0x5b] ++ data.flatMap (fun c => hexToken c ++ [0x20]) ++ [0x5d])
  else none

/-- The tokens between the brackets. -/
def tokens (s : Str) : List Str := ((s.drop 1).dropLast.splitOn 0x20).dropLast

/-- The number a token stands for, with or without base prefix. -/
def tokenValue (tok : Str) : Option ℕ :=
  if [0x30, 0x78] <+: tok then Hex.value (tok.drop 2) else Hex.value tok

/-- The bytes whose values the tokens are. -/
def fromHex (s : Str) : Option Str :=
  (tokens s).mapM fun tok => (tokenValue tok).bind fun n => if n < 256 then some (UInt8.ofNat n) else none

example : toHex [0x61, 0x00, 0x0a] = some ([0x5b] ++ [0x30, 0x78, 0x36, 0x31, 0x20] ++ [0x30, 0x30, 0x20] ++
    [0x30, 0x78, 0x61, 0x20] ++ [0x5d]) := by decide

theorem toUnsignedInt_toNat (c : UInt8) :
    (toUnsignedInt c).toNat = c.toNat + if c.toNat < 0x80 then 0 else 0xffffff00 := by
  have hc := c.toNat_lt
  have hbits : c.toBitVec.toNat = c.toNat := rfl
  show (c.toBitVec.signExtend 32).toNat = _
  rw [BitVec.toNat_signExtend, BitVec.toNat_setWidth, BitVec.msb_eq_decide, hbits]
  simp only [decide_eq_true_eq]
  split_ifs <;> omega

theorem tokenValue_putHex (n : UInt32) : tokenValue (putHex 2 0x30 n) = some n.toNat := by
  unfold putHex
  split_ifs with hn
  · rw [hn]
    rfl
  · have hlen : 2 - ([0x30, 0x78] ++ Hex.digits n.toNat).length = 0 := by
      rw [List.length_append]
      exact Nat.sub_eq_zero_of_le (Nat.le_add_right _ _)
    rw [List.leftpad, hlen, List.replicate_zero, List.nil_append, tokenValue, if_pos (List.prefix_append _ _)]
    exact Hex.value_digits n.toNat

theorem space_notMem_putHex (n : UInt32) : 0x20 ∉ putHex 2 0x30 n := by
  have hdigits : ∀ n, 0x20 ∉ Hex.digits n := by
    intro n hmem
    obtain ⟨d, hd, heq⟩ := Hex.mem_digits hmem
    exact absurd heq (by decide +revert)
  intro hmem
  rcases List.mem_append.mp hmem with hpad | hmem
  · exact absurd (List.eq_of_mem_replicate hpad) (by decide)
  split_ifs at hmem
  · exact hdigits _ hmem
  · rcases List.mem_append.mp hmem with hprefix | hmem
    · exact absurd hprefix (by decide)
    · exact hdigits _ hmem

/-- What ends in a separator each falls apart at the separators. -/
theorem splitOn_flatMap {sep : UInt8} {toks : List Str} (h : ∀ tok ∈ toks, sep ∉ tok) :
    (toks.flatMap (· ++ [sep])).splitOn sep = toks ++ [[]] := by
  induction toks with
  | nil => rfl
  | cons tok toks ih =>
    have ih := ih fun tok htok => h tok (List.mem_cons_of_mem _ htok)
    rw [List.flatMap_cons, List.append_assoc, List.singleton_append,
      List.splitOn_append_cons_self_of_not_mem (h tok List.mem_cons_self), ih, List.cons_append]

theorem tokens_print {toks : List Str} (h : ∀ tok ∈ toks, 0x20 ∉ tok) :
    tokens ([0x5b] ++ toks.flatMap (· ++ [0x20]) ++ [0x5d]) = toks := by
  have hinside : (([0x5b] ++ toks.flatMap (· ++ [0x20]) ++ [0x5d]).drop 1).dropLast =
      toks.flatMap (· ++ [0x20]) := by
    rw [List.append_assoc, List.singleton_append, List.drop_succ_cons, List.drop_zero, List.dropLast_concat]
  rw [tokens, hinside, splitOn_flatMap h, List.dropLast_concat]

/-- What is printed for a string that the loop can count. -/
theorem toHex_eq_some {data s : Str} :
    toHex data = some s ↔
      data.length < 2 ^ 31 ∧ s = [0x5b] ++ (data.map hexToken).flatMap (· ++ [0x20]) ++ [0x5d] := by
  unfold toHex
  rw [List.flatMap_map]
  split_ifs with hlen
  · simp only [Option.some.injEq, hlen, true_and, eq_comm]
  · exact iff_of_false (by simp) fun h => hlen h.1

theorem tokens_toHex {data s : Str} (h : toHex data = some s) : tokens s = data.map hexToken := by
  obtain ⟨_, rfl⟩ := toHex_eq_some.mp h
  refine tokens_print fun tok htok => ?_
  obtain ⟨c, _, rfl⟩ := List.mem_map.mp htok
  exact space_notMem_putHex _

/-- The tokens of a print are the bytes, the sign of each carried on. -/
theorem values_toHex {data s : Str} (h : toHex data = some s) :
    (tokens s).map tokenValue = data.map fun c => some (toUnsignedInt c).toNat := by
  rw [tokens_toHex h, List.map_map]
  exact List.map_congr_left fun c _ => tokenValue_putHex _

/-- The print of a string says the string: between the brackets a token for each byte, in
order, that stands for the byte, so that the tokens read back give the string. -/
structure Says (s data : Str) : Prop where
  layout : s = [0x5b] ++ (tokens s).flatMap (· ++ [0x20]) ++ [0x5d]
  values : (tokens s).map tokenValue = data.map fun c => some c.toNat
  parsed : fromHex s = some data

theorem toUnsignedInt_eq_iff {c : UInt8} : (toUnsignedInt c).toNat = c.toNat ↔ c < 0x80 := by
  have hc : c < 0x80 ↔ c.toNat < 0x80 := UInt8.lt_iff_toNat_lt
  rw [toUnsignedInt_toNat, hc]
  split_ifs <;> omega

theorem fromHex_of_values {data s : Str} (h : (tokens s).map tokenValue = data.map fun c => some c.toNat) :
    fromHex s = some data := by
  unfold fromHex
  generalize tokens s = toks at h
  induction toks generalizing data with
  | nil =>
    rw [List.map_nil, eq_comm, List.map_eq_nil_iff] at h
    rw [h]
    rfl
  | cons tok toks ih =>
    cases data with
    | nil => contradiction
    | cons c data =>
      rw [List.map_cons, List.map_cons] at h
      obtain ⟨htok, htoks⟩ := List.cons.inj h
      rw [List.mapM_cons, htok, ih htoks, Option.bind_some, if_pos c.toNat_lt, UInt8.ofNat_toNat]
      rfl

/-- A print says its string exactly if every byte is below 128 and the loop can count them;
no other string has the same print. -/
theorem toHex_says_iff (data : Str) :
    ((∃ s, toHex data = some s ∧ Says s data) ↔ data.length < 2 ^ 31 ∧ ∀ c ∈ data, c < 0x80) ∧
      ∀ data' s, toHex data = some s → toHex data' = some s → data = data' := by
  refine ⟨⟨?_, ?_⟩, ?_⟩
  · rintro ⟨s, hs, hsays⟩
    refine ⟨(toHex_eq_some.mp hs).1, fun c hc => toUnsignedInt_eq_iff.mp ?_⟩
    have hvalues := (values_toHex hs).symm.trans hsays.values
    exact Option.some.inj (List.map_inj_left.mp hvalues c hc)
  · rintro ⟨hlen, hascii⟩
    have hs : toHex data = some _ := toHex_eq_some.mpr ⟨hlen, rfl⟩
    have hvalues : (tokens _).map tokenValue = data.map fun c => some c.toNat :=
      (values_toHex hs).trans (List.map_congr_left fun c hc => by rw [toUnsignedInt_eq_iff.mpr (hascii c hc)])
    refine ⟨_, hs, ?_, hvalues, fromHex_of_values hvalues⟩
    rw [tokens_toHex hs]
  · intro data' s h h'
    have hvalues := (values_toHex h).symm.trans (values_toHex h')
    refine List.map_injective_iff.mpr (fun c c' hc => UInt8.toNat_inj.mp ?_) hvalues
    have heq := Option.some.inj hc
    have := c.toNat_lt
    have := c'.toNat_lt
    rw [toUnsignedInt_toNat, toUnsignedInt_toNat] at heq
    split_ifs at heq <;> omega

/-- A byte above 127 is printed with its sign: `[0xffffffff ]` for `0xff`. -/
theorem toHex_sign :
    toHex [0xff] = some ([0x5b, 0x30, 0x78] ++ List.replicate 8 0x66 ++ [0x20, 0x5d]) ∧
      ∀ s, toHex [0xff] = some s → ¬ Says s [0xff] := by
  refine ⟨by decide, fun s hs hsays => ?_⟩
  have hvalues := (values_toHex hs).symm.trans hsays.values
  exact absurd hvalues (by decide)

end TikvCpp
