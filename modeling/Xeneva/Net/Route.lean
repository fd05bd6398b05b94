import Xeneva.Base.Run

/-!
# The routing tables

The tables of the two families are lists; an entry is named by destination and mask, and by its
interface. Addresses and masks are kept as they lie in memory, so the first byte of an IPv4
address is the lowest.
-/

namespace Xeneva.Net.Route

def RTF_UP : BitVec 8 := 0x01
def RTF_HOST : BitVec 8 := 0x02
def RTF_GATEWAY : BitVec 8 := 0x04
def RTF_LOCAL : BitVec 8 := 0x08
def RTF_CONNECTED : BitVec 8 := 0x10

def has (flags flag : BitVec 8) : Bool := flags &&& flag ≠ 0

section Table

variable {E : Type}

/-- An entry with the prefix and the interface of an old one replaces it. -/
def tableAdd (same : E → E → Bool) (update : E → E → E) (table : List E) (entry : E) : List E :=
  match table.findIdx? fun old => same old entry with
  | some i => table.modify i fun old => update old entry
  | none => table ++ [entry]

def tableDelete (samePrefix : E → E → Bool) (table : List E) (entry : E) : List E :=
  table.eraseP fun e => samePrefix e entry

/-- The preference of a route; `default` says whether its mask is empty. -/
def routePref (flags : BitVec 8) (default : Bool) : ℕ :=
  if has flags RTF_LOCAL then 300
  else if has flags RTF_CONNECTED then 200
  else if default then 0
  else 100

/-- One turn of the loop of a lookup, with the best route and its preference so far. -/
def lookupVisit (flags : E → BitVec 8) (covers : E → Bool) (mask pref : E → ℕ)
    (best : Option (E × ℕ)) (entry : E) : Option (E × ℕ) :=
  if ¬ has (flags entry) RTF_UP then best
  else if ¬ covers entry then best
  else match best with
    | none => some (entry, pref entry)
    | some (bestRoute, bestPref) =>
      if mask entry > mask bestRoute ∨ (mask entry = mask bestRoute ∧ pref entry > bestPref) then
        some (entry, pref entry)
      else best

def tableLookup (flags : E → BitVec 8) (covers : E → Bool) (mask pref : E → ℕ) (table : List E) :
    Option E :=
  (table.foldl (lookupVisit flags covers mask pref) none).map Prod.fst

end Table

structure AuRouteEntry where
  ifname : String
  dest : BitVec 32
  netmask : BitVec 32
  ifaddress : BitVec 32
  gateway : BitVec 32
  flags : BitVec 8
  deriving DecidableEq, Repr

def samePrefix (old entry : AuRouteEntry) : Bool :=
  old.dest = entry.dest ∧ old.netmask = entry.netmask

def auRouteTableAdd (table : List AuRouteEntry) (entry : AuRouteEntry) : List AuRouteEntry :=
  if entry.dest = 0 ∧ entry.netmask ≠ 0 then table
  else tableAdd (fun old entry => samePrefix old entry ∧ old.ifname = entry.ifname)
    (fun old entry => { old with
      ifaddress := entry.ifaddress, gateway := entry.gateway, flags := entry.flags })
    table { entry with flags := entry.flags ||| RTF_UP }

def auRouteTableDelete : List AuRouteEntry → AuRouteEntry → List AuRouteEntry :=
  tableDelete samePrefix

/-- Sets or clears the flag of one route. -/
def auRouteSetFlag4 (table : List AuRouteEntry) (ifname : String) (dest netmask : BitVec 32)
    (up : Bool) : List AuRouteEntry :=
  match table.findIdx? fun e => e.dest = dest ∧ e.netmask = netmask ∧ e.ifname = ifname with
  | some i => table.modify i fun e =>
    { e with flags := if up then e.flags ||| RTF_UP else e.flags &&& ~~~RTF_UP }
  | none => table

def auRoutePref (e : AuRouteEntry) : ℕ := routePref e.flags (e.netmask = 0)

def covers (address : BitVec 32) (e : AuRouteEntry) : Bool :=
  address &&& e.netmask = e.dest &&& e.netmask

def auRouteTableDoRouteLookup (table : List AuRouteEntry) (address : BitVec 32) :
    Option AuRouteEntry :=
  tableLookup AuRouteEntry.flags (covers address) (fun e => e.netmask.toNat) auRoutePref table

abbrev Ip6Addr := Fin 16 → BitVec 8

/-- Whole bytes first, then what is left of the prefix under a mask. -/
def ip6PrefixEqual (a b : Ip6Addr) (prefixLen : BitVec 8) : Bool :=
  let len := min prefixLen.toNat 128
  let full := len / 8
  let rem := len % 8
  let mask : BitVec 8 := 0xFF#8 <<< (8 - rem)
  (∀ i : Fin 16, i < full → a i = b i) ∧
    (rem ≠ 0 → ∀ i : Fin 16, i = full → a i &&& mask = b i &&& mask)

structure AuRouteEntry6 where
  ifname : String
  dest : Ip6Addr
  prefixLen : BitVec 8
  ifaddress : Ip6Addr
  gateway : Ip6Addr
  flags : BitVec 8
  deriving DecidableEq

def samePrefix6 (old entry : AuRouteEntry6) : Bool :=
  old.prefixLen = entry.prefixLen ∧ old.dest = entry.dest

def auRouteTable6Add (table : List AuRouteEntry6) (entry : AuRouteEntry6) : List AuRouteEntry6 :=
  if entry.dest = 0 ∧ entry.prefixLen ≠ 0 then table
  else tableAdd (fun old entry => samePrefix6 old entry ∧ old.ifname = entry.ifname)
    (fun old entry => { old with
      ifaddress := entry.ifaddress, gateway := entry.gateway, flags := entry.flags })
    table { entry with flags := entry.flags ||| RTF_UP }

def auRouteTable6Delete : List AuRouteEntry6 → AuRouteEntry6 → List AuRouteEntry6 :=
  tableDelete samePrefix6

def auRoutePref6 (e : AuRouteEntry6) : ℕ := routePref e.flags (e.prefixLen = 0)

def covers6 (address : Ip6Addr) (e : AuRouteEntry6) : Bool :=
  ip6PrefixEqual address e.dest e.prefixLen

def auRouteTableDoRouteLookup6 (table : List AuRouteEntry6) (address : Ip6Addr) :
    Option AuRouteEntry6 :=
  tableLookup AuRouteEntry6.flags (covers6 address) (fun e => e.prefixLen.toNat) auRoutePref6 table

inductive RouteOp
  | add (entry : AuRouteEntry)
  | delete (entry : AuRouteEntry)
  | setFlag (ifname : String) (dest netmask : BitVec 32) (up : Bool)

def routeStep (table : List AuRouteEntry) : RouteOp → List AuRouteEntry
  | .add entry => auRouteTableAdd table entry
  | .delete entry => auRouteTableDelete table entry
  | .setFlag ifname dest netmask up => auRouteSetFlag4 table ifname dest netmask up

inductive RouteOp6
  | add (entry : AuRouteEntry6)
  | delete (entry : AuRouteEntry6)

def routeStep6 (table : List AuRouteEntry6) : RouteOp6 → List AuRouteEntry6
  | .add entry => auRouteTable6Add table entry
  | .delete entry => auRouteTable6Delete table entry

end Xeneva.Net.Route

/-!
# Longest-prefix match

A lookup is the first of the best matching routes that are up. Masks are compared as numbers, which
for masks of leading bits is the order of their lengths.
-/

namespace Xeneva.Net.Route

open Xeneva.Base

/-- Where bit `i` of the network order lies in a word of 32 bits. -/
def place (i : ℕ) : ℕ := 8 * (i / 8) + (7 - i % 8)

def addrBit (a : BitVec 32) (i : ℕ) : Bool := a.getLsbD (place i)

def addrBit6 (a : Ip6Addr) (i : Fin 128) : Bool :=
  (a ⟨i / 8, Nat.div_lt_of_lt_mul i.isLt⟩).getLsbD (7 - i % 8)

def maskLen (m : BitVec 32) : ℕ := (List.range 32).countP (addrBit m)

/-- A mask of leading ones. -/
def Contiguous (m : BitVec 32) : Prop := ∀ i < 32, addrBit m i = decide (i < maskLen m)

instance (m : BitVec 32) : Decidable (Contiguous m) :=
  inferInstanceAs (Decidable (∀ i < 32, _))

/-- The address agrees with the destination on the bits of the prefix. -/
def Matches (e : AuRouteEntry) (address : BitVec 32) : Prop :=
  ∀ i < maskLen e.netmask, addrBit address i = addrBit e.dest i

def Matches6 (e : AuRouteEntry6) (address : Ip6Addr) : Prop :=
  ∀ i : Fin 128, i < e.prefixLen.toNat → addrBit6 address i = addrBit6 e.dest i

/-- The result is a matching route that is up, with the longest prefix, and among those with the
best preference; there is none only if no route that is up matches. -/
def LongestMatch {E : Type} (table : List E) (up fits : E → Prop) (len pref : E → ℕ) :
    Option E → Prop
  | some r => r ∈ table ∧ up r ∧ fits r ∧ ∀ r' ∈ table, up r' → fits r' →
      len r' < len r ∨ len r' = len r ∧ pref r' ≤ pref r
  | none => ∀ r ∈ table, up r → ¬ fits r

section Scan

variable {E : Type} (flags : E → BitVec 8) (covers : E → Bool) (mask pref : E → ℕ)

def eligible (e : E) : Bool := has (flags e) RTF_UP && covers e

def rank (e : E) : ℕ ×ₗ ℕ := toLex (mask e, pref e)

theorem lookupVisit_eq (best : Option E) (e : E) :
    lookupVisit flags covers mask pref (best.map fun b => (b, pref b)) e =
      (if eligible flags covers e then
        List.argAux (fun b c => rank mask pref c < rank mask pref b) best e
        else best).map fun b => (b, pref b) := by
  unfold lookupVisit eligible
  by_cases hup : has (flags e) RTF_UP
  · by_cases hc : covers e
    · cases best with
      | none => simp [hup, hc, List.argAux]
      | some b =>
        have hlt : rank mask pref b < rank mask pref e ↔
            mask e > mask b ∨ mask e = mask b ∧ pref e > pref b := by
          rw [rank, rank, Prod.Lex.toLex_lt_toLex, @eq_comm _ (mask e)]
        simp only [hup, hc, not_true_eq_false, if_false, Option.map_some, Bool.and_self, if_true,
          List.argAux, hlt]
        split
        · rfl
        · rfl
    · simp [hup, hc]
  · simp [hup]

theorem foldl_lookupVisit (table : List E) (best : Option E) :
    table.foldl (lookupVisit flags covers mask pref) (best.map fun b => (b, pref b)) =
      ((table.filter (eligible flags covers)).foldl
        (List.argAux fun b c => rank mask pref c < rank mask pref b) best).map
          fun b => (b, pref b) := by
  induction table generalizing best with
  | nil => rfl
  | cons e table ih =>
    rw [List.foldl_cons, lookupVisit_eq, ih, List.filter_cons]
    split
    · rfl
    · rfl

theorem tableLookup_eq (table : List E) : tableLookup flags covers mask pref table =
    (table.filter (eligible flags covers)).argmax (rank mask pref) := by
  have h := foldl_lookupVisit flags covers mask pref table none
  rw [Option.map_none] at h
  rw [tableLookup, h, Option.map_map, List.argmax]
  exact congrFun Option.map_id _

/-- The lookup is a longest match, where masks are ordered as prefix lengths are. -/
theorem tableLookup_longest {table : List E} {fits : E → Prop} {len : E → ℕ}
    (hfits : ∀ e ∈ table, (covers e ↔ fits e))
    (hlen : ∀ e ∈ table, ∀ e' ∈ table, mask e ≤ mask e' → len e ≤ len e')
    (hmask : ∀ e ∈ table, ∀ e' ∈ table, len e = len e' → mask e = mask e') :
    LongestMatch table (fun e => has (flags e) RTF_UP) fits len pref
      (tableLookup flags covers mask pref table) := by
  rw [tableLookup_eq]
  cases hr : (table.filter (eligible flags covers)).argmax (rank mask pref) with
  | none =>
    have hnil := List.argmax_eq_none.mp hr
    intro e he hup hf
    have hel := List.filter_eq_nil_iff.mp hnil e he
    apply hel
    simp [eligible, hup, (hfits e he).mpr hf]
  | some r =>
    obtain ⟨hmem, hel⟩ := List.mem_filter.mp (List.argmax_mem hr)
    obtain ⟨hup, hc⟩ : has (flags r) RTF_UP ∧ covers r := by simpa [eligible] using hel
    refine ⟨hmem, hup, (hfits r hmem).mp hc, fun e he heup hf => ?_⟩
    have hin : e ∈ table.filter (eligible flags covers) := by
      apply List.mem_filter.mpr
      exact ⟨he, by simp [eligible, heup, (hfits e he).mpr hf]⟩
    have hle : rank mask pref e ≤ rank mask pref r := List.le_of_mem_argmax hin hr
    rw [rank, rank, Prod.Lex.toLex_le_toLex] at hle
    by_cases heq : len e = len r
    · right
      refine ⟨heq, ?_⟩
      rcases hle with hlt | ⟨-, hp⟩
      · exact absurd (hmask e he r hmem heq) (Nat.ne_of_lt hlt)
      · exact hp
    · left
      apply Nat.lt_of_le_of_ne _ heq
      apply hlen e he r hmem
      rcases hle with hlt | ⟨hm, -⟩
      · exact hlt.le
      · exact hm.le

end Scan

theorem place_lt {i : ℕ} (h : i < 32) : place i < 32 := by
  unfold place
  omega

theorem place_place (i : ℕ) : place (place i) = i := by
  unfold place
  omega

theorem addrBit_place (a : BitVec 32) (j : ℕ) : addrBit a (place j) = a.getLsbD j := by
  rw [addrBit, place_place]

theorem eq_of_addrBit {a b : BitVec 32} (h : ∀ i < 32, addrBit a i = addrBit b i) : a = b := by
  apply BitVec.eq_of_getLsbD_eq
  intro j hj
  rw [← addrBit_place, ← addrBit_place]
  exact h _ (place_lt hj)

theorem addrBit_and (a b : BitVec 32) (i : ℕ) :
    addrBit (a &&& b) i = (addrBit a i && addrBit b i) := by
  rw [addrBit, BitVec.getLsbD_and]
  rfl

theorem maskLen_le (m : BitVec 32) : maskLen m ≤ 32 := by
  have h := List.countP_le_length (p := addrBit m) (l := List.range 32)
  rwa [List.length_range] at h

/-- Under a mask of leading ones two addresses agree where their prefixes do. -/
theorem and_eq_iff {m : BitVec 32} (hm : Contiguous m) (a d : BitVec 32) :
    a &&& m = d &&& m ↔ ∀ i < maskLen m, addrBit a i = addrBit d i := by
  constructor
  · intro h i hi
    have hbit := congrArg (addrBit · i) h
    have hi' : i < 32 := hi.trans_le (maskLen_le m)
    simpa [addrBit_and, hm i hi', hi] using hbit
  · intro h
    apply eq_of_addrBit
    intro i hi
    rw [addrBit_and, addrBit_and, hm i hi]
    by_cases hlt : i < maskLen m
    · rw [h i hlt]
    · simp [hlt]

theorem mask_eq {m m' : BitVec 32} (hm : Contiguous m) (hm' : Contiguous m')
    (h : maskLen m = maskLen m') : m = m' := by
  apply eq_of_addrBit
  intro i hi
  rw [hm i hi, hm' i hi, h]

/-- The number of a shorter mask is smaller. -/
theorem mask_mono {m m' : BitVec 32} (hm : Contiguous m) (hm' : Contiguous m')
    (h : maskLen m ≤ maskLen m') : m.toNat ≤ m'.toNat := by
  have hand : m &&& m' = m := by
    apply eq_of_addrBit
    intro i hi
    rw [addrBit_and, hm i hi, hm' i hi]
    by_cases hlt : i < maskLen m
    · simp [hlt, hlt.trans_le h]
    · simp [hlt]
  have hle : (m &&& m').toNat ≤ m'.toNat := by
    rw [BitVec.toNat_and]
    exact Nat.and_le_right
  rwa [hand] at hle

theorem maskLen_mono {m m' : BitVec 32} (hm : Contiguous m) (hm' : Contiguous m')
    (h : m.toNat ≤ m'.toNat) : maskLen m ≤ maskLen m' := by
  by_contra hlt
  have hle := mask_mono hm' hm (Nat.le_of_not_le hlt)
  have heq : m = m' := BitVec.eq_of_toNat_eq (Nat.le_antisymm h hle)
  exact hlt (heq ▸ le_rfl)

theorem mask_bit {rem j : ℕ} (hj : j < 8) :
    (0xFF#8 <<< (8 - rem)).getLsbD j = decide (8 ≤ j + rem) := by
  have hff : 0xFF#8 = BitVec.allOnes 8 := rfl
  rw [BitVec.getLsbD_shiftLeft, hff, BitVec.getLsbD_allOnes]
  by_cases h : 8 ≤ j + rem
  · have hge : ¬ j < 8 - rem := by omega
    have hin : j - (8 - rem) < 8 := by omega
    simp [hj, hge, hin, h]
  · have hlt : j < 8 - rem := by omega
    simp [hlt, h]

/-- Two bytes agree under the mask where their leading bits do. -/
theorem and_byte_iff (x y : BitVec 8) (rem : ℕ) :
    x &&& (0xFF#8 <<< (8 - rem)) = y &&& (0xFF#8 <<< (8 - rem)) ↔
      ∀ j < 8, j < rem → x.getLsbD (7 - j) = y.getLsbD (7 - j) := by
  constructor
  · intro h j hj hr
    have hbit := congrArg (fun z => z.getLsbD (7 - j)) h
    have hin : 8 ≤ 7 - j + rem := by omega
    simpa [BitVec.getLsbD_and, mask_bit (show 7 - j < 8 by omega), hin] using hbit
  · intro h
    apply BitVec.eq_of_getLsbD_eq
    intro k hk
    rw [BitVec.getLsbD_and, BitVec.getLsbD_and, mask_bit hk]
    by_cases hin : 8 ≤ k + rem
    · have hbit := h (7 - k) (by omega) (by omega)
      rw [show 7 - (7 - k) = k by omega] at hbit
      rw [hbit]
    · simp [hin]

theorem byte_eq_iff (x y : BitVec 8) :
    x = y ↔ ∀ j < 8, x.getLsbD (7 - j) = y.getLsbD (7 - j) := by
  constructor
  · intro h _ _
    rw [h]
  · intro h
    apply BitVec.eq_of_getLsbD_eq
    intro k hk
    have hbit := h (7 - k) (by omega)
    rwa [show 7 - (7 - k) = k by omega] at hbit

theorem ip6PrefixEqual_iff (a b : Ip6Addr) (n : BitVec 8) : ip6PrefixEqual a b n ↔
    ∀ i : Fin 128, i < n.toNat → addrBit6 a i = addrBit6 b i := by
  unfold ip6PrefixEqual
  simp only [decide_eq_true_eq]
  constructor
  · rintro ⟨hfull, hrem⟩ i hi
    unfold addrBit6
    have hlt := i.isLt
    by_cases hw : i / 8 < min n.toNat 128 / 8
    · rw [hfull ⟨i / 8, Nat.div_lt_of_lt_mul hlt⟩ hw]
    · have hr : min n.toNat 128 % 8 ≠ 0 := by omega
      have hbyte := hrem hr ⟨i / 8, Nat.div_lt_of_lt_mul hlt⟩ (by simp only; omega)
      exact (and_byte_iff _ _ _).mp hbyte (i % 8) (by omega) (by omega)
  · intro h
    have hbit : ∀ k : Fin 16, ∀ j < 8, 8 * k + j < n.toNat →
        (a k).getLsbD (7 - j) = (b k).getLsbD (7 - j) := by
      intro k j hj hn
      have hi := h ⟨8 * k + j, by omega⟩ hn
      simp only [addrBit6, show (8 * k.val + j) / 8 = k by omega,
        show (8 * k.val + j) % 8 = j by omega] at hi
      exact hi
    constructor
    · intro k hk
      apply (byte_eq_iff _ _).mpr
      intro j hj
      exact hbit k j hj (by omega)
    · intro _ k hk
      apply (and_byte_iff _ _ _).mpr
      intro j hj hr
      exact hbit k j hj (by omega)

/-- A lookup in a table of contiguous masks is a longest match. -/
theorem auRouteTableDoRouteLookup_longest {table : List AuRouteEntry}
    (h : ∀ e ∈ table, Contiguous e.netmask) (address : BitVec 32) :
    LongestMatch table (fun e => has e.flags RTF_UP) (fun e => Matches e address)
      (fun e => maskLen e.netmask) auRoutePref (auRouteTableDoRouteLookup table address) := by
  apply tableLookup_longest
  · intro e he
    rw [covers, decide_eq_true_eq]
    exact and_eq_iff (h e he) address e.dest
  · intro e he e' he' hle
    exact maskLen_mono (h e he) (h e' he') hle
  · intro e he e' he' heq
    rw [mask_eq (h e he) (h e' he') heq]

theorem auRouteTableDoRouteLookup6_longest (table : List AuRouteEntry6) (address : Ip6Addr) :
    LongestMatch table (fun e => has e.flags RTF_UP) (fun e => Matches6 e address)
      (fun e => e.prefixLen.toNat) auRoutePref6 (auRouteTableDoRouteLookup6 table address) := by
  apply tableLookup_longest
  · intro e _
    exact ip6PrefixEqual_iff address e.dest e.prefixLen
  · exact fun _ _ _ _ h => h
  · exact fun _ _ _ _ h => h

end Xeneva.Net.Route
