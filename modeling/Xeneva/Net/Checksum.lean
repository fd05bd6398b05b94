import Xeneva.Base.OnesSum

/-!
# Checksums of TCP segments

`CalculateTCPChecksum`, `IPv6PseudoChecksum` and the packets that `TCPSendSegment` builds, as the
bytes of a little-endian machine's memory.
-/

namespace Xeneva.Net.Checksum

open Base OnesSum

def store16 (x : BitVec 16) : List Byte := [x.extractLsb' 0 8, x.extractLsb' 8 8]

def store32 (x : BitVec 32) : List Byte :=
  [x.extractLsb' 0 8, x.extractLsb' 8 8, x.extractLsb' 16 8, x.extractLsb' 24 8]

def load16 (a b : Byte) : BitVec 16 := b ++ a

def htons (s : BitVec 16) : BitVec 16 := ((s &&& 0xFF) <<< 8) ||| ((s &&& 0xFF00) >>> 8)

def ntohs (s : BitVec 16) : BitVec 16 := htons s

def htonl (l : BitVec 32) : BitVec 32 :=
  ((l &&& 0xFF) <<< 24) ||| ((l &&& 0xFF00) <<< 8) ||| ((l &&& 0xFF0000) >>> 8) |||
    ((l &&& 0xFF000000) >>> 24)

/-- `((uint16_t*)b)[i]`. -/
def word (b : List Byte) (i : ℕ) : BitVec 16 := load16 (b.getD (2 * i) 0) (b.getD (2 * i + 1) 0)

def addWord (sum : ℕ) (s : BitVec 16) : ℕ :=
  let sum := (sum + (ntohs s).toNat) % 2 ^ 32
  if sum > 0xFFFF then sum / 65536 + sum % 65536 else sum

/-- The loop over `n` words. -/
def addWords (b : List Byte) (n sum : ℕ) : ℕ :=
  (List.range n).foldl (fun sum i => addWord sum (word b i)) sum

/-- `~(sum & 0xFFFF) & 0xFFFF`. -/
def complement (sum : ℕ) : ℕ := 0xFFFF - sum % 65536

/-- The payload's words are counted in 16 bits. -/
def calculateTCPChecksum (p h d : List Byte) : ℕ :=
  let sum := addWords h 10 (addWords p 6 0)
  let sum :=
    if d ≠ [] then
      let dwords := d.length / 2 % 2 ^ 16
      let sum := addWords d dwords sum
      if dwords * 2 ≠ d.length then addWord sum (load16 (d.getD (dwords * 2) 0) 0) else sum
    else sum
  complement sum

def ipv6PseudoChecksum (src dst : Vector Byte 16) (length : BitVec 32) (nextHeader : Byte)
    (data : List Byte) : ℕ :=
  let sum := addWords src.toList 8 0
  let sum := addWords dst.toList 8 sum
  let sum := addWords (store32 (htonl length)) 2 sum
  let sum := addWords (store32 (htonl (nextHeader.setWidth 32))) 2 sum
  let sum := addWords data (data.length / 2) sum
  let sum :=
    if data.length % 2 = 1 then addWord sum (load16 (data.getD (data.length - 1) 0) 0) else sum
  complement sum

def ipv4CalculateChecksum (p : List Byte) : ℕ := complement (addWords p 10 0)

/-- What a segment is made from: addresses are as they are in memory, the rest is not. -/
structure Sender where
  ipv4addr : BitVec 32
  remote_ip : BitVec 32
  ipv6addr : Vector Byte 16
  remote_ip6 : Vector Byte 16
  ipv4Iden : BitVec 16
  sessionPort : BitVec 16
  remote_port : BitVec 16
  snd_nxt : BitVec 32
  rcv_nxt : BitVec 32
  window : BitVec 16

def tcpHeader (s : Sender) (flags checksum : BitVec 16) : List Byte :=
  store16 (htons s.sessionPort) ++ store16 (htons s.remote_port) ++ store32 (htonl s.snd_nxt) ++
    store32 (htonl s.rcv_nxt) ++ store16 (htons (flags ||| 0x5000)) ++ store16 (htons s.window) ++
    store16 checksum ++ store16 0

def ipv4Header (s : Sender) (totalLen : ℕ) (headerChecksum : BitVec 16) : List Byte :=
  [0x45, 0] ++ store16 (htons (BitVec.ofNat 16 totalLen)) ++ store16 (htons (s.ipv4Iden + 1)) ++
    store16 (htons 0x4000) ++ [64, 6] ++ store16 headerChecksum ++ store32 s.ipv4addr ++
    store32 s.remote_ip

def checkHeader (s : Sender) (tcpLen : ℕ) : List Byte :=
  store32 s.ipv4addr ++ store32 s.remote_ip ++ [0, 6] ++ store16 (htons (BitVec.ofNat 16 tcpLen))

def ipv4Packet (s : Sender) (flags : BitVec 16) (payload : List Byte) : List Byte :=
  let totalLen := 20 + 20 + payload.length
  let headerChecksum := ipv4CalculateChecksum (ipv4Header s totalLen 0)
  let checksum :=
    calculateTCPChecksum (checkHeader s (20 + payload.length)) (tcpHeader s flags 0) payload
  ipv4Header s totalLen (htons (BitVec.ofNat 16 headerChecksum)) ++
    tcpHeader s flags (htons (BitVec.ofNat 16 checksum)) ++ payload

def ipv6Header (s : Sender) (tcpLen : BitVec 16) : List Byte :=
  store32 (htonl 0x60000000) ++ store16 (htons tcpLen) ++ [6, 64] ++ s.ipv6addr.toList ++
    s.remote_ip6.toList

def ipv6Packet (s : Sender) (flags : BitVec 16) (payload : List Byte) : List Byte :=
  let tcpLen := BitVec.ofNat 16 (20 + payload.length)
  let checksum := ipv6PseudoChecksum s.ipv6addr s.remote_ip6 (tcpLen.setWidth 32) 6
    ((tcpHeader s flags 0 ++ payload).take tcpLen.toNat)
  ipv6Header s tcpLen ++ tcpHeader s flags (htons (BitVec.ofNat 16 checksum)) ++ payload

/-- A payload that a segment has room for: the lengths of the headers have 16 bits. -/
abbrev Payload (is_ipv6 : Bool) : Type :=
  { m : List Byte // m.length + (if is_ipv6 then 20 else 40) < 2 ^ 16 }

/-- `ready` says that there is a card, a link and memory. -/
def tcpSendSegment (ready is_ipv6 : Bool) (s : Sender) (flags : BitVec 16)
    (payload : Payload is_ipv6) : Option (List Byte) :=
  if ready then
    some (if is_ipv6 then ipv6Packet s flags payload else ipv4Packet s flags payload)
  else none

/-- The number of two bytes of a header. -/
def be16 (m : List Byte) (i : ℕ) : ℕ := (m.getD i 0).toNat * 256 + (m.getD (i + 1) 0).toNat

def segment (is_ipv6 : Bool) (packet : List Byte) : List Byte :=
  if is_ipv6 then packet.drop 40 else packet.drop (4 * ((packet.getD 0 0).toNat % 16))

/-- The pseudo-header, from the header of the packet. -/
def pseudo (is_ipv6 : Bool) (packet : List Byte) : List Byte :=
  if is_ipv6 then
    (packet.drop 8).take 32 ++ [0, 0, packet.getD 4 0, packet.getD 5 0] ++
      [0, 0, 0, packet.getD 6 0]
  else
    let len := be16 packet 2 - 4 * ((packet.getD 0 0).toNat % 16)
    (packet.drop 12).take 8 ++ [0, packet.getD 9 0] ++
      [BitVec.ofNat 8 (len / 256), BitVec.ofNat 8 len]

/-- What is claimed of a packet: the receiver's sum is all ones, and the checksum of the segment is
that of RFC 1071. -/
structure Sound (is_ipv6 : Bool) (packet : List Byte) : Prop where
  sums : sum (words (pseudo is_ipv6 packet ++ segment is_ipv6 packet)) = 65535
  placed : be16 (segment is_ipv6 packet) 16 = checksum
    (pseudo is_ipv6 packet ++ ((segment is_ipv6 packet).set 16 0).set 17 0)

end Xeneva.Net.Checksum

/-!
# The checksums are those of RFC 1071
-/

namespace Xeneva.Net.Checksum

open Base OnesSum

theorem ntohs_append (a b : Byte) : ntohs (b ++ a) = a ++ b := by
  apply BitVec.eq_of_getLsbD_eq
  intro i hi
  rw [BitVec.getLsbD_append]
  unfold ntohs htons
  simp only [BitVec.getLsbD_or, BitVec.getLsbD_shiftLeft, BitVec.getLsbD_ushiftRight,
    BitVec.getLsbD_and, BitVec.getLsbD_append]
  interval_cases i <;> simp

theorem ntohs_load16 (a b : Byte) : (ntohs (load16 a b)).toNat = a.toNat * 256 + b.toNat := by
  rw [load16, ntohs_append, BitVec.toNat_append]
  rw [← Nat.shiftLeft_add_eq_or_of_lt b.isLt, Nat.shiftLeft_eq]

theorem load16_store16 (x : BitVec 16) :
    load16 (x.extractLsb' 0 8) (x.extractLsb' 8 8) = x := by
  apply BitVec.eq_of_getLsbD_eq
  intro i hi
  rw [load16, BitVec.getLsbD_append]
  by_cases h : i < 8
  · simp [h]
  · simp [h, (by omega : i - 8 < 8), (by omega : 8 + (i - 8) = i)]

theorem ntohs_htons (x : BitVec 16) : ntohs (htons x) = x := by
  rw [← load16_store16 x]
  unfold load16
  have h := ntohs_append (x.extractLsb' 0 8) (x.extractLsb' 8 8)
  rw [show htons = ntohs from rfl, h, ntohs_append]

theorem words_store16 (x : BitVec 16) (l : List Byte) :
    words (store16 x ++ l) = (ntohs x).toNat :: words l := by
  have h := ntohs_load16 (x.extractLsb' 0 8) (x.extractLsb' 8 8)
  rw [load16_store16] at h
  rw [h]
  rfl

/-! ## The sums -/

theorem addWord_residue (n : ℕ) (s : BitVec 16) :
    addWord (residue n) s = residue (n + (ntohs s).toNat) := by
  have hn := residue_lt n
  have hs := (ntohs s).isLt
  rw [← add_residue hs]
  unfold addWord add
  dsimp only
  rw [Nat.mod_eq_of_lt (by omega)]
  split <;> split <;> omega

theorem word_toNat (b : List Byte) (i : ℕ) (h : 2 * i + 1 < b.length) :
    (words b)[i]? = some (ntohs (word b i)).toNat := by
  rw [words_get b h, word, ntohs_load16]

theorem addWords_residue (b : List Byte) (t : ℕ) (n : ℕ) (h : 2 * n ≤ b.length) :
    addWords b n (residue t) = residue (t + ((words b).take n).sum) := by
  induction n with
  | zero => rfl
  | succ n ih =>
    have hlast := word_toNat b n (by omega)
    rw [addWords, List.range_succ, List.foldl_append, List.foldl_cons, List.foldl_nil]
    rw [addWords] at ih
    rw [ih (by omega), addWord_residue, List.take_add_one, hlast, List.sum_append]
    simp [Nat.add_assoc]

/-- The words of a header of `n` words. -/
theorem addWords_all (b : List Byte) (t : ℕ) {n : ℕ} (h : b.length = 2 * n) :
    addWords b n (residue t) = residue (t + (words b).sum) := by
  have hn : b.length / 2 = n := by omega
  have hsum := words_sum b
  rw [if_neg (by omega), hn] at hsum
  rw [addWords_residue b t n (by omega), hsum]
  rfl

theorem complement_residue (m : List Byte) {t : ℕ} (h : t = (words m).sum) :
    complement (residue t) = checksum m := by
  rw [complement, Nat.mod_eq_of_lt (residue_lt t), checksum, fold_eq, h]

theorem last_residue (d : List Byte) (t : ℕ) (h : d.length % 2 = 1) :
    addWord (residue (t + ((words d).take (d.length / 2)).sum))
      (load16 (d.getD (d.length - 1) 0) 0) = residue (t + (words d).sum) := by
  have hzero : (0 : Byte).toNat = 0 := rfl
  rw [addWord_residue, ntohs_load16, words_sum d, if_pos h, hzero, Nat.add_zero, Nat.add_assoc]

theorem calculateTCPChecksum_eq (p h d : List Byte) (hp : p.length = 12) (hh : h.length = 20)
    (hd : d.length < 2 ^ 17) : calculateTCPChecksum p h d = checksum (p ++ (h ++ d)) := by
  have hsum : (words p).sum + (words h).sum + (words d).sum = (words (p ++ (h ++ d))).sum := by
    rw [words_append p _ (by omega), words_append h _ (by omega), List.sum_append, List.sum_append]
    omega
  have hwords : d.length / 2 % 2 ^ 16 = d.length / 2 := by omega
  have hstart : addWords h 10 (addWords p 6 0) = residue ((words p).sum + (words h).sum) := by
    have hzero := addWords_all p 0 (n := 6) hp
    rw [Nat.zero_add] at hzero
    rw [← addWords_all h _ (n := 10) hh, ← hzero]
    rfl
  unfold calculateTCPChecksum
  dsimp only
  rw [hstart, hwords]
  by_cases hd0 : d = []
  · rw [if_neg (not_not.2 hd0)]
    apply complement_residue
    rw [← hsum, hd0]
    rfl
  · rw [if_pos hd0, addWords_residue d _ _ (by omega)]
    by_cases hodd : d.length % 2 = 1
    · have hlast : d.length / 2 * 2 = d.length - 1 := by omega
      rw [if_pos (by omega), hlast, last_residue d _ hodd]
      exact complement_residue _ hsum
    · have hall := words_sum d
      rw [if_neg hodd] at hall
      rw [if_neg (by omega)]
      apply complement_residue
      omega

theorem store32_length (x : BitVec 32) : (store32 x).length = 4 := rfl

theorem ipv6PseudoChecksum_eq (src dst : Vector Byte 16) (length : BitVec 32) (nextHeader : Byte)
    (data : List Byte) : ipv6PseudoChecksum src dst length nextHeader data =
      checksum (src.toList ++ (dst.toList ++ (store32 (htonl length) ++
        (store32 (htonl (nextHeader.setWidth 32)) ++ data)))) := by
  have hsum : (words src.toList).sum + (words dst.toList).sum +
      (words (store32 (htonl length))).sum +
      (words (store32 (htonl (nextHeader.setWidth 32)))).sum + (words data).sum =
      (words (src.toList ++ (dst.toList ++ (store32 (htonl length) ++
        (store32 (htonl (nextHeader.setWidth 32)) ++ data))))).sum := by
    rw [words_append _ _ (by simp), words_append _ _ (by simp),
      words_append _ _ (by simp [store32]), words_append _ _ (by simp [store32])]
    simp only [List.sum_append, Nat.add_assoc]
  have hsrc := addWords_all src.toList 0 (n := 8) (by simp)
  rw [Nat.zero_add] at hsrc
  unfold ipv6PseudoChecksum
  dsimp only
  rw [show addWords src.toList 8 0 = _ from hsrc, addWords_all _ _ (n := 8) (by simp),
    addWords_all _ _ (n := 2) (by rfl), addWords_all _ _ (n := 2) (by rfl),
    addWords_residue data _ _ (by omega)]
  by_cases hodd : data.length % 2 = 1
  · rw [if_pos hodd, last_residue data _ hodd]
    exact complement_residue _ hsum
  · have hall := words_sum data
    rw [if_neg hodd] at hall
    rw [if_neg hodd]
    apply complement_residue
    omega

/-! ## Packets -/

theorem words_store32 (x : BitVec 32) (l : List Byte) :
    words (store32 x ++ l) = words (store32 x) ++ words l :=
  words_append _ _ (by rw [store32_length])

/-- The field for the checksum is one of the words. -/
theorem words_tcpHeader (s : Sender) (flags : BitVec 16) (payload : List Byte) {c : ℕ}
    (hc : c < 65536) : (words (tcpHeader s flags (htons (BitVec.ofNat 16 c)) ++ payload)).sum =
      (words (tcpHeader s flags 0 ++ payload)).sum + c := by
  have hfield : (ntohs (htons (BitVec.ofNat 16 c))).toNat = c := by
    rw [ntohs_htons, BitVec.toNat_ofNat, Nat.mod_eq_of_lt hc]
  have hzero : (ntohs 0).toNat = 0 := rfl
  unfold tcpHeader
  simp only [List.append_assoc, words_store16, words_store32, List.sum_cons, List.sum_append,
    hfield, hzero]
  omega

theorem tcpHeader_length (s : Sender) (flags c : BitVec 16) : (tcpHeader s flags c).length = 20 :=
  rfl

theorem tcpHeader_clear (s : Sender) (flags c : BitVec 16) (payload : List Byte) :
    (((tcpHeader s flags c ++ payload).set 16 0).set 17 0) = tcpHeader s flags 0 ++ payload :=
  rfl

theorem bytes_store16 (x : BitVec 16) :
    (x.extractLsb' 0 8).toNat * 256 + (x.extractLsb' 8 8).toNat = (ntohs x).toNat := by
  rw [← ntohs_load16, load16_store16]

theorem tcpHeader_field (s : Sender) (flags : BitVec 16) (payload : List Byte) {c : ℕ}
    (hc : c < 65536) :
    be16 (tcpHeader s flags (htons (BitVec.ofNat 16 c)) ++ payload) 16 = c := by
  have hfield := bytes_store16 (htons (BitVec.ofNat 16 c))
  rw [ntohs_htons, BitVec.toNat_ofNat, Nat.mod_eq_of_lt hc] at hfield
  exact hfield

/-- A packet whose segment has the checksum of the pseudo-header and the segment without it. -/
theorem sound_of (is_ipv6 : Bool) {packet p : List Byte} {s : Sender} {flags : BitVec 16}
    {payload : List Byte} (hp : pseudo is_ipv6 packet = p) (heven : p.length % 2 = 0)
    (hs : segment is_ipv6 packet = tcpHeader s flags (htons (BitVec.ofNat 16
      (checksum (p ++ (tcpHeader s flags 0 ++ payload))))) ++ payload) : Sound is_ipv6 packet where
  sums := by
    rw [hp, hs]
    apply sum_checksum (m := p ++ (tcpHeader s flags 0 ++ payload))
    rw [words_append p _ heven, words_append p _ heven, List.sum_append, List.sum_append,
      words_tcpHeader s flags payload (checksum_lt _), Nat.add_assoc]
  placed := by
    rw [hp, hs, tcpHeader_clear, tcpHeader_field s flags payload (checksum_lt _)]

theorem store16_append (a b : Byte) : store16 (b ++ a) = [a, b] := by
  have hlow : (b ++ a).extractLsb' 0 8 = a := by
    apply BitVec.eq_of_getLsbD_eq
    intro i hi
    rw [BitVec.getLsbD_extractLsb', BitVec.getLsbD_append]
    simp [hi]
  have hhigh : (b ++ a).extractLsb' 8 8 = b := by
    apply BitVec.eq_of_getLsbD_eq
    intro i hi
    rw [BitVec.getLsbD_extractLsb', BitVec.getLsbD_append]
    simp [hi]
  exact congrArg₂ (fun x y => [x, y]) hlow hhigh

theorem store16_htons (x : BitVec 16) :
    store16 (htons x) = [x.extractLsb' 8 8, x.extractLsb' 0 8] := by
  have hx : htons x = x.extractLsb' 0 8 ++ x.extractLsb' 8 8 := by
    conv => lhs; rw [← load16_store16 x]
    exact ntohs_append _ _
  rw [hx]
  exact store16_append _ _

theorem store16_ofNat (n : ℕ) :
    store16 (htons (BitVec.ofNat 16 n)) = [BitVec.ofNat 8 (n / 256), BitVec.ofNat 8 n] := by
  have hhigh : (BitVec.ofNat 16 n).extractLsb' 8 8 = BitVec.ofNat 8 (n / 256) := by
    apply BitVec.eq_of_toNat_eq
    rw [BitVec.extractLsb'_toNat, BitVec.toNat_ofNat, BitVec.toNat_ofNat, Nat.shiftRight_eq_div_pow]
    omega
  have hlow : (BitVec.ofNat 16 n).extractLsb' 0 8 = BitVec.ofNat 8 n := by
    apply BitVec.eq_of_toNat_eq
    rw [BitVec.extractLsb'_toNat, BitVec.toNat_ofNat, BitVec.toNat_ofNat, Nat.shiftRight_zero]
    omega
  rw [store16_htons, hhigh, hlow]

theorem htonl_byte (x : BitVec 32) (k : ℕ) (hk : k < 4) :
    (htonl x).extractLsb' (8 * k) 8 = x.extractLsb' (8 * (3 - k)) 8 := by
  apply BitVec.eq_of_getLsbD_eq
  intro i hi
  unfold htonl
  simp only [BitVec.getLsbD_extractLsb', BitVec.getLsbD_or, BitVec.getLsbD_shiftLeft,
    BitVec.getLsbD_ushiftRight, BitVec.getLsbD_and]
  interval_cases k <;> interval_cases i <;> simp

theorem store32_setWidth (x : BitVec 16) :
    store32 (htonl (x.setWidth 32)) = [0, 0] ++ store16 (htons x) := by
  have hbyte : ∀ k, (x.setWidth 32).extractLsb' k 8 = x.extractLsb' k 8 := by
    intro k
    apply BitVec.eq_of_getLsbD_eq
    intro i hi
    simp only [BitVec.getLsbD_extractLsb', BitVec.getLsbD_setWidth]
    by_cases hk : k + i < 32
    · simp [hk]
    · simp [hk, BitVec.getLsbD_of_ge x (k + i) (by omega)]
  have hhigh : ∀ k, 16 ≤ k → x.extractLsb' k 8 = 0 := by
    intro k hk
    apply BitVec.eq_of_getLsbD_eq
    intro i hi
    simp [BitVec.getLsbD_of_ge x (k + i) (by omega)]
  have h0 := htonl_byte (x.setWidth 32) 0 (by decide)
  have h1 := htonl_byte (x.setWidth 32) 1 (by decide)
  have h2 := htonl_byte (x.setWidth 32) 2 (by decide)
  have h3 := htonl_byte (x.setWidth 32) 3 (by decide)
  rw [hbyte, hhigh _ (by decide)] at h0 h1
  rw [hbyte] at h2 h3
  rw [store16_htons]
  change [(htonl (x.setWidth 32)).extractLsb' (8 * 0) 8,
    (htonl (x.setWidth 32)).extractLsb' (8 * 1) 8, (htonl (x.setWidth 32)).extractLsb' (8 * 2) 8,
    (htonl (x.setWidth 32)).extractLsb' (8 * 3) 8] = _
  rw [h0, h1, h2, h3]
  rfl

/-! ## The two families -/

theorem ipv4_sound (s : Sender) (flags : BitVec 16) (payload : List Byte)
    (h : payload.length + 40 < 2 ^ 16) : Sound false (ipv4Packet s flags payload) := by
  have hcheck := calculateTCPChecksum_eq (checkHeader s (20 + payload.length))
    (tcpHeader s flags 0) payload rfl rfl (by omega)
  have hihl : 4 * (((ipv4Packet s flags payload).getD 0 0).toNat % 16) = 20 := by
    have hfirst : (ipv4Packet s flags payload).getD 0 0 = 0x45 := rfl
    rw [hfirst]
    rfl
  have hlen : be16 (ipv4Packet s flags payload) 2 = 40 + payload.length := by
    have hbytes := bytes_store16 (htons (BitVec.ofNat 16 (20 + 20 + payload.length)))
    rw [ntohs_htons, BitVec.toNat_ofNat, Nat.mod_eq_of_lt (by omega)] at hbytes
    exact hbytes
  have heven : (checkHeader s (20 + payload.length)).length = 12 := rfl
  have hpseudo : pseudo false (ipv4Packet s flags payload) =
      checkHeader s (20 + payload.length) := by
    have htcp : 40 + payload.length - 20 = 20 + payload.length := by omega
    rw [pseudo, if_neg Bool.false_ne_true, hihl, hlen, htcp, checkHeader, store16_ofNat]
    rfl
  apply sound_of false hpseudo (by rw [heven])
  rw [segment, if_neg Bool.false_ne_true, hihl, ← hcheck]
  rfl

theorem ipv6Header_length (s : Sender) (len : BitVec 16) : (ipv6Header s len).length = 40 := by
  simp [ipv6Header, store16, store32]

theorem ipv6_pseudo (s : Sender) (len : BitVec 16) (rest : List Byte) :
    pseudo true (ipv6Header s len ++ rest) = s.ipv6addr.toList ++ (s.remote_ip6.toList ++
      (([0, 0] ++ store16 (htons len)) ++ [0, 0, 0, 6])) := by
  have hdrop : (ipv6Header s len ++ rest).drop 8 =
      (s.ipv6addr.toList ++ s.remote_ip6.toList) ++ rest := rfl
  have htake : ((s.ipv6addr.toList ++ s.remote_ip6.toList) ++ rest).take 32 =
      s.ipv6addr.toList ++ s.remote_ip6.toList :=
    List.take_left' (by simp)
  rw [pseudo, if_pos rfl, hdrop, htake]
  simp only [List.append_assoc]
  rfl

theorem ipv6_sound (s : Sender) (flags : BitVec 16) (payload : List Byte)
    (h : payload.length + 20 < 2 ^ 16) : Sound true (ipv6Packet s flags payload) := by
  have hnext : store32 (htonl ((6 : Byte).setWidth 32)) = [0, 0, 0, 6] := rfl
  have htake : (tcpHeader s flags 0 ++ payload).take (BitVec.ofNat 16 (20 + payload.length)).toNat =
      tcpHeader s flags 0 ++ payload := by
    apply List.take_of_length_le
    rw [List.length_append, tcpHeader_length, BitVec.toNat_ofNat, Nat.mod_eq_of_lt (by omega)]
  unfold ipv6Packet
  dsimp only
  rw [htake]
  generalize BitVec.ofNat 16 (20 + payload.length) = len
  have hcheck := ipv6PseudoChecksum_eq s.ipv6addr s.remote_ip6 (len.setWidth 32) 6
    (tcpHeader s flags 0 ++ payload)
  rw [store32_setWidth, hnext] at hcheck
  rw [hcheck, List.append_assoc]
  apply sound_of true (ipv6_pseudo s len _)
  · simp [store16]
  · rw [segment, if_pos rfl, List.drop_left' (ipv6Header_length s len)]
    simp only [List.append_assoc]
    rfl

/-- For every packet that is sent, the receiver's sum is all ones and the checksum is that of
RFC 1071. The sums of the two families are those of RFC 1071 for longer messages, too. -/
theorem tcpSendSegment_sound :
    (∀ (ready is_ipv6 : Bool) (s : Sender) (flags : BitVec 16) (payload : Payload is_ipv6),
      ∀ packet ∈ tcpSendSegment ready is_ipv6 s flags payload, Sound is_ipv6 packet) ∧
    (∀ p h d : List Byte, p.length = 12 → h.length = 20 → d.length < 2 ^ 17 →
      calculateTCPChecksum p h d = checksum (p ++ (h ++ d))) ∧
    ∀ (src dst : Vector Byte 16) (length : BitVec 32) (nextHeader : Byte) (data : List Byte),
      ipv6PseudoChecksum src dst length nextHeader data =
        checksum (src.toList ++ (dst.toList ++ (store32 (htonl length) ++
          (store32 (htonl (nextHeader.setWidth 32)) ++ data)))) := by
  refine ⟨fun ready is_ipv6 s flags payload packet h => ?_, calculateTCPChecksum_eq,
    ipv6PseudoChecksum_eq⟩
  unfold tcpSendSegment at h
  cases ready with
  | false => cases h
  | true =>
    obtain ⟨m, hm⟩ := payload
    cases is_ipv6 with
    | false =>
      cases h
      exact ipv4_sound s flags m hm
    | true =>
      cases h
      exact ipv6_sound s flags m hm

def loopback : Sender where
  ipv4addr := 0x0100007F
  remote_ip := 0x0100007F
  ipv6addr := Vector.replicate 16 1
  remote_ip6 := Vector.replicate 16 1
  ipv4Iden := 0
  sessionPort := 49152
  remote_port := 80
  snd_nxt := 1
  rcv_nxt := 1
  window := 65535

theorem tcpSendSegment_sound_loopback :
    Sound false (ipv4Packet loopback 0x18 [104, 105, 10]) ∧
    Sound true (ipv6Packet loopback 0x18 [104, 105, 10]) ∧
    calculateTCPChecksum (checkHeader loopback 20) (tcpHeader loopback 2 0) [] =
      checksum (checkHeader loopback 20 ++ (tcpHeader loopback 2 0 ++ [])) :=
  ⟨tcpSendSegment_sound.1 true false loopback 0x18 ⟨[104, 105, 10], by decide⟩ _ rfl,
    tcpSendSegment_sound.1 true true loopback 0x18 ⟨[104, 105, 10], by decide⟩ _ rfl,
    tcpSendSegment_sound.2.1 _ _ [] rfl rfl (by decide)⟩

end Xeneva.Net.Checksum
