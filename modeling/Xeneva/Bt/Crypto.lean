import Xeneva.Base.Aes

/-!
# AES and CMAC of the Bluetooth stack

`bt_aes_encrypt` and `bt_cmac`. Blocks and the key schedule are arrays of bytes.
-/

namespace Xeneva.Bt.Crypto

open Base.Rijndael (Byte)
open Base.Aes (Block)

set_option maxRecDepth 2000 in
def sbox : Vector Byte 256 :=
  #v[
    0x63, 0x7c, 0x77, 0x7b, 0xf2, 0x6b, 0x6f, 0xc5, 0x30, 0x01, 0x67, 0x2b, 0xfe, 0xd7, 0xab, 0x76,
    0xca, 0x82, 0xc9, 0x7d, 0xfa, 0x59, 0x47, 0xf0, 0xad, 0xd4, 0xa2, 0xaf, 0x9c, 0xa4, 0x72, 0xc0,
    0xb7, 0xfd, 0x93, 0x26, 0x36, 0x3f, 0xf7, 0xcc, 0x34, 0xa5, 0xe5, 0xf1, 0x71, 0xd8, 0x31, 0x15,
    0x04, 0xc7, 0x23, 0xc3, 0x18, 0x96, 0x05, 0x9a, 0x07, 0x12, 0x80, 0xe2, 0xeb, 0x27, 0xb2, 0x75,
    0x09, 0x83, 0x2c, 0x1a, 0x1b, 0x6e, 0x5a, 0xa0, 0x52, 0x3b, 0xd6, 0xb3, 0x29, 0xe3, 0x2f, 0x84,
    0x53, 0xd1, 0x00, 0xed, 0x20, 0xfc, 0xb1, 0x5b, 0x6a, 0xcb, 0xbe, 0x39, 0x4a, 0x4c, 0x58, 0xcf,
    0xd0, 0xef, 0xaa, 0xfb, 0x43, 0x4d, 0x33, 0x85, 0x45, 0xf9, 0x02, 0x7f, 0x50, 0x3c, 0x9f, 0xa8,
    0x51, 0xa3, 0x40, 0x8f, 0x92, 0x9d, 0x38, 0xf5, 0xbc, 0xb6, 0xda, 0x21, 0x10, 0xff, 0xf3, 0xd2,
    0xcd, 0x0c, 0x13, 0xec, 0x5f, 0x97, 0x44, 0x17, 0xc4, 0xa7, 0x7e, 0x3d, 0x64, 0x5d, 0x19, 0x73,
    0x60, 0x81, 0x4f, 0xdc, 0x22, 0x2a, 0x90, 0x88, 0x46, 0xee, 0xb8, 0x14, 0xde, 0x5e, 0x0b, 0xdb,
    0xe0, 0x32, 0x3a, 0x0a, 0x49, 0x06, 0x24, 0x5c, 0xc2, 0xd3, 0xac, 0x62, 0x91, 0x95, 0xe4, 0x79,
    0xe7, 0xc8, 0x37, 0x6d, 0x8d, 0xd5, 0x4e, 0xa9, 0x6c, 0x56, 0xf4, 0xea, 0x65, 0x7a, 0xae, 0x08,
    0xba, 0x78, 0x25, 0x2e, 0x1c, 0xa6, 0xb4, 0xc6, 0xe8, 0xdd, 0x74, 0x1f, 0x4b, 0xbd, 0x8b, 0x8a,
    0x70, 0x3e, 0xb5, 0x66, 0x48, 0x03, 0xf6, 0x0e, 0x61, 0x35, 0x57, 0xb9, 0x86, 0xc1, 0x1d, 0x9e,
    0xe1, 0xf8, 0x98, 0x11, 0x69, 0xd9, 0x8e, 0x94, 0x9b, 0x1e, 0x87, 0xe9, 0xce, 0x55, 0x28, 0xdf,
    0x8c, 0xa1, 0x89, 0x0d, 0xbf, 0xe6, 0x42, 0x68, 0x41, 0x99, 0x2d, 0x0f, 0xb0, 0x54, 0xbb, 0x16]

def rcon : Vector Byte 11 :=
  #v[0x00, 0x01, 0x02, 0x04, 0x08, 0x10, 0x20, 0x40, 0x80, 0x1b, 0x36]

def sub (b : Byte) : Byte := sbox.get b.toFin

def xtime (x : Byte) : Byte := (x <<< 1) ^^^ if x &&& 0x80 ≠ 0 then 0x1b else 0

/-- What the loop adds to a word: the word before, rotated and substituted in every fourth step.
The argument is `i - 4`. -/
def temp (rk : Vector Byte 176) (k : Fin 40) : Vector Byte 4 :=
  let i := k.val + 4
  let t0 := rk[(i - 1) * 4]
  let t1 := rk[(i - 1) * 4 + 1]
  let t2 := rk[(i - 1) * 4 + 2]
  let t3 := rk[(i - 1) * 4 + 3]
  if i % 4 = 0 then #v[sub t1 ^^^ rcon[i / 4], sub t2, sub t3, sub t0] else #v[t0, t1, t2, t3]

def expandStep (rk : Vector Byte 176) (k : Fin 40) : Vector Byte 176 :=
  let i := k.val + 4
  let t := temp rk k
  let rk := rk.set (i * 4 + 0) (rk[(i - 4) * 4 + 0] ^^^ t[0])
  let rk := rk.set (i * 4 + 1) (rk[(i - 4) * 4 + 1] ^^^ t[1])
  let rk := rk.set (i * 4 + 2) (rk[(i - 4) * 4 + 2] ^^^ t[2])
  rk.set (i * 4 + 3) (rk[(i - 4) * 4 + 3] ^^^ t[3])

/-- The key schedule after some of the 40 steps; what is not written yet is `0`. -/
def expand (key : Block) : (n : ℕ) → n ≤ 40 → Vector Byte 176
  | 0, _ => Vector.ofFn fun j => if h : j.val < 16 then key[j.val] else 0
  | n + 1, h => expandStep (expand key n (by omega)) ⟨n, by omega⟩

def addKey (rk : Vector Byte 176) (round : Fin 11) (s : Block) : Block :=
  Vector.ofFn fun i => s[i] ^^^ rk[round.val * 16 + i.val]

def shift (s : Block) : Block :=
  #v[s[0], s[5], s[10], s[15], s[4], s[9], s[14], s[3],
    s[8], s[13], s[2], s[7], s[12], s[1], s[6], s[11]]

/-- The mix of the column at `4 * k`. -/
def mix (n : Block) (k : Fin 4) : Block :=
  let i := 4 * k.val
  let a := n[i]
  let b := n[i + 1]
  let c := n[i + 2]
  let d := n[i + 3]
  let a2 := xtime a
  let b2 := xtime b
  let c2 := xtime c
  let d2 := xtime d
  let n := n.set i (a2 ^^^ b2 ^^^ b ^^^ c ^^^ d)
  let n := n.set (i + 1) (a ^^^ b2 ^^^ c2 ^^^ c ^^^ d)
  let n := n.set (i + 2) (a ^^^ b ^^^ c2 ^^^ d2 ^^^ d)
  n.set (i + 3) (a2 ^^^ a ^^^ b ^^^ c ^^^ d2)

/-- For the columns in `roundStep`. -/
local instance neZero_four : NeZero 4 := ⟨by decide⟩

def roundStep (rk : Vector Byte 176) (round : Fin 11) (s : Block) : Block :=
  let n := shift (s.map sub)
  addKey rk round (if round.val < 10 then mix (mix (mix (mix n 0) 1) 2) 3 else n)

/-- The state after some rounds. -/
def encryptTo (rk : Vector Byte 176) (inp : Block) : (n : ℕ) → n ≤ 10 → Block
  | 0, _ => addKey rk 0 inp
  | n + 1, h => roundStep rk ⟨n + 1, by omega⟩ (encryptTo rk inp n (by omega))

def btAesEncrypt (key inp : Block) : Block :=
  encryptTo (expand key 40 (le_refl 40)) inp 10 (le_refl 10)

def cmacSubkey (k : Block) : Block :=
  let r : Block := Vector.ofFn fun i =>
    if h : i.val < 15 then (k[i] <<< 1) ||| (k[i.val + 1] >>> 7) else k[i] <<< 1
  if k[0] &&& 0x80 ≠ 0 then r.set 15 (r[15] ^^^ 0x87) else r

def xorInto (x y : Block) : Block := Vector.ofFn fun j => x[j] ^^^ y[j]

/-- `take` bytes of the message from `off`, then zeros. -/
def copied (msg : List Byte) (off take : ℕ) : Block :=
  Vector.ofFn fun j => if j.val < take then msg.getD (off + j) 0 else 0

def cmacStep (key k1 k2 : Block) (msg : List Byte) (n : ℕ) (complete : Bool) (i off : ℕ)
    (x : Block) : Block :=
  let last := i + 1 = n
  let block :=
    if ¬last ∨ complete then
      copied msg off (if msg.length < off + 16 then msg.length - off else 16)
    else (copied msg off (msg.length - off)).setIfInBounds (msg.length - off) 0x80
  let block := if last then xorInto block (if complete then k1 else k2) else block
  btAesEncrypt key (xorInto x block)

/-- The loop over the blocks, with the number of them that are left. -/
def cmacFrom (key k1 k2 : Block) (msg : List Byte) (n : ℕ) (complete : Bool) :
    ℕ → ℕ → ℕ → Block → Block
  | 0, _, _, x => x
  | left + 1, i, off, x =>
    cmacFrom key k1 k2 msg n complete left (i + 1) (off + 16)
      (cmacStep key k1 k2 msg n complete i off x)

def btCmac (key : Block) (msg : List Byte) : Block :=
  let k1 := cmacSubkey (btAesEncrypt key (Vector.replicate 16 0))
  let k2 := cmacSubkey k1
  let n := if msg.length = 0 then 1 else (msg.length + 15) / 16
  let complete := msg.length ≠ 0 ∧ msg.length % 16 = 0
  cmacFrom key k1 k2 msg n complete n 0 0 (Vector.replicate 16 0)

end Xeneva.Bt.Crypto

/-!
# The cipher is AES-128
-/

namespace Xeneva.Bt.Crypto

open Base Rijndael
open Base.Aes (Block)

/-- The affine map of the table, backwards. -/
def unaffine (b : Byte) : Byte :=
  BitVec.ofFnLE fun i : Fin 8 =>
    b.getLsbD ((i + 2) % 8) ^^ b.getLsbD ((i + 5) % 8) ^^ b.getLsbD ((i + 7) % 8) ^^
      (0x05 : Byte).getLsbD i

theorem affine_unaffine : ∀ b : Byte, Aes.affine (unaffine b) = b := by
  decide +kernel

theorem mul_unaffine_sub : ∀ b : Byte, b ≠ 0 → mul b (unaffine (sub b)) = 1 := by
  -- one pass over the table; `∀ b` would walk to its place anew for each byte
  have htable : ∀ p ∈ sbox.toList.zipIdx, p.2 ≠ 0 →
      mul (BitVec.ofNat 8 p.2) (unaffine p.1) = 1 := by
    decide +kernel
  intro b hb
  have h := htable (sub b, b.toNat) (List.mem_zipIdx_iff_getElem?.2 (by simp [sub, Vector.get]))
  simpa using h (by simpa [← BitVec.toNat_inj] using hb)

theorem sub_eq (b : Byte) : sub b = Aes.sbox b := by
  unfold Aes.sbox
  by_cases hb : b = 0
  · rw [hb, inverse_zero]
    decide +kernel
  · rw [inverse_of_mul (mul_unaffine_sub b hb), affine_unaffine]

theorem mul_two : ∀ b : Byte, mul 2 b = xtime b := by
  decide +kernel

theorem mul_three : ∀ b : Byte, mul 3 b = xtime b ^^^ b := by
  decide +kernel

theorem rcon_eq (i : Fin 11) (hi : i ≠ 0) : Aes.rcon i 0 = rcon[i] := by
  revert hi
  decide +revert +kernel

theorem word_next (key : Block) (k : ℕ) (j : Fin 4) :
    Aes.word key (k + 4) j = Aes.word key k j ^^^
      if (k + 4) % 4 = 0 then
        Aes.subWord (Aes.rotWord (Aes.word key (k + 3))) j ^^^ Aes.rcon ((k + 4) / 4) j
      else Aes.word key (k + 3) j := by
  conv => lhs; rw [Aes.word, dif_neg (by omega)]
  split <;> rfl

theorem temp_eq (key : Block) (rk : Vector Byte 176) (k : Fin 40)
    (h : ∀ j : Fin 4, rk[(k.val + 3) * 4 + j.val] = Aes.word key (k + 3) j) (j : Fin 4) :
    Aes.word key k j ^^^ (temp rk k)[j] = Aes.word key (k + 4) j := by
  have h0 : rk[(k.val + 3) * 4] = Aes.word key (k + 3) 0 := h 0
  have h1 : rk[(k.val + 3) * 4 + 1] = Aes.word key (k + 3) 1 := h 1
  have h2 : rk[(k.val + 3) * 4 + 2] = Aes.word key (k + 3) 2 := h 2
  have h3 : rk[(k.val + 3) * 4 + 3] = Aes.word key (k + 3) 3 := h 3
  rw [word_next]
  congr 1
  unfold temp
  simp only [Nat.add_one_sub_one, h0, h1, h2, h3]
  split
  · fin_cases j
    · simp [Aes.subWord, Aes.rotWord, sub_eq]
      exact (rcon_eq ⟨k / 4 + 1, by omega⟩ (by simp [Fin.ext_iff])).symm
    · simp [Aes.subWord, Aes.rotWord, sub_eq, Aes.rcon]
    · simp [Aes.subWord, Aes.rotWord, sub_eq, Aes.rcon]
    · simp [Aes.subWord, Aes.rotWord, sub_eq, Aes.rcon]
  · fin_cases j <;> rfl

theorem expandStep_old (rk : Vector Byte 176) (k : Fin 40) {p : ℕ} (hp : p < (k + 4) * 4) :
    (expandStep rk k)[p] = rk[p] := by
  unfold expandStep
  simp (disch := omega) only [Vector.getElem_set_ne]

theorem expandStep_new (rk : Vector Byte 176) (k : Fin 40) (j : Fin 4) :
    (expandStep rk k)[(k + 4) * 4 + j.val] = rk[k * 4 + j.val] ^^^ (temp rk k)[j] := by
  unfold expandStep
  fin_cases j <;>
  simp (disch := omega) [Vector.getElem_set_ne]

theorem expand_word (key : Block) (n : ℕ) (hn : n ≤ 40) (m : ℕ) (hm : m < n + 4) (j : Fin 4) :
    (expand key n hn)[m * 4 + j.val] = Aes.word key m j := by
  induction n generalizing m j with
  | zero =>
    have hp : m * 4 + j.val < 16 := by omega
    rw [Aes.word, dif_pos (by omega)]
    simp [expand, hp, Nat.mul_comm]
  | succ n ih =>
    have hn' : n ≤ 40 := by omega
    by_cases hlast : m < n + 4
    · rw [expand, expandStep_old _ _ (by dsimp only; omega)]
      exact ih hn' m hlast j
    · obtain rfl : m = n + 4 := by omega
      have hnew := expandStep_new (expand key n hn') ⟨n, by omega⟩ j
      rw [expand, hnew, ih hn' n (by omega) j]
      exact temp_eq key _ ⟨n, by omega⟩ (ih hn' (n + 3) (by omega)) j

theorem toState_map (s : Block) : Aes.toState (s.map sub) = Aes.subBytes (Aes.toState s) := by
  funext r c
  simp [Aes.toState, Aes.subBytes, sub_eq]

theorem toState_shift (s : Block) : Aes.toState (shift s) = Aes.shiftRows (Aes.toState s) := by
  funext r c
  fin_cases r <;> fin_cases c <;> rfl

theorem mix_same (n : Block) (k c r : Fin 4) (hc : c ≠ k) :
    Aes.toState (mix n k) r c = Aes.toState n r c := by
  have hc : c.val ≠ k.val := fun h => hc (Fin.ext h)
  unfold mix Aes.toState
  simp (disch := omega) only [Vector.getElem_set_ne]

theorem mixColumn_row (s : Aes.State) (k r : Fin 4) {a b c d : Byte} (ha : s r k = a)
    (hb : s (r + 1) k = b) (hc : s (r + 2) k = c) (hd : s (r + 3) k = d) :
    Aes.mixColumns s r k = xtime a ^^^ (xtime b ^^^ b) ^^^ c ^^^ d := by
  rw [Aes.mixColumns, mul_two, mul_three, ha, hb, hc, hd]

theorem mix_column (n : Block) (k r : Fin 4) :
    Aes.toState (mix n k) r k = Aes.mixColumns (Aes.toState n) r k := by
  have h0 : Aes.toState n 0 k = n[4 * k.val] := rfl
  have h1 : Aes.toState n 1 k = n[4 * k.val + 1] := rfl
  have h2 : Aes.toState n 2 k = n[4 * k.val + 2] := rfl
  have h3 : Aes.toState n 3 k = n[4 * k.val + 3] := rfl
  unfold mix
  match r with
  | 0 =>
    rw [mixColumn_row _ k _ h0 h1 h2 h3]
    simp (disch := omega) [Aes.toState, Vector.getElem_set_ne]
    ac_rfl
  | 1 =>
    rw [mixColumn_row _ k _ h1 h2 h3 h0]
    simp (disch := omega) [Aes.toState, Vector.getElem_set_ne]
    ac_rfl
  | 2 =>
    rw [mixColumn_row _ k _ h2 h3 h0 h1]
    simp (disch := omega) [Aes.toState, Vector.getElem_set_ne]
    ac_rfl
  | 3 =>
    rw [mixColumn_row _ k _ h3 h0 h1 h2]
    simp [Aes.toState]
    ac_rfl

theorem mixColumns_congr {s s' : Aes.State} {c : Fin 4} (h : ∀ r, s r c = s' r c) (r : Fin 4) :
    Aes.mixColumns s r c = Aes.mixColumns s' r c := by
  simp only [Aes.mixColumns, h]

theorem toState_mixed (n : Block) :
    Aes.toState (mix (mix (mix (mix n 0) 1) 2) 3) = Aes.mixColumns (Aes.toState n) := by
  funext r c
  match c with
  | 0 =>
    rw [mix_same _ 3 0 r (by decide), mix_same _ 2 0 r (by decide), mix_same _ 1 0 r (by decide)]
    exact mix_column n 0 r
  | 1 =>
    rw [mix_same _ 3 1 r (by decide), mix_same _ 2 1 r (by decide), mix_column]
    exact mixColumns_congr (fun r => mix_same n 0 1 r (by decide)) r
  | 2 =>
    rw [mix_same _ 3 2 r (by decide), mix_column]
    apply mixColumns_congr
    intro r
    rw [mix_same _ 1 2 r (by decide), mix_same _ 0 2 r (by decide)]
  | 3 =>
    rw [mix_column]
    apply mixColumns_congr
    intro r
    rw [mix_same _ 2 3 r (by decide), mix_same _ 1 3 r (by decide), mix_same _ 0 3 r (by decide)]

theorem addKey_get (rk : Vector Byte 176) (round : Fin 11) (s : Block) (r c : Fin 4) :
    Aes.toState (addKey rk round s) r c =
      Aes.toState s r c ^^^ rk[(4 * round.val + c.val) * 4 + r.val] := by
  have hp : (4 * round.val + c.val) * 4 + r.val = round.val * 16 + (4 * c.val + r.val) := by
    omega
  simp [Aes.toState, addKey, hp]

theorem toState_addKey (key s : Block) (round : Fin 11) :
    Aes.toState (addKey (expand key 40 (le_refl 40)) round s) =
      Aes.addRoundKey (Aes.word key) round (Aes.toState s) := by
  funext r c
  rw [addKey_get, expand_word key 40 _ (4 * round + c) (by omega) r]
  rfl

theorem toState_roundStep (key s : Block) (round : Fin 11) :
    Aes.toState (roundStep (expand key 40 (le_refl 40)) round s) =
      Aes.addRoundKey (Aes.word key) round (if round.val < 10 then
        Aes.mixColumns (Aes.shiftRows (Aes.subBytes (Aes.toState s)))
      else Aes.shiftRows (Aes.subBytes (Aes.toState s))) := by
  rw [roundStep, toState_addKey]
  split
  · rw [toState_mixed, toState_shift, toState_map]
  · rw [toState_shift, toState_map]

theorem toState_encryptTo (key inp : Block) (n : ℕ) (hn : n ≤ 10) (h : n < 10) :
    Aes.toState (encryptTo (expand key 40 (le_refl 40)) inp n hn) =
      Aes.rounds (Aes.word key) (Aes.toState inp) n := by
  induction n with
  | zero => exact toState_addKey key inp 0
  | succ n ih =>
    rw [encryptTo, toState_roundStep, ih _ (by omega), Aes.rounds, if_pos h]

theorem ofState_toState (b : Block) : Aes.ofState (Aes.toState b) = b := by
  ext i hi
  have hp : 4 * (i / 4 % 4) + i % 4 = i := by
    omega
  simp [Aes.ofState, Aes.toState, hp]

theorem toState_btAesEncrypt (key inp : Block) : Aes.toState (btAesEncrypt key inp) =
    Aes.addRoundKey (Aes.word key) 10
      (Aes.shiftRows (Aes.subBytes (Aes.rounds (Aes.word key) (Aes.toState inp) 9))) := by
  rw [btAesEncrypt, encryptTo, toState_roundStep, toState_encryptTo _ _ _ _ (by decide),
    if_neg (by decide)]

theorem btAesEncrypt_eq (key inp : Block) : btAesEncrypt key inp = Aes.cipher key inp := by
  rw [← ofState_toState (btAesEncrypt key inp), toState_btAesEncrypt]
  rfl

theorem sbox_injective : Function.Injective Aes.sbox := by
  intro a b h
  rw [← sub_eq, ← sub_eq] at h
  have hz : ∀ d, sub d = sub 0 → d = 0 := by
    intro d hd
    by_contra hne
    have h0 : unaffine (sub 0) = 0 := by
      decide
    have h1 := congrArg value (mul_unaffine_sub d hne)
    rw [hd, h0, value_mul, value_zero, mul_zero, ← value_zero] at h1
    exact absurd (value_injective h1) (by decide)
  by_cases ha : a = 0
  · subst ha
    exact (hz b h.symm).symm
  · have hb : b ≠ 0 := fun hb => ha (hz a (hb ▸ h))
    have h1 := congrArg value (mul_unaffine_sub a ha)
    have h2 := congrArg value (mul_unaffine_sub b hb)
    rw [value_mul, value_one] at h1 h2
    rw [← h] at h2
    apply value_injective
    linear_combination value b * h1 - value a * h2

/-- Under each key the cipher is a permutation of the blocks. -/
theorem btAesEncrypt_bijective (key : Block) : Function.Bijective (btAesEncrypt key) := by
  have hstate : Function.Injective Aes.toState := Function.LeftInverse.injective ofState_toState
  have : Finite Block := .of_injective _ hstate
  apply Finite.injective_iff_bijective.mp
  intro a b h
  apply hstate
  apply Aes.rounds_injective sbox_injective (Aes.word key) 9
  apply Aes.subBytes_injective sbox_injective
  apply Aes.shiftRows_injective
  apply Aes.addRoundKey_injective (Aes.word key) 10
  rw [← toState_btAesEncrypt, ← toState_btAesEncrypt, h]

end Xeneva.Bt.Crypto

/-!
# The authentication code is AES-CMAC
-/

namespace Xeneva.Bt.Crypto

open Base Rijndael
open Base.Aes (Block)

theorem toBits_bit (b : Block) {j : ℕ} (hj : j < 128) :
    (Aes.toBits b).getLsbD j = (b[15 - j / 8]).getLsbD (j % 8) := by
  rw [Aes.toBits, BitVec.getLsbD_ofFnLE]
  simp [hj]

theorem ofBits_bit (x : BitVec 128) {i m : ℕ} (hi : i < 16) (hm : m < 8) :
    ((Aes.ofBits x)[i]).getLsbD m = x.getLsbD (8 * (15 - i) + m) := by
  simp [Aes.ofBits, hm]

theorem high_bit : ∀ b : Byte, b &&& 0x80 ≠ 0 ↔ b.getLsbD 7 = true := by
  decide +kernel

theorem msb_toBits (b : Block) : (Aes.toBits b).msb = (b[0]).getLsbD 7 := by
  rw [BitVec.msb_eq_getLsbD_last]
  exact toBits_bit b (by decide)

/-- The bits of a block, moved up by one. -/
theorem shifted_bit (k : Block) {i m : ℕ} (hi : i < 16) (hm : m < 8) :
    ((Aes.ofBits (Aes.toBits k <<< 1))[i]).getLsbD m =
      if m = 0 then (if h : i < 15 then (k[i + 1]).getLsbD 7 else false)
      else (k[i]).getLsbD (m - 1) := by
  have hj : 8 * (15 - i) + m < 128 := by omega
  rw [ofBits_bit _ hi hm, BitVec.getLsbD_shiftLeft]
  by_cases hm0 : m = 0
  · rw [if_pos hm0]
    by_cases hlast : i < 15
    · have hbyte : 15 - (8 * (15 - i) + m - 1) / 8 = i + 1 := by omega
      have hbit : (8 * (15 - i) + m - 1) % 8 = 7 := by omega
      have hone : ¬8 * (15 - i) + m < 1 := by omega
      rw [dif_pos hlast, toBits_bit k (by omega)]
      simp [hbyte, hbit, hj, hone]
    · have hzero : 8 * (15 - i) + m < 1 := by omega
      simp [hlast, hzero]
  · have hbyte : 15 - (8 * (15 - i) + m - 1) / 8 = i := by omega
    have hbit : (8 * (15 - i) + m - 1) % 8 = m - 1 := by omega
    have hone : ¬8 * (15 - i) + m < 1 := by omega
    rw [if_neg hm0, toBits_bit k (by omega)]
    simp [hbyte, hbit, hj, hone]

/-- The bytes that the loop of `cmac_subkey` leaves. -/
theorem doubled_eq (k : Block) :
    (Vector.ofFn fun i : Fin 16 =>
      if h : i.val < 15 then (k[i] <<< 1) ||| (k[i.val + 1] >>> 7) else k[i] <<< 1) =
    Aes.ofBits (Aes.toBits k <<< 1) := by
  apply Vector.ext
  intro i hi
  apply BitVec.eq_of_getLsbD_eq
  intro m hm
  rw [shifted_bit k hi hm, Vector.getElem_ofFn]
  by_cases hlast : i < 15
  · by_cases hm0 : m = 0
    · simp [hlast, hm0]
    · have hhigh : (k[i + 1] >>> 7).getLsbD m = false := by
        rw [BitVec.getLsbD_ushiftRight]
        exact BitVec.getLsbD_of_ge _ _ (by omega)
      rw [dif_pos hlast, BitVec.getLsbD_or, Fin.getElem_fin, hhigh, BitVec.getLsbD_shiftLeft]
      simp [hm0, hm]
  · by_cases hm0 : m = 0
    · simp [hlast, hm0]
    · rw [dif_neg hlast, BitVec.getLsbD_shiftLeft]
      simp [hm0, hm]

theorem ofBits_rb (x : BitVec 128) :
    Aes.ofBits (x ^^^ 0x87) = (Aes.ofBits x).set 15 ((Aes.ofBits x)[15] ^^^ 0x87) := by
  have hrb : ∀ j, 8 ≤ j → (0x87 : BitVec 128).getLsbD j = false := by
    intro j hj
    apply Nat.testBit_lt_two_pow
    calc (0x87 : BitVec 128).toNat < 2 ^ 8 := by decide
      _ ≤ 2 ^ j := Nat.pow_le_pow_right (by decide) hj
  apply Vector.ext
  intro i hi
  apply BitVec.eq_of_getLsbD_eq
  intro m hm
  rw [ofBits_bit _ hi hm, BitVec.getLsbD_xor]
  by_cases hlast : i = 15
  · subst hlast
    rw [Vector.getElem_set_self, BitVec.getLsbD_xor, ofBits_bit _ hi hm]
    congr 1
    revert m
    decide
  · rw [Vector.getElem_set_ne _ _ (Ne.symm hlast), ofBits_bit _ hi hm, hrb _ (by omega),
      Bool.xor_false]

theorem cmacSubkey_eq (k : Block) : cmacSubkey k = Aes.subkey k := by
  unfold cmacSubkey Aes.subkey
  rw [doubled_eq, msb_toBits]
  by_cases h : (k[0]).getLsbD 7 = true
  · rw [if_pos ((high_bit _).2 h), if_pos h, ofBits_rb]
  · rw [if_neg (mt (high_bit _).1 h), if_neg h]

example : cmacSubkey
      #v[0xfb, 0xee, 0xd6, 0x18, 0x35, 0x71, 0x33, 0x66,
        0x7c, 0x85, 0xe0, 0x8f, 0x72, 0x36, 0xa8, 0xde] =
    #v[0xf7, 0xdd, 0xac, 0x30, 0x6a, 0xe2, 0x66, 0xcc,
      0xf9, 0x0b, 0xc1, 0x1e, 0xe4, 0x6d, 0x51, 0x3b] := by
  decide +kernel

theorem xorInto_eq (x y : Block) : xorInto x y = Aes.xor x y := by
  ext i hi
  simp [xorInto, Aes.xor]

theorem copied_full (msg : List Byte) (off : ℕ) :
    copied msg off 16 = Aes.block ((msg.drop off).take 16) := by
  ext i hi
  simp [copied, Aes.block]

theorem copied_padded (msg : List Byte) {off : ℕ} (h : msg.length < off + 16)
    (ho : off ≤ msg.length) :
    (copied msg off (msg.length - off)).setIfInBounds (msg.length - off) 0x80 =
      Aes.padding (msg.drop off) := by
  apply Vector.ext
  intro i hi
  rw [Vector.getElem_setIfInBounds, Aes.padding, Vector.getElem_ofFn, copied, Vector.getElem_ofFn]
  rcases Nat.lt_trichotomy i (msg.length - off) with hlt | rfl | hgt
  · have hlen : off + i < msg.length := by omega
    simp [hlt, hlt.ne', List.getElem?_append, List.getElem?_eq_getElem hlen]
  · simp
  · have hpast : ¬i < msg.length - off := by omega
    have hone : ¬i - (msg.length - off) < 1 := by omega
    simp [hpast, hgt.ne, List.getElem?_append, hone]

theorem cmacStep_last (key k1 k2 : Block) (msg : List Byte) {i off : ℕ} {complete : Bool}
    (x : Block) (hc : complete = true ↔ msg.length = off + 16) (h : msg.length ≤ off + 16)
    (ho : off ≤ msg.length) :
    cmacStep key k1 k2 msg (i + 1) complete i off x =
      Aes.chain (Aes.cipher key) k1 k2 x (msg.drop off) := by
  unfold cmacStep
  rw [Aes.chain, List.length_drop]
  by_cases hfull : msg.length = off + 16
  · have htake : ¬msg.length < off + 16 := by omega
    have hlen : msg.length - off = 16 := by omega
    have hdrop : (msg.drop off).take 16 = msg.drop off := by
      apply List.take_of_length_le
      rw [List.length_drop, hlen]
    simp only [hc.2 hfull, htake, hlen, lt_irrefl, ite_true, ite_false, or_true, copied_full,
      hdrop, xorInto_eq, btAesEncrypt_eq]
  · have hc : complete = false := by
      cases hcomplete : complete
      · rfl
      · exact absurd (hc.1 hcomplete) hfull
    have hlen : msg.length - off < 16 := by omega
    simp only [hc, hlen, ite_true, not_true, Bool.false_eq_true, or_self, ite_false,
      copied_padded msg (by omega : msg.length < off + 16) ho, xorInto_eq, btAesEncrypt_eq]

theorem cmacStep_next (key k1 k2 : Block) (msg : List Byte) {n i off : ℕ} {complete : Bool}
    (x : Block) (hi : i + 1 ≠ n) (h : off + 16 ≤ msg.length) :
    cmacStep key k1 k2 msg n complete i off x =
      Aes.cipher key (Aes.xor x (Aes.block ((msg.drop off).take 16))) := by
  have htake : ¬msg.length < off + 16 := by omega
  unfold cmacStep
  simp only [hi, htake, not_false_eq_true, true_or, ite_true, ite_false, copied_full, xorInto_eq,
    btAesEncrypt_eq]

/-- Before the blocks that are left, the loop has the chain's value of those before. -/
theorem cmacFrom_eq (key k1 k2 : Block) (msg : List Byte) {n : ℕ} {complete : Bool}
    (hlow : msg.length ≤ 16 * n) (hhigh : 16 * n < msg.length + 16 ∨ msg.length = 0 ∧ n = 1)
    (hc : complete = true ↔ msg.length = 16 * n) (left i : ℕ) (hn : i + left + 1 = n) (x : Block) :
    cmacFrom key k1 k2 msg n complete (left + 1) i (16 * i) x =
      Aes.chain (Aes.cipher key) k1 k2 x (msg.drop (16 * i)) := by
  induction left generalizing i x with
  | zero =>
    subst hn
    exact cmacStep_last key k1 k2 msg x (by omega) (by omega) (by omega)
  | succ left ih =>
    have hi : i + 1 ≠ n := by omega
    have hoff : 16 * i + 16 ≤ msg.length := by omega
    have hlen : 16 < (msg.drop (16 * i)).length := by
      rw [List.length_drop]
      omega
    rw [cmacFrom, cmacStep_next key k1 k2 msg x hi hoff, Aes.chain, if_neg (by omega),
      if_neg (by omega), List.drop_drop]
    exact ih (i + 1) (by omega) _

/-- `bt_aes_encrypt` is AES-128, and `bt_cmac` is AES-CMAC. -/
theorem btCmac_eq (key : Block) :
    (∀ inp, btAesEncrypt key inp = Aes.cipher key inp) ∧
    ∀ msg, btCmac key msg = Aes.cmac key msg := by
  refine ⟨btAesEncrypt_eq key, fun msg => ?_⟩
  unfold btCmac Aes.cmac
  simp only [cmacSubkey_eq, btAesEncrypt_eq]
  by_cases hz : msg.length = 0
  · rw [if_pos hz]
    have hc : decide (msg.length ≠ 0 ∧ msg.length % 16 = 0) = true ↔ msg.length = 16 * 1 := by
      simp [hz]
    exact cmacFrom_eq key _ _ msg (by omega) (by omega) hc 0 0 rfl _
  · rw [if_neg hz]
    obtain ⟨left, hleft⟩ : ∃ left, (msg.length + 15) / 16 = left + 1 :=
      ⟨(msg.length + 15) / 16 - 1, by omega⟩
    rw [hleft]
    exact cmacFrom_eq key _ _ msg (by omega) (by omega) (by simp only [decide_eq_true_eq]; omega)
      left 0 (by omega) _

end Xeneva.Bt.Crypto
