import Xeneva.Base.Limbs

/-!
# P-256

The arithmetic of the field and of the curve that the Secure Connections pairing uses, word by word
as the code computes it. An array of bytes or of words is a list with its length.
-/

namespace Xeneva.Bt.P256
open Base.Limbs

/-! ## Field elements -/

/-- Eight words, the least significant one first. -/
structure Fe where
  d : List UInt32
  size : d.length = 8
  deriving DecidableEq

/-- The words of a product. -/
structure Wide where
  d : List UInt32
  size : d.length = 16

structure Bytes32 where
  d : List UInt8
  size : d.length = 32
  deriving DecidableEq

def Fe.val (a : Fe) : ℕ := Base.Limbs.val a.d

def FE_P : Fe :=
  ⟨[0xffffffff, 0xffffffff, 0xffffffff, 0x00000000, 0x00000000, 0x00000000, 0x00000001, 0xffffffff],
    rfl⟩

def FE_GX : Fe :=
  ⟨[0xd898c296, 0xf4a13945, 0x2deb33a0, 0x77037d81, 0x63a440f2, 0xf8bce6e5, 0xe12c4247, 0x6b17d1f2],
    rfl⟩

def FE_GY : Fe :=
  ⟨[0x37bf51f5, 0xcbb64068, 0x6b315ece, 0x2bce3357, 0x7c0f9e16, 0x8ee7eb4a, 0xfe1a7f9b, 0x4fe342e2],
    rfl⟩

/-- The element with one word set. -/
def feWord (w : UInt32) : Fe := ⟨[w, 0, 0, 0, 0, 0, 0, 0], rfl⟩

def feIs0 (a : Fe) : Bool := a.d.all (· = 0)

def feCmp (a b : Fe) : Ordering := wordCmp a.d b.d

def feAdd (a b : Fe) : Fe := ⟨(add 0 a.d b.d).1, by simp [a.size, b.size]⟩

def feSub (a b : Fe) : Fe := ⟨(sub 0 a.d b.d).1, by simp [a.size, b.size]⟩

theorem feCmp_eq (a b : Fe) : feCmp a b = compare a.val b.val :=
  wordCmp_eq (a.size.trans b.size.symm)

theorem feSub_val {a b : Fe} (h : b.val ≤ a.val) : (feSub a b).val = a.val - b.val :=
  sub_of_le (a.size.trans b.size.symm) h

theorem FE_P_pos : 0 < FE_P.val := by decide

def feMod (r : Fe) : Fe :=
  if feCmp r FE_P ≠ .lt then feMod (feSub r FE_P) else r
termination_by r.val
decreasing_by
  next h =>
    rw [feCmp_eq, ne_eq, Nat.compare_eq_lt, Nat.not_lt] at h
    rw [feSub_val h]
    have := FE_P_pos
    omega

def wideSub (r a : Wide) : Wide := ⟨(sub 0 r.d a.d).1, by simp [r.size, a.size]⟩

def wideCmp (a b : Wide) : Ordering := wordCmp a.d b.d

def Wide.setBit (w : Wide) (k : ℕ) : Wide := ⟨Base.Limbs.setBit w.d k, by simp [w.size]⟩

/-- The prime with its bits moved up, as far as they fit. -/
def pShift (sh : ℕ) : Wide :=
  (List.range 256).foldl
    (fun dst i => if bit FE_P.d i ∧ i + sh < 512 then dst.setBit (i + sh) else dst)
    ⟨List.replicate 16 0, rfl⟩

/-- One turn of the reduction. -/
def reduceStep (sh : ℕ) (w : Wide) : Wide :=
  if wideCmp w (pShift sh) ≠ .lt then wideSub w (pShift sh) else w

def reduceFrom : ℕ → Wide → Wide
  | 0, w => reduceStep 0 w
  | sh + 1, w => reduceFrom sh (reduceStep (sh + 1) w)

def feReduceWide (w : Wide) : Fe := ⟨(reduceFrom 256 w).d.take 8, by simp [Wide.size]⟩

def feMul (a b : Fe) : Fe :=
  feReduceWide ⟨mulRows a.d b.d (List.replicate 16 0), by
    have h := (mulRows_spec a.d (List.replicate 8 0) b.size.symm).1
    rw [a.size] at h
    exact h⟩

def feAddm (a b : Fe) : Fe :=
  let s := add 0 a.d b.d
  feReduceWide ⟨s.1 ++ UInt32.ofNat s.2 :: List.replicate 7 0, by simp [s, a.size, b.size]⟩

def feSubm (a b : Fe) : Fe :=
  feMod (if feCmp a b ≠ .lt then feSub a b else feSub (feAdd a FE_P) b)

/-- The bytes of the exponent, the most significant first. The low word of the prime is large, so
there is nothing to borrow. -/
def pm2Bytes : List UInt8 :=
  let pm2 := FE_P.d.set 0 (FE_P.d.getD 0 0 - 2)
  (List.range 32).map fun i => (pm2.getD (7 - i / 4) 0 >>> UInt32.ofNat ((3 - i % 4) * 8)).toUInt8

def byteBits (b : UInt8) : List Bool := [7, 6, 5, 4, 3, 2, 1, 0].map fun k => b.toNat.testBit k

def feInv (a : Fe) : Fe :=
  (pm2Bytes.flatMap byteBits).foldl
    (fun result on => if on then feMul (feMul result result) a else feMul result result) (feWord 1)

/-- The words that groups of four bytes say. -/
def wordsOf : List UInt8 → List UInt32
  | b₃ :: b₂ :: b₁ :: b₀ :: bs =>
    UInt32.ofNat (b₃.toNat * 2 ^ 24 + b₂.toNat * 2 ^ 16 + b₁.toNat * 2 ^ 8 + b₀.toNat) :: wordsOf bs
  | _ => []

def bytesOf (w : UInt32) : List UInt8 :=
  [UInt8.ofNat (w.toNat / 2 ^ 24), UInt8.ofNat (w.toNat / 2 ^ 16), UInt8.ofNat (w.toNat / 2 ^ 8),
    UInt8.ofNat w.toNat]

theorem length_wordsOf {bs : List UInt8} {n : ℕ} (h : bs.length = 4 * n) :
    (wordsOf bs).length = n := by
  induction n generalizing bs with
  | zero =>
    rw [List.length_eq_zero_iff.mp h]
    rfl
  | succ n ih =>
    match bs, h with
    | b₃ :: b₂ :: b₁ :: b₀ :: bs, h =>
      rw [wordsOf, List.length_cons, ih (by simpa [Nat.mul_succ] using h)]
    | [], h | [_], h | [_, _], h | [_, _, _], h => simp at h <;> omega

/-- The bytes come with the most significant first, the words with the least. -/
def feFromBe (b : Bytes32) : Fe :=
  ⟨(wordsOf b.d).reverse, by rw [List.length_reverse]; exact length_wordsOf b.size⟩

def feToBe (a : Fe) : Bytes32 :=
  ⟨a.d.reverse.flatMap bytesOf, by simp [List.length_flatMap, bytesOf, List.map_const', a.size]⟩

structure Pt where
  x : Fe
  y : Fe
  inf : Bool

/-- The coordinates of the point at infinity are not read. -/
def infinity : Pt := ⟨feWord 0, feWord 0, true⟩

def ptDbl (p : Pt) : Pt :=
  if p.inf ∨ feIs0 p.y then infinity
  else
    let xx := feMul p.x p.x
    let three := feWord 3
    let nume := feSubm (feMul xx three) three
    let den := feMul (feWord 2) p.y
    let lambda := feMul nume (feInv den)
    let x3 := feSubm (feSubm (feMul lambda lambda) p.x) p.x
    let y3 := feSubm (feMul lambda (feSubm p.x x3)) p.y
    ⟨x3, y3, false⟩

def ptAdd (a b : Pt) : Pt :=
  if a.inf then b
  else if b.inf then a
  else if feCmp a.x b.x = .eq then
    if feIs0 (feAddm a.y b.y) ∨ feCmp a.y b.y ≠ .eq then infinity else ptDbl a
  else
    let lambda := feMul (feSubm b.y a.y) (feInv (feSubm b.x a.x))
    let x3 := feSubm (feSubm (feMul lambda lambda) a.x) b.x
    let y3 := feSubm (feMul lambda (feSubm a.x x3)) a.y
    ⟨x3, y3, false⟩

def ptMul (scalar : Bytes32) (p : Pt) : Pt :=
  (scalar.d.flatMap byteBits).foldl
    (fun acc on => if on then ptAdd (ptDbl acc) p else ptDbl acc) infinity

/-- The coordinates of the multiple of the generator, unless it is infinity. -/
def btP256MulG (scalar : Bytes32) : Option (Bytes32 × Bytes32) :=
  let r := ptMul scalar ⟨FE_GX, FE_GY, false⟩
  if r.inf then none else some (feToBe r.x, feToBe r.y)

def btP256Dh (scalar px py : Bytes32) : Option Bytes32 :=
  let r := ptMul scalar ⟨feFromBe px, feFromBe py, false⟩
  if r.inf then none else some (feToBe r.x)

end Xeneva.Bt.P256
