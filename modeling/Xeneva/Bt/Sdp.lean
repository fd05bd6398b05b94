import Xeneva.Base.Checked

/-!
# Service discovery

The parsers of SDP responses and of advertising data. A pointer into a packet is the packet with
an offset. The lengths are those of packets, so no sum of them is beyond the range of an `int`.
-/

namespace Xeneva.Bt.Sdp
open Base.Checked

def SDP_ERR_RSP : UInt8 := 0x01
def SDP_SS_RSP : UInt8 := 0x03
def SDP_SA_RSP : UInt8 := 0x05
def SDP_SSA_RSP : UInt8 := 0x07
def SDP_UUID_L2CAP : ℕ := 0x0100
def SDP_UUID_AVDTP : ℕ := 0x0019
def SDP_ATTR_PROTO_LIST : ℕ := 0x0004

def word (hi lo : UInt8) : ℕ := hi.toNat * 256 + lo.toNat

/-- The length of the value of a data element and of its header. -/
def sdpDeLen (p : List UInt8) (off len : ℕ) : Except Fault (Option (ℕ × ℕ)) :=
  if len < 1 then pure none
  else do
    let b ← rd p off
    match b.toNat % 8 with
    | 0 => pure (some (1, 1))
    | 1 => pure (some (2, 1))
    | 2 => pure (some (4, 1))
    | 3 => pure (some (8, 1))
    | 4 => pure (some (16, 1))
    | 5 =>
      if len < 2 then pure none
      else do
        let n ← rd p (off + 1)
        pure (some (n.toNat, 2))
    | 6 =>
      if len < 3 then pure none
      else do
        let hi ← rd p (off + 1)
        let lo ← rd p (off + 2)
        pure (if word hi lo > 0x7fffffff then none else some (word hi lo, 3))
    | _ => pure none

/-- The bytes that a count stands for: handles are counted, not their bytes. -/
def payBytes (type : UInt8) (cur : ℕ) : ℕ := if type = SDP_SS_RSP then cur * 4 else cur

/-- The length of the continuation state and where it starts. -/
def sdpContGet (p : List UInt8) : Except Fault (Option (ℕ × ℕ)) :=
  if p.length < 9 + 1 then pure none
  else do
    let _total₁ ← rd p 5
    let _total₀ ← rd p 6
    let hi ← rd p 7
    let lo ← rd p 8
    let type ← rd p 0
    let pay := payBytes type (word hi lo)
    if p.length < 9 + pay + 1 then pure none
    else do
      let cl ← rd p (9 + pay)
      if p.length < 9 + pay + 1 + cl.toNat then pure none
      else pure (some (cl.toNat, 9 + pay + 1))

/-- Copies `n` bytes of `src` from `i` on into `o` from `j` on. -/
def copy (src : List UInt8) : ℕ → ℕ → ℕ → List UInt8 → Except Fault (List UInt8)
  | 0, _, _, o => pure o
  | n + 1, i, j, o => do
    let b ← rd src i
    let o ← wr o j b
    copy src n (i + 1) (j + 1) o

/-- The request with a continuation state in place of its empty one, and its length. -/
def sdpContAppend (o : List UInt8) (clen : ℕ) (src : List UInt8) (state slen : ℕ) :
    Except Fault (Option (List UInt8 × ℕ)) :=
  if clen < 1 ∨ 16 < slen then pure none
  else do
    let o ← wr o (clen - 1) (UInt8.ofNat slen)
    let o ← copy src slen state clen o
    let hi ← rd o 3
    let lo ← rd o 4
    let plen := word hi lo + slen
    let o ← wr o 3 (UInt8.ofNat (plen / 256))
    let o ← wr o 4 (UInt8.ofNat plen)
    pure (some (o, clen + slen))

/-- The header of a response to the request `tid`. -/
def header (p : List UInt8) (type : UInt8) (tid : ℕ) : Except Fault Bool := do
  let b ← rd p 0
  if b ≠ type then pure false
  else do
    let hi ← rd p 1
    if hi.toNat ≠ tid / 256 then pure false
    else do
      let lo ← rd p 2
      pure (decide (lo.toNat = tid % 256))

def sdpParseSearchRsp (p : List UInt8) (tid : ℕ) : Except Fault (Option ℕ) :=
  if p.length < 9 then pure none
  else do
    let ok ← header p SDP_SS_RSP tid
    if ¬ok then pure none
    else do
      let t₁ ← rd p 5
      let t₀ ← rd p 6
      let c₁ ← rd p 7
      let c₀ ← rd p 8
      if word t₁ t₀ < 1 ∨ word c₁ c₀ < 1 ∨ p.length < 9 + word c₁ c₀ * 4 + 1 then pure none
      else do
        let h₃ ← rd p 9
        let h₂ ← rd p 10
        let h₁ ← rd p 11
        let h₀ ← rd p 12
        pure (some (word h₃ h₂ * 65536 + word h₁ h₀))

/-- The port and the version that the protocol lists say. -/
structure Proto where
  psm : ℕ := 0
  ver : ℕ := 0
  deriving DecidableEq, Repr

def Proto.assign (s : Proto) (uuid val : ℕ) : Proto :=
  if uuid = SDP_UUID_L2CAP then { s with psm := val }
  else if uuid = SDP_UUID_AVDTP then { s with ver := val }
  else s

/-- One turn of the scan: the pair at `i`, if there is one. -/
def protoWindow (p : List UInt8) (i : ℕ) (s : Proto) : Except Fault Proto := do
  let b ← rd p i
  if b ≠ 0x19 then pure s
  else do
    let b ← rd p (i + 3)
    if b ≠ 0x09 then pure s
    else do
      let u₁ ← rd p (i + 1)
      let u₀ ← rd p (i + 2)
      let v₁ ← rd p (i + 4)
      let v₀ ← rd p (i + 5)
      pure (s.assign (word u₁ u₀) (word v₁ v₀))

def protoScan (p : List UInt8) (off len : ℕ) : ℕ → ℕ → Proto → Except Fault Proto
  | 0, _, _ => throw .outOfFuel
  | fuel + 1, i, s =>
    if i + 6 ≤ len then do
      let s ← protoWindow p (off + i) s
      protoScan p off len fuel (i + 1) s
    else pure s

/-- The scan of the `len` bytes at `off`, and whether a port is known after it. -/
def sdpProtoElem (p : List UInt8) (off len : ℕ) (s : Proto) : Except Fault (Bool × Proto) := do
  let s ← protoScan p off len (len + 1) 0 s
  pure (decide (s.psm ≠ 0), s)

/-- The loop over the attributes, up to `lim`. -/
def attrWalk (p : List UInt8) (lim : ℕ) : ℕ → ℕ → Proto → Except Fault (Bool × Proto)
  | 0, _, _ => throw .outOfFuel
  | fuel + 1, off, s =>
    if off + 5 ≤ lim ∧ off + 5 ≤ p.length then do
      let b ← rd p off
      if b ≠ 0x09 then pure (decide (s.psm ≠ 0), s)
      else do
        let i₁ ← rd p (off + 1)
        let i₀ ← rd p (off + 2)
        let off := off + 3
        if p.length ≤ off then pure (decide (s.psm ≠ 0), s)
        else do
          let d ← rd p off
          let l ← sdpDeLen p off (p.length - off)
          match l with
          | none => pure (decide (s.psm ≠ 0), s)
          | some (vl, vh) =>
            -- a sequence under the identifier of the protocols is scanned, the rest is skipped
            if d.toNat / 8 = 6 ∧ word i₁ i₀ = SDP_ATTR_PROTO_LIST then do
              let r ← sdpProtoElem p (off + vh) vl s
              if r.1 then pure r else attrWalk p lim fuel (off + vh + vl) r.2
            else attrWalk p lim fuel (off + vh + vl) s
    else pure (decide (s.psm ≠ 0), s)

def sdpParseAttrPsm (p : List UInt8) (tid : ℕ) : Except Fault (Bool × Proto) :=
  if p.length < 7 then pure (false, {})
  else do
    let ok ← header p SDP_SA_RSP tid
    if ¬ok then pure (false, {})
    else do
      let c₁ ← rd p 5
      let c₀ ← rd p 6
      let count := word c₁ c₀
      if count = 0 ∨ p.length < 7 + count then pure (false, {})
      else do
        let d ← rd p 7
        if d.toNat / 8 ≠ 6 then pure (false, {})
        else do
          let l ← sdpDeLen p 7 (p.length - 7)
          match l with
          | none => pure (false, {})
          | some (_, h) => attrWalk p (7 + count) (p.length + 1) (7 + h) {}

def sdpParseSsaPsm (p : List UInt8) (tid : ℕ) : Except Fault (Bool × Proto) :=
  if p.length < 9 + 1 then pure (false, {})
  else do
    let ok ← header p SDP_SSA_RSP tid
    if ¬ok then pure (false, {})
    else do
      let c₁ ← rd p 7
      let c₀ ← rd p 8
      let cur := word c₁ c₀
      if cur = 0 ∨ p.length < 9 + cur + 1 then pure (false, {})
      else sdpProtoElem p 9 cur {}

/-- A byte of a name, as it is shown. -/
def printable (c : UInt8) : UInt8 := if 32 ≤ c ∧ c < 127 then c else 0x2e

def copyName (ad : List UInt8) : ℕ → ℕ → ℕ → List UInt8 → Except Fault (List UInt8)
  | 0, _, _, out => pure out
  | n + 1, i, k, out => do
    let c ← rd ad i
    let out ← wr out k (printable c)
    copyName ad n (i + 1) (k + 1) out

def strlen (out : List UInt8) : ℕ → ℕ → Except Fault ℕ
  | 0, _ => throw .outOfFuel
  | fuel + 1, i => do
    let c ← rd out i
    if c = 0 then pure i else strlen out fuel (i + 1)

/-- The loop over the fields: a complete name ends it, a short one is kept when it is the first
name. -/
def adWalk (ad : List UInt8) : ℕ → ℕ → Bool → List UInt8 → Except Fault (ℕ × List UInt8)
  | 0, _, _, _ => throw .outOfFuel
  | fuel + 1, i, best, out =>
    let done : Except Fault (ℕ × List UInt8) := do
      let n ← strlen out (out.length + 1) 0
      pure (n, out)
    if i < ad.length then do
      let fl ← rd ad i
      let fl := fl.toNat
      if fl = 0 ∨ ad.length ≤ i + fl then done
      else do
        let type ← rd ad (i + 1)
        if (type = 0x09 ∨ type = 0x08 ∧ best = false) ∧ 0 < fl - 1 then do
          let n := min (fl - 1) (out.length - 1)
          let out ← copyName ad n (i + 2) 0 out
          let out ← wr out n 0
          if type = 0x09 then pure (n, out) else adWalk ad fuel (i + (fl + 1)) true out
        else adWalk ad fuel (i + (fl + 1)) best out
    else done

/-- The caller's `cap` is the length of `out`. -/
def btAdName (ad out : List UInt8) : Except Fault (ℕ × List UInt8) :=
  if out.length = 0 then pure (0, out)
  else do
    let out ← wr out 0 0
    adWalk ad (ad.length + 1) 0 false out

end Xeneva.Bt.Sdp
