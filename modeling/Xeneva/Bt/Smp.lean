import Xeneva.Base.Run

/-!
# LE pairing

The host is the central of an LE pairing: it asks for a pairing, answers the peer's PDUs and, for
Secure Connections, waits for the user to accept a number. The cryptographic functions are given, and
so are the random numbers. `do_confirm` transmits before it stores the bond, and the transmission
polls the adapter, so other steps come between its two halves.
-/

namespace Xeneva.Bt.Smp
open Base

abbrev Bytes := List UInt8

def MAX_BONDS : ℕ := 8
def BT_ADDR_BREDR : UInt8 := 2

structure Bond where
  addr : Bytes
  type : UInt8
  lesc : Bool
  keySize : UInt8 := 16
  irkOk : Bool := true
  ediv : ℕ := 0
  randn : Bytes := List.replicate 8 0
  ltk : Bytes
  irk : Bytes
  deriving DecidableEq, Repr

/-- The functions of `crypto.h`. -/
structure Crypto where
  f4 (u v x : Bytes) (z : UInt8) : Bytes
  /-- The key of the checks, and the long term key. -/
  f5 (w n1 n2 a1 a2 : Bytes) : Bytes × Bytes
  f6 (w n1 n2 r iocap a1 a2 : Bytes) : Bytes
  g2 (u v x y : Bytes) : ℕ
  c1 (k r preq pres : Bytes) (iat : UInt8) (ia : Bytes) (rat : UInt8) (ra : Bytes) : Bytes
  s1 (k r1 r2 : Bytes) : Bytes
  p256MulG (scalar : Bytes) : Option (Bytes × Bytes)
  p256Dh (scalar px py : Bytes) : Option Bytes

/-- What `fill_rand` and `rand` give in one step. -/
structure Rand where
  sk : Bytes := []
  prnd : Bytes := []
  ediv : ℕ := 0
  randn : Bytes := []
  irk : Bytes := []
  deriving DecidableEq, Repr

structure Host where
  bd : Bytes := []
  peer : Bytes := []
  peerType : UInt8 := 0
  connected : Bool := false
  encrypted : Bool := false
  smpOn : Bool := false
  smpSc : Bool := false
  preq : Bytes := []
  pres : Bytes := []
  prnd : Bytes := []
  rrnd : Bytes := []
  pcnf : Bytes := []
  localPk : Bytes := []
  localSk : Bytes := []
  remotePk : Bytes := []
  dhkey : Bytes := []
  mackey : Bytes := []
  ltkNew : Bytes := []
  passkey : ℕ := 0
  needConfirm : Bool := false
  userOk : Bool := false
  pairDone : Bool := false
  pairFail : Bool := false
  keysSent : Bool := false
  bonds : List Bond := []
  /-- `do_confirm` transmits. -/
  confirming : Bool := false
  deriving DecidableEq, Repr

/-- The parameters of `LE_START_ENC`. -/
structure Enc where
  randn : Bytes
  ediv : ℕ
  ltk : Bytes
  deriving DecidableEq, Repr

/-- What a step does outside the state: the PDUs sent, `lesc` of the bond that is stored, and the
encryption that is started. -/
structure Out where
  sent : List Bytes := []
  stored : Option Bool := none
  enc : Option Enc := none
  deriving DecidableEq, Repr

def zeros (n : ℕ) : Bytes := List.replicate n 0

/-- The address with its type, as `f5` and `f6` take it. -/
def Host.a1 (s : Host) : Bytes := s.peer ++ [s.peerType]

def Host.a2 (s : Host) : Bytes := s.bd ++ [0]

def Bond.isOf (addr : Bytes) (type : UInt8) (b : Bond) : Bool := b.type = type ∧ b.addr = addr

def bondFind (s : Host) : Option ℕ := s.bonds.findIdx? (Bond.isOf s.peer s.peerType)

/-- The bond replaces the peer's, or takes a free entry, or the first. -/
def rememberBond (s : Host) (r : Rand) (lesc : Bool) : Host :=
  let b : Bond :=
    { addr := s.peer
      type := s.peerType
      lesc := lesc
      ltk := s.ltkNew
      ediv := if lesc then 0 else r.ediv % 2 ^ 16
      randn := if lesc then zeros 8 else r.randn
      irk := r.irk }
  match bondFind s with
  | some idx => { s with bonds := s.bonds.set idx b }
  | none =>
    if s.bonds.length ≥ MAX_BONDS then { s with bonds := s.bonds.set 0 b }
    else { s with bonds := s.bonds ++ [b] }

def put16 (n : ℕ) : Bytes := [UInt8.ofNat n, UInt8.ofNat (n / 256)]

def get16 (p : Bytes) (i : ℕ) : ℕ := (p.getD i 0).toNat + 256 * (p.getD (i + 1) 0).toNat

/-- The 16 bytes after the code. -/
def value16 (p : Bytes) : Bytes := (p.drop 1).take 16

def smpSendKeys (s : Host) : Host × Out :=
  if s.keysSent then (s, {})
  else
    let bond := (bondFind s).bind (s.bonds[·]?)
    let id := match bond with
      | some b => put16 b.ediv ++ b.randn
      | none => zeros 10
    let irk := match bond with
      | some b => b.irk
      | none => zeros 16
    ({ s with keysSent := true, pairDone := true },
      { sent := [0x06 :: s.ltkNew] ++ (if s.smpSc then [] else [0x07 :: id]) ++
          [0x08 :: irk, 0x09 :: 0 :: s.bd] })

/-- Numeric comparison: the confirm value is checked, the keys are derived, and the number is shown. -/
def lescAfterRandom (c : Crypto) (s : Host) : Host :=
  if c.f4 (s.remotePk.take 32) (s.localPk.take 32) s.rrnd 0 ≠ s.pcnf then { s with pairFail := true }
  else
    match c.p256Dh s.localSk.reverse (s.remotePk.take 32).reverse
        ((s.remotePk.drop 32).take 32).reverse with
    | none => { s with pairFail := true }
    | some dh =>
      let keys := c.f5 dh.reverse s.prnd s.rrnd s.a2 s.a1
      { s with
        dhkey := dh.reverse
        mackey := keys.1
        ltkNew := keys.2
        passkey := c.g2 (s.localPk.take 32) (s.remotePk.take 32) s.prnd s.rrnd
        needConfirm := true }

/-- The host's own check value. -/
def lescDhcheck (c : Crypto) (s : Host) : Bytes :=
  0x0d :: c.f6 s.mackey s.prnd s.rrnd (zeros 16) ((s.preq.drop 1).take 3) s.a2 s.a1

inductive Code
  | pairRsp
  | confirm
  | random
  | failed
  | encInfo
  | masterId
  | idInfo
  | pubKey
  | dhCheck
  | other
  deriving DecidableEq, Repr

/-- What `on_smp` takes the PDU for; `other` if it is too short. -/
def codeOf (p : Bytes) : Code :=
  match p.head? with
  | none => .other
  | some code =>
    if code = 0x02 ∧ p.length ≥ 7 then .pairRsp
    else if code = 0x03 ∧ p.length ≥ 17 then .confirm
    else if code = 0x04 ∧ p.length ≥ 17 then .random
    else if code = 0x0c ∧ p.length ≥ 65 then .pubKey
    else if code = 0x0d then .dhCheck
    else if code = 0x06 ∧ p.length ≥ 17 then .encInfo
    else if code = 0x07 ∧ p.length ≥ 11 then .masterId
    else if code = 0x08 ∧ p.length ≥ 17 then .idInfo
    else if code = 0x05 then .failed
    else .other

/-- The change that a key-distribution PDU makes to the peer's bond. -/
def setBond (s : Host) (f : Bond → Bond) : Host :=
  match bondFind s with
  | some idx => { s with bonds := s.bonds.modify idx f }
  | none => s

def onPairRsp (c : Crypto) (s : Host) (r : Rand) (p : Bytes) : Host × Out :=
  let s := { s with pres := p.take 7, smpSc := (p.getD 3 0).toNat.testBit 3 }
  if s.smpSc then
    let s := { s with localSk := r.sk }
    match c.p256MulG s.localSk.reverse with
    | none => (s, {})
    | some (x, y) =>
      let s := { s with localPk := x.reverse ++ y.reverse }
      (s, { sent := [0x0c :: s.localPk] })
  else
    let s := { s with prnd := r.prnd }
    (s, { sent := [0x03 :: c.c1 (zeros 16) s.prnd s.preq s.pres 0 s.bd s.peerType s.peer] })

def onRandom (c : Crypto) (s : Host) (p : Bytes) : Host × Out :=
  let s := { s with rrnd := value16 p }
  if s.smpSc then (lescAfterRandom c s, {})
  else if c.c1 (zeros 16) s.rrnd s.preq s.pres 0 s.bd s.peerType s.peer ≠ s.pcnf then
    ({ s with pairFail := true }, {})
  else
    let stk := c.s1 (zeros 16) s.rrnd s.prnd
    ({ s with ltkNew := stk }, { enc := some ⟨zeros 8, 0, stk⟩ })

/-- The bond is stored, and encryption started with its key. -/
def secure (s : Host) (r : Rand) : Host × Out :=
  (rememberBond s r true, { stored := some true, enc := some ⟨zeros 8, 0, s.ltkNew⟩ })

def onSmp (c : Crypto) (s : Host) (r : Rand) (p : Bytes) : Host × Out :=
  match codeOf p with
  | .pairRsp => onPairRsp c s r p
  | .confirm =>
    let s := { s with pcnf := value16 p }
    (s, { sent := if s.smpSc then [] else [0x04 :: s.prnd] })
  | .random => onRandom c s p
  | .pubKey =>
    let s := { s with remotePk := (p.drop 1).take 64, prnd := r.prnd }
    (s, { sent := [0x03 :: c.f4 (s.localPk.take 32) (s.remotePk.take 32) s.prnd 0] })
  | .dhCheck => if s.userOk ∨ ¬s.needConfirm then secure s r else (s, {})
  | .encInfo => ({ s with ltkNew := value16 p }, {})
  | .masterId =>
    (setBond (rememberBond s r false) fun b =>
      { b with ediv := get16 p 1, randn := (p.drop 3).take 8, ltk := s.ltkNew },
      { stored := some false })
  | .idInfo => (setBond s fun b => { b with irk := value16 p, irkOk := true }, {})
  | .failed => ({ s with pairFail := true }, {})
  | .other => (s, {})

/-- A stale bond of the peer is dropped before a pairing. -/
def forget (s : Host) : Host :=
  match bondFind s with
  | some idx => { s with bonds := s.bonds.eraseIdx idx }
  | none => s

def pairReq : Bytes := [0x01, 0x01, 0x00, 0x0d, 16, 0x02, 0x02]

/-- `do_pair` up to the request, and `do_pair_bredr` up to its command. -/
def doPair (s : Host) (bredr : Bool) : Host × Out :=
  if ¬s.connected then (s, {})
  else if s.peerType = BT_ADDR_BREDR ∨ bredr then
    ({ forget s with smpOn := false, pairDone := false, pairFail := false, encrypted := false }, {})
  else
    ({ forget s with
        smpOn := true
        smpSc := false
        pairDone := false
        pairFail := false
        needConfirm := false
        userOk := false
        keysSent := false
        ltkNew := zeros 16
        preq := pairReq },
      { sent := [pairReq] })

/-- `do_confirm` up to the transmission of the check value; the caller may name the number. -/
def doConfirm (c : Crypto) (s : Host) (passkey : ℕ) : Host × Out :=
  ({ s with
      userOk := true
      needConfirm := false
      passkey := if passkey ≠ 0 then passkey else s.passkey
      confirming := true },
    { sent := [lescDhcheck c s] })

inductive Act
  | pdu (p : Bytes) (r : Rand)
  | pair (bredr : Bool)
  | confirm (passkey : ℕ)
  /-- The rest of `do_confirm`. -/
  | confirmed (r : Rand)
  | connect (peer : Bytes) (type : UInt8)
  | disconnect
  | encryption (on : Bool)
  deriving DecidableEq, Repr

def step (c : Crypto) (s : Host) : Act → Host × Out
  | .pdu p r => onSmp c s r p
  | .pair bredr => doPair s bredr
  | .confirm passkey => doConfirm c s passkey
  | .confirmed r => if s.confirming then secure { s with confirming := false } r else (s, {})
  | .connect peer type => ({ s with peer := peer, peerType := type, connected := true }, {})
  | .disconnect => ({ s with connected := false, encrypted := false }, {})
  | .encryption on =>
    let s := { s with encrypted := on }
    if s.encrypted ∧ s.smpOn then smpSendKeys s else (s, {})

/-! ## What a pairing has shown -/

/-- What has happened in the pairing that goes on, if one does: the peer's public key and its confirm
value came, the value matched the random of the same exchange, the user accepted the number that was
shown then, and a check PDU equal to the `f6` value of the exchange came. -/
structure Shown where
  paired : Bool := false
  pubKey : Bool := false
  confirm : Bool := false
  matched : Bool := false
  accepted : Bool := false
  checked : Bool := false
  deriving DecidableEq, Repr

/-- New data begin a new exchange. -/
def Shown.restart (g : Shown) : Shown :=
  { g with matched := false, accepted := false, checked := false }

/-- The check value of the peer. -/
def peerCheck (c : Crypto) (s : Host) : Bytes :=
  c.f6 s.mackey s.rrnd s.prnd (zeros 16) ((s.pres.drop 1).take 3) s.a1 s.a2

/-- The random of the PDU opens the confirm value. -/
def Opens (c : Crypto) (s : Host) (p : Bytes) : Prop :=
  c.f4 (s.remotePk.take 32) (s.localPk.take 32) (value16 p) 0 = s.pcnf

instance (c : Crypto) (s : Host) (p : Bytes) : Decidable (Opens c s p) :=
  inferInstanceAs (Decidable (_ = _))

/-- What the step adds. -/
def observe (c : Crypto) (s : Host) (g : Shown) : Act → Shown
  | .pdu p _ =>
    match codeOf p with
    | .pairRsp => g.restart
    | .confirm => { g.restart with confirm := true }
    | .random => { g.restart with matched := g.pubKey && g.confirm && s.smpSc && Opens c s p }
    | .pubKey => { g.restart with pubKey := true }
    | .dhCheck =>
      { g with checked := g.checked || (g.matched && p.length ≥ 17 && value16 p = peerCheck c s) }
    | _ => g
  | .pair bredr =>
    if ¬s.connected then g
    else if s.peerType = BT_ADDR_BREDR ∨ bredr then {}
    else { paired := true }
  | .confirm _ => { g with accepted := g.matched }
  | .confirmed _ | .encryption _ => g
  | .connect _ _ | .disconnect => {}

/-- The host and what the pairing has shown; a pairing is over when it fails. -/
structure Watch where
  host : Host := {}
  shown : Shown := {}

def Watch.after (c : Crypto) (w : Watch) (a : Act) : Shown :=
  let g := observe c w.host w.shown a
  { g with paired := g.paired && !(step c w.host a).1.pairFail }

def watch (c : Crypto) (w : Watch) (a : Act) : Watch :=
  ⟨(step c w.host a).1, w.after c a⟩

/-- Everything that a Secure Connections bond needs. -/
def Shown.Authentic (g : Shown) : Prop :=
  g.paired ∧ g.pubKey ∧ g.confirm ∧ g.matched ∧ g.accepted ∧ g.checked

instance (g : Shown) : Decidable g.Authentic := inferInstanceAs (Decidable (_ ∧ _))

def Code.distributes : Code → Bool
  | .encInfo | .masterId | .idInfo => true
  | _ => false

/-- The keys of the bond. -/
def Bond.keys (b : Bond) : Bytes × ℕ × Bytes × Bytes := (b.ltk, b.ediv, b.randn, b.irk)

/-- A Secure Connections bond is stored, and encryption started with its key, only when all is shown;
and a key-distribution PDU changes the keys of a bond only in a pairing with its peer on an encrypted
link. -/
structure Safe (c : Crypto) (w : Watch) (a : Act) : Prop where
  secured : (step c w.host a).2.stored = some true ∨
      ((step c w.host a).2.enc ≠ none ∧ w.host.smpSc = true) → (w.after c a).Authentic
  distributed : ∀ p r, a = .pdu p r → (codeOf p).distributes = true →
    ∀ (i : ℕ) (b b' : Bond), w.host.bonds[i]? = some b →
      (step c w.host a).1.bonds[i]? = some b' → b'.keys ≠ b.keys →
        w.shown.paired = true ∧ w.host.encrypted = true ∧ b.isOf w.host.peer w.host.peerType

/-- The pairing is at the point where a bond may be stored. -/
def Watch.secured (w : Watch) : Prop := w.shown.paired ∧ w.host.userOk

/-- The keys of the peer may be changed. -/
def Watch.keysOpen (w : Watch) : Prop :=
  bondFind w.host = none ∨ w.shown.paired ∧ w.host.encrypted

instance (w : Watch) : Decidable w.secured := inferInstanceAs (Decidable (_ ∧ _))
instance (w : Watch) : Decidable w.keysOpen := inferInstanceAs (Decidable (_ ∨ _))

/-- When a PDU may come. -/
def PduOk (c : Crypto) (w : Watch) (p : Bytes) : Code → Prop
  | .pairRsp | .confirm | .pubKey => w.shown.paired → ¬w.host.needConfirm ∧ ¬w.host.userOk
  | .random => w.shown.paired → (¬w.host.needConfirm ∧ ¬w.host.userOk) ∧
      (w.host.smpSc → Opens c w.host p → w.shown.pubKey ∧ w.shown.confirm)
  | .dhCheck => w.host.needConfirm ∧ ¬w.host.userOk ∨ w.secured
  | .masterId => w.keysOpen ∧ (bondFind w.host = none → w.host.bonds.length < MAX_BONDS)
  | .idInfo => w.keysOpen
  | .encInfo | .failed | .other => True

instance (c : Crypto) (w : Watch) (p : Bytes) : ∀ k, Decidable (PduOk c w p k)
  | .pairRsp | .confirm | .pubKey => inferInstanceAs (Decidable (_ → _ ∧ _))
  | .random => inferInstanceAs (Decidable (_ → _ ∧ _))
  | .dhCheck => inferInstanceAs (Decidable (_ ∨ _))
  | .masterId => inferInstanceAs (Decidable (_ ∧ _))
  | .idInfo => inferInstanceAs (Decidable w.keysOpen)
  | .encInfo | .failed | .other => inferInstanceAs (Decidable True)

/-- No exchange begins once a number is shown or accepted, and a random that opens the confirm value
comes after the public key and the confirm value of this pairing; a check PDU comes while a number is
shown, or once it is accepted; the user accepts after the right check value has come. A PDU that
changes the keys of a bond comes in a pairing on an encrypted link, and finds a free entry where the
peer has none. -/
def StepOk (c : Crypto) (w : Watch) : Act → Prop
  | .pdu p _ => PduOk c w p (codeOf p)
  | .confirm _ => w.shown.paired ∧ w.host.needConfirm ∧ w.shown.checked
  | .confirmed _ => w.host.confirming → w.secured
  | _ => True

instance (c : Crypto) (w : Watch) : ∀ a, Decidable (StepOk c w a)
  | .pdu p _ => inferInstanceAs (Decidable (PduOk c w p (codeOf p)))
  | .confirm _ => inferInstanceAs (Decidable (_ ∧ _))
  | .confirmed _ => inferInstanceAs (Decidable (_ → _))
  | .pair _ | .connect _ _ | .disconnect | .encryption _ => inferInstanceAs (Decidable True)

end Xeneva.Bt.Smp
