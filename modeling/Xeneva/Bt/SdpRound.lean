import Xeneva.Bt.SdpBounds

/-!
# A round over the SDP channel

A request is sent again with the continuation state of each response, and the payloads are put
together. `env r` are the packets that come while the request of round `r` is waited for, and the
bytes of `sdp_rsp` behind a response are those of earlier ones.
-/

namespace Xeneva.Bt.Sdp
open Base.Checked

structure SdpState where
  rsp : ℕ → UInt8
  rlen : ℕ
  done : Bool
  ok : Bool
  err : Int

/-- The response in the buffer. -/
def SdpState.bytes (st : SdpState) : List UInt8 := (List.range st.rlen).map st.rsp

def addressed (tid : ℕ) (p : List UInt8) : Bool :=
  5 ≤ p.length ∧ (p.getD 1 0).toNat = tid / 256 ∧ (p.getD 2 0).toNat = tid % 256

def onSdpRsp (tid : ℕ) (st : SdpState) (p : List UInt8) : SdpState :=
  if ¬addressed tid p ∨ st.done then st
  else if p.getD 0 0 = SDP_ERR_RSP then
    { st with
      err := if 7 ≤ p.length then word (p.getD 5 0) (p.getD 6 0) else -1
      ok := false
      done := true }
  else
    { st with
      rsp := fun i => if i < min p.length 512 then p.getD i 0 else st.rsp i
      rlen := min p.length 512
      ok := p.getD 0 0 = SDP_SS_RSP ∨ p.getD 0 0 = SDP_SA_RSP ∨ p.getD 0 0 = SDP_SSA_RSP
      done := true }

def SdpState.waiting (st : SdpState) : SdpState := { st with done := false, ok := false }

/-- The wait for the response to a request. -/
def waitRsp (tid : ℕ) (ps : List (List UInt8)) (st : SdpState) : SdpState :=
  ps.foldl (onSdpRsp tid) st.waiting

/-- The variables of `sdp_round`, the responses that came and the requests that were sent. -/
structure Locals where
  st : SdpState
  req : List UInt8
  acc : List UInt8 := []
  accTotal : Option ℕ := none
  search : Bool := false
  got : List (List UInt8) := []
  sent : List (List UInt8) := []

def chunk (st : SdpState) (pay : ℕ) : List UInt8 := (List.range pay).map fun i => st.rsp (9 + i)

/-- The end of a turn: the request for the next part, unless this was the last one. -/
def nextRequest (clen : ℕ) (l : Locals) : Except Fault (Option (Bool × Locals)) := do
  let c ← sdpContGet l.st.bytes
  match c with
  | none => pure none
  | some (csl, cs) =>
    if csl = 0 then pure (some (false, l))
    else do
      let r ← sdpContAppend l.req clen l.st.bytes cs csl
      match r with
      | none => pure (some (false, l))
      | some (req, ncl) =>
        pure (some (true, { l with req := req, sent := l.sent ++ [req.take ncl] }))

/-- A turn with a response in the buffer. The loop goes on with `true`. -/
def sdpTurn (clen r : ℕ) (l : Locals) : Except Fault (Option (Bool × Locals)) :=
  let l := { l with got := l.got ++ [l.st.bytes] }
  let total := word (l.st.rsp 5) (l.st.rsp 6)
  let cur := word (l.st.rsp 7) (l.st.rsp 8)
  if r = 0 then do
    let search : Bool := l.st.rsp 0 = SDP_SS_RSP
    let c ← sdpContGet l.st.bytes
    match c with
    | none => pure (some (false, l))
    | some (csl, _) =>
      let pay := if search then cur * 4 else cur
      if csl = 0 then pure (some (false, l))
      else if 512 < 9 + pay then pure none
      else
        nextRequest clen { l with
          acc := chunk l.st pay
          accTotal := some (if search then total * 4 else total)
          search := search }
  else
    let pay := if l.search then cur * 4 else cur
    if 512 < l.acc.length + pay then pure none
    else nextRequest clen { l with acc := l.acc ++ chunk l.st pay }

def sdpLoop (clen tid : ℕ) (env : ℕ → List (List UInt8)) :
    ℕ → ℕ → Locals → Except Fault (Option Locals)
  | 0, _, l => pure (some l)
  | left + 1, r, l => do
    let l := { l with st := waitRsp tid (env r) l.st }
    if ¬l.st.done ∨ ¬l.st.ok then pure none
    else do
      let t ← sdpTurn clen r l
      match t with
      | none => pure none
      | some (true, l) => sdpLoop clen tid env left (r + 1) l
      | some (false, l) => pure (some l)

/-- The buffer with the header of the last response and the payloads of all. -/
def Locals.merged (l : Locals) (total : ℕ) : SdpState :=
  let n := l.acc.length
  let h₅ := if l.search then total / 4 else n
  let h₇ := if l.search then n / 4 else n
  { l.st with
    rlen := 9 + n + 1
    rsp := fun i =>
      if i = 5 then UInt8.ofNat (h₅ / 256) else if i = 6 then UInt8.ofNat h₅
      else if i = 7 then UInt8.ofNat (h₇ / 256) else if i = 8 then UInt8.ofNat h₇
      else if 9 ≤ i ∧ i < 9 + n then l.acc.getD (i - 9) 0
      else if i = 9 + n then 0 else l.st.rsp i }

def mergeRsp (l : Locals) : Option Locals :=
  match l.accTotal with
  | none => some l
  | some total => if 512 < l.acc.length + 10 then none else some { l with st := l.merged total }

/-- `none` is the failure of the round. -/
def sdpRound (tid : ℕ) (cmd : List UInt8) (env : ℕ → List (List UInt8)) (st : SdpState) :
    Except Fault (Option Locals) :=
  if cmd.length < 1 ∨ 64 < cmd.length + 16 then pure none
  else do
    let l ← sdpLoop cmd.length tid env 5 0
      { st := { st with rlen := 0, err := 0 }
        req := cmd ++ List.replicate (64 - cmd.length) 0
        sent := [cmd] }
    pure (l.bind mergeRsp)

/-! ## What comes in a round -/

variable {tid clen r : ℕ} {p : List UInt8} {ps : List (List UInt8)} {rs : List (List UInt8)}
  {st : SdpState} {l : Locals} {env : ℕ → List (List UInt8)}

/-- The response that the wait ends with: the first one for the request, cut to the buffer. -/
def accepted (tid : ℕ) : List (List UInt8) → Option (List UInt8)
  | [] => none
  | p :: ps =>
    if ¬addressed tid p then accepted tid ps
    else if p.getD 0 0 = SDP_SS_RSP ∨ p.getD 0 0 = SDP_SA_RSP ∨ p.getD 0 0 = SDP_SSA_RSP then
      some (p.take 512)
    else none

/-- The response is in the buffer. -/
structure SdpState.Holds (st : SdpState) (q : List UInt8) : Prop where
  rlen : st.rlen = q.length
  rsp : ∀ i, i < q.length → st.rsp i = q.getD i 0
  size : q.length ≤ 512

theorem SdpState.Holds.bytes (h : st.Holds p) : st.bytes = p := by
  unfold SdpState.bytes
  rw [h.rlen]
  apply List.ext_getElem (by simp)
  intro i hi hp
  rw [List.getElem_map, List.getElem_range, h.rsp i hp, List.getD_eq_getElem p 0 hp]

theorem foldl_onSdpRsp_done (h : st.done = true) : ps.foldl (onSdpRsp tid) st = st := by
  induction ps with
  | nil => rfl
  | cons p ps ih =>
    rw [List.foldl_cons, show onSdpRsp tid st p = st from if_pos (Or.inr h)]
    exact ih

theorem getD_take_512 {i : ℕ} (hi : i < 512) : (p.take 512).getD i 0 = p.getD i 0 := by
  rw [List.getD_eq_getElem?_getD, List.getElem?_take_of_lt hi, ← List.getD_eq_getElem?_getD]

def SdpState.stored (st : SdpState) (p : List UInt8) : SdpState := { st with
  rsp := fun i => if i < min p.length 512 then p.getD i 0 else st.rsp i
  rlen := min p.length 512
  ok := p.getD 0 0 = SDP_SS_RSP ∨ p.getD 0 0 = SDP_SA_RSP ∨ p.getD 0 0 = SDP_SSA_RSP
  done := true }

theorem SdpState.stored_holds (st : SdpState) (p : List UInt8) :
    (st.stored p).Holds (p.take 512) := by
  have hlen : (p.take 512).length = min p.length 512 := by rw [List.length_take, Nat.min_comm]
  constructor
  · exact hlen.symm
  · intro i hi
    rw [hlen] at hi
    change (if i < min p.length 512 then p.getD i 0 else st.rsp i) = _
    rw [if_pos hi, getD_take_512 (by omega)]
  · omega

theorem onSdpRsp_stored (hd : st.done = false) (ha : addressed tid p)
    (he : p.getD 0 0 ≠ SDP_ERR_RSP) : onSdpRsp tid st p = st.stored p := by
  unfold onSdpRsp
  rw [if_neg (by simp [ha, hd]), if_neg he]
  rfl

theorem onSdpRsp_err (hd : st.done = false) (ha : addressed tid p)
    (he : p.getD 0 0 = SDP_ERR_RSP) :
    (onSdpRsp tid st p).done = true ∧ (onSdpRsp tid st p).ok = false := by
  unfold onSdpRsp
  rw [if_neg (by simp [ha, hd]), if_pos he]
  exact ⟨rfl, rfl⟩

theorem foldl_onSdpRsp_spec (tid : ℕ) (ps : List (List UInt8)) (hd : st.done = false) :
    match accepted tid ps with
    | none => ¬((ps.foldl (onSdpRsp tid) st).done = true ∧ (ps.foldl (onSdpRsp tid) st).ok = true)
    | some q => (ps.foldl (onSdpRsp tid) st).done = true ∧
        (ps.foldl (onSdpRsp tid) st).ok = true ∧ (ps.foldl (onSdpRsp tid) st).Holds q := by
  induction ps with
  | nil => simp [accepted, hd]
  | cons p ps ih =>
    rw [List.foldl_cons]
    unfold accepted
    by_cases ha : addressed tid p
    swap
    · rw [if_pos ha, show onSdpRsp tid st p = st from if_pos (Or.inl ha)]
      exact ih
    rw [if_neg (not_not.mpr ha)]
    by_cases herr : p.getD 0 0 = SDP_ERR_RSP
    · obtain ⟨hdone, hnok⟩ := onSdpRsp_err hd ha herr
      rw [if_neg (by rw [herr]; decide), foldl_onSdpRsp_done hdone, hnok]
      simp
    rw [onSdpRsp_stored hd ha herr, foldl_onSdpRsp_done (show (st.stored p).done = true from rfl)]
    by_cases hk : p.getD 0 0 = SDP_SS_RSP ∨ p.getD 0 0 = SDP_SA_RSP ∨ p.getD 0 0 = SDP_SSA_RSP
    · rw [if_pos hk]
      exact ⟨rfl, decide_eq_true hk, st.stored_holds p⟩
    · rw [if_neg hk]
      intro h
      exact hk (of_decide_eq_true h.2)

theorem waitRsp_none (h : accepted tid ps = none) (st : SdpState) :
    ¬(waitRsp tid ps st).done ∨ ¬(waitRsp tid ps st).ok := by
  have hs := foldl_onSdpRsp_spec tid ps (show st.waiting.done = false from rfl)
  rw [h] at hs
  exact not_and_or.mp hs

theorem waitRsp_some (h : accepted tid ps = some p) (st : SdpState) :
    ¬(¬(waitRsp tid ps st).done ∨ ¬(waitRsp tid ps st).ok) ∧ (waitRsp tid ps st).Holds p := by
  have hs := foldl_onSdpRsp_spec tid ps (show st.waiting.done = false from rfl)
  rw [h] at hs
  exact ⟨not_or.mpr ⟨not_not.mpr hs.1, not_not.mpr hs.2.1⟩, hs.2.2⟩

/-! ## A turn -/

variable {k : UInt8} {cl left : ℕ}

/-- The bytes of a response that are its part of the answer. -/
def payload (p : List UInt8) : List UInt8 := (p.drop 9).take (payLen p)

/-- The bytes taken from the responses, where `k` says how counts are read. -/
def copied (k : UInt8) (rs : List (List UInt8)) : ℕ := (rs.map fun p => payBytes k (count p)).sum

/-- From each response its payload is taken. -/
def Uniform (k : UInt8) (rs : List (List UInt8)) : Prop :=
  ∀ p ∈ rs, payBytes k (count p) = payLen p

@[simp] theorem copied_append : copied k (rs ++ [p]) = copied k rs + payBytes k (count p) := by
  simp [copied]

@[simp] theorem length_chunk (st : SdpState) (pay : ℕ) : (chunk st pay).length = pay := by
  simp [chunk]

theorem getElem_chunk (st : SdpState) (pay i : ℕ) (h : i < (chunk st pay).length) :
    (chunk st pay)[i] = st.rsp (9 + i) := by
  simp [chunk]

theorem length_payload (hc : contLen p = some cl) : (payload p).length = payLen p := by
  have hfit := contLen_fits hc
  unfold payload
  rw [List.length_take, List.length_drop]
  omega

theorem SdpState.Holds.chunk (h : st.Holds p) (hc : contLen p = some cl) :
    chunk st (payLen p) = payload p := by
  have hfit := contLen_fits hc
  apply List.ext_getElem (by rw [length_chunk, length_payload hc])
  intro i hl hr
  have hi : i < payLen p := (length_chunk st (payLen p)) ▸ hl
  have hget : (payload p)[i] = p[9 + i] := by simp [payload]
  rw [getElem_chunk, hget, h.rsp (9 + i) (by omega), List.getD_eq_getElem p 0 (by omega)]

theorem SdpState.Holds.count (h : st.Holds p) (hc : contLen p = some cl) :
    word (st.rsp 7) (st.rsp 8) = count p := by
  have hfit := contLen_fits hc
  rw [h.rsp 7 (by omega), h.rsp 8 (by omega)]
  rfl

/-- The variables of the round after the responses `rs`, the last of which may end it. -/
structure After (k : UInt8) (rs : List (List UInt8)) (l : Locals) : Prop where
  req : l.req.length = 64
  got : l.got = rs
  search : l.search = decide (k = SDP_SS_RSP)
  total : l.accTotal ≠ none
  size : l.acc.length = copied k rs
  whole : Uniform k rs → l.acc = (rs.map payload).flatten

theorem After.setSt (h : After k rs l) (st : SdpState) : After k rs { l with st := st } :=
  ⟨h.req, h.got, h.search, h.total, h.size, h.whole⟩

theorem nextRequest_none (h : l.st.Holds p) (hc : contLen p = none) :
    nextRequest clen l = .ok none := by
  unfold nextRequest
  rw [h.bytes, sdpContGet_eq, hc, Option.map_none, ok_bind]
  rfl

/-- The loop goes on when there is a continuation state and it is not too long. -/
theorem nextRequest_some (h : l.st.Holds p) (hc : contLen p = some cl) (h1 : 1 ≤ clen)
    (h48 : clen + 16 ≤ 64) (ha : After k rs l) :
    ∃ l', nextRequest clen l = .ok (some (decide (1 ≤ cl ∧ cl ≤ 16), l')) ∧ After k rs l' := by
  have hfit := contLen_fits hc
  unfold nextRequest
  rw [h.bytes, sdpContGet_eq, hc, Option.map_some, ok_bind]
  dsimp only
  by_cases h0 : cl = 0
  · rw [if_pos h0, decide_eq_false (by omega)]
    exact ⟨l, rfl, ha⟩
  obtain ⟨r, hr, hpost⟩ := sdpContAppend_ends h1 (ha.req.symm ▸ h48) hfit
  rw [if_neg h0, hr, ok_bind]
  by_cases h16 : 16 < cl
  · rw [if_pos h16] at hpost
    rw [hpost, decide_eq_false (by omega)]
    exact ⟨l, rfl, ha⟩
  · rw [if_neg h16] at hpost
    obtain ⟨q, hq, hlen⟩ := hpost
    rw [hq, decide_eq_true (by omega)]
    exact ⟨_, rfl, hlen.trans ha.req, ha.got, ha.search, ha.total, ha.size, ha.whole⟩

theorem payBytes_search (k : UInt8) (cur : ℕ) :
    (if decide (k = SDP_SS_RSP) = true then cur * 4 else cur) = payBytes k cur := by
  unfold payBytes
  simp only [decide_eq_true_eq]

/-- A later turn with a response that is not as long as it says. -/
theorem sdpTurn_none (hr : r ≠ 0) (h : l.st.Holds p) (hc : contLen p = none) :
    sdpTurn clen r l = .ok none := by
  unfold sdpTurn
  dsimp only
  rw [if_neg hr]
  generalize (if l.search = true then _ else _) = pay
  split
  · rfl
  · exact nextRequest_none h hc

/-- A later turn with more bytes than the accumulator has room for. -/
theorem sdpTurn_full (hr : r ≠ 0) (h : l.st.Holds p) (hc : contLen p = some cl)
    (ha : After k rs l) (hfull : 512 < copied k (rs ++ [p])) : sdpTurn clen r l = .ok none := by
  unfold sdpTurn
  dsimp only
  rw [if_neg hr, ha.search, h.count hc, payBytes_search, ha.size, if_pos (by simpa using hfull)]
  rfl

theorem sdpTurn_some (hr : r ≠ 0) (h : l.st.Holds p) (hc : contLen p = some cl)
    (h1 : 1 ≤ clen) (h48 : clen + 16 ≤ 64) (ha : After k rs l)
    (hroom : copied k (rs ++ [p]) ≤ 512) :
    ∃ l', sdpTurn clen r l = .ok (some (decide (1 ≤ cl ∧ cl ≤ 16), l')) ∧
      After k (rs ++ [p]) l' := by
  unfold sdpTurn
  dsimp only
  rw [if_neg hr, ha.search, h.count hc, payBytes_search, ha.size,
    if_neg (Nat.not_lt.mpr (by simpa using hroom))]
  refine nextRequest_some h hc h1 h48 ⟨ha.req, by rw [ha.got, h.bytes], rfl, ha.total, ?_, ?_⟩
  · rw [List.length_append, length_chunk, ha.size, copied_append]
  · intro hu
    have hp : payBytes k (count p) = payLen p := hu p (by simp)
    have hrs : Uniform k rs := fun q hq => hu q (List.mem_append_left [p] hq)
    rw [List.map_append, List.flatten_append, ha.whole hrs, hp, h.chunk hc]
    simp

/-- The variables before the first response. -/
structure Start (l : Locals) : Prop where
  req : l.req.length = 64
  acc : l.acc = []
  total : l.accTotal = none
  got : l.got = []

/-- The first turn ends the round when there is no continuation state to be found. -/
theorem sdpTurn_first (h : l.st.Holds p) (hl : Start l) (hc : ∀ cl, contLen p = some cl → cl = 0) :
    sdpTurn clen 0 l = .ok (some (false, { l with got := [p] })) := by
  unfold sdpTurn
  dsimp only
  rw [if_pos rfl, h.bytes, sdpContGet_eq, ok_bind, hl.got, List.nil_append]
  cases hcl : contLen p with
  | none => rfl
  | some cl =>
    rw [Option.map_some]
    dsimp only
    rw [if_pos (hc cl hcl)]
    rfl

theorem sdpTurn_first_some (h : l.st.Holds p) (hl : Start l) (hc : contLen p = some cl)
    (hcl : cl ≠ 0) (h1 : 1 ≤ clen) (h48 : clen + 16 ≤ 64) :
    ∃ l', sdpTurn clen 0 l = .ok (some (decide (1 ≤ cl ∧ cl ≤ 16), l')) ∧
      After (p.getD 0 0) [p] l' := by
  have hfit := contLen_fits hc
  have hsize := h.size
  unfold sdpTurn
  dsimp only
  rw [if_pos rfl, h.bytes, sdpContGet_eq, ok_bind, hc, Option.map_some]
  dsimp only
  rw [if_neg hcl, h.count hc, h.rsp 0 (by omega), payBytes_search]
  change ∃ l', (if 512 < 9 + payLen p then _ else _) = _ ∧ _
  rw [if_neg (show ¬512 < 9 + payLen p by omega)]
  refine nextRequest_some h hc h1 h48 ⟨hl.req, by simp [hl.got], rfl, by simp, ?_, ?_⟩
  · rw [length_chunk]
    simp [copied]
  · intro _
    change chunk l.st (payLen p) = _
    rw [h.chunk hc]
    simp

/-! ## The loop -/

/-- There is a continuation state to send back. -/
def Continues (p : List UInt8) : Prop := ∃ cl, contLen p = some cl ∧ 1 ≤ cl ∧ cl ≤ 16

/-- The responses that come in the first rounds. -/
def Received (tid : ℕ) (env : ℕ → List (List UInt8)) (rs : List (List UInt8)) : Prop :=
  ∀ i (h : i < rs.length), accepted tid (env i) = some rs[i]

theorem received_nil (tid : ℕ) (env : ℕ → List (List UInt8)) : Received tid env [] := by
  intro i hi
  exact absurd hi (Nat.not_lt_zero i)

theorem Received.last (h : Received tid env (rs ++ [p])) :
    accepted tid (env rs.length) = some p := by
  have := h rs.length (by simp)
  simpa using this

theorem Received.append (h : Received tid env rs) (hp : accepted tid (env rs.length) = some p) :
    Received tid env (rs ++ [p]) := by
  intro i hi
  by_cases hlt : i < rs.length
  · rw [List.getElem_append_left hlt]
    exact h i hlt
  · have hlen : i = rs.length := by
      rw [List.length_append, List.length_singleton] at hi
      omega
    subst hlen
    simpa using hp

/-- The round ends with these responses. -/
structure Stops (tid : ℕ) (env : ℕ → List (List UInt8)) (rs : List (List UInt8))
    (last : List UInt8) (cl : ℕ) : Prop where
  received : Received tid env (rs ++ [last])
  before : ∀ p ∈ rs, Continues p
  cont : contLen last = some cl
  ends : cl = 0 ∨ 16 < cl ∨ rs.length = 4
  rounds : rs.length < 5

theorem sdpLoop_none (h : accepted tid (env r) = none) :
    sdpLoop clen tid env (left + 1) r l = .ok none := if_pos (waitRsp_none h l.st)

/-- One round of the loop, by what its turn says. -/
theorem sdpLoop_turn (clen left : ℕ) (h : accepted tid (env r) = some p) (l : Locals) :
    (waitRsp tid (env r) l.st).Holds p ∧ sdpLoop clen tid env (left + 1) r l =
      (sdpTurn clen r { l with st := waitRsp tid (env r) l.st } >>= fun t => match t with
        | none => pure none
        | some (true, l) => sdpLoop clen tid env left (r + 1) l
        | some (false, l) => pure (some l)) := by
  obtain ⟨hok, hh⟩ := waitRsp_some h l.st
  exact ⟨hh, if_neg hok⟩

/-- From the second round on the loop fails, or it ends with responses at which it stops. -/
theorem sdpLoop_outcome (h1 : 1 ≤ clen) (h48 : clen + 16 ≤ 64) (hne : rs ≠ [])
    (hlen : rs.length + left = 5) (hrec : Received tid env rs) (hcont : ∀ p ∈ rs, Continues p)
    (ha : After k rs l) :
    sdpLoop clen tid env left rs.length l = .ok none ∨ ∃ init last cl l',
      sdpLoop clen tid env left rs.length l = .ok (some l') ∧ After k (init ++ [last]) l' ∧
        Stops tid env init last cl ∧ rs <+: init ++ [last] := by
  induction left generalizing rs l with
  | zero =>
    right
    have hsplit := List.dropLast_append_getLast hne
    obtain ⟨cl, hcl, _⟩ := hcont _ (List.getLast_mem hne)
    refine ⟨rs.dropLast, rs.getLast hne, cl, l, rfl, by rwa [hsplit], ?_,
      hsplit.symm ▸ List.prefix_refl rs⟩
    constructor
    · rwa [hsplit]
    · exact fun p hp => hcont p ((List.dropLast_sublist rs).subset hp)
    · exact hcl
    · rw [List.length_dropLast]
      omega
    · rw [List.length_dropLast]
      omega
  | succ left ih =>
    cases hp : accepted tid (env rs.length) with
    | none => exact Or.inl (sdpLoop_none hp)
    | some p =>
      obtain ⟨hh, hturn⟩ := sdpLoop_turn clen left hp l
      have ha₁ := ha.setSt (waitRsp tid (env rs.length) l.st)
      have hr : rs.length ≠ 0 := fun h0 => hne (List.length_eq_zero_iff.mp h0)
      rw [hturn]
      cases hc : contLen p with
      | none =>
        rw [sdpTurn_none hr hh hc]
        exact Or.inl rfl
      | some cl =>
        by_cases hroom : copied k (rs ++ [p]) ≤ 512
        swap
        · rw [sdpTurn_full hr hh hc ha₁ (by omega)]
          exact Or.inl rfl
        obtain ⟨l', hl', ha'⟩ := sdpTurn_some hr hh hc h1 h48 ha₁ hroom
        rw [hl', ok_bind]
        by_cases hgo : 1 ≤ cl ∧ cl ≤ 16
        · rw [decide_eq_true hgo]
          have hne' : rs ++ [p] ≠ [] := by simp
          have hcont' : ∀ q ∈ rs ++ [p], Continues q := by
            intro q hq
            apply (List.mem_append.mp hq).elim
            · exact hcont q
            · intro hq
              exact List.mem_singleton.mp hq ▸ ⟨cl, hc, hgo⟩
          have hnext := ih hne' (by simp; omega) (hrec.append hp) hcont' ha'
          rw [List.length_append, List.length_singleton] at hnext
          apply hnext.imp_right
          intro ⟨init, last, cl', l'', h₁, h₂, h₃, h₄⟩
          exact ⟨init, last, cl', l'', h₁, h₂, h₃, (List.prefix_append rs [p]).trans h₄⟩
        · rw [decide_eq_false hgo]
          right
          exact ⟨rs, p, cl, l', rfl, ha', ⟨hrec.append hp, hcont, hc, by omega, by omega⟩,
            List.prefix_append rs [p]⟩

theorem copied_mono {rs' : List (List UInt8)} (h : rs <+: rs') : copied k rs ≤ copied k rs' := by
  obtain ⟨tl, rfl⟩ := h
  simp [copied]

/-- The round ends with the responses at which it stops, when there is room for their bytes. -/
theorem sdpLoop_stops (h1 : 1 ≤ clen) (h48 : clen + 16 ≤ 64) {last : List UInt8}
    {tl : List (List UInt8)} (hs : Stops tid env (rs ++ tl) last cl) (hne : rs ≠ [])
    (hlen : rs.length + left = 5) (ha : After k rs l)
    (hroom : copied k (rs ++ tl ++ [last]) ≤ 512) :
    ∃ l', sdpLoop clen tid env left rs.length l = .ok (some l') ∧
      After k (rs ++ tl ++ [last]) l' := by
  induction tl generalizing rs l left with
  | nil =>
    rw [List.append_nil] at hs hroom ⊢
    obtain ⟨left, rfl⟩ : ∃ n, left = n + 1 := ⟨left - 1, by have := hs.rounds; omega⟩
    obtain ⟨hh, hturn⟩ := sdpLoop_turn clen left hs.received.last l
    have ha₁ := ha.setSt (waitRsp tid (env rs.length) l.st)
    have hr : rs.length ≠ 0 := fun h0 => hne (List.length_eq_zero_iff.mp h0)
    obtain ⟨l', hl', ha'⟩ := sdpTurn_some hr hh hs.cont h1 h48 ha₁ hroom
    rw [hturn, hl', ok_bind]
    by_cases hgo : 1 ≤ cl ∧ cl ≤ 16
    · -- the fifth round was the last one
      have h4 : left = 0 := by
        have := hs.ends
        omega
      rw [decide_eq_true hgo, h4]
      exact ⟨l', rfl, ha'⟩
    · rw [decide_eq_false hgo]
      exact ⟨l', rfl, ha'⟩
  | cons p tl ih =>
    have hsplit : rs ++ p :: tl = (rs ++ [p]) ++ tl := by simp
    rw [hsplit] at hs hroom ⊢
    have hlt := hs.rounds
    simp only [List.length_append, List.length_singleton] at hlt
    obtain ⟨left, rfl⟩ : ∃ n, left = n + 1 := ⟨left - 1, by omega⟩
    have hp : accepted tid (env rs.length) = some p := by
      have h := hs.received rs.length (by simp)
      rw [h]
      simp
    obtain ⟨clp, hclp, hgo⟩ := hs.before p (by simp)
    obtain ⟨hh, hturn⟩ := sdpLoop_turn clen left hp l
    have ha₁ := ha.setSt (waitRsp tid (env rs.length) l.st)
    have hr : rs.length ≠ 0 := fun h0 => hne (List.length_eq_zero_iff.mp h0)
    have hroom' : copied k (rs ++ [p]) ≤ 512 := by
      apply Nat.le_trans (copied_mono _) hroom
      rw [List.append_assoc (rs ++ [p])]
      exact List.prefix_append _ _
    obtain ⟨l', hl', ha'⟩ := sdpTurn_some hr hh hclp h1 h48 ha₁ hroom'
    rw [hturn, hl', ok_bind, decide_eq_true hgo]
    have hlen' : (rs ++ [p]).length + left = 5 := by
      rw [List.length_append, List.length_singleton]
      omega
    have hnext := ih hs (by simp) hlen' ha' hroom
    rwa [List.length_append, List.length_singleton] at hnext

/-- The payload of the response that the round leaves in the buffer. -/
def yielded (k : UInt8) (st : SdpState) : List UInt8 :=
  chunk st (payBytes k (word (st.rsp 7) (st.rsp 8)))

theorem word_ofNat {n : ℕ} (h : n < 65536) :
    word (UInt8.ofNat (n / 256)) (UInt8.ofNat n) = n := by
  unfold word
  rw [UInt8.toNat_ofNat', UInt8.toNat_ofNat']
  omega

theorem copied_search (rs : List (List UInt8)) : copied SDP_SS_RSP rs / 4 * 4 =
    copied SDP_SS_RSP rs := by
  induction rs with
  | nil => rfl
  | cons p rs ih =>
    have hcons : copied SDP_SS_RSP (p :: rs) = count p * 4 + copied SDP_SS_RSP rs := rfl
    omega

theorem merged_acc (l : Locals) (total : ℕ) :
    chunk (l.merged total) l.acc.length = l.acc := by
  apply List.ext_getElem (by simp)
  intro i _ hi
  rw [getElem_chunk]
  unfold Locals.merged
  dsimp only
  rw [if_neg (by omega), if_neg (by omega), if_neg (by omega), if_neg (by omega),
    if_pos (by omega), Nat.add_sub_cancel_left, List.getD_eq_getElem _ 0 hi]

theorem yielded_merged (ha : After k rs l) (hroom : copied k rs ≤ 502) (total : ℕ) :
    yielded k (l.merged total) = l.acc := by
  have hsize := ha.size
  have hcount : word ((l.merged total).rsp 7) ((l.merged total).rsp 8) =
      if l.search then l.acc.length / 4 else l.acc.length := by
    apply word_ofNat
    split <;> omega
  have hn : payBytes k (if l.search then l.acc.length / 4 else l.acc.length) = l.acc.length := by
    rw [ha.search, hsize]
    unfold payBytes
    by_cases hk : k = SDP_SS_RSP
    · rw [if_pos hk, decide_eq_true hk, if_pos rfl, hk]
      exact copied_search rs
    · rw [if_neg hk, decide_eq_false hk, if_neg (by decide)]
  unfold yielded
  rw [hcount, hn, merged_acc]

theorem mergeRsp_full (ha : After k rs l) (hfull : 502 < copied k rs) : mergeRsp l = none := by
  unfold mergeRsp
  split
  next h => exact absurd h ha.total
  next => rw [ha.size, if_pos (by omega)]

theorem mergeRsp_some (ha : After k rs l) (hroom : copied k rs ≤ 502) :
    ∃ l', mergeRsp l = some l' ∧ l'.got = rs ∧ yielded k l'.st = l.acc := by
  unfold mergeRsp
  split
  next h => exact absurd h ha.total
  next total _ =>
    rw [ha.size, if_neg (by omega)]
    exact ⟨_, rfl, ha.got, yielded_merged ha hroom total⟩

/-! ## The round -/

/-- The first response says how counts are read. -/
def kind (rs : List (List UInt8)) : UInt8 := (rs.headD []).getD 0 0

theorem kind_append (hne : rs ≠ []) (tl : List (List UInt8)) : kind (rs ++ tl) = kind rs := by
  cases rs with
  | nil => exact absurd rfl hne
  | cons p rs => rfl

/-- The first response says that nothing follows, or is not as long as it says. -/
structure Fast (tid : ℕ) (env : ℕ → List (List UInt8)) (p : List UInt8) (l : Locals) : Prop where
  accepted : accepted tid (env 0) = some p
  cont : ∀ cl, contLen p = some cl → cl = 0
  got : l.got = [p]
  total : l.accTotal = none
  holds : l.st.Holds p

theorem sdpLoop_first (h1 : 1 ≤ clen) (h48 : clen + 16 ≤ 64) (hl : Start l) :
    sdpLoop clen tid env 5 0 l = .ok none ∨
      (∃ p l', sdpLoop clen tid env 5 0 l = .ok (some l') ∧ Fast tid env p l') ∨
      ∃ init last cl l', sdpLoop clen tid env 5 0 l = .ok (some l') ∧
        After (kind (init ++ [last])) (init ++ [last]) l' ∧ Stops tid env init last cl := by
  cases hp : accepted tid (env 0) with
  | none => exact Or.inl (sdpLoop_none hp)
  | some p =>
    obtain ⟨hh, hturn⟩ := sdpLoop_turn clen 4 hp l
    have hl₁ : Start { l with st := waitRsp tid (env 0) l.st } := ⟨hl.req, hl.acc, hl.total, hl.got⟩
    rw [hturn]
    by_cases hfast : ∀ cl, contLen p = some cl → cl = 0
    · rw [sdpTurn_first hh hl₁ hfast]
      exact Or.inr (Or.inl ⟨p, _, rfl, hp, hfast, rfl, hl.total, hh⟩)
    obtain ⟨cl, hc, h0⟩ : ∃ cl, contLen p = some cl ∧ cl ≠ 0 := by simpa using hfast
    obtain ⟨l', hl', ha⟩ := sdpTurn_first_some hh hl₁ hc h0 h1 h48
    rw [hl', ok_bind]
    have hrec : Received tid env [p] := Received.append (received_nil tid env) hp
    by_cases hgo : 1 ≤ cl ∧ cl ≤ 16
    · have hcont : ∀ q ∈ [p], Continues q := by
        intro q hq
        exact List.mem_singleton.mp hq ▸ ⟨cl, hc, hgo⟩
      rw [decide_eq_true hgo]
      have h5 : [p].length + 4 = 5 := rfl
      apply (sdpLoop_outcome h1 h48 (by simp) h5 hrec hcont ha).imp_right
      intro ⟨init, last, cl', l'', h₁, h₂, h₃, tl, h₄⟩
      right
      refine ⟨init, last, cl', l'', h₁, ?_, h₃⟩
      have hkind : kind (init ++ [last]) = p.getD 0 0 := by
        rw [← h₄, kind_append (by simp)]
        rfl
      rwa [hkind]
    · rw [decide_eq_false hgo]
      exact Or.inr (Or.inr ⟨[], p, cl, l', rfl, ha, hrec, by simp, hc, by omega, by decide⟩)

theorem sdpLoop_fast (clen : ℕ) (hl : Start l) (hp : accepted tid (env 0) = some p)
    (hc : ∀ cl, contLen p = some cl → cl = 0) :
    ∃ l', sdpLoop clen tid env 5 0 l = .ok (some l') ∧ Fast tid env p l' := by
  obtain ⟨hh, hturn⟩ := sdpLoop_turn clen 4 hp l
  have hl₁ : Start { l with st := waitRsp tid (env 0) l.st } := ⟨hl.req, hl.acc, hl.total, hl.got⟩
  rw [hturn, sdpTurn_first hh hl₁ hc]
  exact ⟨_, rfl, hp, hc, rfl, hl.total, hh⟩

/-- The loop reaches the responses at which it stops. -/
theorem sdpLoop_reaches (h1 : 1 ≤ clen) (h48 : clen + 16 ≤ 64) (hl : Start l)
    {last : List UInt8} (hs : Stops tid env rs last cl) (hcl : rs = [] → cl ≠ 0)
    (hroom : copied (kind (rs ++ [last])) (rs ++ [last]) ≤ 512) :
    ∃ l', sdpLoop clen tid env 5 0 l = .ok (some l') ∧
      After (kind (rs ++ [last])) (rs ++ [last]) l' := by
  have hl₁ : Start { l with st := waitRsp tid (env 0) l.st } := ⟨hl.req, hl.acc, hl.total, hl.got⟩
  cases rs with
  | nil =>
    have hp : accepted tid (env 0) = some last := hs.received.last
    obtain ⟨hh, hturn⟩ := sdpLoop_turn clen 4 hp l
    obtain ⟨l', hl', ha⟩ := sdpTurn_first_some hh hl₁ hs.cont (hcl rfl) h1 h48
    have hgo : ¬(1 ≤ cl ∧ cl ≤ 16) := by
      have hne := hcl rfl
      have hends := hs.ends
      simp only [List.length_nil] at hends
      omega
    rw [hturn, hl', ok_bind, decide_eq_false hgo]
    exact ⟨l', rfl, ha⟩
  | cons p tl =>
    have hp : accepted tid (env 0) = some p := hs.received 0 (by simp)
    obtain ⟨clp, hc, hgo⟩ := hs.before p (by simp)
    obtain ⟨hh, hturn⟩ := sdpLoop_turn clen 4 hp l
    obtain ⟨l', hl', ha⟩ := sdpTurn_first_some hh hl₁ hc (by omega) h1 h48
    rw [hturn, hl', ok_bind, decide_eq_true hgo]
    have hne : [p] ≠ [] := by simp
    have h5 : [p].length + 4 = 5 := rfl
    exact sdpLoop_stops h1 h48 hs hne h5 ha hroom

/-- The responses that came are an answer up to the first empty continuation state, and `whole`
is what they say. -/
def Answered (rs : List (List UInt8)) (whole : List UInt8) : Prop :=
  ∃ init last, rs = init ++ [last] ∧ (∀ p ∈ init, ∃ cl, contLen p = some cl ∧ cl ≠ 0) ∧
    contLen last = some 0 ∧ whole = (rs.map payload).flatten

/-- The round ends, and when it succeeds it leaves the payloads of the responses that came, up to
the one with no continuation state. -/
def RoundExact (tid : ℕ) (cmd : List UInt8) (env : ℕ → List (List UInt8)) (st : SdpState) : Prop :=
  Safe (sdpRound tid cmd env st) ∧ ∀ l, sdpRound tid cmd env st = .ok (some l) →
    Answered l.got (yielded (kind l.got) l.st)

/-- The first response is as long as it says, and where there is room for the answer no
continuation state is too long, the fifth response ends the answer, and all count the same way. -/
def RoundSound (tid : ℕ) (env : ℕ → List (List UInt8)) : Prop :=
  ∀ rs last, Received tid env (rs ++ [last]) → (∀ p ∈ rs, Continues p) → rs.length < 5 →
    (rs = [] → contLen last ≠ none) ∧
    ∀ cl, contLen last = some cl → copied (kind (rs ++ [last])) (rs ++ [last]) ≤ 502 →
      cl ≤ 16 ∧ (rs.length = 4 → cl = 0) ∧
        (cl = 0 → Uniform (kind (rs ++ [last])) (rs ++ [last]))

theorem length_payloads (h : ∀ p ∈ rs, ∃ cl, contLen p = some cl) :
    (rs.map payload).flatten.length = (rs.map payLen).sum := by
  rw [List.length_flatten, List.map_map]
  apply congrArg List.sum
  apply List.map_congr_left
  intro p hp
  obtain ⟨cl, hcl⟩ := h p hp
  exact length_payload hcl

/-- Where the classes differ, more or fewer bytes are taken than the payloads have. -/
theorem uniform_of_copied (h : copied k rs = (rs.map payLen).sum) : Uniform k rs := by
  by_contra hu
  obtain ⟨p, hp, hne⟩ : ∃ p ∈ rs, payBytes k (count p) ≠ payLen p := by
    simpa [Uniform] using hu
  by_cases hk : k = SDP_SS_RSP
  · have hle : ∀ q ∈ rs, payLen q ≤ payBytes k (count q) := by
      intro q _
      unfold payLen payBytes
      rw [if_pos hk]
      split <;> omega
    have hlt := List.sum_lt_sum payLen (fun q => payBytes k (count q)) hle
      ⟨p, hp, Nat.lt_of_le_of_ne (hle p hp) hne.symm⟩
    exact absurd h.symm (Nat.ne_of_lt hlt)
  · have hle : ∀ q ∈ rs, payBytes k (count q) ≤ payLen q := by
      intro q _
      unfold payLen payBytes
      rw [if_neg hk]
      split <;> omega
    have hlt := List.sum_lt_sum (fun q => payBytes k (count q)) payLen hle
      ⟨p, hp, Nat.lt_of_le_of_ne (hle p hp) hne⟩
    exact absurd h (Nat.ne_of_lt hlt)

theorem append_singleton_inj {init init' : List (List UInt8)} {last last' : List UInt8}
    (h : init ++ [last] = init' ++ [last']) : init = init' ∧ last = last' := by
  obtain ⟨h₁, h₂⟩ := List.append_inj' h rfl
  exact ⟨h₁, List.singleton_inj.mp h₂⟩

theorem Stops.conts {last : List UInt8} (hs : Stops tid env rs last cl) :
    ∀ p ∈ rs ++ [last], ∃ cl, contLen p = some cl := by
  intro p hp
  apply (List.mem_append.mp hp).elim
  · intro hp
    obtain ⟨cl, hcl, _⟩ := hs.before p hp
    exact ⟨cl, hcl⟩
  · intro hp
    exact ⟨cl, List.mem_singleton.mp hp ▸ hs.cont⟩

/-- A round that stops with these responses is right when the last one ends the answer and all
count the same way, and only then. -/
theorem answered_iff {last : List UInt8} (hs : Stops tid env rs last cl)
    (ha : After k (rs ++ [last]) l) :
    Answered (rs ++ [last]) l.acc ↔ cl = 0 ∧ Uniform k (rs ++ [last]) := by
  constructor
  · intro ⟨init, last', hsplit, _, hlast, hwhole⟩
    obtain ⟨_, rfl⟩ := append_singleton_inj hsplit
    refine ⟨Option.some.inj (hs.cont.symm.trans hlast), ?_⟩
    apply uniform_of_copied
    rw [← ha.size, hwhole, length_payloads hs.conts]
  · intro ⟨h0, hu⟩
    refine ⟨rs, last, rfl, ?_, h0 ▸ hs.cont, ha.whole hu⟩
    intro p hp
    obtain ⟨cl, hcl, h1, _⟩ := hs.before p hp
    exact ⟨cl, hcl, by omega⟩

theorem Fast.merge (h : Fast tid env p l) : mergeRsp l = some l := by
  unfold mergeRsp
  rw [h.total]

theorem Fast.answered (h : Fast tid env p l) :
    Answered l.got (yielded (kind l.got) l.st) ↔ contLen p ≠ none := by
  rw [h.got]
  constructor
  · intro ⟨init, last, hsplit, _, hlast, _⟩ hnone
    obtain ⟨_, rfl⟩ := append_singleton_inj (show [] ++ [p] = init ++ [last] from hsplit)
    rw [hnone] at hlast
    exact nomatch hlast
  · intro hne
    obtain ⟨cl, hcl⟩ := Option.ne_none_iff_exists'.mp hne
    have h0 := h.cont cl hcl
    refine ⟨[], p, rfl, by simp, h0 ▸ hcl, ?_⟩
    unfold yielded
    rw [h.holds.count hcl]
    change chunk l.st (payLen p) = _
    rw [h.holds.chunk hcl]
    simp

/-- The round is exact for every state before it and every request that fits, exactly when what
comes is sound. -/
theorem roundExact_iff (tid : ℕ) (cmd : List UInt8) (env : ℕ → List (List UInt8)) (st : SdpState) :
    RoundExact tid cmd env st ↔ (1 ≤ cmd.length ∧ cmd.length ≤ 48 → RoundSound tid env) := by
  unfold RoundExact sdpRound
  by_cases hg : cmd.length < 1 ∨ 64 < cmd.length + 16
  · rw [if_pos hg]
    constructor
    · intro _ h
      omega
    · intro _
      exact ⟨safe_pure _, fun l hl => nomatch hl⟩
  rw [if_neg hg]
  have h1 : 1 ≤ cmd.length := by omega
  have h48 : cmd.length + 16 ≤ 64 := by omega
  have hguard : 1 ≤ cmd.length ∧ cmd.length ≤ 48 := by omega
  generalize hl₀ : ({ st := { st with rlen := 0, err := 0 }
                      req := cmd ++ List.replicate (64 - cmd.length) 0
                      sent := [cmd] } : Locals) = l₀
  have hstart : Start l₀ := by
    rw [← hl₀]
    constructor
    · simp
      omega
    · rfl
    · rfl
    · rfl
  constructor
  · intro ⟨_, hex⟩ _ rs last hrec hcont hlen
    refine ⟨?_, ?_⟩
    · intro hnil hnone
      subst hnil
      obtain ⟨l', hl', hf⟩ := sdpLoop_fast cmd.length hstart hrec.last
        (by simp [hnone])
      rw [hl', ok_bind] at hex
      exact hf.answered.mp (hex l' (by rw [Option.bind_some, hf.merge]; rfl)) hnone
    · intro cl hcl hroom
      by_cases hfast : rs = [] ∧ cl = 0
      · obtain ⟨rfl, rfl⟩ := hfast
        refine ⟨Nat.zero_le 16, fun _ => rfl, fun _ p hp => ?_⟩
        rw [List.mem_singleton.mp hp]
        rfl
      by_cases hends : cl = 0 ∨ 16 < cl ∨ rs.length = 4
      · have hs : Stops tid env rs last cl := ⟨hrec, hcont, hcl, hends, hlen⟩
        obtain ⟨l', hl', ha⟩ := sdpLoop_reaches h1 h48 hstart hs (fun hnil h0 => hfast ⟨hnil, h0⟩)
          (by omega)
        obtain ⟨l'', hm, hgot, hy⟩ := mergeRsp_some ha hroom
        rw [hl', ok_bind] at hex
        have hans := hex l'' (by rw [Option.bind_some, hm]; rfl)
        rw [hgot, hy] at hans
        obtain ⟨h0, hu⟩ := (answered_iff hs ha).mp hans
        exact ⟨by omega, fun _ => h0, fun _ => hu⟩
      · refine ⟨by omega, fun h4 => absurd (Or.inr (Or.inr h4)) hends, fun h0 => ?_⟩
        exact absurd (Or.inl h0) hends
  · intro hsound
    have hsound := hsound hguard
    apply (sdpLoop_first h1 h48 hstart).elim
    · intro hl
      rw [hl, ok_bind]
      exact ⟨safe_pure _, fun l hl => nomatch hl⟩
    intro h
    apply h.elim
    · intro ⟨p, l', hl', hf⟩
      have hrec : Received tid env ([] ++ [p]) := (received_nil tid env).append hf.accepted
      rw [hl', ok_bind, Option.bind_some, hf.merge]
      refine ⟨safe_pure _, ?_⟩
      intro l hl
      rw [← Option.some.inj (Except.ok.inj hl)]
      exact hf.answered.mpr ((hsound [] p hrec (by simp) (by decide)).1 rfl)
    · intro ⟨init, last, cl, l', hl', ha, hs⟩
      rw [hl', ok_bind, Option.bind_some]
      by_cases hroom : copied (kind (init ++ [last])) (init ++ [last]) ≤ 502
      swap
      · rw [mergeRsp_full ha (by omega)]
        exact ⟨safe_pure _, fun l hl => nomatch hl⟩
      obtain ⟨l'', hm, hgot, hy⟩ := mergeRsp_some ha hroom
      obtain ⟨h16, h4, hu⟩ := (hsound init last hs.received hs.before hs.rounds).2 cl hs.cont hroom
      have h0 : cl = 0 := by
        have := hs.ends
        omega
      rw [hm]
      refine ⟨safe_pure _, ?_⟩
      intro l hl
      rw [← Option.some.inj (Except.ok.inj hl), hgot, hy]
      exact (answered_iff hs ha).mpr ⟨h0, hu h0⟩

/-- Every parser ends within the packet and within the caller's buffer. -/
def ParsersInside (p out : List UInt8) (tid : ℕ) : Prop :=
  Safe (sdpDeLen p 0 p.length) ∧ Safe (sdpContGet p) ∧ Safe (sdpParseSearchRsp p tid) ∧
    Safe (sdpParseAttrPsm p tid) ∧ Safe (sdpParseSsaPsm p tid) ∧ Safe (btAdName p out)

theorem parsersInside_iff (p out : List UInt8) (tid : ℕ) :
    ParsersInside p out tid ↔ (IsAttrRsp p tid → ListsInside p (protoLists p)) := by
  unfold ParsersInside
  rw [sdpParseAttrPsm_safe_iff]
  constructor
  · intro ⟨_, _, _, h, _⟩
    exact h
  · intro h
    exact ⟨(sdpDeLen_ends (Nat.le_of_eq (Nat.zero_add _))).safe, sdpContGet_safe p,
      sdpParseSearchRsp_safe p tid, h, sdpParseSsaPsm_safe p tid, btAdName_safe p out⟩

/-- Any bytes are parsed in bounds if and only if the scans that an attribute list asks for lie in
it, and a round is exact if and only if the responses are sound. -/
theorem parsers_and_round (p out : List UInt8) (tid : ℕ) (cmd : List UInt8)
    (env : ℕ → List (List UInt8)) (st : SdpState) :
    (ParsersInside p out tid ↔ (IsAttrRsp p tid → ListsInside p (protoLists p))) ∧
      (RoundExact tid cmd env st ↔ (1 ≤ cmd.length ∧ cmd.length ≤ 48 → RoundSound tid env)) :=
  ⟨parsersInside_iff p out tid, roundExact_iff tid cmd env st⟩

/-- A response with one byte of payload and a continuation state of seventeen. -/
def longState : List UInt8 :=
  [7, 0, 1, 0, 21, 0, 1, 0, 1, 0x2a, 17] ++ List.replicate 17 0

/-- A protocol list that says six bytes where one is left, and a response whose continuation
state is longer than what is sent back. -/
theorem not_parsers_and_round :
    ¬ParsersInside [5, 0, 1, 0, 10, 0, 7, 0x35, 5, 0x09, 0, 4, 0x35, 6, 0x19] [] 1 ∧
      ¬RoundExact 1 [0] (fun _ => [longState]) ⟨fun _ => 0, 0, false, false, 0⟩ := by
  constructor
  · intro ⟨_, _, _, h, _⟩
    have hrun : sdpParseAttrPsm [5, 0, 1, 0, 10, 0, 7, 0x35, 5, 0x09, 0, 4, 0x35, 6, 0x19] 1 =
        .error .outOfBounds := by decide
    exact not_safe_error _ (hrun ▸ h)
  · intro h
    have hsound := (roundExact_iff 1 [0] _ _).mp h (by decide)
    have hrec : Received 1 (fun _ => [longState]) ([] ++ [longState]) := by
      intro i hi
      have h0 : i = 0 := by simpa using hi
      subst h0
      exact (show accepted 1 [longState] = some longState by decide)
    have h17 := (hsound [] longState hrec (by simp) (by decide)).2 17 (by decide) (by decide)
    exact absurd h17.1 (by decide)

end Xeneva.Bt.Sdp
