import Xeneva.Bt.L2cap

/-!
# PDUs are handed over whole

While a PDU is collected the buffer holds the bytes that came since its start packet. This survives
every fragment, and so the fragment that completes the PDU hands over exactly these bytes.
-/

namespace Xeneva.Bt.L2cap
open Base

variable {handle : ℕ} {s : Acl} {w : Watch} {a : Act} {start : Bool} {data b : List UInt8}

/-- The memory starts with the bytes. -/
def Holds (m : ℕ → UInt8) (b : List UInt8) : Prop := ∀ i < b.length, m i = mem b i

theorem Holds.get16 {m : ℕ → UInt8} (h : Holds m b) {i : ℕ} (hi : i + 1 < b.length) :
    get16 m i = L2cap.get16 (mem b) i := by
  unfold L2cap.get16
  rw [h i (by omega), h (i + 1) hi]

theorem Holds.memcpy {m : ℕ → UInt8} (h : Holds m b) (data : List UInt8) :
    Holds (memcpy m b.length data) (b ++ data) := by
  intro i hi
  rw [List.length_append] at hi
  unfold L2cap.memcpy mem
  by_cases hb : i < b.length
  · rw [if_neg (by omega), List.getD_append b data 0 i hb]
    exact h i hb
  · rw [if_pos (by omega), List.getD_append_right b data 0 i (by omega)]

theorem holds_nil (m : ℕ → UInt8) : Holds m [] := by
  intro i hi
  exact absurd hi (Nat.not_lt_zero i)

theorem Holds.payloadOf {m : ℕ → UInt8} (h : Holds m b) {len : ℕ} (hl : b.length = len + 4) :
    payloadOf m len = b.drop 4 := by
  apply List.ext_getElem
  · rw [List.length_drop, L2cap.payloadOf, List.length_ofFn]
    omega
  · intro i h₁ h₂
    have hi : i < len := by simpa [L2cap.payloadOf] using h₁
    have hm : m (4 + i) = b.getD (4 + i) 0 := h (4 + i) (by omega)
    simp only [L2cap.payloadOf, List.getElem_ofFn, List.getElem_drop]
    rw [hm, List.getD_eq_getElem b 0 (by omega)]

theorem length_payloadOf (m : ℕ → UInt8) (len : ℕ) : (payloadOf m len).length = len :=
  List.length_ofFn

/-! ## What one fragment does -/

/-- How far the assembly is. -/
structure Assembly (s : Acl) (collecting : Option (List UInt8)) (fresh : ℕ) : Prop where
  got_le : s.aclGot ≤ ACL_ASM
  fresh : s.aclNeed = 0 ∨ s.aclGot < s.aclNeed → s.aclGot ≤ fresh
  need : s.aclNeed ≠ 0 → 4 ≤ s.aclGot ∧ s.aclNeed = get16 s.aclAsm 0 + 4
  holds : ∀ b, collecting = some b → s.aclGot = b.length ∧ Holds s.aclAsm b
  short : ∀ b, collecting = some b → b.length < 4 → s.aclNeed = 0
  long : ∀ b, collecting = some b → 4 ≤ b.length → s.aclNeed = get16 (mem b) 0 + 4 ∧
    get16 (mem b) 0 + 4 ≤ ACL_ASM ∧ b.length < get16 (mem b) 0 + 4

/-- The buffer of a PDU that is not collected any more. -/
theorem Assembly.dropped {c : Option (List UInt8)} {fresh fresh' : ℕ} (h : Assembly s c fresh)
    (hf : s.aclNeed = 0 ∨ s.aclGot < s.aclNeed → s.aclGot ≤ fresh') : Assembly s none fresh' where
  got_le := h.got_le
  fresh := hf
  need := h.need
  holds _ hb := by simp at hb
  short _ hb := by simp at hb
  long _ hb := by simp at hb

theorem Assembly.restart (s : Acl) :
    Assembly { s with aclGot := 0, aclNeed := 0 } (some []) 0 where
  got_le := Nat.zero_le _
  fresh _ := Nat.le_refl 0
  need h := absurd rfl h
  holds b h := by
    obtain rfl := Option.some.inj h
    exact ⟨rfl, holds_nil _⟩
  short _ _ _ := rfl
  long b h h4 := by
    obtain rfl := Option.some.inj h
    exact absurd h4 (by decide)

/-- The buffer once a fragment that fits is in it. -/
structure Filled (s' : Acl) (c : Option (List UInt8)) (fresh : ℕ) (data : List UInt8) : Prop where
  got_le : s'.aclGot ≤ ACL_ASM
  fresh : s'.aclGot ≤ fresh + data.length
  need : s'.aclNeed ≠ 0 → 4 ≤ s'.aclGot ∧ s'.aclNeed = get16 s'.aclAsm 0 + 4
  holds : ∀ b, c = some b → s'.aclGot = (b ++ data).length ∧ Holds s'.aclAsm (b ++ data)
  short : ∀ b, c = some b → (b ++ data).length < 4 → s'.aclNeed = 0
  long : ∀ b, c = some b → 4 ≤ (b ++ data).length →
    get16 (mem (b ++ data)) 0 + 4 ≤ ACL_ASM → s'.aclNeed = get16 (mem (b ++ data)) 0 + 4

theorem Assembly.fill {c : Option (List UInt8)} {fresh : ℕ} (h : Assembly s c fresh)
    (hfit : s.aclGot + data.length ≤ ACL_ASM) (hok : FragmentOk s false data) :
    Filled (fill s data) c fresh data := by
  obtain ⟨hopen, hhdr⟩ := hok hfit
  have hfresh := h.fresh hopen
  have hhdr' : s.aclNeed = 0 → 4 ≤ s.aclGot + data.length →
      get16 (memcpy s.aclAsm s.aclGot data) 0 < 2 ^ 16 - 3 := hhdr
  have hholds : ∀ b, c = some b → (L2cap.fill s data).aclGot = (b ++ data).length ∧
      Holds (L2cap.fill s data).aclAsm (b ++ data) := by
    intro b hb
    obtain ⟨hgot, hb'⟩ := h.holds b hb
    constructor
    · rw [List.length_append, ← hgot]
      rfl
    · unfold L2cap.fill
      dsimp only
      rw [hgot]
      exact hb'.memcpy data
  refine ⟨hfit, Nat.add_le_add_right hfresh _, ?_, hholds, ?_, ?_⟩
  · intro hne
    unfold L2cap.fill at hne ⊢
    dsimp only at hne ⊢
    split at hne
    next hnew =>
      rw [if_pos hnew]
      have := hhdr' hnew.1 hnew.2
      omega
    next hold =>
      rw [if_neg hold]
      obtain ⟨h4, heq⟩ := h.need hne
      refine ⟨by omega, ?_⟩
      -- the header is in the buffer already
      rw [heq]
      unfold get16 memcpy
      rw [if_neg (by omega), if_neg (by omega)]
  · intro b hb h4
    have hgot := (h.holds b hb).1
    rw [List.length_append] at h4
    unfold L2cap.fill
    dsimp only
    rw [if_neg (by omega)]
    exact h.short b hb (by omega)
  · intro b hb h4 hmax
    have hgot := (h.holds b hb).1
    have hg : get16 (memcpy s.aclAsm s.aclGot data) 0 = get16 (mem (b ++ data)) 0 :=
      (hholds b hb).2.get16 (by omega)
    rw [List.length_append] at h4
    unfold L2cap.fill
    dsimp only
    by_cases hb4 : b.length < 4
    · rw [if_pos ⟨h.short b hb hb4, by omega⟩, hg]
      apply Nat.mod_eq_of_lt
      unfold ACL_ASM at hmax
      omega
    · obtain ⟨hneed, -, -⟩ := h.long b hb (by omega)
      rw [if_neg (by omega), hneed]
      unfold get16 mem
      rw [List.getD_append b data 0 0 (by omega), List.getD_append b data 0 (0 + 1) (by omega)]

/-- What one fragment does to the assembly, and what it hands over. -/
structure Takes (s : Acl) (c : Option (List UInt8)) (received : ℕ) (start : Bool)
    (data : List UInt8) : Prop where
  bounded : ∀ p, (assemble s start data).2 = some p → p.len + 4 ≤ received
  complete : ∀ b, (collect c start data).2 = some b →
    (assemble s start data).2 = some (pduOf s.chans b)
  incomplete : ∀ b, (collect c start data).1 = some b → (assemble s start data).2 = none
  assembly : Assembly (assemble s start data).1 (collect c start data).1
    (if (assemble s start data).2 = none then received else 0)
  running : ∀ p, (assemble s start data).2 = some p →
    p.payload = payloadOf (assemble s start data).1.aclAsm p.len

theorem classify_fst {b' : List UInt8} (h : (classify b).1 = some b') :
    b' = b ∧ (4 ≤ b.length → get16 (mem b) 0 + 4 ≤ ACL_ASM ∧ b.length < get16 (mem b) 0 + 4) := by
  unfold classify at h
  split at h
  next hs => exact ⟨(Option.some.inj h).symm, fun h4 => absurd hs (by omega)⟩
  next hs =>
    split at h
    · exact nomatch h
    next hmax =>
      split at h
      next hl => exact ⟨(Option.some.inj h).symm, fun _ => ⟨by omega, hl⟩⟩
      next hl => split at h <;> exact nomatch h

theorem classify_snd {b' : List UInt8} (h : (classify b).2 = some b') :
    b' = b ∧ 4 ≤ b.length ∧ get16 (mem b) 0 + 4 ≤ ACL_ASM ∧ b.length = get16 (mem b) 0 + 4 := by
  unfold classify at h
  split at h
  · exact nomatch h
  next hs =>
    split at h
    · exact nomatch h
    next hmax =>
      split at h
      · exact nomatch h
      next hl =>
        split at h
        next he => exact ⟨(Option.some.inj h).symm, by omega, by omega, he⟩
        · exact nomatch h

theorem collect_fst {c : Option (List UInt8)} {b' : List UInt8}
    (h : (collect c false data).1 = some b') :
    ∃ b, c = some b ∧ b' = b ++ data ∧ (4 ≤ (b ++ data).length →
      get16 (mem (b ++ data)) 0 + 4 ≤ ACL_ASM ∧
        (b ++ data).length < get16 (mem (b ++ data)) 0 + 4) := by
  cases c with
  | none => exact nomatch h
  | some b =>
    obtain ⟨rfl, hl⟩ := classify_fst h
    exact ⟨b, rfl, rfl, hl⟩

theorem collect_snd {c : Option (List UInt8)} {b' : List UInt8}
    (h : (collect c false data).2 = some b') :
    ∃ b, c = some b ∧ b' = b ++ data ∧ 4 ≤ (b ++ data).length ∧
      get16 (mem (b ++ data)) 0 + 4 ≤ ACL_ASM ∧
        (b ++ data).length = get16 (mem (b ++ data)) 0 + 4 := by
  cases c with
  | none => exact nomatch h
  | some b =>
    obtain ⟨rfl, hl⟩ := classify_snd h
    exact ⟨b, rfl, rfl, hl⟩

theorem Assembly.full {c : Option (List UInt8)} {fresh : ℕ} (h : Assembly s c fresh)
    (hfull : s.aclGot + data.length > ACL_ASM) : Takes s c (fresh + data.length) false data := by
  have hasm : assemble s false data = (s, none) := if_pos hfull
  -- what is too long for the buffer is no PDU any more
  have hlong : ∀ b, c = some b → ACL_ASM < (b ++ data).length := by
    intro b hb
    rw [List.length_append, ← (h.holds b hb).1]
    exact hfull
  have h1 : (collect c false data).1 = none := by
    rw [Option.eq_none_iff_forall_ne_some]
    intro b' hb'
    obtain ⟨b, hb, -, hl⟩ := collect_fst hb'
    have hB := hlong b hb
    have hsize : ACL_ASM = 1024 := rfl
    have := hl (by omega)
    omega
  have h2 : (collect c false data).2 = none := by
    rw [Option.eq_none_iff_forall_ne_some]
    intro b' hb'
    obtain ⟨b, hb, -, -, hmax, hl⟩ := collect_snd hb'
    have hB := hlong b hb
    omega
  constructor
  · intro p hp
    rw [hasm] at hp
    exact nomatch hp
  · intro b hb
    rw [h2] at hb
    exact nomatch hb
  · intro b hb
    rw [h1] at hb
    exact nomatch hb
  · rw [hasm, h1, if_pos rfl]
    exact h.dropped (fun ho => Nat.le_add_right_of_le (h.fresh ho))
  · intro p hp
    rw [hasm] at hp
    exact nomatch hp

/-- The fragment that fills the buffer as far as is needed. -/
theorem Filled.complete {c : Option (List UInt8)} {fresh : ℕ}
    (h : Filled (fill s data) c fresh data)
    (hfit : s.aclGot + data.length ≤ ACL_ASM)
    (hdone : (fill s data).aclNeed ≠ 0 ∧ (fill s data).aclGot ≥ (fill s data).aclNeed) :
    Takes s c (fresh + data.length) false data := by
  have hasm : assemble s false data =
      ({ fill s data with running := ⟨(fill s data).pdu, false⟩ :: s.running },
        some (fill s data).pdu) := by
    unfold assemble
    rw [if_neg Bool.false_ne_true, if_neg (Nat.not_lt.mpr hfit), if_pos hdone]
    rfl
  obtain ⟨h4, heq⟩ := h.need hdone.1
  -- what the code takes for complete is not collected any more
  have hnone : (collect c false data).1 = none := by
    rw [Option.eq_none_iff_forall_ne_some]
    intro b' hb'
    obtain ⟨b, hb, -, hl⟩ := collect_fst hb'
    have hgot := (h.holds b hb).1
    obtain ⟨hmax, hlt⟩ := hl (by omega)
    have hneed := h.long b hb (by omega) hmax
    omega
  constructor
  · intro p hp
    rw [hasm] at hp
    obtain rfl := Option.some.inj hp
    have hlen : (fill s data).pdu.len = get16 (fill s data).aclAsm 0 := rfl
    have := h.fresh
    omega
  · intro b' hb'
    obtain ⟨b, hb, rfl, hl4, hmax, hl⟩ := collect_snd hb'
    have hall := (h.holds b hb).2
    have h0 : get16 (fill s data).aclAsm 0 = get16 (mem (b ++ data)) 0 := hall.get16 (by omega)
    have h2 : get16 (fill s data).aclAsm 2 = get16 (mem (b ++ data)) 2 := hall.get16 (by omega)
    rw [hasm]
    unfold Acl.pdu pduOf
    dsimp only
    rw [h0, h2, hall.payloadOf hl]
    rfl
  · intro b hb
    rw [hnone] at hb
    exact nomatch hb
  · rw [hasm, hnone, if_neg (Option.some_ne_none _)]
    constructor
    · exact h.got_le
    · intro ho
      exact absurd ho (by simp only []; omega)
    · exact h.need
    · simp
    · simp
    · simp
  · intro p hp
    rw [hasm] at hp ⊢
    obtain rfl := Option.some.inj hp
    rfl

/-- The fragment after which more is needed. -/
theorem Filled.more {c : Option (List UInt8)} {fresh : ℕ}
    (h : Filled (fill s data) c fresh data)
    (hfit : s.aclGot + data.length ≤ ACL_ASM)
    (hmore : ¬((fill s data).aclNeed ≠ 0 ∧ (fill s data).aclGot ≥ (fill s data).aclNeed)) :
    Takes s c (fresh + data.length) false data := by
  have hasm : assemble s false data = (fill s data, none) := by
    unfold assemble
    rw [if_neg Bool.false_ne_true, if_neg (Nat.not_lt.mpr hfit), if_neg hmore]
  constructor
  · intro p hp
    rw [hasm] at hp
    exact nomatch hp
  · intro b' hb'
    obtain ⟨b, hb, -, hl4, hmax, hl⟩ := collect_snd hb'
    have hgot := (h.holds b hb).1
    have hneed := h.long b hb hl4 hmax
    exact absurd ⟨by omega, by omega⟩ hmore
  · intro b hb
    rw [hasm]
  · rw [hasm, if_pos rfl]
    refine ⟨h.got_le, fun _ => h.fresh, h.need, ?_, ?_, ?_⟩
    · intro b' hb'
      obtain ⟨b, hb, rfl, -⟩ := collect_fst hb'
      exact h.holds b hb
    · intro b' hb' hs
      obtain ⟨b, hb, rfl, -⟩ := collect_fst hb'
      exact h.short b hb hs
    · intro b' hb' hl
      obtain ⟨b, hb, rfl, hlong⟩ := collect_fst hb'
      obtain ⟨hmax, hlt⟩ := hlong hl
      exact ⟨h.long b hb hl hmax, hmax, hlt⟩
  · intro p hp
    rw [hasm] at hp
    exact nomatch hp

theorem Assembly.continuation {c : Option (List UInt8)} {fresh : ℕ} (h : Assembly s c fresh)
    (hok : FragmentOk s false data) : Takes s c (fresh + data.length) false data := by
  by_cases hfull : s.aclGot + data.length > ACL_ASM
  · exact h.full hfull
  · have hfit : s.aclGot + data.length ≤ ACL_ASM := Nat.not_lt.mp hfull
    by_cases hdone : (L2cap.fill s data).aclNeed ≠ 0 ∧
        (L2cap.fill s data).aclGot ≥ (L2cap.fill s data).aclNeed
    · exact (h.fill hfit hok).complete hfit hdone
    · exact (h.fill hfit hok).more hfit hdone

/-- A start packet is a continuation of nothing. -/
theorem Assembly.takes {c : Option (List UInt8)} {fresh : ℕ} (h : Assembly s c fresh)
    (hok : FragmentOk s start data) :
    Takes s c ((if start then 0 else fresh) + data.length) start data := by
  cases start with
  | false => exact h.continuation hok
  | true =>
    have hok' : FragmentOk { s with aclGot := 0, aclNeed := 0 } false data := hok
    have ht := (Assembly.restart s).continuation hok'
    exact ⟨ht.bounded, ht.complete, ht.incomplete, ht.assembly, ht.running⟩

/-! ## Runs -/

/-- What the buffer of `poll_usb` keeps of a packet. -/
theorem fragment_take (handle : ℕ) (acl : List UInt8) :
    fragment handle (acl.take USB_BUF) =
      (fragment handle acl).map fun f => (f.1, f.2.take (USB_BUF - 4)) := by
  have hsize : USB_BUF = 512 := rfl
  have hmem : ∀ i < 4, mem (acl.take USB_BUF) i = mem acl i := by
    intro i hi
    unfold mem
    rw [List.getD_eq_getElem?_getD, List.getD_eq_getElem?_getD, List.getElem?_take_of_lt (by omega)]
  have hget : ∀ i < 3, get16 (mem (acl.take USB_BUF)) i = get16 (mem acl) i := by
    intro i hi
    unfold get16
    rw [hmem i (by omega), hmem (i + 1) (by omega)]
  unfold fragment
  dsimp only
  rw [hget 0 (by decide), hget 2 (by decide), List.length_take]
  by_cases hlen : acl.length < 4
  · rw [if_pos hlen, if_pos (by omega), Option.map_none]
  · rw [if_neg hlen, if_neg (by omega)]
    by_cases hh : get16 (mem acl) 0 % 4096 ≠ handle
    · rw [if_pos hh, if_pos hh, Option.map_none]
    · rw [if_neg hh, if_neg hh, Option.map_some, List.drop_take, List.take_take, List.take_take,
        Nat.min_comm]

/-- A packet that fits is taken as the peer sent it. -/
theorem step_packet {acl : List UInt8} (hsent : a.sent = some acl) (hl : w.acl.listens = true)
    (hfit : ∀ f ∈ w.incoming handle a, a.Fits f.2) :
    step handle w.acl a = handed (onAcl handle w.acl.poll acl) := by
  cases a with
  | uart acl' =>
    obtain rfl := Option.some.inj hsent
    exact if_pos hl
  | usb acl' =>
    obtain rfl := Option.some.inj hsent
    have hin : w.incoming handle (.usb acl') = fragment handle acl' := if_pos hl
    have heq : fragment handle (acl'.take USB_BUF) = fragment handle acl' := by
      rw [fragment_take]
      rw [hin] at hfit
      cases hf : fragment handle acl' with
      | none => rfl
      | some f =>
        have hlen : f.2.length + 4 ≤ USB_BUF := hfit f hf
        rw [Option.map_some, List.take_of_length_le (by omega)]
    have hstep : step handle w.acl (.usb acl') =
        handed (onAcl handle w.acl.poll (acl'.take USB_BUF)) := if_pos hl
    rw [hstep]
    unfold onAcl
    rw [heq]
  | read i => exact nomatch hsent
  | ret => exact nomatch hsent
  | channels c => exact nomatch hsent

/-- How far the assembly is, and what the innermost handler still finds in the buffer. Every other
handler has polled. -/
structure Inv (w : Watch) : Prop where
  assembly : Assembly w.acl w.collecting w.fresh
  reading : ∀ f fs, w.acl.running = f :: fs → f.polled = false →
    f.pdu.payload = payloadOf w.acl.aclAsm f.pdu.len
  outer : ∀ f fs, w.acl.running = f :: fs → ∀ g ∈ fs, g.polled = true

theorem inv_init : Inv {} where
  assembly := by
    constructor
    · exact Nat.zero_le _
    · intro _
      exact Nat.le_refl 0
    · intro h
      exact absurd rfl h
    all_goals
      intro b hb
      exact nomatch hb
  reading _ _ h := nomatch h
  outer _ _ h := nomatch h

/-- Polling only marks the innermost handler. -/
theorem Inv.poll (h : Inv w) : ∃ fs, w.acl.poll = { w.acl with running := fs } ∧
    ∀ f ∈ fs, f.polled = true := by
  unfold Acl.poll
  split
  next hr => exact ⟨[], by rw [← hr], fun _ h' => nomatch h'⟩
  next f fs hr =>
    refine ⟨_, rfl, ?_⟩
    intro g hg
    rcases List.mem_cons.mp hg with rfl | hg
    · rfl
    · exact h.outer f fs hr g hg

/-- A step at which no fragment comes in and no handler is called. -/
theorem quiet_step (hin : w.incoming handle a = none)
    (hout : ∀ p, (step handle w.acl a).2 ≠ .handed p)
    (hinv : Inv { w with acl := (step handle w.acl a).1 })
    (hbyte : ∀ i b, a = .read i → (step handle w.acl a).2 = .byte b →
      ∃ f fs, w.acl.running = f :: fs ∧ f.pdu.payload[i]? = some b) :
    Inv (watch handle w a) ∧ Intact handle w a := by
  have hcol : w.collected handle a = (w.collecting, none) := by
    unfold Watch.collected
    rw [hin]
  have hwatch : watch handle w a = { w with acl := (step handle w.acl a).1 } := by
    unfold watch Watch.received
    rw [hcol, hin]
    dsimp only
    split
    next p hp => exact absurd hp (hout p)
    next => rfl
  constructor
  · rw [hwatch]
    exact hinv
  · constructor
    · intro p hp
      exact absurd hp (hout p)
    · intro b hb
      rw [hcol] at hb
      exact nomatch hb
    · intro b hne
      exact absurd hin hne
    · exact hbyte

/-- The assembly does not depend on the handlers that run. -/
theorem Assembly.of_running {c : Option (List UInt8)} {fresh : ℕ} (h : Assembly s c fresh)
    (fs : List Frame) : Assembly { s with running := fs } c fresh :=
  ⟨h.got_le, h.fresh, h.need, h.holds, h.short, h.long⟩

theorem Inv.polled (h : Inv w) : Inv { w with acl := w.acl.poll } := by
  obtain ⟨fs, hfs, hpolled⟩ := h.poll
  constructor
  · dsimp only
    rw [hfs]
    exact h.assembly.of_running fs
  · intro f gs hf hn
    have hf' : fs = f :: gs := by rwa [hfs] at hf
    have hp := hpolled f (hf' ▸ List.mem_cons_self)
    exact absurd (hp.symm.trans hn) (by decide)
  · intro f gs hf g hg
    have hf' : fs = f :: gs := by rwa [hfs] at hf
    exact hpolled g (hf' ▸ List.mem_cons_of_mem f hg)

/-- The part of `assemble` that the handlers see. -/
theorem assemble_running (s : Acl) (start : Bool) (data : List UInt8) :
    (assemble s start data).1.running =
      match (assemble s start data).2 with
      | some p => ⟨p, false⟩ :: s.running
      | none => s.running := by
  unfold assemble
  dsimp only
  have hrun : (if start then { s with aclGot := 0, aclNeed := 0 } else s).running = s.running := by
    split <;> rfl
  generalize (if start then { s with aclGot := 0, aclNeed := 0 } else s) = s₀ at hrun
  split
  · exact hrun
  · split
    · change _ :: s₀.running = _ :: s.running
      rw [hrun]
    · exact hrun

/-- The step of a fragment that goes to the assembly. -/
theorem Inv.arrival (h : Inv w) {f : Bool × List UInt8} (hin : w.incoming handle a = some f)
    (hstep : step handle w.acl a = handed (assemble w.acl.poll f.1 f.2))
    (hread : ∀ i b, a = .read i → (step handle w.acl a).2 = .byte b →
      ∃ f fs, w.acl.running = f :: fs ∧ f.pdu.payload[i]? = some b)
    (hok : FragmentOk w.acl f.1 f.2) : Inv (watch handle w a) ∧ Intact handle w a := by
  obtain ⟨fs, hfs, hpolled⟩ := h.poll
  have hok' : FragmentOk w.acl.poll f.1 f.2 := hfs ▸ hok
  have hchans : w.acl.poll.chans = w.acl.chans := by rw [hfs]
  have hrunning : w.acl.poll.running = fs := by rw [hfs]
  have ht := h.polled.assembly.takes hok'
  have hrun := assemble_running w.acl.poll f.1 f.2
  have hcol : w.collected handle a = collect w.collecting f.1 f.2 := by
    unfold Watch.collected
    rw [hin]
  have hrec : w.received handle a = (if f.1 then 0 else w.fresh) + f.2.length := by
    unfold Watch.received
    rw [hin]
  have hfirst : (step handle w.acl a).1 = (assemble w.acl.poll f.1 f.2).1 := by
    rw [hstep]
    unfold handed
    split <;> rename_i heq <;> rw [heq]
  have hout : ∀ p, (step handle w.acl a).2 = .handed p ↔
      (assemble w.acl.poll f.1 f.2).2 = some p := by
    intro p
    rw [hstep]
    unfold handed
    split <;> rename_i heq <;> rw [heq] <;> simp
  have hfresh : (watch handle w a).fresh =
      if (assemble w.acl.poll f.1 f.2).2 = none then w.received handle a else 0 := by
    unfold watch
    dsimp only
    split
    next p hp => rw [if_neg (by rw [(hout p).mp hp]; exact Option.some_ne_none p)]
    next hp =>
      rw [if_pos]
      rw [Option.eq_none_iff_forall_ne_some]
      intro p hp'
      exact hp p ((hout p).mpr hp')
  constructor
  · constructor
    · rw [hfresh, hrec]
      change Assembly (step handle w.acl a).1 (w.collected handle a).1 _
      rw [hfirst, hcol]
      exact ht.assembly
    · intro g gs hg hn
      change (step handle w.acl a).1.running = g :: gs at hg
      change g.pdu.payload = payloadOf (step handle w.acl a).1.aclAsm g.pdu.len
      rw [hfirst, hrun] at hg
      rw [hfirst]
      cases ho : (assemble w.acl.poll f.1 f.2).2 with
      | none =>
        rw [ho] at hg
        have hfs' : fs = g :: gs := hrunning.symm.trans hg
        have hp := hpolled g (by rw [hfs']; exact List.mem_cons_self)
        exact absurd (hp.symm.trans hn) (by decide)
      | some p =>
        rw [ho] at hg
        obtain ⟨rfl, -⟩ := List.cons.inj hg
        exact ht.running p ho
    · intro g gs hg g' hg'
      change (step handle w.acl a).1.running = g :: gs at hg
      rw [hfirst, hrun] at hg
      cases ho : (assemble w.acl.poll f.1 f.2).2 with
      | none =>
        rw [ho] at hg
        have hfs' : fs = g :: gs := hrunning.symm.trans hg
        exact hpolled g' (by rw [hfs']; exact List.mem_cons_of_mem g hg')
      | some p =>
        rw [ho] at hg
        obtain ⟨-, rfl⟩ := List.cons.inj hg
        exact hpolled g' (hrunning ▸ hg')
  · constructor
    · intro p hp
      rw [hrec]
      exact ht.bounded p ((hout p).mp hp)
    · intro b hb
      rw [hcol] at hb
      rw [hout, ht.complete b hb, hchans]
    · intro b _ hb p hp
      rw [hcol] at hb
      have hnone := ht.incomplete b hb
      rw [(hout p).mp hp] at hnone
      exact nomatch hnone
    · exact hread

/-- The step of a packet. -/
theorem Inv.packet (h : Inv w) {acl : List UInt8} (hsent : a.sent = some acl)
    (hok : ∀ f ∈ w.incoming handle a, a.Fits f.2 ∧ FragmentOk w.acl f.1 f.2) :
    Inv (watch handle w a) ∧ Intact handle w a := by
  have hread : ∀ i b, a = .read i → (step handle w.acl a).2 = .byte b →
      ∃ f fs, w.acl.running = f :: fs ∧ f.pdu.payload[i]? = some b := by
    intro i b ha
    rw [ha] at hsent
    exact nomatch hsent
  by_cases hl : w.acl.listens = true
  · have hstep := step_packet hsent hl fun f hf => (hok f hf).1
    have hin : w.incoming handle a = fragment handle acl := by
      unfold Watch.incoming
      rw [hsent]
      exact if_pos hl
    cases hf : fragment handle acl with
    | none =>
      have hnone : step handle w.acl a = (w.acl.poll, .none) := by
        rw [hstep]
        unfold onAcl
        rw [hf]
        rfl
      apply quiet_step (hin.trans hf)
      · intro p hp
        rw [hnone] at hp
        exact nomatch hp
      · rw [hnone]
        exact h.polled
      · exact hread
    | some f =>
      apply h.arrival (hin.trans hf) _ hread ((hok f (hin.trans hf)).2)
      rw [hstep]
      unfold onAcl
      rw [hf]
  · have hin : w.incoming handle a = none := by
      unfold Watch.incoming
      rw [hsent]
      exact if_neg hl
    have hnone : step handle w.acl a = (w.acl, .none) := by
      cases a with
      | uart => exact if_neg hl
      | usb => exact if_neg hl
      | read => exact nomatch hsent
      | ret => exact nomatch hsent
      | channels => exact nomatch hsent
    apply quiet_step hin
    · intro p hp
      rw [hnone] at hp
      exact nomatch hp
    · rw [hnone]
      exact h
    · exact hread

/-- A handler that returns forgets no bytes of a PDU that is not complete. -/
theorem Assembly.returned {c : Option (List UInt8)} {fresh : ℕ} (h : Assembly s c fresh)
    (fs : List Frame) (hret : s.aclGot ≠ 0 → s.aclNeed ≠ 0 ∧ s.aclGot ≥ s.aclNeed) :
    Assembly { s with running := fs, aclGot := 0, aclNeed := 0 } c fresh := by
  have hzero : ∀ b, c = some b → b.length = 0 := by
    intro b hb
    have hgot := (h.holds b hb).1
    by_contra hne
    obtain ⟨hneed, hge⟩ := hret (by omega)
    by_cases h4 : b.length < 4
    · exact hneed (h.short b hb h4)
    · have := h.long b hb (by omega)
      omega
  constructor
  · exact Nat.zero_le _
  · intro _
    exact Nat.zero_le _
  · intro hne
    exact absurd rfl hne
  · intro b hb
    refine ⟨(hzero b hb).symm, ?_⟩
    intro i hi
    have := hzero b hb
    omega
  · intro _ _ _
    rfl
  · intro b hb h4
    have := hzero b hb
    omega

theorem Inv.step (h : Inv w) (hok : StepOk handle w a) :
    Inv (watch handle w a) ∧ Intact handle w a := by
  cases a with
  | uart acl => exact h.packet rfl hok.1
  | usb acl => exact h.packet rfl hok.1
  | read i =>
    have hstate : (L2cap.step handle w.acl (.read i)).1 = w.acl := by
      unfold L2cap.step
      dsimp only
      split
      · split <;> rfl
      · rfl
    apply quiet_step rfl
    · intro p hp
      unfold L2cap.step at hp
      dsimp only at hp
      split at hp
      · split at hp <;> exact nomatch hp
      · exact nomatch hp
    · rw [hstate]
      exact h
    · intro j b hj hb
      obtain rfl := Act.read.inj hj
      unfold L2cap.step at hb
      dsimp only at hb
      split at hb
      next p fs hr =>
        split at hb
        next hi =>
          refine ⟨_, fs, hr, ?_⟩
          have hp : p.payload = payloadOf w.acl.aclAsm p.len := h.reading _ fs hr rfl
          dsimp only
          rw [hp, ← Out.byte.inj hb, List.getElem?_eq_getElem (by rwa [length_payloadOf])]
          simp [payloadOf]
        next => exact nomatch hb
      next => exact nomatch hb
  | ret =>
    apply quiet_step rfl
    · intro p hp
      unfold L2cap.step at hp
      dsimp only at hp
      split at hp <;> exact nomatch hp
    · unfold L2cap.step
      dsimp only
      split
      next => exact h
      next f fs hr =>
        have hret := hok.2 rfl (by rw [hr]; exact List.cons_ne_nil f fs)
        constructor
        · exact h.assembly.returned fs hret
        · intro g gs hg hn
          have hp := h.outer f fs hr g (by rw [show fs = g :: gs from hg]; exact List.mem_cons_self)
          exact absurd (hp.symm.trans hn) (by decide)
        · intro g gs hg g' hg'
          have hfs : fs = g :: gs := hg
          exact h.outer f fs hr g' (by rw [hfs]; exact List.mem_cons_of_mem g hg')
    · intro i b hi
      exact nomatch hi
  | channels c =>
    apply quiet_step rfl
    · intro p hp
      exact nomatch hp
    · exact ⟨⟨h.assembly.got_le, h.assembly.fresh, h.assembly.need, h.assembly.holds,
        h.assembly.short, h.assembly.long⟩, h.reading, h.outer⟩
    · intro i b hi
      exact nomatch hi

/-- In a run whose packets fit and whose headers say no length that wraps, in which no continuation
comes in while a handler's PDU is all that the buffer holds, and no handler returns while a PDU is
partly in, every step hands over what it should and nothing else. -/
theorem exec_intact (handle : ℕ) (as : List Act)
    (h : Respects (StepOk handle) (watch handle) {} as) :
    Respects (Intact handle) (watch handle) {} as :=
  h.imp (fun _ _ hi hok => hi.step hok) inv_init

/-- A request on the signaling channel, in two fragments; a second request comes in whole while the
handler answers the first. -/
def twoRequests : List Act :=
  [.uart [1, 0x20, 8, 0, 6, 0, 1, 0, 10, 1, 2, 0], .read 0, .uart [1, 0x10, 2, 0, 2, 0], .read 0,
    .usb [1, 0x20, 10, 0, 6, 0, 1, 0, 10, 2, 2, 0, 3, 0], .read 1, .ret, .ret]

theorem exec_intact_two : Respects (Intact 1) (watch 1) {} twoRequests :=
  exec_intact 1 twoRequests (by decide +kernel)

/-- A PDU that starts while the handler of another polls, and goes on when that handler is back. -/
def lostRequest : List Act :=
  [.uart [1, 0x20, 10, 0, 6, 0, 1, 0, 10, 1, 2, 0, 2, 0], .uart [1, 0x20, 4, 0, 2, 0, 4, 0], .ret,
    .uart [1, 0x10, 2, 0, 5, 6]]

/-- An empty continuation while the handler of a PDU polls. -/
def repeatedRequest : List Act :=
  [.uart [1, 0x20, 10, 0, 6, 0, 1, 0, 10, 1, 2, 0, 2, 0], .uart [1, 0x10, 0, 0]]

/-- A header that says 65533 bytes. -/
def wrappedLength : List Act := [.uart [1, 0x20, 4, 0, 0xfd, 0xff, 4, 0]]

/-- The first is not handed over, the second twice, and the third with all the bytes it says. -/
theorem not_exec_intact :
    ¬Respects (Intact 1) (watch 1) {} lostRequest ∧
      ¬Respects (Intact 1) (watch 1) {} repeatedRequest ∧
        ¬Respects (Intact 1) (watch 1) {} wrappedLength := by
  refine ⟨?_, ?_, ?_⟩
  · intro h
    have hd := h.2.2.2.1.complete [2, 0, 4, 0, 5, 6] (by decide +kernel)
    exact absurd hd (by decide +kernel)
  · intro h
    have hd := h.2.1.bounded ⟨.onL2capSig, 6, [10, 1, 2, 0, 2, 0]⟩ (by decide +kernel)
    exact absurd hd (by decide +kernel)
  · intro h
    cases ho : (step 1 {} (.uart [1, 0x20, 4, 0, 0xfd, 0xff, 4, 0])).2 with
    | none => exact nomatch ho
    | byte b => exact nomatch ho
    | handed p =>
      have hd := h.1.bounded p ho
      obtain rfl := Out.handed.inj ho
      exact absurd hd (by decide)

end Xeneva.Bt.L2cap
