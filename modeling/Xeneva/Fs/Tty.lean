import Xeneva.Net.CircFifo

/-!
# Terminals

A terminal has a ring for each direction. System calls run with interrupts masked, so a call is one
step. A session keeps, beside the terminal, the bytes each side was told it had sent and those
it was given.
-/

namespace Xeneva.Fs.Tty

open Base Net

structure TTY where
  masterbuf : CircBuffer
  slavebuf : CircBuffer
  master_written : ℕ
  slave_written : ℕ

def auTTYCreate : TTY where
  masterbuf := auCircBufInitialise (fun _ => 0) 1024
  slavebuf := auCircBufInitialise (fun _ => 0) 1024
  master_written := 0
  slave_written := 0

/-- What a call returns, and what it stores at each place of the caller's buffer it goes over. -/
structure Reply where
  ret : ℕ
  stored : List (Option UInt8)

def Reply.bytes (r : Reply) : List UInt8 := r.stored.reduceOption

/-- A loop of puts that does not look at what they return. -/
def puts (c : CircBuffer) (src : List UInt8) : CircBuffer :=
  src.foldl (fun c b => (auCircBufPut c b).1) c

/-- A loop of gets that does not look at what they return. -/
def gets : ℕ → CircBuffer → CircBuffer × List (Option UInt8)
  | 0, c => (c, [])
  | n + 1, c =>
    let r := auCircBufGet c
    let rest := gets n r.1
    (rest.1, r.2 :: rest.2)

/-- The length of the caller's buffer is not looked at. -/
def auTTYMasterRead (t : TTY) (_len : ℕ) : TTY × Reply :=
  if circBufEmpty t.masterbuf then (t, ⟨0, []⟩)
  else
    let r := gets t.master_written t.masterbuf
    ({ t with masterbuf := r.1, master_written := 0 }, ⟨t.master_written, r.2⟩)

def auTTYMasterWrite (t : TTY) (src : List UInt8) : TTY × Reply :=
  ({ t with slavebuf := puts t.slavebuf src }, ⟨src.length, []⟩)

def auTTYSlaveRead (t : TTY) (len : ℕ) : TTY × Reply :=
  let r := gets len t.slavebuf
  ({ t with slavebuf := r.1 }, ⟨1, r.2⟩)

def auTTYSlaveWrite (t : TTY) (src : List UInt8) : TTY × Reply :=
  let src := src.take 1024
  -- the slave sleeps for a while and is told that nothing was written
  if circBufFull t.masterbuf then (t, ⟨0, []⟩)
  else
    ({ t with
      masterbuf := puts t.masterbuf src
      master_written := t.master_written + src.length }, ⟨src.length, []⟩)

inductive TtyOp
  | masterRead (len : ℕ)
  | masterWrite (src : List UInt8)
  | slaveRead (len : ℕ)
  | slaveWrite (src : List UInt8)

def call (t : TTY) : TtyOp → TTY × Reply
  | .masterRead len => auTTYMasterRead t len
  | .masterWrite src => auTTYMasterWrite t src
  | .slaveRead len => auTTYSlaveRead t len
  | .slaveWrite src => auTTYSlaveWrite t src

structure Session where
  tty : TTY
  masterSent : List UInt8
  slaveGot : List UInt8
  slaveSent : List UInt8
  masterGot : List UInt8

def start : Session := ⟨auTTYCreate, [], [], [], []⟩

/-- A call, and what it tells: a write has sent as many bytes as it returns. -/
def step (s : Session) (op : TtyOp) : Session :=
  let r := call s.tty op
  let s := { s with tty := r.1 }
  match op with
  | .masterRead _ => { s with masterGot := s.masterGot ++ r.2.bytes }
  | .masterWrite src => { s with masterSent := s.masterSent ++ src.take r.2.ret }
  | .slaveRead _ => { s with slaveGot := s.slaveGot ++ r.2.bytes }
  | .slaveWrite src => { s with slaveSent := s.slaveSent ++ src.take r.2.ret }

/-- The length that a read asks for. -/
def TtyOp.readLen : TtyOp → Option ℕ
  | .masterRead len => some len
  | .slaveRead len => some len
  | _ => none

/-- What has been sent and not been read waits in the rings, in order. -/
structure InOrder (s : Session) : Prop where
  toSlave : s.masterSent = s.slaveGot ++ s.tty.slavebuf.contents
  toMaster : s.slaveSent = s.masterGot ++ s.tty.masterbuf.contents

/-- What a call is meant to do, the counter of the slave's bytes apart. -/
structure Fine (s : Session) (op : TtyOp) : Prop where
  read : ∀ len, op.readLen = some len →
    (call s.tty op).2.bytes.length ≤ len ∧ (call s.tty op).2.ret = (call s.tty op).2.bytes.length
  order : InOrder (step s op)
  pending : (step s op).tty.master_written = auCircBufSize (step s op).tty.masterbuf

/-- The counter of the slave's bytes included. -/
def FineBoth (s : Session) (op : TtyOp) : Prop :=
  Fine s op ∧ (step s op).tty.slave_written = auCircBufSize (step s op).tty.slavebuf

/-- The calls for which the lengths are right: a read of the master has room for all that waits, a
read of the slave gets one byte, and a write fits, or finds the ring of the master full. -/
def Fits (s : Session) : TtyOp → Prop
  | .masterRead len => auCircBufSize s.tty.masterbuf ≤ len
  | .masterWrite src => src.length + auCircBufSize s.tty.slavebuf ≤ 1024
  | .slaveRead len => min len (auCircBufSize s.tty.slavebuf) = 1
  | .slaveWrite src => auCircBufSize s.tty.masterbuf = 1024 ∨
      min src.length 1024 + auCircBufSize s.tty.masterbuf ≤ 1024

/-- Of these, those that do not need the counter of the slave's bytes. -/
def FitsBoth (s : Session) : TtyOp → Prop
  | .masterWrite src => src = []
  | .slaveRead _ => False
  | op => Fits s op

variable {c : CircBuffer} {k n : ℕ} {s : Session} {op : TtyOp}

theorem puts_of_full (h : circBufFull c = true) (src : List UInt8) : puts c src = c := by
  induction src with
  | nil => rfl
  | cons b src ih =>
    have hput : auCircBufPut c b = (c, -1) := by
      unfold auCircBufPut
      rw [h]
      rfl
    unfold puts at ih ⊢
    rw [List.foldl_cons, hput, ih]

/-- What does not fit is lost. -/
theorem puts_eq (h : c.WF) (src : List UInt8)
    (hk : k = min src.length (c.max - auCircBufSize c)) : puts c src = c.appended (src.take k) := by
  have hstop : ∀ c, puts c src = (putEach c src).1 := by
    clear hk h
    induction src with
    | nil => exact fun _ => rfl
    | cons b src ih =>
      intro c
      have hcons : puts c (b :: src) = puts (auCircBufPut c b).1 src := rfl
      rw [hcons]
      unfold putEach
      by_cases hfull : circBufFull c = true
      · have hput : auCircBufPut c b = (c, -1) := by
          unfold auCircBufPut
          rw [hfull]
          rfl
        rw [hput]
        exact puts_of_full hfull src
      · have hput : (auCircBufPut c b).2 = 0 := by
          unfold auCircBufPut
          rw [Bool.eq_false_iff.mpr hfull]
          rfl
        dsimp only
        rw [if_neg (not_not.mpr hput)]
        exact ih _
  rw [hstop, h.putEach_eq src hk]

theorem gets_of_none (h : auCircBufGet c = (c, none)) (n : ℕ) :
    gets n c = (c, List.replicate n none) := by
  induction n with
  | zero => rfl
  | succ n ih =>
    unfold gets
    rw [h]
    dsimp only
    rw [ih]
    rfl

/-- The bytes come first, and no byte is stored behind them. -/
theorem gets_eq (h : c.WF) (n : ℕ) (hk : k = min n (auCircBufSize c)) :
    (gets n c).1 = c.taken k ∧ (gets n c).2.reduceOption = c.contents.take n := by
  have hstop : ∀ c, (gets n c).1 = (getEach c n).1 ∧
      (gets n c).2.reduceOption = (getEach c n).2 := by
    clear hk h
    induction n with
    | zero => exact fun _ => ⟨rfl, rfl⟩
    | succ n ih =>
      intro c
      cases hg : auCircBufGet c with
      | mk c' b =>
        cases b with
        | none =>
          have hc : c' = c := by
            unfold auCircBufGet at hg
            split_ifs at hg
            · cases congrArg Prod.snd hg
            · exact (congrArg Prod.fst hg).symm
          subst hc
          rw [gets_of_none hg]
          unfold getEach
          rw [hg]
          exact ⟨rfl, List.reduceOption_replicate_none⟩
        | some b =>
          obtain ⟨h1, h2⟩ := ih c'
          unfold gets getEach
          rw [hg]
          refine ⟨h1, ?_⟩
          dsimp only
          rw [List.reduceOption_cons_of_some, h2]
  obtain ⟨h1, h2⟩ := hstop c
  rw [h1, h2, h.getEach_eq n hk]
  exact ⟨rfl, rfl⟩

/-! ## Sessions that keep the bytes -/

structure SessionInv (s : Session) : Prop where
  master : s.tty.masterbuf.WF
  slave : s.tty.slavebuf.WF
  masterMax : s.tty.masterbuf.max = 1024
  slaveMax : s.tty.slavebuf.max = 1024
  order : InOrder s
  pending : s.tty.master_written = auCircBufSize s.tty.masterbuf
  uncounted : s.tty.slave_written = 0

theorem sessionInv_start : SessionInv start where
  master := CircBuffer.wf_initialise _ (by decide)
  slave := CircBuffer.wf_initialise _ (by decide)
  masterMax := rfl
  slaveMax := rfl
  order := ⟨rfl, rfl⟩
  pending := rfl
  uncounted := rfl

theorem SessionInv.masterRead (h : SessionInv s) (len : ℕ) :
    ∃ stored : List (Option UInt8), stored.reduceOption = s.tty.masterbuf.contents ∧
      auTTYMasterRead s.tty len = ({ s.tty with
        masterbuf := s.tty.masterbuf.taken (auCircBufSize s.tty.masterbuf)
        master_written := 0 }, ⟨auCircBufSize s.tty.masterbuf, stored⟩) := by
  have hlen := s.tty.masterbuf.contents_length
  unfold auTTYMasterRead
  by_cases he : auCircBufSize s.tty.masterbuf = 0
  · have hnil : s.tty.masterbuf.contents = [] :=
      List.eq_nil_of_length_eq_zero (by rw [hlen, he])
    have hsame : s.tty = { s.tty with master_written := 0 } := by
      rw [← h.pending.trans he]
    rw [if_pos (h.master.empty_iff.mpr he), he, h.master.taken_zero, ← hsame, hnil]
    exact ⟨[], rfl, rfl⟩
  · obtain ⟨hc, hb⟩ := gets_eq h.master (auCircBufSize s.tty.masterbuf)
      (Nat.min_self (auCircBufSize s.tty.masterbuf)).symm
    rw [← hlen, List.take_length, hlen] at hb
    rw [if_neg (mt h.master.empty_iff.mp he), h.pending]
    dsimp only
    rw [hc]
    exact ⟨_, hb, rfl⟩

theorem SessionInv.slaveRead (h : SessionInv s) (len : ℕ) :
    ∃ stored : List (Option UInt8), stored.reduceOption = s.tty.slavebuf.contents.take len ∧
      auTTYSlaveRead s.tty len = ({ s.tty with
        slavebuf := s.tty.slavebuf.taken (min len (auCircBufSize s.tty.slavebuf)) },
        ⟨1, stored⟩) := by
  obtain ⟨hc, hb⟩ := gets_eq h.slave len rfl
  unfold auTTYSlaveRead
  dsimp only
  rw [hc]
  exact ⟨_, hb, rfl⟩

theorem SessionInv.masterWrite (h : SessionInv s) (src : List UInt8) :
    auTTYMasterWrite s.tty src = ({ s.tty with
      slavebuf := s.tty.slavebuf.appended
        (src.take (min src.length (1024 - auCircBufSize s.tty.slavebuf))) },
      ⟨src.length, []⟩) := by
  unfold auTTYMasterWrite
  rw [puts_eq h.slave src rfl, h.slaveMax]

theorem SessionInv.slaveWrite (h : SessionInv s) (src : List UInt8)
    (hroom : auCircBufSize s.tty.masterbuf ≠ 1024) :
    auTTYSlaveWrite s.tty src = ({ s.tty with
      masterbuf := s.tty.masterbuf.appended ((src.take 1024).take
        (min (src.take 1024).length (1024 - auCircBufSize s.tty.masterbuf)))
      master_written := auCircBufSize s.tty.masterbuf + (src.take 1024).length },
      ⟨(src.take 1024).length, []⟩) := by
  have hfull : ¬ circBufFull s.tty.masterbuf = true := by
    rw [h.master.full_iff, h.masterMax]
    exact hroom
  unfold auTTYSlaveWrite
  dsimp only
  rw [if_neg hfull, puts_eq h.master _ rfl, h.masterMax, h.pending]

theorem SessionInv.slaveWrite_full (h : SessionInv s) (src : List UInt8)
    (hfull : auCircBufSize s.tty.masterbuf = 1024) :
    auTTYSlaveWrite s.tty src = (s.tty, ⟨0, []⟩) := by
  have hf : circBufFull s.tty.masterbuf = true := by
    rw [h.master.full_iff, h.masterMax]
    exact hfull
  unfold auTTYSlaveWrite
  dsimp only
  rw [if_pos hf]

/-- A text that is told to have been sent waits whole when it fits, and else it does not. -/
theorem appended_fits_iff (h : c.WF) (hmax : c.max = 1024) (src : List UInt8)
    {sent got : List UInt8} (ho : sent = got ++ c.contents) :
    sent ++ src =
        got ++ (c.appended (src.take (min src.length (1024 - auCircBufSize c)))).contents ↔
      src.length + auCircBufSize c ≤ 1024 := by
  have hsz := h.size_le
  obtain ⟨-, hcont, -⟩ := h.appended_spec (src.take (min src.length (1024 - auCircBufSize c)))
    (by rw [List.length_take]; omega)
  rw [hcont, ho, List.append_assoc, List.append_cancel_left_eq, List.append_cancel_left_eq]
  constructor
  · intro he
    have hl := congrArg List.length he
    rw [List.length_take] at hl
    omega
  · intro hfit
    rw [List.take_of_length_le (by omega)]

/-! ## One call -/

/-- What a step lemma says of a call. -/
def Exact (s : Session) (op : TtyOp) : Prop :=
  (Fits s op → SessionInv (step s op)) ∧ (Fine s op ↔ Fits s op)

theorem exact_masterRead (h : SessionInv s) (len : ℕ) : Exact s (.masterRead len) := by
  obtain ⟨stored, hb, hr⟩ := h.masterRead len
  have hlen := s.tty.masterbuf.contents_length
  have hs : step s (.masterRead len) = { s with
      tty := { s.tty with
        masterbuf := s.tty.masterbuf.taken (auCircBufSize s.tty.masterbuf)
        master_written := 0 }
      masterGot := s.masterGot ++ s.tty.masterbuf.contents } := by
    dsimp only [step, call]
    rw [hr, ← hb]
    rfl
  obtain ⟨hwf, hcont, hsize⟩ := h.master.taken_spec (Nat.le_refl _)
  rw [← hlen, List.drop_length] at hcont
  rw [Nat.sub_self] at hsize
  have hinv : SessionInv (step s (.masterRead len)) := by
    rw [hs]
    refine ⟨hwf, h.slave, h.masterMax, h.slaveMax, ⟨h.order.toSlave, ?_⟩, hsize.symm, h.uncounted⟩
    dsimp only
    rw [← hlen, hcont, List.append_nil, h.order.toMaster]
  refine ⟨fun _ => hinv, ?_⟩
  have hret : (call s.tty (.masterRead len)).2 = ⟨auCircBufSize s.tty.masterbuf, stored⟩ :=
    congrArg Prod.snd hr
  constructor
  · intro hf
    have hle := (hf.read len rfl).1
    rwa [hret, Reply.bytes, hb, hlen] at hle
  · intro hle
    refine ⟨fun l hl => ?_, hinv.order, hinv.pending⟩
    cases hl
    rw [hret, Reply.bytes, hb, hlen]
    exact ⟨hle, rfl⟩

theorem exact_slaveRead (h : SessionInv s) (len : ℕ) : Exact s (.slaveRead len) := by
  obtain ⟨stored, hb, hr⟩ := h.slaveRead len
  have hlen := s.tty.slavebuf.contents_length
  have hs : step s (.slaveRead len) = { s with
      tty := { s.tty with
        slavebuf := s.tty.slavebuf.taken (min len (auCircBufSize s.tty.slavebuf)) }
      slaveGot := s.slaveGot ++ s.tty.slavebuf.contents.take len } := by
    dsimp only [step, call]
    rw [hr, ← hb]
    rfl
  obtain ⟨hwf, hcont, -⟩ := h.slave.taken_spec (Nat.min_le_right len _)
  have hinv : SessionInv (step s (.slaveRead len)) := by
    rw [hs]
    refine ⟨h.master, hwf, h.masterMax, h.slaveMax, ⟨?_, h.order.toMaster⟩, h.pending, h.uncounted⟩
    dsimp only
    have hdrop : s.tty.slavebuf.contents.drop (min len (auCircBufSize s.tty.slavebuf)) =
        s.tty.slavebuf.contents.drop len := by
      rw [List.drop_eq_drop_iff, hlen, Nat.min_assoc, Nat.min_self]
    rw [hcont, hdrop, h.order.toSlave, List.append_assoc, List.take_append_drop]
  refine ⟨fun _ => hinv, ?_⟩
  have hret : (call s.tty (.slaveRead len)).2 = ⟨1, stored⟩ := congrArg Prod.snd hr
  have hbytes : (⟨1, stored⟩ : Reply).bytes.length = min len (auCircBufSize s.tty.slavebuf) := by
    rw [Reply.bytes, hb, List.length_take, hlen]
  constructor
  · intro hf
    have hone := (hf.read len rfl).2
    rw [hret, hbytes] at hone
    exact hone.symm
  · intro hone
    refine ⟨fun l hl => ?_, hinv.order, hinv.pending⟩
    cases hl
    rw [hret, hbytes]
    exact ⟨Nat.min_le_left _ _, Eq.symm hone⟩

theorem exact_masterWrite (h : SessionInv s) (src : List UInt8) : Exact s (.masterWrite src) := by
  have hw := h.masterWrite src
  have hs : step s (.masterWrite src) = { s with
      tty := { s.tty with
        slavebuf := s.tty.slavebuf.appended
          (src.take (min src.length (1024 - auCircBufSize s.tty.slavebuf))) }
      masterSent := s.masterSent ++ src } := by
    dsimp only [step, call]
    rw [hw]
    dsimp only
    rw [List.take_length]
  have hfits := appended_fits_iff h.slave h.slaveMax src h.order.toSlave
  obtain ⟨hwf, -, -⟩ := h.slave.appended_spec
    (src.take (min src.length (1024 - auCircBufSize s.tty.slavebuf)))
    (by rw [List.length_take, h.slaveMax]; have := h.slave.size_le; have := h.slaveMax; omega)
  have hinv : Fits s (.masterWrite src) → SessionInv (step s (.masterWrite src)) := by
    intro hfit
    rw [hs]
    exact ⟨h.master, hwf, h.masterMax, h.slaveMax, ⟨hfits.mpr hfit, h.order.toMaster⟩, h.pending,
      h.uncounted⟩
  refine ⟨hinv, fun hf => ?_, fun hfit => ⟨?_, (hinv hfit).order, (hinv hfit).pending⟩⟩
  · have ho := hf.order.toSlave
    rw [hs] at ho
    exact hfits.mp ho
  · intro l hl
    cases hl

theorem exact_slaveWrite (h : SessionInv s) (src : List UInt8) : Exact s (.slaveWrite src) := by
  by_cases hroom : auCircBufSize s.tty.masterbuf = 1024
  · have hw := h.slaveWrite_full src hroom
    have hs : step s (.slaveWrite src) = s := by
      dsimp only [step, call]
      rw [hw]
      dsimp only
      rw [List.take_zero, List.append_nil]
    have hinv : SessionInv (step s (.slaveWrite src)) := by
      rw [hs]
      exact h
    refine ⟨fun _ => hinv, fun _ => .inl hroom, fun _ => ⟨?_, hinv.order, hinv.pending⟩⟩
    intro l hl
    cases hl
  · have hw := h.slaveWrite src hroom
    generalize hsrc : src.take 1024 = src' at hw
    have hs : step s (.slaveWrite src) = { s with
        tty := { s.tty with
          masterbuf := s.tty.masterbuf.appended
            (src'.take (min src'.length (1024 - auCircBufSize s.tty.masterbuf)))
          master_written := auCircBufSize s.tty.masterbuf + src'.length }
        slaveSent := s.slaveSent ++ src' } := by
      dsimp only [step, call]
      rw [hw]
      dsimp only
      rw [← hsrc, List.length_take, ← List.take_eq_take_min]
    have hsz := h.master.size_le
    have hmax := h.masterMax
    have hfits := appended_fits_iff h.master h.masterMax src' h.order.toMaster
    obtain ⟨hwf, -, hsize⟩ := h.master.appended_spec
      (src'.take (min src'.length (1024 - auCircBufSize s.tty.masterbuf)))
      (by rw [List.length_take]; omega)
    have hlen : src'.length = min src.length 1024 := by
      rw [← hsrc, List.length_take, Nat.min_comm]
    have hinv : Fits s (.slaveWrite src) → SessionInv (step s (.slaveWrite src)) := by
      rintro (hfull | hfit)
      · exact absurd hfull hroom
      · rw [hs]
        refine ⟨hwf, h.slave, h.masterMax, h.slaveMax,
          ⟨h.order.toSlave, hfits.mpr (hlen ▸ hfit)⟩, ?_, h.uncounted⟩
        dsimp only
        rw [hsize, List.length_take]
        omega
    refine ⟨hinv, fun hf => ?_, fun hfit => ⟨?_, (hinv hfit).order, (hinv hfit).pending⟩⟩
    · have ho := hf.order.toMaster
      rw [hs] at ho
      exact .inr (hlen ▸ hfits.mp ho)
    · intro l hl
      cases hl

theorem SessionInv.exact (h : SessionInv s) : Exact s op := by
  cases op with
  | masterRead len => exact exact_masterRead h len
  | masterWrite src => exact exact_masterWrite h src
  | slaveRead len => exact exact_slaveRead h len
  | slaveWrite src => exact exact_slaveWrite h src

/-- Nothing counts the bytes that wait for the slave. -/
theorem step_slave_written (s : Session) (op : TtyOp) :
    (step s op).tty.slave_written = s.tty.slave_written := by
  cases op with
  | masterRead len =>
    dsimp only [step, call, auTTYMasterRead]
    split_ifs <;> rfl
  | masterWrite src => rfl
  | slaveRead len => rfl
  | slaveWrite src =>
    dsimp only [step, call, auTTYSlaveWrite]
    split_ifs <;> rfl

theorem step_masterRead_slavebuf (s : Session) (len : ℕ) :
    (step s (.masterRead len)).tty.slavebuf = s.tty.slavebuf := by
  dsimp only [step, call, auTTYMasterRead]
  split_ifs <;> rfl

theorem step_slaveWrite_slavebuf (s : Session) (src : List UInt8) :
    (step s (.slaveWrite src)).tty.slavebuf = s.tty.slavebuf := by
  dsimp only [step, call, auTTYSlaveWrite]
  split_ifs <;> rfl

/-- The counter is right where no byte waits. -/
theorem SessionInv.fineBoth_iff (h : SessionInv s) :
    FineBoth s op ↔ Fits s op ∧ auCircBufSize (step s op).tty.slavebuf = 0 := by
  unfold FineBoth
  rw [h.exact.2, step_slave_written, h.uncounted, eq_comm (a := 0)]

theorem SessionInv.exactBoth (h : SessionInv s) (hnone : auCircBufSize s.tty.slavebuf = 0) :
    (FitsBoth s op → Fits s op ∧ auCircBufSize (step s op).tty.slavebuf = 0) ∧
      (FineBoth s op ↔ FitsBoth s op) := by
  rw [h.fineBoth_iff]
  cases op with
  | masterRead len =>
    rw [step_masterRead_slavebuf]
    exact ⟨fun hfit => ⟨hfit, hnone⟩, fun hfit => hfit.1, fun hfit => ⟨hfit, hnone⟩⟩
  | slaveWrite src =>
    rw [step_slaveWrite_slavebuf]
    exact ⟨fun hfit => ⟨hfit, hnone⟩, fun hfit => hfit.1, fun hfit => ⟨hfit, hnone⟩⟩
  | slaveRead len =>
    refine ⟨False.elim, fun hfit => ?_, False.elim⟩
    have hone : min len (auCircBufSize s.tty.slavebuf) = 1 := hfit.1
    rw [hnone, Nat.min_zero] at hone
    cases hone
  | masterWrite src =>
    have hwaits : Fits s (.masterWrite src) →
        auCircBufSize (step s (.masterWrite src)).tty.slavebuf = src.length := by
      intro hfit
      have ho := (h.exact.1 hfit).order.toSlave
      have hnil : s.tty.slavebuf.contents = [] :=
        List.eq_nil_of_length_eq_zero (by rw [CircBuffer.contents_length, hnone])
      have hsent : (step s (.masterWrite src)).masterSent = s.masterSent ++ src := by
        dsimp only [step, call, auTTYMasterWrite]
        rw [List.take_length]
      have hgot : (step s (.masterWrite src)).slaveGot = s.slaveGot := rfl
      rw [hsent, hgot, h.order.toSlave, hnil, List.append_nil, List.append_cancel_left_eq] at ho
      rw [← CircBuffer.contents_length, ← ho]
    have hempty : src = [] → Fits s (.masterWrite src) ∧
        auCircBufSize (step s (.masterWrite src)).tty.slavebuf = 0 := by
      intro hsrc
      have hfit : Fits s (.masterWrite src) := by
        dsimp only [Fits]
        rw [hsrc, hnone]
        decide
      refine ⟨hfit, ?_⟩
      rw [hwaits hfit, hsrc]
      rfl
    refine ⟨hempty, fun ⟨hfit, hzero⟩ => ?_, hempty⟩
    exact List.eq_nil_of_length_eq_zero ((hwaits hfit).symm.trans hzero)

/-- In a run every call does what it is meant to do exactly when the lengths are right in every
call; with the counter of the slave's bytes, exactly when besides nothing is sent to the slave. -/
theorem tty_run (ops : List TtyOp) :
    (Respects Fine step start ops ↔ Respects Fits step start ops) ∧
    (Respects FineBoth step start ops ↔ Respects FitsBoth step start ops) := by
  have hempty : auCircBufSize start.tty.slavebuf = 0 := rfl
  refine ⟨⟨?_, ?_⟩, ?_, ?_⟩
  · apply Respects.imp (I := SessionInv) _ sessionInv_start
    intro s op h hf
    have hfit := h.exact.2.mp hf
    exact ⟨h.exact.1 hfit, hfit⟩
  · apply Respects.imp (I := SessionInv) _ sessionInv_start
    intro s op h hfit
    exact ⟨h.exact.1 hfit, h.exact.2.mpr hfit⟩
  · apply Respects.imp (I := fun s => SessionInv s ∧ auCircBufSize s.tty.slavebuf = 0) _
      ⟨sessionInv_start, hempty⟩
    intro s op h hf
    have hfit := (h.1.exactBoth h.2).2.mp hf
    obtain ⟨hlen, hzero⟩ := (h.1.exactBoth h.2).1 hfit
    exact ⟨⟨h.1.exact.1 hlen, hzero⟩, hfit⟩
  · apply Respects.imp (I := fun s => SessionInv s ∧ auCircBufSize s.tty.slavebuf = 0) _
      ⟨sessionInv_start, hempty⟩
    intro s op h hfit
    obtain ⟨hlen, hzero⟩ := (h.1.exactBoth h.2).1 hfit
    exact ⟨⟨h.1.exact.1 hlen, hzero⟩, (h.1.exactBoth h.2).2.mpr hfit⟩

/-- A read of one byte by the master stores the two that wait. -/
theorem masterRead_overruns : ¬ ∀ ops, Respects FineBoth step start ops := by
  intro h
  have hread := (h [.slaveWrite [1, 2], .masterRead 1]).2.1.1.read 1 rfl
  exact absurd hread.1 (by decide)

end Xeneva.Fs.Tty
