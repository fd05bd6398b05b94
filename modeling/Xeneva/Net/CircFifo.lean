import Xeneva.Base.Run
import Xeneva.Net.CircBuf

/-!
# The circular buffer as a queue

Bytes are put and taken one at a time or in blocks. Either way the buffer is a queue of at most
`max` bytes, in which a forced put drops the oldest byte. An object in memory has less than
`2 ^ 63` bytes, so no sum of two places wraps.
-/

namespace Xeneva.Net
open Base

def auAdvancePointer (c : CircBuffer) : CircBuffer :=
  let tail := if c.full then (c.tail + 1) % c.max else c.tail
  let head := (c.head + 1) % c.max
  { c with tail, head, full := head = tail }

def auRetreatPointer (c : CircBuffer) : CircBuffer :=
  { c with full := false, tail := (c.tail + 1) % c.max }

/-- A put that overwrites. -/
def auCircBufPutData (c : CircBuffer) (data : UInt8) : CircBuffer :=
  auAdvancePointer { c with buffer := Function.update c.buffer c.head data }

def auCircBufPut (c : CircBuffer) (data : UInt8) : CircBuffer × ℤ :=
  if !circBufFull c then (auCircBufPutData c data, 0) else (c, -1)

def auCircBufGet (c : CircBuffer) : CircBuffer × Option UInt8 :=
  if !circBufEmpty c then (auRetreatPointer c, some (c.buffer c.tail)) else (c, none)

/-- Byte by byte, until one does not fit. -/
def putEach (c : CircBuffer) : List UInt8 → CircBuffer × ℕ
  | [] => (c, 0)
  | b :: src =>
    let (c, r) := auCircBufPut c b
    if r ≠ 0 then (c, 0)
    else
      let (c, n) := putEach c src
      (c, n + 1)

/-- Byte by byte, until there is none. -/
def getEach (c : CircBuffer) : ℕ → CircBuffer × List UInt8
  | 0 => (c, [])
  | want + 1 =>
    match auCircBufGet c with
    | (c, none) => (c, [])
    | (c, some b) =>
      let (c, dst) := getEach c want
      (c, b :: dst)

inductive CircOp
  | put (data : UInt8)
  | putData (data : UInt8)
  | get
  | write (src : List UInt8)
  | read (len : ℕ)

inductive CircOut
  | code (r : ℤ)
  | byte (data : Option UInt8)
  | count (n : ℕ)
  | bytes (dst : List UInt8)
  deriving DecidableEq

def circStep (c : CircBuffer) : CircOp → CircBuffer × CircOut
  | .put data => let r := auCircBufPut c data; (r.1, .code r.2)
  | .putData data => (auCircBufPutData c data, .code 0)
  | .get => let r := auCircBufGet c; (r.1, .byte r.2)
  | .write src => let r := auCircBufWrite c src; (r.1, .count r.2)
  | .read len => let r := auCircBufRead c len; (r.1, .bytes r.2)

/-- A queue of at most `max` bytes. -/
def fifoStep (max : ℕ) (q : List UInt8) : CircOp → List UInt8 × CircOut
  | .put data => if q.length < max then (q ++ [data], .code 0) else (q, .code (-1))
  | .putData data => ((if q.length < max then q else q.tail) ++ [data], .code 0)
  | .get => (q.tail, .byte q.head?)
  | .write src =>
    let k := min src.length (max - q.length)
    (q ++ src.take k, .count k)
  | .read len => (q.drop len, .bytes (q.take len))

namespace CircBuffer

variable {c : CircBuffer} {k : ℕ}

/-- The buffer with a text put behind its contents. -/
def appended (c : CircBuffer) (src : List UInt8) : CircBuffer :=
  { c with
    buffer := ringWrite c.buffer c.max c.head src
    head := (c.head + src.length) % c.max
    full := auCircBufSize c + src.length = c.max }

/-- The buffer without its first `k` bytes. -/
def taken (c : CircBuffer) (k : ℕ) : CircBuffer :=
  { c with tail := (c.tail + k) % c.max, full := c.full && k = 0 }

theorem WF.appended_nil (h : c.WF) : c.appended [] = c := by
  have hfull : decide (auCircBufSize c + 0 = c.max) = c.full := by
    rw [Nat.add_zero, Bool.eq_iff_iff, decide_eq_true_iff, h.size_eq_max]
  unfold appended
  rw [ringWrite_nil, List.length_nil, hfull, Nat.add_zero, Nat.mod_eq_of_lt h.head_lt]

theorem WF.taken_zero (h : c.WF) : c.taken 0 = c := by
  unfold taken
  rw [Nat.add_zero, Nat.mod_eq_of_lt h.tail_lt, decide_eq_true rfl, Bool.and_true]

/-- The head meets the tail when the buffer gets full. -/
theorem WF.head_eq_tail (h : c.WF) (hk : auCircBufSize c + k ≤ c.max) (hpos : 0 < k) :
    (c.head + k) % c.max = c.tail ↔ auCircBufSize c + k = c.max := by
  have ht := h.tail_lt
  have hplace : (c.head + k) % c.max = (c.tail + (auCircBufSize c + k)) % c.max := by
    rw [← h.head_place, Nat.mod_add_mod, Nat.add_assoc]
  rw [hplace, ring_place ht hk]
  split_ifs <;> omega

theorem WF.appended_spec (h : c.WF) (src : List UInt8)
    (hs : auCircBufSize c + src.length ≤ c.max) :
    (c.appended src).WF ∧ (c.appended src).contents = c.contents ++ src ∧
      auCircBufSize (c.appended src) = auCircBufSize c + src.length := by
  by_cases hpos : 0 < src.length
  · apply h.write_turn hs hpos
    unfold appended
    rw [decide_eq_decide.mpr (h.head_eq_tail hs hpos)]
  · have hnil : src = [] := List.eq_nil_of_length_eq_zero (by omega)
    rw [hnil, h.appended_nil, List.append_nil]
    exact ⟨h, rfl, rfl⟩

theorem WF.taken_spec (h : c.WF) (hk : k ≤ auCircBufSize c) :
    (c.taken k).WF ∧ (c.taken k).contents = c.contents.drop k ∧
      auCircBufSize (c.taken k) = auCircBufSize c - k := by
  by_cases hpos : 0 < k
  · apply h.read_turn hk hpos
    unfold taken
    rw [decide_eq_false (by omega), Bool.and_false]
  · have hzero : k = 0 := by omega
    rw [hzero, h.taken_zero]
    exact ⟨h, rfl, rfl⟩

theorem WF.put_eq (h : c.WF) (hroom : auCircBufSize c < c.max) (data : UInt8) :
    auCircBufPutData c data = c.appended [data] := by
  have hfull : c.full = false := by
    rw [← Bool.not_eq_true, ← h.size_eq_max]
    omega
  have hmeet := h.head_eq_tail (k := 1) (by omega) Nat.one_pos
  have hone : ringWrite c.buffer c.max c.head [data] = Function.update c.buffer c.head data := by
    rw [ringWrite_cons h.head_lt (by rw [List.length_nil]; omega), ringWrite_nil]
  unfold auCircBufPutData auAdvancePointer appended
  dsimp only
  rw [hfull, if_neg Bool.false_ne_true, hone, List.length_singleton, decide_eq_decide.mpr hmeet]

theorem WF.full_iff (h : c.WF) : circBufFull c = true ↔ auCircBufSize c = c.max :=
  h.size_eq_max.symm

/-- On a full buffer the byte takes the place of the oldest one. -/
theorem WF.putData_full (h : c.WF) (hfull : auCircBufSize c = c.max) (data : UInt8) :
    auCircBufPutData c data = (c.taken 1).appended [data] := by
  have hf := h.size_eq_max.mp hfull
  have hlt := h.head_lt
  obtain ⟨hwf, -, hsize⟩ := h.taken_spec (k := 1) (by omega)
  have hmax : (c.taken 1).max = c.max := rfl
  rw [← hwf.put_eq (by rw [hsize, hmax]; omega)]
  unfold auCircBufPutData auAdvancePointer taken
  dsimp only
  rw [hf, if_pos rfl, decide_eq_false Nat.one_ne_zero, Bool.and_false,
    if_neg Bool.false_ne_true]

theorem WF.get_eq (h : c.WF) : auCircBufGet c = (c.taken (min 1 (auCircBufSize c)),
    c.contents.head?) := by
  unfold auCircBufGet
  by_cases he : auCircBufSize c = 0
  · have hempty := h.empty_iff.mpr he
    have hnil : c.contents = [] := List.eq_nil_of_length_eq_zero (by rw [contents_length, he])
    rw [hempty, he, Nat.min_zero, h.taken_zero, hnil]
    rfl
  · have hempty : circBufEmpty c = false := by
      rw [← Bool.not_eq_true, h.empty_iff]
      exact he
    obtain ⟨n, hn⟩ := Nat.exists_eq_succ_of_ne_zero he
    have hhead : c.contents.head? = some (c.buffer c.tail) := by
      unfold contents
      rw [hn, Nat.succ_eq_one_add, window_add]
      change some (c.buffer ((c.tail + 0) % c.max)) = _
      rw [Nat.add_zero, Nat.mod_eq_of_lt h.tail_lt]
    have hone : min 1 (auCircBufSize c) = 1 := by omega
    rw [hempty, hhead, hone]
    unfold auRetreatPointer taken
    rw [decide_eq_false Nat.one_ne_zero, Bool.and_false]
    rfl

/-! ## Blocks -/

/-- A loop of `AuCircBufWrite` that has nothing left to do. -/
theorem writeLoop_stop {src : List UInt8} {written : ℕ} (n : ℕ)
    (h : ¬ (written < src.length ∧ ¬ circBufFull c)) :
    auCircBufWriteLoop n c src written = (c, written) := by
  cases n with
  | zero => rfl
  | succ n =>
    unfold auCircBufWriteLoop
    rw [if_neg h]

theorem WF.write_eq (h : c.WF) (src : List UInt8)
    (hk : k = min src.length (c.max - auCircBufSize c)) :
    auCircBufWrite c src = (c.appended (src.take k), k) := by
  have hsz := h.size_le
  by_cases hzero : k = 0
  · have hstop : ¬ (0 < src.length ∧ ¬ circBufFull c) := by
      rintro ⟨hpos, hnot⟩
      have := mt h.size_eq_max.mp hnot
      omega
    rw [hzero, List.take_zero, h.appended_nil]
    exact writeLoop_stop _ hstop
  · obtain ⟨n, hn⟩ : ∃ n, src.length = n + 1 := Nat.exists_eq_succ_of_ne_zero (by omega)
    have hnot : ¬ circBufFull c := fun hf => hzero (by
      have := h.size_eq_max.mpr hf
      omega)
    have hlen : (src.take k).length = k := by
      rw [List.length_take]
      omega
    obtain ⟨hwf, -, hsize⟩ := h.appended_spec (src.take k) (by omega)
    have hmax : (c.appended (src.take k)).max = c.max := rfl
    have hmeet := h.head_eq_tail (k := k) (by omega) (by omega)
    have hturn : auCircBufWriteLoop (n + 1) c src 0 =
        auCircBufWriteLoop n (c.appended (src.take k)) src k := by
      conv_lhs => unfold auCircBufWriteLoop
      rw [if_pos ⟨by omega, hnot⟩]
      dsimp only
      rw [Nat.sub_zero, ← hk, if_neg hzero, List.drop_zero, Nat.zero_add,
        decide_eq_decide.mpr hmeet]
      unfold appended
      rw [hlen]
    unfold auCircBufWrite
    rw [hn, hturn, writeLoop_stop]
    -- the text is written or the buffer is full
    rintro ⟨hlt, hroom⟩
    have := mt hwf.size_eq_max.mp hroom
    rw [hsize, hmax] at this
    omega

theorem appended_append (c : CircBuffer) (h : c.WF) (b : UInt8) {src : List UInt8}
    (hs : auCircBufSize c + (src.length + 1) ≤ c.max) :
    (c.appended [b]).appended src = c.appended (b :: src) := by
  obtain ⟨-, -, hsize⟩ := h.appended_spec [b] (by rw [List.length_singleton]; omega)
  have hone : ringWrite c.buffer c.max c.head [b] = Function.update c.buffer c.head b := by
    rw [ringWrite_cons h.head_lt (by rw [List.length_nil]; omega), ringWrite_nil]
  unfold appended at hsize ⊢
  rw [hsize]
  dsimp only
  rw [hone, ringWrite_cons h.head_lt (by omega), Nat.mod_add_mod]
  simp only [List.length_cons, List.length_nil, Nat.add_assoc, Nat.zero_add, Nat.add_comm 1]

theorem WF.putEach_eq (h : c.WF) (src : List UInt8)
    (hk : k = min src.length (c.max - auCircBufSize c)) :
    putEach c src = (c.appended (src.take k), k) := by
  induction src generalizing c k with
  | nil =>
    rw [List.length_nil, Nat.zero_min] at hk
    rw [hk, List.take_zero, h.appended_nil]
    rfl
  | cons b src ih =>
    rw [List.length_cons] at hk
    have hsz := h.size_le
    by_cases hroom : auCircBufSize c < c.max
    · have hfull : circBufFull c = false := by
        rw [← Bool.not_eq_true, h.full_iff]
        omega
      obtain ⟨hwf, -, hsize⟩ := h.appended_spec [b]
        (by rw [List.length_singleton]; omega)
      have hmax : (c.appended [b]).max = c.max := rfl
      obtain ⟨j, rfl⟩ : ∃ j, k = j + 1 := Nat.exists_eq_succ_of_ne_zero (by omega)
      rw [List.length_singleton] at hsize
      have hrest := ih hwf (k := j) (by rw [hsize, hmax]; omega)
      have hlen : (src.take j).length = j := by
        rw [List.length_take]
        omega
      have hput : auCircBufPut c b = (c.appended [b], 0) := by
        unfold auCircBufPut
        rw [hfull, h.put_eq hroom]
        rfl
      unfold putEach
      rw [hput]
      dsimp only
      rw [if_neg (by decide), hrest, appended_append c h b (by omega), List.take_succ_cons]
    · have hfull := h.full_iff.mpr (show auCircBufSize c = c.max by omega)
      have hzero : k = 0 := by omega
      unfold putEach auCircBufPut
      rw [hfull, hzero, List.take_zero, h.appended_nil]
      rfl

/-- A loop of `AuCircBufRead` that has nothing left to do. -/
theorem readLoop_stop {len : ℕ} {dst : List UInt8} (n : ℕ)
    (h : ¬ (dst.length < len ∧ ¬ circBufEmpty c)) :
    auCircBufReadLoop n c len dst = (c, dst) := by
  cases n with
  | zero => rfl
  | succ n =>
    unfold auCircBufReadLoop
    rw [if_neg h]

theorem WF.read_eq (h : c.WF) (len : ℕ) (hk : k = min len (auCircBufSize c)) :
    auCircBufRead c len = (c.taken k, c.contents.take len) := by
  have hlen := c.contents_length
  by_cases hzero : k = 0
  · have hstop : ¬ (([] : List UInt8).length < len ∧ ¬ circBufEmpty c) := by
      rintro ⟨hpos, hnot⟩
      have := mt h.empty_iff.mpr hnot
      rw [List.length_nil] at hpos
      omega
    have htake : c.contents.take len = [] := by
      apply List.eq_nil_of_length_eq_zero
      rw [List.length_take]
      omega
    rw [hzero, h.taken_zero, htake]
    exact readLoop_stop _ hstop
  · obtain ⟨n, hn⟩ : ∃ n, len = n + 1 := Nat.exists_eq_succ_of_ne_zero (by omega)
    have hnot : ¬ circBufEmpty c := fun he => hzero (by
      have := h.empty_iff.mp he
      omega)
    have htake : c.contents.take k = c.contents.take len := by
      rw [hk, ← hlen, List.take_eq_take_min (l := c.contents) (i := len)]
    have hgot : (c.contents.take k).length = k := by
      rw [List.length_take]
      omega
    obtain ⟨hwf, -, hsize⟩ := h.taken_spec (k := k) (by omega)
    have hturn : auCircBufReadLoop len c len [] =
        auCircBufReadLoop n (c.taken k) len (c.contents.take k) := by
      conv_lhs =>
        rw [hn]
        unfold auCircBufReadLoop
      rw [← hn, if_pos ⟨by rw [List.length_nil]; omega, hnot⟩]
      dsimp only
      rw [List.length_nil, Nat.sub_zero, ← hk, if_neg hzero, List.nil_append,
        ← window_eq_memread h.tail_lt (by have := h.size_le; omega),
        ← window_take (n := auCircBufSize c) (by omega)]
      unfold taken contents
      rw [decide_eq_false hzero, Bool.and_false]
    unfold auCircBufRead
    rw [hturn, readLoop_stop, htake]
    rintro ⟨hlt, hmore⟩
    have := mt hwf.empty_iff.mpr hmore
    omega

theorem taken_taken (c : CircBuffer) (i j : ℕ) : (c.taken i).taken j = c.taken (i + j) := by
  unfold taken
  dsimp only
  rw [Nat.mod_add_mod, Nat.add_assoc, Bool.and_assoc, ← Bool.decide_and,
    decide_eq_decide.mpr Nat.add_eq_zero_iff.symm]

theorem WF.getEach_eq (h : c.WF) (len : ℕ) (hk : k = min len (auCircBufSize c)) :
    getEach c len = (c.taken k, c.contents.take len) := by
  induction len generalizing c k with
  | zero =>
    rw [Nat.zero_min] at hk
    rw [hk, h.taken_zero, List.take_zero]
    rfl
  | succ len ih =>
    have hlen := c.contents_length
    unfold getEach
    rw [h.get_eq]
    cases hc : c.contents with
    | nil =>
      rw [hc, List.length_nil] at hlen
      have hone : min 1 (auCircBufSize c) = 0 := by omega
      have hzero : k = 0 := by omega
      rw [hone, hzero]
      rfl
    | cons b q =>
      rw [hc, List.length_cons] at hlen
      have hone : min 1 (auCircBufSize c) = 1 := by omega
      obtain ⟨hwf, hcont, hsize⟩ := h.taken_spec (k := 1) (by omega)
      rw [hc, List.drop_one, List.tail_cons] at hcont
      have hrest := ih hwf (k := k - 1) (by omega)
      have hsum : 1 + (k - 1) = k := by omega
      rw [List.head?_cons, hone]
      dsimp only
      rw [hrest, taken_taken, hsum, hcont]
      rfl

/-! ## The queue -/

/-- The buffer holds the queue. -/
def IsFifo (max : ℕ) (c : CircBuffer) (q : List UInt8) : Prop :=
  c.WF ∧ c.max = max ∧ c.contents = q

theorem IsFifo.length {max : ℕ} {q : List UInt8} (h : IsFifo max c q) :
    q.length = auCircBufSize c := by
  rw [← h.2.2, contents_length]

/-- Every operation does what it does on the queue. -/
theorem circStep_refines (max : ℕ) :
    Refines (IsFifo max) (fun _ _ => True) circStep (fifoStep max) := by
  intro c q op h _
  obtain ⟨hwf, rfl, rfl⟩ := h
  have hlen := c.contents_length
  have hsz := hwf.size_le
  have hpos := hwf.head_lt
  cases op with
  | put data =>
    unfold circStep fifoStep auCircBufPut
    by_cases hroom : auCircBufSize c < c.max
    · have hfull : circBufFull c = false := by
        rw [← Bool.not_eq_true, hwf.full_iff]
        omega
      obtain ⟨hwf', hcont, -⟩ := hwf.appended_spec [data]
        (by rw [List.length_singleton]; omega)
      dsimp only
      rw [hfull, hlen, if_pos hroom, hwf.put_eq hroom]
      exact ⟨rfl, hwf', rfl, hcont⟩
    · have hfull := hwf.full_iff.mpr (show auCircBufSize c = c.max by omega)
      dsimp only
      rw [hfull, hlen, if_neg hroom]
      exact ⟨rfl, hwf, rfl, rfl⟩
  | putData data =>
    unfold circStep fifoStep
    refine ⟨rfl, ?_⟩
    dsimp only
    by_cases hroom : auCircBufSize c < c.max
    · obtain ⟨hwf', hcont, -⟩ := hwf.appended_spec [data]
        (by rw [List.length_singleton]; omega)
      rw [hlen, if_pos hroom, hwf.put_eq hroom]
      exact ⟨hwf', rfl, hcont⟩
    · obtain ⟨hwf1, hcont1, hsize1⟩ := hwf.taken_spec (k := 1) (by omega)
      have hmax : (c.taken 1).max = c.max := rfl
      obtain ⟨hwf', hcont, -⟩ := hwf1.appended_spec [data]
        (by rw [List.length_singleton, hmax]; omega)
      rw [hlen, if_neg hroom, hwf.putData_full (by omega), ← List.drop_one, ← hcont1]
      exact ⟨hwf', rfl, hcont⟩
  | get =>
    unfold circStep fifoStep
    dsimp only
    rw [hwf.get_eq]
    obtain ⟨hwf', hcont, -⟩ := hwf.taken_spec (Nat.min_le_right 1 (auCircBufSize c))
    refine ⟨rfl, hwf', rfl, ?_⟩
    rw [hcont, ← List.drop_one, ← hlen]
    cases c.contents with
    | nil => rfl
    | cons b q => rw [List.length_cons, Nat.min_eq_left (by omega)]
  | write src =>
    unfold circStep fifoStep
    dsimp only
    rw [hwf.write_eq src rfl, hlen]
    obtain ⟨hwf', hcont, -⟩ := hwf.appended_spec
      (src.take (min src.length (c.max - auCircBufSize c)))
      (by rw [List.length_take]; omega)
    exact ⟨rfl, hwf', rfl, hcont⟩
  | read len =>
    unfold circStep fifoStep
    dsimp only
    rw [hwf.read_eq len rfl]
    obtain ⟨hwf', hcont, -⟩ := hwf.taken_spec (Nat.min_le_right len (auCircBufSize c))
    refine ⟨rfl, hwf', rfl, ?_⟩
    rw [hcont, ← hlen]
    by_cases hle : len ≤ c.contents.length
    · rw [Nat.min_eq_left hle]
    · rw [Nat.min_eq_right (by omega), List.drop_length, List.drop_of_length_le (by omega)]

/-- The circular buffer is a bounded queue: it answers as one, its size and its predicates are
those of the queue, and a block is put or taken as its bytes one by one. -/
theorem exec_fifo (max : ℕ) (hmax : 0 < max) (buffer : ℕ → UInt8) (ops : List CircOp) :
    let c := run (fun c op => (circStep c op).1) (auCircBufInitialise buffer max) ops
    let q := run (fun q op => (fifoStep max q op).1) [] ops
    replies circStep (auCircBufInitialise buffer max) ops = replies (fifoStep max) [] ops ∧
      q.length ≤ max ∧ auCircBufSize c = q.length ∧
      (circBufFull c = true ↔ q.length = max) ∧ (circBufEmpty c = true ↔ q = []) ∧
      (∀ src, auCircBufWrite c src = putEach c src) ∧
      ∀ len, auCircBufRead c len = getEach c len := by
  have hstart : IsFifo max (auCircBufInitialise buffer max) [] :=
    ⟨wf_initialise buffer hmax, rfl, rfl⟩
  have hok : ∀ c, Respects (fun _ _ => True) (fun c op => (circStep c op).1) c ops := by
    induction ops with
    | nil => exact fun _ => trivial
    | cons op ops ih => exact fun c => ⟨trivial, ih _⟩
  obtain ⟨hout, hend⟩ := (circStep_refines max).run hstart (hok _)
  intro c q
  have hlen := hend.length
  have hsz := hend.1.size_le
  have hfull := hend.1.full_iff
  have hempty := hend.1.empty_iff
  rw [hend.2.1] at hsz hfull
  rw [← hlen] at hsz hfull hempty
  refine ⟨hout, hsz, hlen.symm, hfull, ?_, fun src => ?_, fun len => ?_⟩
  · exact hempty.trans List.length_eq_zero_iff
  · rw [hend.1.write_eq src rfl, hend.1.putEach_eq src rfl]
  · rw [hend.1.read_eq len rfl, hend.1.getEach_eq len rfl]

/-- Three places, over whose end a block runs. -/
theorem exec_fifo_wrapped :
    replies circStep (auCircBufInitialise (fun _ => 0) 3)
        [.write [1, 2], .get, .write [3, 4, 5], .putData 6, .read 9] =
      [.count 2, .byte (some 1), .count 2, .code 0, .bytes [3, 4, 6]] :=
  (exec_fifo 3 (by decide) (fun _ => 0)
    [.write [1, 2], .get, .write [3, 4, 5], .putData 6, .read 9]).1.trans (by decide)

end CircBuffer

end Xeneva.Net
