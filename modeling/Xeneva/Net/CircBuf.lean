import Xeneva.Base.Ring

/-!
# The circular buffer

`contents` are the bytes between tail and head. A write appends what fits and a read takes
from the front, whether or not they run over the end of the memory.
-/

namespace Xeneva.Net
open Base

structure CircBuffer where
  buffer : ℕ → UInt8
  head : ℕ
  tail : ℕ
  max : ℕ
  full : Bool

def auCircBufInitialise (buffer : ℕ → UInt8) (sz : ℕ) : CircBuffer :=
  { buffer, head := 0, tail := 0, max := sz, full := false }

def auCircBufSize (c : CircBuffer) : ℕ :=
  if ¬ c.full then
    if c.head ≥ c.tail then c.head - c.tail else c.max + c.head - c.tail
  else c.max

def circBufEmpty (c : CircBuffer) : Bool := ¬ c.full ∧ c.head = c.tail

def circBufFull (c : CircBuffer) : Bool := c.full

/-- The loop of `AuCircBufWrite`; each turn writes a byte at least, so `n` turns do where
`n` bytes are left. -/
def auCircBufWriteLoop : ℕ → CircBuffer → List UInt8 → ℕ → CircBuffer × ℕ
  | 0, c, _, written => (c, written)
  | n + 1, c, src, written =>
    if written < src.length ∧ ¬ circBufFull c then
      let avail := c.max - auCircBufSize c
      let chunk := min (src.length - written) avail
      if chunk = 0 then (c, written)
      else
        let head := (c.head + chunk) % c.max
        auCircBufWriteLoop n
          { c with
            buffer := ringWrite c.buffer c.max c.head ((src.drop written).take chunk)
            head
            full := head = c.tail } src (written + chunk)
    else (c, written)

def auCircBufWrite (c : CircBuffer) (src : List UInt8) : CircBuffer × ℕ :=
  auCircBufWriteLoop src.length c src 0

/-- The loop of `AuCircBufRead`; `dst` are the bytes it has got. -/
def auCircBufReadLoop : ℕ → CircBuffer → ℕ → List UInt8 → CircBuffer × List UInt8
  | 0, c, _, dst => (c, dst)
  | n + 1, c, len, dst =>
    if dst.length < len ∧ ¬ circBufEmpty c then
      let avail := auCircBufSize c
      let chunk := min (len - dst.length) avail
      if chunk = 0 then (c, dst)
      else
        let run := c.max - c.tail
        let got := if chunk > run then memread c.buffer c.tail run ++ memread c.buffer 0 (chunk - run)
          else memread c.buffer c.tail chunk
        auCircBufReadLoop n { c with tail := (c.tail + chunk) % c.max, full := false } len
          (dst ++ got)
    else (c, dst)

def auCircBufRead (c : CircBuffer) (len : ℕ) : CircBuffer × List UInt8 :=
  auCircBufReadLoop len c len []

namespace CircBuffer

variable {c : CircBuffer}

structure WF (c : CircBuffer) : Prop where
  head_lt : c.head < c.max
  tail_lt : c.tail < c.max
  head_eq : c.full → c.head = c.tail

def contents (c : CircBuffer) : List UInt8 := window c.buffer c.max c.tail (auCircBufSize c)

@[simp] theorem contents_length (c : CircBuffer) : c.contents.length = auCircBufSize c :=
  window_length ..

theorem WF.size_le (h : c.WF) : auCircBufSize c ≤ c.max := by
  have := h.head_lt
  unfold auCircBufSize
  split_ifs <;> omega

theorem WF.size_eq_max (h : c.WF) : auCircBufSize c = c.max ↔ c.full := by
  have := h.head_lt
  have := h.tail_lt
  unfold auCircBufSize
  cases c.full <;> simp
  split_ifs <;> omega

theorem WF.head_place (h : c.WF) : (c.tail + auCircBufSize c) % c.max = c.head := by
  have hh := h.head_lt
  have ht := h.tail_lt
  rw [ring_place ht h.size_le]
  cases hf : c.full with
  | false =>
    simp only [auCircBufSize, hf, Bool.false_eq_true, not_false_eq_true, if_true]
    split_ifs <;> omega
  | true =>
    have heq := h.head_eq hf
    simp only [auCircBufSize, hf, not_true_eq_false, if_false]
    split_ifs <;> omega

theorem WF.empty_iff (h : c.WF) : circBufEmpty c ↔ auCircBufSize c = 0 := by
  have := h.head_lt
  have := h.tail_lt
  unfold circBufEmpty auCircBufSize
  cases c.full with
  | false =>
    simp only [Bool.false_eq_true, not_false_eq_true, true_and, decide_eq_true_eq, if_true]
    split_ifs <;> omega
  | true =>
    simp
    omega

theorem wf_initialise (buffer : ℕ → UInt8) {sz : ℕ} (h : 0 < sz) :
    (auCircBufInitialise buffer sz).WF := ⟨h, h, nofun⟩

/-- The size of a buffer whose head is `n` places ahead of its tail. -/
theorem size_of_place {buffer : ℕ → UInt8} {tail max n : ℕ} {full : Bool} (ht : tail < max)
    (hn : n ≤ max) (hf : full = decide (n = max)) :
    auCircBufSize ⟨buffer, (tail + n) % max, tail, max, full⟩ = n := by
  unfold auCircBufSize
  dsimp only
  rw [ring_place ht hn, hf]
  by_cases h : n = max
  · simp [h]
  · simp only [h, decide_false, Bool.false_eq_true, not_false_eq_true, if_true]
    split_ifs <;> omega

/-- One turn of the loop of `AuCircBufWrite`. -/
theorem WF.write_turn (h : c.WF) {src : List UInt8} (hs : auCircBufSize c + src.length ≤ c.max)
    (hpos : 0 < src.length) {c' : CircBuffer}
    (hc : c' = { c with
      buffer := ringWrite c.buffer c.max c.head src
      head := (c.head + src.length) % c.max
      full := (c.head + src.length) % c.max = c.tail }) :
    c'.WF ∧ c'.contents = c.contents ++ src ∧
      auCircBufSize c' = auCircBufSize c + src.length := by
  have ht := h.tail_lt
  have hplace : (c.head + src.length) % c.max =
      (c.tail + (auCircBufSize c + src.length)) % c.max := by
    rw [← h.head_place, Nat.mod_add_mod, Nat.add_assoc]
  have hfull : (c.tail + (auCircBufSize c + src.length)) % c.max = c.tail ↔
      auCircBufSize c + src.length = c.max := by
    rw [ring_place ht hs]
    split_ifs <;> omega
  have hsize : auCircBufSize c' = auCircBufSize c + src.length := by
    rw [hc, hplace]
    refine size_of_place ht hs ?_
    rw [decide_eq_decide]
    exact hfull
  refine ⟨?_, ?_, hsize⟩
  · subst hc
    exact ⟨Nat.mod_lt _ (by omega), ht, fun hf => by simpa using hf⟩
  · rw [contents, hsize, hc]
    dsimp only
    rw [← h.head_place]
    exact window_ringWrite ht hs

theorem WF.writeLoop (h : c.WF) (src : List UInt8) {n written : ℕ}
    (hn : src.length - written ≤ n) {k : ℕ}
    (hk : k = min (src.length - written) (c.max - auCircBufSize c)) :
    ∃ c', auCircBufWriteLoop n c src written = (c', written + k) ∧ c'.WF ∧ c'.max = c.max ∧
      c'.contents = c.contents ++ (src.drop written).take k := by
  induction n generalizing c written k with
  | zero =>
    have hk0 : k = 0 := by omega
    subst hk0
    exact ⟨c, rfl, h, rfl, by simp⟩
  | succ n ih =>
    have hsz := h.size_le
    unfold auCircBufWriteLoop
    by_cases hgo : written < src.length ∧ ¬ circBufFull c
    · have hroom : auCircBufSize c ≠ c.max := fun hm => hgo.2 (h.size_eq_max.mp hm)
      have hkpos : k ≠ 0 := by omega
      rw [if_pos hgo]
      dsimp only
      rw [← hk, if_neg hkpos]
      have hlen : ((src.drop written).take k).length = k := by
        simp only [List.length_take, List.length_drop]
        omega
      obtain ⟨hwf, hcont, hsize⟩ := h.write_turn (by rw [hlen]; omega) (by omega) rfl
      rw [hlen] at hwf hcont hsize
      -- the text is written or the buffer is full, so the next turn stops
      have hstop : 0 = min (src.length - (written + k)) (c.max - (auCircBufSize c + k)) := by
        omega
      rw [← hsize] at hstop
      obtain ⟨c', hrun, hwf', hmax, hcont'⟩ := ih hwf (by omega) hstop
      refine ⟨c', hrun, hwf', hmax, ?_⟩
      rw [hcont', hcont, List.take_zero, List.append_nil]
    · have hk0 : k = 0 := by
        rcases not_and_or.mp hgo with hw | hf
        · omega
        · have := h.size_eq_max.mpr (not_not.mp hf)
          omega
      rw [if_neg hgo, hk0]
      exact ⟨c, rfl, h, rfl, by simp⟩

/-- `AuCircBufWrite` appends what fits. -/
theorem WF.write (h : c.WF) (src : List UInt8) {k : ℕ}
    (hk : k = min src.length (c.max - auCircBufSize c)) :
    ∃ c', auCircBufWrite c src = (c', k) ∧ c'.WF ∧ c'.max = c.max ∧
      c'.contents = c.contents ++ src.take k := by
  have hloop := h.writeLoop src (Nat.sub_le src.length 0) hk
  rw [Nat.zero_add, List.drop_zero] at hloop
  exact hloop

/-- One turn of the loop of `AuCircBufRead`. -/
theorem WF.read_turn (h : c.WF) {k : ℕ} (hk : k ≤ auCircBufSize c) (hpos : 0 < k)
    {c' : CircBuffer} (hc : c' = { c with tail := (c.tail + k) % c.max, full := false }) :
    c'.WF ∧ c'.contents = c.contents.drop k ∧ auCircBufSize c' = auCircBufSize c - k := by
  have ht := h.tail_lt
  have hle := h.size_le
  have htail : (c.tail + k) % c.max < c.max := Nat.mod_lt _ (by omega)
  have hhead : c.head = ((c.tail + k) % c.max + (auCircBufSize c - k)) % c.max := by
    rw [← h.head_place, Nat.mod_add_mod, Nat.add_assoc, Nat.add_sub_cancel' hk]
  have hsize : auCircBufSize c' = auCircBufSize c - k := by
    rw [hc, hhead]
    refine size_of_place htail (by omega) ?_
    rw [eq_comm, decide_eq_false_iff_not]
    omega
  refine ⟨?_, ?_, hsize⟩
  · subst hc
    exact ⟨h.head_lt, htail, nofun⟩
  · rw [contents, hsize, hc, contents, window_drop hk]

theorem WF.readLoop (h : c.WF) (len : ℕ) {n : ℕ} {dst : List UInt8}
    (hn : len - dst.length ≤ n) :
    ∃ c', auCircBufReadLoop n c len dst = (c', dst ++ c.contents.take (len - dst.length)) ∧
      c'.WF ∧ c'.max = c.max ∧ c'.contents = c.contents.drop (len - dst.length) := by
  induction n generalizing c dst with
  | zero =>
    have h0 : len - dst.length = 0 := by omega
    rw [h0]
    exact ⟨c, by simp [auCircBufReadLoop], h, rfl, rfl⟩
  | succ n ih =>
    have hsz := h.size_le
    have hlen := c.contents_length
    unfold auCircBufReadLoop
    by_cases hgo : dst.length < len ∧ ¬ circBufEmpty c
    · have hne : auCircBufSize c ≠ 0 := fun h0 => hgo.2 (h.empty_iff.mpr h0)
      obtain ⟨k, hk⟩ : ∃ k, k = min (len - dst.length) (auCircBufSize c) := ⟨_, rfl⟩
      have hkpos : k ≠ 0 := by omega
      rw [if_pos hgo]
      dsimp only
      rw [← hk, if_neg hkpos, ← window_eq_memread h.tail_lt (by omega),
        ← window_take (n := auCircBufSize c) (by omega), ← contents]
      obtain ⟨hwf, hcont, -⟩ := h.read_turn (k := k) (by omega) (by omega) rfl
      obtain ⟨got, hgot⟩ : ∃ got, got = dst ++ c.contents.take k := ⟨_, rfl⟩
      have hdst : got.length = dst.length + k := by
        rw [hgot, List.length_append, List.length_take, hlen]
        omega
      have hsum : k + (len - (dst.length + k)) = len - dst.length := by omega
      obtain ⟨c', hrun, hwf', hmax, hcont'⟩ := ih hwf (show len - got.length ≤ n by omega)
      refine ⟨c', ?_, hwf', hmax, ?_⟩
      · rw [← hgot, hrun, hdst, hcont, hgot, List.append_assoc, ← List.take_add, hsum]
      · rw [hcont', hcont, hdst, List.drop_drop, hsum]
    · rw [if_neg hgo]
      have hnil : c.contents = [] ∨ len - dst.length = 0 := by
        rcases not_and_or.mp hgo with hl | he
        · exact .inr (by omega)
        · exact .inl (List.eq_nil_of_length_eq_zero
            (hlen.trans (h.empty_iff.mp (not_not.mp he))))
      refine ⟨c, ?_, h, rfl, ?_⟩
      · rcases hnil with h0 | h0 <;> simp [h0]
      · rcases hnil with h0 | h0 <;> simp [h0]

/-- `AuCircBufRead` takes from the front. -/
theorem WF.read (h : c.WF) (len : ℕ) :
    ∃ c', auCircBufRead c len = (c', c.contents.take len) ∧ c'.WF ∧ c'.max = c.max ∧
      c'.contents = c.contents.drop len :=
  h.readLoop len (Nat.sub_le len 0)

end CircBuffer

end Xeneva.Net
