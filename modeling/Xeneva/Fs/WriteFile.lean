import Xeneva.Cap.Capability

/-!
# Writing a file of a local file system

`WriteFile` stages the caller's bytes in one page of the kernel and hands the page to the file
system, chunk after chunk.
-/

namespace Xeneva.Fileserv

open Cap

def PAGE_SIZE : ℕ := 4096

def PTR_MIN : UInt64 := 0x10000
def PTR_USER_MAX : UInt64 := 0x0000FFFFFFFFFFFF
def PTR_KERN_MIN : UInt64 := 0xFFFF800000000000
def PTR_KERN_MAX : UInt64 := 0xFFFFFFFFFFFFEFFF
def USER_MAX : ℕ := 0x0001000000000000

def ptrRepeatedByte (v : UInt64) : Bool := v = (v &&& 0xFF) * 0x0101010101010101

def ptrRepeatedWord (v : UInt64) : Bool :=
  v >>> 32 = v &&& 0xFFFFFFFF || v &&& 0xFFFFFFFF = 0xFFFFFFFF

def ptrPoisoned (v : UInt64) : Bool :=
  v ∈ [0xDEADBEEFDEADBEEF, 0xDEADDEADDEADDEAD, 0xBAADF00DBAADF00D, 0xFEEEFEEEFEEEFEEE, 0xDEADBEEF,
    0xBAADF00D]

def ptrValidate (v : UInt64) : Bool :=
  v ≥ PTR_MIN && !ptrRepeatedByte v && !ptrRepeatedWord v && !ptrPoisoned v &&
    (v ≤ PTR_USER_MAX || v ≥ PTR_KERN_MIN && v ≤ PTR_KERN_MAX)

def ubufValidate (p len : UInt64) : Bool :=
  ptrValidate p && p ≤ PTR_USER_MAX && len ≤ PTR_USER_MAX - p + 1

/-- The bytes that the process may read; elsewhere a load faults. -/
abbrev UserMem := ℕ → Option UInt8

/-- `n` bytes from `a` on, if none of the loads faults. -/
def readBytes (mem : UserMem) : ℕ → ℕ → Option (List UInt8)
  | _, 0 => some []
  | a, n + 1 => (mem a).bind fun b => (readBytes mem (a + 1) n).map (b :: ·)

/-- `none` is a result other than zero. -/
def copyFromUser (mem : UserMem) (usrc n : ℕ) : Option (List UInt8) :=
  if usrc ≥ USER_MAX ∨ n > USER_MAX - usrc then none else readBytes mem usrc n

/-- A file system's write callback: the page, and how many of its bytes are to be written. It
tells how many it has written. -/
abbrev WriteFn (σ : Type*) := σ → List UInt8 → ℕ → σ × ℕ

variable {σ : Type*}

/-- Its result is not looked at; a file system may have no callback. -/
def auVFSNodeWrite (write : Option (WriteFn σ)) (fs : σ) (page : List UInt8) (length : ℕ) : σ × ℕ :=
  match write with
  | none => (fs, 0)
  | some write => write fs page length

/-- `handed` are the bytes that the file system got, call by call, `taken` is how many of them it
has written, and `ret` is the result of the system call. -/
structure Written (σ : Type*) where
  fs : σ
  handed : List (List UInt8)
  taken : ℕ
  ret : ℕ

/-- The cleared page with a chunk in it. -/
def pageOf (chunk : List UInt8) : List UInt8 :=
  chunk ++ List.replicate (PAGE_SIZE - chunk.length) 0

/-- `src` moves along in the source, but the copy is from `aligned_buffer`. -/
def writeLoop (write : Option (WriteFn σ)) (mem : UserMem) (aligned_buffer length remaining : ℕ)
    (fs : σ) : Written σ :=
  if remaining = 0 then ⟨fs, [], 0, length⟩
  else
    let chunk := if remaining > PAGE_SIZE then PAGE_SIZE else remaining
    match copyFromUser mem aligned_buffer chunk with
    | none => ⟨fs, [], 0, remaining⟩
    | some bytes =>
      let (fs, n) := auVFSNodeWrite write fs (pageOf bytes) chunk
      let r := writeLoop write mem aligned_buffer length (remaining - chunk) fs
      { r with
        handed := if write.isSome then bytes :: r.handed else r.handed
        taken := n + r.taken }
termination_by remaining
decreasing_by
  unfold PAGE_SIZE
  split_ifs <;> omega

def FS_FLAG_TTY : BitVec 16 := 0x100

/-- The file system of the file, and what the branches for other files do. -/
structure Env (σ : Type*) where
  srvfsOwns : ℕ → Bool
  write : Option (WriteFn σ)
  elsewhere : σ → Written σ

/-- `proc` is the caller's process. -/
def writeFile (E : Env σ) (s : State) (proc : Option ℕ) (mem : UserMem) (fd : ℤ)
    (buffer length : UInt64) (fs : σ) : Written σ :=
  let refused : Written σ := ⟨fs, [], 0, 0⟩
  if !ubufValidate buffer length then refused
  else if fd < 0 ∨ buffer = 0 ∨ length = 0 ∨ fd ≥ FILE_DESC_PER_PROCESS then refused
  else match proc with
    | none => refused
    | some p =>
      let n := s.fds p fd.toNat
      let file := s.node n
      if n = 0 then refused
      else if !capCheckRights s p fd CAP_WRITE then refused
      else if E.srvfsOwns file.device then E.elsewhere fs
      else if file.has FS_FLAG_GENERAL && !file.has FS_FLAG_TTY then
        writeLoop E.write mem buffer.toNat length.toNat length.toNat fs
      else E.elsewhere fs

/-- The file system got the caller's bytes, each once and in order, and the result is the number
of bytes written. -/
def Delivered (mem : UserMem) (buffer length : ℕ) (r : Written σ) : Prop :=
  ∃ bytes, readBytes mem buffer length = some bytes ∧ r.handed.flatten = bytes ∧ r.ret = r.taken

/-- The bytes in chunks of a page. -/
def chunks (bytes : List UInt8) : List (List UInt8) :=
  if bytes = [] then [] else bytes.take PAGE_SIZE :: chunks (bytes.drop PAGE_SIZE)
termination_by bytes.length
decreasing_by
  rename_i h
  have := List.length_pos_of_ne_nil h
  rw [List.length_drop, PAGE_SIZE]
  omega

/-- How many bytes the file system writes when it gets these chunks. -/
def takenOf (write : Option (WriteFn σ)) : σ → List (List UInt8) → ℕ
  | _, [] => 0
  | fs, chunk :: rest =>
    let (fs, n) := auVFSNodeWrite write fs (pageOf chunk) chunk.length
    n + takenOf write fs rest

/-- Every byte is the one that is a page before it. -/
def Repeats (bytes : List UInt8) : Prop :=
  ∀ i, i + PAGE_SIZE < bytes.length → bytes[i + PAGE_SIZE]? = bytes[i]?

variable {mem : UserMem} {a n m i buffer length remaining : ℕ} {bytes : List UInt8}
  {write : Option (WriteFn σ)} {fs : σ}

theorem readBytes_length (h : readBytes mem a n = some bytes) : bytes.length = n := by
  induction n generalizing a bytes with
  | zero =>
    cases h
    rfl
  | succ n ih =>
    unfold readBytes at h
    obtain ⟨b, -, hb⟩ := Option.bind_eq_some_iff.mp h
    obtain ⟨l, hl, rfl⟩ := Option.map_eq_some_iff.mp hb
    rw [List.length_cons, ih hl]

theorem readBytes_take (h : readBytes mem a n = some bytes) (hm : m ≤ n) :
    readBytes mem a m = some (bytes.take m) := by
  induction n generalizing a bytes m with
  | zero =>
    obtain rfl : m = 0 := by omega
    rfl
  | succ n ih =>
    unfold readBytes at h
    obtain ⟨b, hmem, hb⟩ := Option.bind_eq_some_iff.mp h
    obtain ⟨l, hl, rfl⟩ := Option.map_eq_some_iff.mp hb
    cases m with
    | zero => rfl
    | succ m =>
      unfold readBytes
      rw [hmem, Option.bind_some, ih hl (by omega), Option.map_some, List.take_succ_cons]

theorem readBytes_getElem? (h : readBytes mem a n = some bytes) (hi : i < n) :
    bytes[i]? = mem (a + i) := by
  induction n generalizing a bytes i with
  | zero => omega
  | succ n ih =>
    unfold readBytes at h
    obtain ⟨b, hmem, hb⟩ := Option.bind_eq_some_iff.mp h
    obtain ⟨l, hl, rfl⟩ := Option.map_eq_some_iff.mp hb
    cases i with
    | zero => exact hmem.symm
    | succ i =>
      rw [List.getElem?_cons_succ, ih hl (by omega)]
      congr 1
      omega

/-- What the loop hands over: the beginning of the buffer again and again. -/
def again (bytes : List UInt8) (remaining : ℕ) : List (List UInt8) :=
  if remaining = 0 then []
  else
    let chunk := if remaining > PAGE_SIZE then PAGE_SIZE else remaining
    bytes.take chunk :: again bytes (remaining - chunk)
termination_by remaining
decreasing_by
  unfold PAGE_SIZE
  split_ifs <;> omega

theorem again_zero (bytes : List UInt8) : again bytes 0 = [] := by
  unfold again
  rw [if_pos rfl]

/-- One turn, with the page or what is left of it. -/
theorem again_pos (hr : 0 < remaining) : again bytes remaining =
    bytes.take (min remaining PAGE_SIZE) :: again bytes (remaining - min remaining PAGE_SIZE) := by
  rw [again, if_neg (by omega)]
  have hmin : (if remaining > PAGE_SIZE then PAGE_SIZE else remaining) =
      min remaining PAGE_SIZE := by
    split_ifs <;> omega
  dsimp only
  rw [hmin]

theorem copyFromUser_take (h : readBytes mem buffer length = some bytes)
    (hrange : buffer + length ≤ USER_MAX) (hpos : 0 < n) (hn : n ≤ length) :
    copyFromUser mem buffer n = some (bytes.take n) := by
  unfold copyFromUser
  rw [if_neg (by omega)]
  exact readBytes_take h hn

/-- With the caller's memory readable the loop goes on to its end. -/
theorem writeLoop_eq (write : Option (WriteFn σ)) (fs : σ)
    (h : readBytes mem buffer length = some bytes)
    (hrange : buffer + length ≤ USER_MAX) (hr : remaining ≤ length) :
    (writeLoop write mem buffer length remaining fs).handed =
        (if write.isSome then again bytes remaining else []) ∧
      (writeLoop write mem buffer length remaining fs).taken =
        takenOf write fs (again bytes remaining) ∧
      (writeLoop write mem buffer length remaining fs).ret = length := by
  induction remaining using Nat.strong_induction_on generalizing fs with
  | _ remaining ih =>
    by_cases hz : remaining = 0
    · rw [hz, again_zero, writeLoop, if_pos rfl]
      exact ⟨(ite_self _).symm, rfl, rfl⟩
    · have hpos : 0 < remaining := Nat.pos_of_ne_zero hz
      have hpage : 0 < PAGE_SIZE := by decide
      have hmin : (if remaining > PAGE_SIZE then PAGE_SIZE else remaining) =
          min remaining PAGE_SIZE := by
        split_ifs <;> omega
      have hlen : (bytes.take (min remaining PAGE_SIZE)).length = min remaining PAGE_SIZE := by
        rw [List.length_take, readBytes_length h]
        omega
      rw [writeLoop, if_neg hz, again_pos hpos]
      dsimp only
      rw [hmin, copyFromUser_take h hrange (by omega) (by omega)]
      dsimp only [takenOf]
      rw [hlen]
      obtain ⟨hhanded, htaken, hret⟩ := ih (remaining - min remaining PAGE_SIZE) (by omega)
        (auVFSNodeWrite write fs (pageOf (bytes.take (min remaining PAGE_SIZE)))
          (min remaining PAGE_SIZE)).1 (by omega)
      rw [hhanded, htaken, hret]
      refine ⟨?_, rfl, rfl⟩
      split_ifs <;> rfl

/-! ## What the file system got -/

theorem again_getElem? (hr : remaining ≤ bytes.length) (i : ℕ) :
    (again bytes remaining).flatten[i]? =
      if i < remaining then bytes[i % PAGE_SIZE]? else none := by
  induction remaining using Nat.strong_induction_on generalizing i with
  | _ remaining ih =>
    by_cases hz : remaining = 0
    · rw [hz, again_zero]
      rfl
    · have hlen : (bytes.take (min remaining PAGE_SIZE)).length = min remaining PAGE_SIZE := by
        rw [List.length_take]
        omega
      have hpage : 0 < PAGE_SIZE := by decide
      rw [again_pos (Nat.pos_of_ne_zero hz), List.flatten_cons]
      by_cases hi : i < min remaining PAGE_SIZE
      · rw [List.getElem?_append_left (by omega), List.getElem?_take, if_pos hi,
          if_pos (by omega), Nat.mod_eq_of_lt (by omega)]
      · rw [List.getElem?_append_right (by omega), hlen,
          ih (remaining - min remaining PAGE_SIZE) (by omega) (by omega)]
        by_cases hin : i < remaining
        · have hle : min remaining PAGE_SIZE = PAGE_SIZE := by omega
          rw [hle, if_pos (by omega), if_pos hin, ← Nat.mod_eq_sub_mod (by omega)]
        · rw [if_neg (by omega), if_neg hin]

theorem repeats_mod (h : Repeats bytes) (hi : i < bytes.length) :
    bytes[i]? = bytes[i % PAGE_SIZE]? := by
  induction i using Nat.strong_induction_on with
  | _ i ih =>
    by_cases hlt : i < PAGE_SIZE
    · rw [Nat.mod_eq_of_lt hlt]
    · have hpage : 0 < PAGE_SIZE := by decide
      have hback := h (i - PAGE_SIZE) (by omega)
      rw [Nat.sub_add_cancel (by omega)] at hback
      rw [hback, ih (i - PAGE_SIZE) (by omega) (by omega), ← Nat.mod_eq_sub_mod (by omega)]

/-- The beginning over and over is the whole only where the bytes repeat. -/
theorem again_flatten_iff (bytes : List UInt8) :
    (again bytes bytes.length).flatten = bytes ↔ Repeats bytes := by
  constructor
  · intro h i hi
    have hlow := again_getElem? (le_refl bytes.length) i
    have hhigh := again_getElem? (le_refl bytes.length) (i + PAGE_SIZE)
    rw [h, if_pos (by omega)] at hlow
    rw [h, if_pos hi, Nat.add_mod_right] at hhigh
    rw [hlow, hhigh]
  · intro h
    apply List.ext_getElem?
    intro i
    rw [again_getElem? (le_refl _)]
    by_cases hi : i < bytes.length
    · rw [if_pos hi, repeats_mod h hi]
    · rw [if_neg hi, List.getElem?_eq_none (by omega)]

theorem chunks_again (hr : remaining ≤ bytes.length) :
    chunks (again bytes remaining).flatten = again bytes remaining := by
  induction remaining using Nat.strong_induction_on with
  | _ remaining ih =>
    by_cases hz : remaining = 0
    · rw [hz, again_zero, List.flatten_nil, chunks, if_pos rfl]
    · have hlen : (bytes.take (min remaining PAGE_SIZE)).length = min remaining PAGE_SIZE := by
        rw [List.length_take]
        omega
      have hpage : 0 < PAGE_SIZE := by decide
      rw [again_pos (Nat.pos_of_ne_zero hz), List.flatten_cons, chunks, if_neg]
      · by_cases hle : remaining ≤ PAGE_SIZE
        · have hrest : remaining - min remaining PAGE_SIZE = 0 := by omega
          rw [hrest, again_zero, List.flatten_nil, List.append_nil,
            List.take_of_length_le (by omega), List.drop_of_length_le (by omega), chunks,
            if_pos rfl]
        · have hmin : min remaining PAGE_SIZE = PAGE_SIZE := by omega
          rw [hmin] at hlen ⊢
          rw [List.take_left' hlen, List.drop_left' hlen, ih (remaining - PAGE_SIZE) (by omega)
            (by omega)]
      · intro hnil
        have hzero := congrArg List.length (List.append_eq_nil_iff.mp hnil).1
        rw [hlen, List.length_nil] at hzero
        omega

/-- For readable memory. -/
theorem delivered_writeLoop (h : readBytes mem buffer length = some bytes)
    (hrange : buffer + length ≤ USER_MAX) :
    Delivered mem buffer length (writeLoop write mem buffer length length fs) ↔
      Repeats bytes ∧ takenOf write fs (chunks bytes) = length := by
  obtain ⟨hhanded, htaken, hret⟩ := writeLoop_eq write fs h hrange (le_refl _)
  have hlen := readBytes_length h
  have hagain := again_flatten_iff bytes
  have hchunks := chunks_again (le_refl bytes.length)
  rw [hlen] at hagain hchunks
  unfold Delivered
  rw [hhanded, htaken, hret]
  cases write with
  | none =>
    have hnone (cs : List (List UInt8)) : takenOf none fs cs = 0 := by
      induction cs with
      | nil => rfl
      | cons c cs ih => exact (Nat.zero_add _).trans ih
    rw [hnone, hnone, Option.isSome_none, if_neg Bool.false_ne_true, List.flatten_nil]
    constructor
    · rintro ⟨_, -, -, hzero⟩
      refine ⟨fun i hi => ?_, hzero.symm⟩
      omega
    · rintro ⟨-, hzero⟩
      exact ⟨bytes, h, (List.eq_nil_of_length_eq_zero (by omega)).symm, hzero.symm⟩
  | some write =>
    rw [Option.isSome_some, if_pos rfl]
    constructor
    · rintro ⟨l, hl, hflat, htotal⟩
      obtain rfl : bytes = l := Option.some.inj (h.symm.trans hl)
      rw [hflat] at hchunks
      rw [hchunks]
      exact ⟨hagain.mp hflat, htotal.symm⟩
    · rintro ⟨hrep, htotal⟩
      have hflat := hagain.mpr hrep
      rw [hflat] at hchunks
      rw [hchunks] at htotal
      exact ⟨bytes, h, hflat, htotal.symm⟩

/-! ## The system call -/

/-- The call passes the checks, and the file is an ordinary one of a local file system. -/
structure LocalWrite (E : Env σ) (s : State) (p : ℕ) (fd : ℤ) (buffer length : UInt64) : Prop where
  valid : ubufValidate buffer length
  desc : 0 ≤ fd ∧ fd < FILE_DESC_PER_PROCESS
  file : s.fds p fd.toNat ≠ 0
  rights : capCheckRights s p fd CAP_WRITE
  fsys : E.srvfsOwns (s.node (s.fds p fd.toNat)).device = false
  general : (s.node (s.fds p fd.toNat)).has FS_FLAG_GENERAL
  tty : (s.node (s.fds p fd.toNat)).has FS_FLAG_TTY = false

theorem ubufValidate_spec {p len : UInt64} (h : ubufValidate p len) :
    p ≠ 0 ∧ p.toNat + len.toNat ≤ USER_MAX := by
  unfold ubufValidate ptrValidate at h
  simp only [Bool.and_eq_true, decide_eq_true_eq] at h
  obtain ⟨⟨⟨⟨⟨⟨hmin, -⟩, -⟩, -⟩, -⟩, hmax⟩, hlen⟩ := h
  have hsub := UInt64.toNat_sub_of_le _ _ hmax
  rw [ge_iff_le, UInt64.le_iff_toNat_le] at hmin
  rw [UInt64.le_iff_toNat_le, UInt64.toNat_add, hsub] at hlen
  rw [UInt64.le_iff_toNat_le] at hmax
  have hlow : PTR_MIN.toNat = 0x10000 := rfl
  have hhigh : PTR_USER_MAX.toNat = 0x0000FFFFFFFFFFFF := rfl
  have hone : (1 : UInt64).toNat = 1 := rfl
  constructor
  · rintro rfl
    have hzero : (0 : UInt64).toNat = 0 := rfl
    omega
  · unfold USER_MAX
    omega

theorem LocalWrite.eq {E : Env σ} {s : State} {p : ℕ} {fd : ℤ} {buffer length : UInt64}
    (hl : LocalWrite E s p fd buffer length) (mem : UserMem) (fs : σ) :
    writeFile E s (some p) mem fd buffer length fs =
      writeLoop E.write mem buffer.toNat length.toNat length.toNat fs := by
  have hnull := (ubufValidate_spec hl.valid).1
  have hdesc := hl.desc
  unfold writeFile
  dsimp only
  rw [hl.valid, Bool.not_true, if_neg Bool.false_ne_true]
  by_cases hz : length = 0
  · rw [hz, if_pos (.inr (.inr (.inl rfl))), writeLoop]
    exact (if_pos rfl).symm
  · rw [if_neg, if_neg hl.file, hl.rights, Bool.not_true, if_neg Bool.false_ne_true, hl.fsys,
      if_neg Bool.false_ne_true, hl.general, hl.tty, Bool.not_false, Bool.and_true, if_pos rfl]
    rintro (h | h | h | h)
    · omega
    · exact hnull h
    · exact hz h
    · omega

/-- The file system gets the caller's bytes, and their number is the result, exactly where the
bytes can be read, repeat page by page, and are all taken. -/
theorem writeFile_delivered (E : Env σ) (s : State) (p : ℕ) (mem : UserMem) (fd : ℤ)
    (buffer length : UInt64) (fs : σ) (hl : LocalWrite E s p fd buffer length) :
    Delivered mem buffer.toNat length.toNat (writeFile E s (some p) mem fd buffer length fs) ↔
      ∃ bytes, readBytes mem buffer.toNat length.toNat = some bytes ∧ Repeats bytes ∧
        takenOf E.write fs (chunks bytes) = length.toNat := by
  have hrange := (ubufValidate_spec hl.valid).2
  rw [hl.eq]
  constructor
  · intro h
    have hbytes := h
    obtain ⟨bytes, hread, -⟩ := hbytes
    exact ⟨bytes, hread, (delivered_writeLoop hread hrange).mp h⟩
  · rintro ⟨bytes, hread, h⟩
    exact (delivered_writeLoop hread hrange).mpr h

/-- A process whose descriptor 3 is an ordinary file that it may write. -/
def oneFile : State where
  caps _ _ := ⟨1, CAP_OBJ_FILE, CAP_WRITE, 0, CAP_FLAG_NONE, true⟩
  fds _ _ := 1
  creds _ := ⟨0, 0, []⟩
  node _ := ⟨FS_FLAG_GENERAL, 0, 2, 0, false⟩
  nextNode := 2
  refcount _ := 0
  freed _ := 0
  hooks _ := 0
  hw := Hw.boot fun _ => 0

/-- A file system that keeps all it gets. -/
def keepAll : Env (List UInt8) where
  srvfsOwns _ := false
  write := some fun fs page n => (fs ++ page.take n, n)
  elsewhere fs := ⟨fs, [], 0, 0⟩

theorem writeFile_delivered_short :
    Delivered (fun a => some (UInt8.ofNat a)) 0x20001 3
      (writeFile keepAll oneFile (some 0) (fun a => some (UInt8.ofNat a)) 3 0x20001 3 []) := by
  apply (writeFile_delivered keepAll oneFile 0 (fun a => some (UInt8.ofNat a)) 3 0x20001 3 []
    ⟨by decide, by decide, by decide, by decide, rfl, rfl, rfl⟩).mpr
  refine ⟨[1, 2, 3], rfl, fun i hi => ?_, ?_⟩
  · change i + 4096 < 3 at hi
    omega
  · rw [chunks, if_neg (by decide)]
    change 3 + takenOf _ _ (chunks []) = 3
    rw [chunks, if_pos rfl]
    rfl

/-- Of two pages the first one is written twice. -/
theorem not_writeFile_delivered : ¬∀ (E : Env (List UInt8)) (s : State) (p : ℕ) (mem : UserMem)
    (fd : ℤ) (buffer length : UInt64) (fs : List UInt8), LocalWrite E s p fd buffer length →
      (∀ a, (mem a).isSome) →
      Delivered mem buffer.toNat length.toNat (writeFile E s (some p) mem fd buffer length fs) := by
  intro h
  let mem : UserMem := fun a => some (if a < 0x21000 then 0 else 1)
  have hl : LocalWrite keepAll oneFile 0 3 0x20000 4097 :=
    ⟨by decide, by decide, by decide, by decide, rfl, rfl, rfl⟩
  have hd := h keepAll oneFile 0 mem 3 0x20000 4097 [] hl fun _ => rfl
  rw [hl.eq] at hd
  obtain ⟨bytes, hread, -⟩ := id hd
  have hrep := ((delivered_writeLoop hread (ubufValidate_spec hl.valid).2).mp hd).1
  have hlen : bytes.length = 4097 := readBytes_length hread
  have hpage := hrep 0 (by rw [hlen]; decide)
  rw [readBytes_getElem? hread (by decide), readBytes_getElem? hread (by decide)] at hpage
  revert hpage
  decide

end Xeneva.Fileserv
