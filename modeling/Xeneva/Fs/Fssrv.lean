import Xeneva.Base.KeyTable
import Xeneva.Base.Scatter

/-!
# The file server

A flat set of files in memory, served over the messages of one endpoint. There are no handles:
every request names its file, and carries the uid that the kernel stamped on it.
-/

namespace Xeneva.Fssrv
open Base

def FSSRV_NAME_MAX : ℕ := 31
def FSSRV_MAX_DATA : ℕ := 4096
def FSSRV_OP_OPEN : UInt32 := 1
def FSSRV_OP_READ : UInt32 := 2
def FSSRV_OP_WRITE : UInt32 := 3
def FSSRV_OP_READDIR : UInt32 := 4
def FSSRV_OP_REMOVE : UInt32 := 5
def FSSRV_F_CREATE : UInt32 := 1
def FSSRV_F_WRITE : UInt32 := 2
def FSSRV_OK : ℤ := 0
def FSSRV_E_NOENT : ℤ := -1
def FSSRV_E_PERM : ℤ := -2
def FSSRV_E_INVAL : ℤ := -3
def FSSRV_E_NOSPC : ℤ := -4
def IPC_MAX_MSG : ℕ := 8192
def MAX_FILES : ℕ := 64
def MAX_FILE_SZ : ℕ := 256 * 1024

/-- `sizeof(FsReq)`: four words and the name. -/
def sizeofFsReq : ℕ := 16 + (FSSRV_NAME_MAX + 1)

/-- The word at place `k` of a message. -/
def u32At (buf : List UInt8) (k : ℕ) : UInt32 :=
  (buf.getD k 0).toUInt32 ||| (buf.getD (k + 1) 0).toUInt32 <<< 8 |||
    (buf.getD (k + 2) 0).toUInt32 <<< 16 ||| (buf.getD (k + 3) 0).toUInt32 <<< 24

/-- The bytes of a word. -/
def u32Bytes (w : UInt32) : List UInt8 :=
  [w.toUInt8, (w >>> 8).toUInt8, (w >>> 16).toUInt8, (w >>> 24).toUInt8]

structure FsReq where
  op : UInt32
  flags : UInt32
  offset : UInt32
  len : UInt32
  name : List UInt8
deriving DecidableEq

/-- The header of a message; its name ends at the first zero, or at the one put at its end. -/
def FsReq.ofBytes (buf : List UInt8) : FsReq where
  op := u32At buf 0
  flags := u32At buf 4
  offset := u32At buf 8
  len := u32At buf 12
  name := ((buf.drop 16).take FSSRV_NAME_MAX).takeWhile (· ≠ 0)

/-- An answer; its `len` is the length of the data. -/
structure FsResp where
  status : ℤ
  size : ℕ := 0
  uid : UInt32 := 0
  data : List UInt8 := []
deriving DecidableEq

/-- `FsDirEnt`: the name with zeros behind it, the size, the owner. -/
def dirEnt (name : List UInt8) (size : ℕ) (uid : UInt32) : List UInt8 :=
  name ++ List.replicate (FSSRV_NAME_MAX + 1 - name.length) 0 ++ u32Bytes (UInt32.ofNat size) ++
    u32Bytes uid

/-- `data` is the block of memory, of `cap` bytes; it is empty where there is none. -/
structure File where
  used : Bool
  name : List UInt8
  owner : Int32
  data : List UInt8
  size : ℕ
  cap : ℕ

/-- A slot of zeros. -/
def unused : File := ⟨false, [], 0, [], 0, 0⟩

def lookup (files : List File) (name : List UInt8) : Option ℕ :=
  files.findIdx? fun f => f.used && f.name == name

def create (files : List File) (name : List UInt8) (owner : Int32) : List File × Option ℕ :=
  match files.findIdx? fun f => !f.used with
  | none => (files, none)
  | some i => (files.set i { unused with used := true, name := name, owner := owner }, some i)

def may_write (owner uid : Int32) : Bool := uid == 0 || uid == owner

/-- The loop that doubles `cap`. -/
def doubled : ℕ → ℕ → ℕ → ℕ
  | 0, cap, _ => cap
  | fuel + 1, cap, need => if cap < need then doubled fuel (cap * 2 % 2 ^ 32) need else cap

/-- The file with room for `need` bytes; `malloc` says whether there is memory. -/
def grow (malloc : Bool) (f : File) (need : ℕ) : Option File :=
  if need > MAX_FILE_SZ then none
  else if need ≤ f.cap then some f
  else
    let cap := doubled 32 (if f.cap ≠ 0 then f.cap else 4096) need
    if !malloc then none
    else some { f with data := blit (List.replicate cap 0) 0 (f.data.take f.size), cap := cap }

/-! ## Requests -/

/-- The answer about a file. -/
def okResp (size : ℕ) (owner : Int32) (data : List UInt8) : FsResp :=
  ⟨FSSRV_OK, size, owner.toUInt32, data⟩

def serveOpen (files : List File) (req : FsReq) (uid : Int32) : List File × FsResp :=
  let (files, f) :=
    match lookup files req.name with
    | some i => (files, some i)
    | none =>
      if req.flags &&& FSSRV_F_CREATE ≠ 0 then create files req.name uid else (files, none)
  match f with
  | none => (files, { status := FSSRV_E_NOENT })
  | some i =>
    let f := files.getD i unused
    if req.flags &&& FSSRV_F_WRITE ≠ 0 ∧ !may_write f.owner uid then
      (files, { status := FSSRV_E_PERM })
    else (files, okResp f.size f.owner [])

def serveRead (files : List File) (req : FsReq) : FsResp :=
  match lookup files req.name with
  | none => { status := FSSRV_E_NOENT }
  | some i =>
    let f := files.getD i unused
    let n := if req.offset.toNat < f.size then
        min (min (f.size - req.offset.toNat) req.len.toNat) FSSRV_MAX_DATA
      else 0
    okResp f.size f.owner ((f.data.drop req.offset.toNat).take n)

/-- The loop over the slots of used files, `seen` of them behind it. -/
def dirLoop : List File → ℤ → ℤ → Option File
  | [], _, _ => none
  | f :: files, want, seen =>
    if !f.used then dirLoop files want seen
    else if seen = want then some f
    else dirLoop files want (seen + 1)

def serveReaddir (files : List File) (req : FsReq) : FsResp :=
  match dirLoop files req.offset.toBitVec.toInt 0 with
  | none => { status := FSSRV_E_NOENT }
  | some hit =>
    { status := FSSRV_OK, data := dirEnt hit.name hit.size hit.owner.toUInt32 }

def serveRemove (files : List File) (req : FsReq) (uid : Int32) : List File × FsResp :=
  match lookup files req.name with
  | none => (files, { status := FSSRV_E_NOENT })
  | some i =>
    if !may_write (files.getD i unused).owner uid then (files, { status := FSSRV_E_PERM })
    else (files.set i unused, { status := FSSRV_OK })

/-- The text is copied into the block, and the file ends behind it at the earliest. -/
def File.written (f : File) (offset : ℕ) (data : List UInt8) : File :=
  { f with
    data := blit f.data offset data
    size := if offset + data.length > f.size then offset + data.length else f.size }

/-- `data` is what follows the header. -/
def serveWrite (files : List File) (req : FsReq) (data : List UInt8) (uid : Int32)
    (malloc : Bool) : List File × FsResp :=
  match lookup files req.name with
  | none => (files, { status := FSSRV_E_NOENT })
  | some i =>
    let f := files.getD i unused
    if !may_write f.owner uid then (files, { status := FSSRV_E_PERM })
    else if data.length > req.len.toNat ∨ req.offset.toNat > MAX_FILE_SZ then
      (files, { status := FSSRV_E_NOSPC })
    else
      match grow malloc f ((req.offset.toNat + data.length) % 2 ^ 32) with
      | none => (files, { status := FSSRV_E_NOSPC })
      | some f =>
        let f := f.written req.offset.toNat data
        (files.set i f, okResp f.size f.owner [])

/-- The name on which the server kills itself, `crash.me`. -/
def crashMe : List UInt8 := [0x63, 0x72, 0x61, 0x73, 0x68, 0x2e, 0x6d, 0x65]

/-- A message that is received; `malloc` says whether there is memory for it. -/
structure Call where
  msg : List UInt8
  sender_uid : Int32
  malloc : Bool
  le : msg.length ≤ IPC_MAX_MSG

structure Server where
  files : List File
  alive : Bool

def Server.start : Server := ⟨List.replicate MAX_FILES unused, true⟩

/-- One turn of the loop of `main`. -/
def serve (s : Server) (c : Call) : Server × Option FsResp :=
  if !s.alive then (s, none)
  else if c.msg.length < sizeofFsReq then (s, some { status := FSSRV_E_INVAL })
  else
    let req := FsReq.ofBytes c.msg
    let answer (r : List File × FsResp) : Server × Option FsResp :=
      ({ s with files := r.1 }, some r.2)
    if req.op = FSSRV_OP_OPEN then
      if req.name = crashMe then ({ s with alive := false }, none)
      else answer (serveOpen s.files req c.sender_uid)
    else if req.op = FSSRV_OP_READ then answer (s.files, serveRead s.files req)
    else if req.op = FSSRV_OP_READDIR then answer (s.files, serveReaddir s.files req)
    else if req.op = FSSRV_OP_REMOVE then answer (serveRemove s.files req c.sender_uid)
    else if req.op = FSSRV_OP_WRITE then
      answer (serveWrite s.files req (c.msg.drop sizeofFsReq) c.sender_uid c.malloc)
    else answer (s.files, { status := FSSRV_E_INVAL })

/-! ## Invariants -/

/-- The block has `cap` bytes, which are zero behind the file's end. -/
structure File.WF (f : File) : Prop where
  data : f.data.length = f.cap
  size : f.size ≤ f.cap
  zero : ∀ i, f.size ≤ i → i < f.cap → f.data[i]? = some 0

/-- The name of a slot, if it is used. -/
def File.key (f : File) : Option (List UInt8) := if f.used then some f.name else none

/-- The bytes of the file. -/
def File.bytes (f : File) : List UInt8 := f.data.take f.size

/-- What every turn keeps. -/
structure FilesOk (files : List File) : Prop where
  slots : files.length = MAX_FILES
  distinct : KeysDistinct File.key files
  wf : ∀ f ∈ files, f.WF

variable {f f' : File} {files : List File} {name : List UInt8} {cap need fuel i : ℕ}
  {malloc : Bool} {data : List UInt8}

theorem unused_wf : unused.WF :=
  ⟨rfl, le_refl 0, fun _ _ h => absurd h (Nat.not_lt_zero _)⟩

theorem unused_key : unused.key = none := rfl

theorem File.key_iff : f.key = some name ↔ f.used = true ∧ f.name = name := by
  unfold File.key
  cases f.used <;> simp

theorem File.key_none : f.key = none ↔ f.used = false := by
  unfold File.key
  cases f.used <;> simp

theorem File.WF.bytes_length (h : f.WF) : f.bytes.length = f.size := by
  unfold File.bytes
  rw [List.length_take, h.data]
  exact Nat.min_eq_left h.size

theorem File.WF.bytes_getElem? (h : f.WF) (i : ℕ) (hi : i < f.cap) :
    f.data[i]? = if i < f.size then f.bytes[i]? else some 0 := by
  by_cases hlt : i < f.size
  · rw [if_pos hlt, File.bytes, List.getElem?_take_of_lt hlt]
  · rw [if_neg hlt]
    exact h.zero i (Nat.not_lt.mp hlt) hi

/-- Doubling goes on until there is room. -/
theorem doubled_ge (hneed : need ≤ 2 ^ 31) (hpos : need ≤ cap * 2 ^ fuel) :
    need ≤ doubled fuel cap need := by
  induction fuel generalizing cap with
  | zero =>
    unfold doubled
    omega
  | succ fuel ih =>
    unfold doubled
    by_cases hlt : cap < need
    · rw [if_pos hlt, Nat.mod_eq_of_lt (by omega)]
      apply ih
      rwa [Nat.mul_assoc, Nat.mul_comm 2, ← Nat.pow_succ]
    · rw [if_neg hlt]
      omega

/-- Growing keeps the file. -/
theorem grow_some (h : f.WF) (hg : grow malloc f need = some f') :
    f'.WF ∧ f'.bytes = f.bytes ∧ f'.size = f.size ∧ f'.owner = f.owner ∧ f'.key = f.key ∧
      need ≤ f'.cap := by
  unfold grow at hg
  by_cases hmax : need > MAX_FILE_SZ
  · rw [if_pos hmax] at hg
    exact absurd hg.symm (Option.some_ne_none _)
  rw [if_neg hmax] at hg
  by_cases hroom : need ≤ f.cap
  · rw [if_pos hroom, Option.some.injEq] at hg
    rw [← hg]
    exact ⟨h, rfl, rfl, rfl, rfl, hroom⟩
  · rw [if_neg hroom] at hg
    have hmax' : need ≤ 2 ^ 18 := Nat.not_lt.mp hmax
    have hge : need ≤ doubled 32 (if f.cap ≠ 0 then f.cap else 4096) need := by
      apply doubled_ge (by omega)
      have hpos : 0 < if f.cap ≠ 0 then f.cap else 4096 := by
        split_ifs <;> omega
      calc need ≤ 2 ^ 32 := by omega
        _ ≤ _ := Nat.le_mul_of_pos_left _ hpos
    generalize doubled 32 (if f.cap ≠ 0 then f.cap else 4096) need = n at hge hg
    cases malloc with
    | false => exact absurd hg.symm (Option.some_ne_none _)
    | true =>
    rw [← Option.some.inj hg]
    have hlen : (f.data.take f.size).length = f.size := h.bytes_length
    have hsize := h.size
    have hget (i : ℕ) : (blit (List.replicate n (0 : UInt8)) 0 (f.data.take f.size))[i]? =
        if i < f.size then f.bytes[i]? else (List.replicate n (0 : UInt8))[i]? := by
      rw [blit_getElem? (by rw [hlen, List.length_replicate]; omega), hlen]
      simp only [Nat.zero_le, true_and, Nat.zero_add, Nat.sub_zero]
      rfl
    refine ⟨⟨?_, by dsimp only; omega, fun i h1 h2 => ?_⟩, ?_, rfl, rfl, rfl, hge⟩
    · dsimp only
      rw [blit_length (by rw [hlen, List.length_replicate]; omega), List.length_replicate]
    · dsimp only at h1 h2 ⊢
      rw [hget, if_neg (by omega), List.getElem?_replicate_of_lt h2]
    · apply List.ext_getElem?
      intro i
      unfold File.bytes
      dsimp only
      rw [List.getElem?_take, List.getElem?_take, hget]
      by_cases hi : i < f.size
      · rw [if_pos hi, if_pos hi, if_pos hi, File.bytes, List.getElem?_take_of_lt hi]
      · rw [if_neg hi, if_neg hi]

theorem grow_none_iff :
    grow malloc f need = none ↔ need > MAX_FILE_SZ ∨ f.cap < need ∧ malloc = false := by
  unfold grow
  by_cases hmax : need > MAX_FILE_SZ
  · rw [if_pos hmax]
    exact iff_of_true rfl (.inl hmax)
  rw [if_neg hmax, or_iff_right hmax]
  by_cases hroom : need ≤ f.cap
  · rw [if_pos hroom]
    exact iff_of_false (Option.some_ne_none _) fun h => by omega
  · rw [if_neg hroom, and_iff_right (Nat.not_le.mp hroom)]
    cases malloc with
    | false => exact iff_of_true rfl rfl
    | true => exact iff_of_false (Option.some_ne_none _) fun h => Bool.false_ne_true h.symm

/-- The text that is put at a place of a file; a hole before it is zero. -/
def overlay (bytes : List UInt8) (offset : ℕ) (data : List UInt8) : List UInt8 :=
  blit (bytes ++ List.replicate (offset + data.length - bytes.length) 0) offset data

theorem overlay_length (bytes : List UInt8) (offset : ℕ) (data : List UInt8) :
    (overlay bytes offset data).length = max bytes.length (offset + data.length) := by
  unfold overlay
  rw [blit_length] <;> rw [List.length_append, List.length_replicate] <;> omega

theorem overlay_getElem? (bytes : List UInt8) (offset : ℕ) (data : List UInt8) {i : ℕ}
    (hi : i < max bytes.length (offset + data.length)) :
    (overlay bytes offset data)[i]? =
      if offset ≤ i ∧ i < offset + data.length then data[i - offset]?
      else if i < bytes.length then bytes[i]? else some 0 := by
  unfold overlay
  rw [blit_getElem? (by rw [List.length_append, List.length_replicate]; omega)]
  by_cases hin : offset ≤ i ∧ i < offset + data.length
  · rw [if_pos hin, if_pos hin]
  · rw [if_neg hin, if_neg hin, List.getElem?_append]
    by_cases hlt : i < bytes.length
    · rw [if_pos hlt, if_pos hlt]
    · rw [if_neg hlt, if_neg hlt, List.getElem?_replicate_of_lt (by omega)]

/-- Writing into a block that has room. -/
theorem File.WF.written (h : f.WF) {offset : ℕ} (hroom : offset + data.length ≤ f.cap) :
    (f.written offset data).WF ∧
      (f.written offset data).bytes = overlay f.bytes offset data := by
  have hsize := h.size
  have hlen := h.data
  have hmax : (if offset + data.length > f.size then offset + data.length else f.size) =
      max f.size (offset + data.length) := by
    split_ifs <;> omega
  have hget (i : ℕ) : (blit f.data offset data)[i]? =
      if offset ≤ i ∧ i < offset + data.length then data[i - offset]? else f.data[i]? :=
    blit_getElem? (by omega) i
  unfold File.written
  rw [hmax]
  refine ⟨⟨?_, ?_, ?_⟩, ?_⟩
  · dsimp only
    rw [blit_length (by omega), hlen]
  · dsimp only
    omega
  · intro i h1 h2
    dsimp only at h1 h2 ⊢
    rw [hget, if_neg (by omega)]
    exact h.zero i (by omega) h2
  · apply List.ext_getElem?
    intro i
    have hb := h.bytes_length
    by_cases hi : i < max f.size (offset + data.length)
    · unfold File.bytes
      dsimp only
      rw [List.getElem?_take_of_lt hi, hget, ← File.bytes, overlay_getElem? _ _ _ (by omega), hb,
        h.bytes_getElem? i (by omega)]
    · rw [List.getElem?_eq_none (by rw [File.bytes, List.length_take]; dsimp only; omega),
        List.getElem?_eq_none (by rw [overlay_length]; omega)]

theorem File.WF.read (h : f.WF) (offset len : ℕ) :
    (f.data.drop offset).take (if offset < f.size then
        min (min (f.size - offset) len) FSSRV_MAX_DATA else 0) =
      (f.bytes.drop offset).take (min len FSSRV_MAX_DATA) := by
  have hb := h.bytes_length
  by_cases hlt : offset < f.size
  · rw [if_pos hlt]
    unfold File.bytes
    rw [List.drop_take, List.take_take]
    congr 1
    omega
  · rw [if_neg hlt, List.take_zero, List.drop_of_length_le (by omega), List.take_nil]

end Xeneva.Fssrv
