import Xeneva.Base.Run
import Xeneva.Fs.Fssrv

/-!
# The file server as a map

The server answers as a map from names to owners and bytes does. What the map cannot know is the
order in which the server lists its names, and when memory for a write runs out.
-/

namespace Xeneva.Fssrv
open Base

structure Entry where
  owner : Int32
  bytes : List UInt8

abbrev Store := List UInt8 → Option Entry

/-- A message with the names in the order they are listed, and whether memory runs out. -/
structure Turn where
  call : Call
  listing : List (List UInt8)
  refused : Bool

def Entry.resp (e : Entry) (data : List UInt8) : FsResp := okResp e.bytes.length e.owner data

def mapOpen (m : Store) (listing : List (List UInt8)) (req : FsReq) (uid : Int32) :
    Store × FsResp :=
  match m req.name with
  | some e =>
    if req.flags &&& FSSRV_F_WRITE ≠ 0 ∧ !may_write e.owner uid then
      (m, { status := FSSRV_E_PERM })
    else (m, e.resp [])
  | none =>
    if req.flags &&& FSSRV_F_CREATE ≠ 0 ∧ listing.length < MAX_FILES then
      (Function.update m req.name (some ⟨uid, []⟩), (Entry.mk uid []).resp [])
    else (m, { status := FSSRV_E_NOENT })

def mapRead (m : Store) (req : FsReq) : FsResp :=
  match m req.name with
  | none => { status := FSSRV_E_NOENT }
  | some e => e.resp ((e.bytes.drop req.offset.toNat).take (min req.len.toNat FSSRV_MAX_DATA))

def mapReaddir (m : Store) (listing : List (List UInt8)) (req : FsReq) : FsResp :=
  match listing[req.offset.toNat]? with
  | none => { status := FSSRV_E_NOENT }
  | some n =>
    match m n with
    | none => { status := FSSRV_E_NOENT }
    | some e => { status := FSSRV_OK, data := dirEnt n e.bytes.length e.owner.toUInt32 }

def mapRemove (m : Store) (req : FsReq) (uid : Int32) : Store × FsResp :=
  match m req.name with
  | none => (m, { status := FSSRV_E_NOENT })
  | some e =>
    if !may_write e.owner uid then (m, { status := FSSRV_E_PERM })
    else (Function.update m req.name none, { status := FSSRV_OK })

def mapWrite (m : Store) (req : FsReq) (data : List UInt8) (uid : Int32) (refused : Bool) :
    Store × FsResp :=
  match m req.name with
  | none => (m, { status := FSSRV_E_NOENT })
  | some e =>
    if !may_write e.owner uid then (m, { status := FSSRV_E_PERM })
    else if data.length > req.len.toNat ∨ req.offset.toNat + data.length > MAX_FILE_SZ ∨
        refused = true then (m, { status := FSSRV_E_NOSPC })
    else
      let e := { e with bytes := overlay e.bytes req.offset.toNat data }
      (Function.update m req.name (some e), e.resp [])

structure MapServer where
  files : Store
  alive : Bool

def MapServer.start : MapServer := ⟨fun _ => none, true⟩

def mapServe (s : MapServer) (t : Turn) : MapServer × Option FsResp :=
  if !s.alive then (s, none)
  else if t.call.msg.length < sizeofFsReq then (s, some { status := FSSRV_E_INVAL })
  else
    let req := FsReq.ofBytes t.call.msg
    let answer (r : Store × FsResp) : MapServer × Option FsResp :=
      ({ s with files := r.1 }, some r.2)
    if req.op = FSSRV_OP_OPEN then
      if req.name = crashMe then ({ s with alive := false }, none)
      else answer (mapOpen s.files t.listing req t.call.sender_uid)
    else if req.op = FSSRV_OP_READ then answer (s.files, mapRead s.files req)
    else if req.op = FSSRV_OP_READDIR then answer (s.files, mapReaddir s.files t.listing req)
    else if req.op = FSSRV_OP_REMOVE then answer (mapRemove s.files req t.call.sender_uid)
    else if req.op = FSSRV_OP_WRITE then
      answer (mapWrite s.files req (t.call.msg.drop sizeofFsReq) t.call.sender_uid t.refused)
    else answer (s.files, { status := FSSRV_E_INVAL })

/-! ## What the server holds -/

def File.entry (f : File) : Entry := ⟨f.owner, f.bytes⟩

/-- The map of the server. -/
def contents (files : List File) : Store := fun n => (tableMap File.key files n).map File.entry

/-- The write needs memory that there is not. -/
def refused (files : List File) (c : Call) : Bool :=
  let req := FsReq.ofBytes c.msg
  match lookup files req.name with
  | none => false
  | some i =>
    decide ((files.getD i unused).cap <
      (req.offset.toNat + (c.msg.drop sizeofFsReq).length) % 2 ^ 32) && !c.malloc

def turn (s : Server) (c : Call) : Turn := ⟨c, keys File.key s.files, refused s.files c⟩

variable {f f' : File} {files : List File} {name : List UInt8} {i : ℕ} {req : FsReq}
  {uid : Int32} {malloc : Bool} {data : List UInt8} {s : Server} {c : Call}

theorem contents_none (h : tableMap File.key files name = none) : contents files name = none := by
  unfold contents
  rw [h]
  rfl

theorem contents_some (h : tableMap File.key files name = some f) :
    contents files name = some f.entry := by
  unfold contents
  rw [h]
  rfl

theorem lookup_none (h : lookup files name = none) : tableMap File.key files name = none := by
  rw [tableMap_eq_none]
  intro f hf hk
  have hno := List.findIdx?_eq_none_iff.mp h f hf
  obtain ⟨hused, hname⟩ := File.key_iff.mp hk
  rw [hused, hname, Bool.true_and, beq_self_eq_true] at hno
  exact Bool.false_ne_true hno.symm

/-- What `lookup` finds is what the table has under the name. -/
theorem FilesOk.lookup_some (h : FilesOk files) (hl : lookup files name = some i) :
    ∃ f, files[i]? = some f ∧ f.key = some name ∧ files.getD i unused = f ∧
      tableMap File.key files name = some f ∧ f.WF := by
  obtain ⟨hlt, hp, -⟩ := List.findIdx?_eq_some_iff_getElem.mp hl
  rw [Bool.and_eq_true, beq_iff_eq] at hp
  have hi : files[i]? = some files[i] := List.getElem?_eq_getElem hlt
  have hk : (files[i]).key = some name := File.key_iff.mpr hp
  refine ⟨files[i], hi, hk, ?_, h.distinct.tableMap_eq_some.mpr ⟨hk, i, hi⟩,
    h.wf _ (List.getElem_mem hlt)⟩
  rw [List.getD_eq_getElem?_getD, hi]
  rfl

theorem contents_update {t : List UInt8 → Option File}
    (h : tableMap File.key files = Function.update t name (some f)) :
    contents files = Function.update (fun n => (t n).map File.entry) name (some f.entry) := by
  funext n
  unfold contents
  rw [h]
  by_cases hn : n = name
  · rw [hn, Function.update_self, Function.update_self]
    rfl
  · rw [Function.update_of_ne hn, Function.update_of_ne hn]

/-- Putting a file into a slot that is free, or was its own. -/
theorem FilesOk.fill (h : FilesOk files) (hi : files[i]? = some f)
    (hk : f.key = none ∨ f.key = some name) (ho : OnlyAt File.key files i name)
    (hk' : f'.key = some name) (hwf : f'.WF) :
    FilesOk (files.set i f') ∧
      contents (files.set i f') = Function.update (contents files) name (some f'.entry) := by
  obtain ⟨hd, hmap⟩ := h.distinct.tableMap_fill hi hk hk' ho
  refine ⟨⟨(List.length_set ..).trans h.slots, hd, fun g hg => ?_⟩, contents_update hmap⟩
  rcases List.mem_or_eq_of_mem_set hg with hg | hg
  · exact h.wf g hg
  · rw [hg]
    exact hwf

theorem FilesOk.free (h : FilesOk files) (hi : files[i]? = some f) (hk : f.key = some name) :
    FilesOk (files.set i unused) ∧
      contents (files.set i unused) = Function.update (contents files) name none := by
  obtain ⟨hd, hmap⟩ := h.distinct.tableMap_free hi hk unused_key
  refine ⟨⟨(List.length_set ..).trans h.slots, hd, fun g hg => ?_⟩, ?_⟩
  · rcases List.mem_or_eq_of_mem_set hg with hg | hg
    · exact h.wf g hg
    · rw [hg]
      exact unused_wf
  · funext n
    unfold contents
    rw [hmap]
    by_cases hn : n = name
    · rw [hn, Function.update_self, Function.update_self]
      rfl
    · rw [Function.update_of_ne hn, Function.update_of_ne hn]

/-- The answer about a file is that about its entry. -/
theorem File.WF.resp (h : f.WF) (data : List UInt8) :
    okResp f.size f.owner data = f.entry.resp data := by
  unfold Entry.resp File.entry
  dsimp only
  rw [h.bytes_length]

/-! ## The requests -/

/-- A request does to the files what the other does to the map, and answers alike. -/
structure Agrees (files : List File) (r : List File × FsResp) (r' : Store × FsResp) : Prop where
  ok : FilesOk r.1
  files : contents r.1 = r'.1
  answer : r.2 = r'.2

theorem FilesOk.agrees (h : FilesOk files) {a b : FsResp} (hab : a = b) :
    Agrees files (files, a) (contents files, b) :=
  ⟨h, rfl, hab⟩

/-- A new file takes a free slot. -/
theorem FilesOk.create (h : FilesOk files) (hnone : tableMap File.key files name = none)
    (owner : Int32) :
    (create files name owner = (files, none) ∧ ¬ (keys File.key files).length < MAX_FILES) ∨
    ∃ i f, create files name owner = (files.set i f, some i) ∧ (files.set i f).getD i unused = f ∧
      f.WF ∧ f.entry = ⟨owner, []⟩ ∧ (keys File.key files).length < MAX_FILES ∧
      FilesOk (files.set i f) ∧
      contents (files.set i f) = Function.update (contents files) name (some f.entry) := by
  have hroom : (keys File.key files).length < files.length ↔ ∃ x ∈ files, x.key = none :=
    keys_length_lt
  rw [h.slots] at hroom
  unfold Fssrv.create
  cases hf : files.findIdx? fun f => !f.used with
  | none =>
    refine .inl ⟨rfl, fun hlt => ?_⟩
    obtain ⟨f, hmem, hk⟩ := hroom.mp hlt
    have hused := List.findIdx?_eq_none_iff.mp hf f hmem
    rw [File.key_none.mp hk] at hused
    exact Bool.false_ne_true hused.symm
  | some i =>
    obtain ⟨hlt, hp, -⟩ := List.findIdx?_eq_some_iff_getElem.mp hf
    have hi : files[i]? = some files[i] := List.getElem?_eq_getElem hlt
    have hfree : (files[i]).key = none := File.key_none.mpr (by simpa using hp)
    have hwf : ({ unused with used := true, name := name, owner := owner } : File).WF :=
      ⟨rfl, le_refl 0, fun _ _ h => absurd h (Nat.not_lt_zero _)⟩
    obtain ⟨hok, hc⟩ := h.fill hi (.inl hfree) (onlyAt_of_none hnone i)
      (show ({ unused with used := true, name := name, owner := owner } : File).key = some name
        from rfl) hwf
    refine .inr ⟨i, _, rfl, ?_, hwf, rfl, hroom.mpr ⟨_, List.getElem_mem hlt, hfree⟩, hok, hc⟩
    rw [List.getD_eq_getElem?_getD, List.getElem?_set_self hlt]
    rfl

theorem FilesOk.serveOpen (h : FilesOk files) (req : FsReq) (uid : Int32) :
    Agrees files (serveOpen files req uid)
      (mapOpen (contents files) (keys File.key files) req uid) := by
  unfold Fssrv.serveOpen mapOpen
  cases hl : lookup files req.name with
  | some i =>
    obtain ⟨f, -, -, hget, hmap, hwf⟩ := h.lookup_some hl
    rw [contents_some hmap]
    dsimp only
    rw [hget, show f.entry.owner = f.owner from rfl]
    split_ifs with hperm
    · exact h.agrees rfl
    · exact h.agrees (hwf.resp [])
  | none =>
    have hnone := lookup_none hl
    rw [contents_none hnone]
    dsimp only
    by_cases hflag : req.flags &&& FSSRV_F_CREATE ≠ 0
    · rw [if_pos hflag]
      rcases h.create hnone uid with ⟨hc, hfull⟩ | ⟨i, f, hc, hget, hwf, hf, hroom, hok, hmap⟩
      · rw [hc, if_neg fun hand => hfull hand.2]
        exact h.agrees rfl
      · rw [hc, if_pos ⟨hflag, hroom⟩]
        dsimp only
        have howner : f.owner = uid := congrArg Entry.owner hf
        have hmay : may_write f.owner uid = true := by
          unfold may_write
          rw [howner, beq_self_eq_true, Bool.or_true]
        rw [hget, hmay, if_neg fun hand => Bool.false_ne_true hand.2, hwf.resp, ← hf]
        exact ⟨hok, hmap, rfl⟩
    · rw [if_neg hflag, if_neg fun hand => hflag hand.1]
      exact h.agrees rfl

theorem FilesOk.serveRead (h : FilesOk files) (req : FsReq) :
    serveRead files req = mapRead (contents files) req := by
  unfold Fssrv.serveRead mapRead
  cases hl : lookup files req.name with
  | none => rw [contents_none (lookup_none hl)]
  | some i =>
    obtain ⟨f, -, -, hget, hmap, hwf⟩ := h.lookup_some hl
    rw [contents_some hmap]
    dsimp only
    rw [hget, hwf.read, hwf.resp]
    rfl

theorem FilesOk.serveRemove (h : FilesOk files) (req : FsReq) (uid : Int32) :
    Agrees files (serveRemove files req uid) (mapRemove (contents files) req uid) := by
  unfold Fssrv.serveRemove mapRemove
  cases hl : lookup files req.name with
  | none =>
    rw [contents_none (lookup_none hl)]
    exact h.agrees rfl
  | some i =>
    obtain ⟨f, hi, hk, hget, hmap, -⟩ := h.lookup_some hl
    rw [contents_some hmap]
    dsimp only
    rw [hget]
    unfold File.entry
    dsimp only
    split_ifs with hperm
    · exact h.agrees rfl
    · obtain ⟨hok, hc⟩ := h.free hi hk
      exact ⟨hok, hc, rfl⟩

theorem refused_iff (hf : lookup files (FsReq.ofBytes c.msg).name = some i) :
    refused files c = true ↔ (files.getD i unused).cap <
      ((FsReq.ofBytes c.msg).offset.toNat + (c.msg.drop sizeofFsReq).length) % 2 ^ 32 ∧
        c.malloc = false := by
  unfold refused
  dsimp only
  rw [hf]
  simp

theorem FilesOk.serveWrite (h : FilesOk files) (c : Call) :
    Agrees files
      (serveWrite files (FsReq.ofBytes c.msg) (c.msg.drop sizeofFsReq) c.sender_uid c.malloc)
      (mapWrite (contents files) (FsReq.ofBytes c.msg) (c.msg.drop sizeofFsReq) c.sender_uid
        (refused files c)) := by
  have hmsg : (c.msg.drop sizeofFsReq).length ≤ 2 ^ 13 := by
    have := c.le
    rw [List.length_drop]
    unfold IPC_MAX_MSG at this
    omega
  have hmax : MAX_FILE_SZ = 2 ^ 18 := rfl
  have hrefused (i : ℕ) (hl : lookup files (FsReq.ofBytes c.msg).name = some i) :=
    refused_iff hl
  unfold Fssrv.serveWrite mapWrite
  generalize refused files c = full at hrefused ⊢
  generalize FsReq.ofBytes c.msg = req at hrefused ⊢
  generalize c.msg.drop sizeofFsReq = data at hmsg hrefused ⊢
  cases hl : lookup files req.name with
  | none =>
    rw [contents_none (lookup_none hl)]
    exact h.agrees rfl
  | some i =>
    obtain ⟨f, hi, hk, hget, hmap, hwf⟩ := h.lookup_some hl
    rw [contents_some hmap]
    dsimp only
    rw [hget]
    rw [show f.entry.owner = f.owner from rfl]
    by_cases hperm : !may_write f.owner c.sender_uid
    · rw [if_pos hperm, if_pos hperm]
      exact h.agrees rfl
    rw [if_neg hperm, if_neg hperm]
    by_cases hlow : data.length > req.len.toNat ∨ req.offset.toNat > MAX_FILE_SZ
    · rw [if_pos hlow, if_pos (by omega)]
      exact h.agrees rfl
    -- nothing wraps, as the offset is within the largest file
    have hmod : (req.offset.toNat + data.length) % 2 ^ 32 = req.offset.toNat + data.length :=
      Nat.mod_eq_of_lt (by omega)
    have hnone := @grow_none_iff f (req.offset.toNat + data.length) c.malloc
    have hfull := hrefused i hl
    rw [hget, hmod] at hfull
    rw [if_neg hlow, hmod]
    rw [← hfull] at hnone
    cases hg : grow c.malloc f (req.offset.toNat + data.length) with
    | none =>
      rw [if_pos (.inr (hnone.mp hg))]
      exact h.agrees rfl
    | some f' =>
      rw [hg] at hnone
      have hroom := mt hnone.mpr (Option.some_ne_none _)
      rw [if_neg fun hand => hand.elim (fun h1 => hlow (.inl h1)) hroom]
      obtain ⟨hwf', hbytes, hsize, howner, hkey, hcap⟩ := grow_some hwf hg
      obtain ⟨hnew, hover⟩ := hwf'.written hcap
      have hkey' : (f'.written req.offset.toNat data).key = some req.name := hkey.trans hk
      obtain ⟨hok, hc⟩ := h.fill hi (.inr hk) (h.distinct.onlyAt hi hk) hkey' hnew
      have hentry : (f'.written req.offset.toNat data).entry =
          ⟨f.owner, overlay f.entry.bytes req.offset.toNat data⟩ := by
        unfold File.entry
        rw [hover, hbytes]
        exact congrArg (Entry.mk · _) howner
      dsimp only
      rw [hnew.resp, hentry]
      exact ⟨hok, hc.trans (by rw [hentry]), rfl⟩

/-- The loop over the directory finds the used file of that number. -/
theorem dirLoop_eq (files : List File) (want seen : ℤ) :
    dirLoop files want seen =
      if want < seen then none else (files.filter (·.used))[(want - seen).toNat]? := by
  induction files generalizing seen with
  | nil =>
    unfold dirLoop
    split_ifs <;> rfl
  | cons f files ih =>
    unfold dirLoop
    cases hf : f.used with
    | false =>
      rw [List.filter_cons_of_neg (by rw [hf]; exact Bool.false_ne_true),
        Bool.not_false, if_pos rfl, ih]
    | true =>
      rw [List.filter_cons_of_pos hf, Bool.not_true, if_neg Bool.false_ne_true, ih]
      by_cases heq : seen = want
      · rw [if_pos heq, if_neg (by omega), heq, Int.sub_self]
        rfl
      · rw [if_neg heq]
        by_cases hlt : want < seen
        · rw [if_pos hlt, if_pos (by omega)]
        · rw [if_neg hlt, if_neg (by omega),
            show (want - seen).toNat = (want - (seen + 1)).toNat + 1 by omega,
            List.getElem?_cons_succ]

/-- The listing is that of the used files. -/
theorem keys_eq (files : List File) :
    keys File.key files = (files.filter (·.used)).map File.name := by
  induction files with
  | nil => rfl
  | cons f files ih =>
    unfold keys at ih ⊢
    cases hf : f.used with
    | false =>
      rw [List.filterMap_cons_none (File.key_none.mpr hf),
        List.filter_cons_of_neg (by rw [hf]; exact Bool.false_ne_true), ih]
    | true =>
      rw [List.filterMap_cons_some (File.key_iff.mpr ⟨hf, rfl⟩), List.filter_cons_of_pos hf,
        List.map_cons, ih]

theorem FilesOk.serveReaddir (h : FilesOk files) (req : FsReq) :
    serveReaddir files req = mapReaddir (contents files) (keys File.key files) req := by
  have hcount : (files.filter (·.used)).length ≤ MAX_FILES :=
    (List.length_filter_le ..).trans h.slots.le
  unfold MAX_FILES at hcount
  have hwant : dirLoop files req.offset.toBitVec.toInt 0 =
      (files.filter (·.used))[req.offset.toNat]? := by
    have hlt := req.offset.toNat_lt
    have hint : req.offset.toBitVec.toInt = if 2 * req.offset.toNat < 2 ^ 32 then
        (req.offset.toNat : ℤ) else req.offset.toNat - (2 ^ 32 : ℕ) :=
      BitVec.toInt_eq_toNat_cond _
    rw [dirLoop_eq, hint]
    by_cases hhalf : 2 * req.offset.toNat < 2 ^ 32
    · rw [if_pos hhalf, if_neg (by omega), Int.sub_zero, Int.toNat_natCast]
    · -- a negative number, behind the end of any listing
      rw [if_neg hhalf, if_pos (by omega)]
      exact (List.getElem?_eq_none (by omega)).symm
  unfold Fssrv.serveReaddir mapReaddir
  rw [hwant, keys_eq, List.getElem?_map]
  cases hf : (files.filter (·.used))[req.offset.toNat]? with
  | none => rfl
  | some f =>
    obtain ⟨hmem, hused⟩ := List.mem_filter.mp (List.mem_of_getElem? hf)
    have hmap : tableMap File.key files f.name = some f :=
      h.distinct.tableMap_eq_some.mpr
        ⟨File.key_iff.mpr ⟨hused, rfl⟩, List.mem_iff_getElem?.mp hmem⟩
    dsimp only [Option.map_some]
    rw [contents_some hmap]
    dsimp only
    rw [← (h.wf f hmem).bytes_length]
    rfl

/-! ## Runs -/

/-- The server holds what the map says. -/
structure Holds (s : Server) (m : MapServer) : Prop where
  ok : FilesOk s.files
  files : contents s.files = m.files
  alive : s.alive = m.alive

theorem serve_refinesVia : RefinesVia Holds turn serve mapServe := by
  intro s m c ⟨hok, hfiles, halive⟩
  obtain ⟨files, alive⟩ := s
  obtain ⟨store, alive'⟩ := m
  dsimp only at hok hfiles halive
  subst hfiles halive
  have hwrite := hok.serveWrite c
  unfold serve mapServe turn
  dsimp only
  generalize FsReq.ofBytes c.msg = req at hwrite ⊢
  have hopen := hok.serveOpen req c.sender_uid
  have hremove := hok.serveRemove req c.sender_uid
  split_ifs with hdead hshort hop hcrash hop hop hop hop
  · exact ⟨rfl, hok, rfl, rfl⟩
  · exact ⟨rfl, hok, rfl, rfl⟩
  · exact ⟨rfl, hok, rfl, rfl⟩
  · exact ⟨congrArg some hopen.answer, hopen.ok, hopen.files, rfl⟩
  · exact ⟨congrArg some (hok.serveRead req), hok, rfl, rfl⟩
  · exact ⟨congrArg some (hok.serveReaddir req), hok, rfl, rfl⟩
  · exact ⟨congrArg some hremove.answer, hremove.ok, hremove.files, rfl⟩
  · exact ⟨congrArg some hwrite.answer, hwrite.ok, hwrite.files, rfl⟩
  · exact ⟨rfl, hok, rfl, rfl⟩

theorem start_holds : Holds Server.start MapServer.start := by
  have hunused (f : File) (hf : f ∈ Server.start.files) : f = unused := List.eq_of_mem_replicate hf
  refine ⟨⟨List.length_replicate, ?_, fun f hf => ?_⟩, ?_, rfl⟩
  · intro i j x y k hi _ hx _
    rw [hunused x (List.mem_of_getElem? hi), unused_key] at hx
    exact absurd hx.symm (Option.some_ne_none _)
  · rw [hunused f hf]
    exact unused_wf
  · funext n
    apply contents_none
    rw [tableMap_eq_none]
    intro f hf
    rw [hunused f hf, unused_key]
    exact (Option.some_ne_none _).symm

theorem refused_malloc (h : refused files c = true) : c.malloc = false := by
  unfold refused at h
  dsimp only at h
  split at h
  · exact absurd h Bool.false_ne_true
  · rw [Bool.and_eq_true, Bool.not_eq_true'] at h
    exact h.2

/-- A turn leaves the map alone, or is a successful request of someone who may write there. -/
theorem mapServe_cases (m : MapServer) (t : Turn) :
    (mapServe m t).1.files = m.files ∨
    ∃ n v, (mapServe m t).1.files = Function.update m.files n v ∧
      (∃ r, (mapServe m t).2 = some r ∧ r.status = FSSRV_OK) ∧
      ∀ e, m.files n = some e → may_write e.owner t.call.sender_uid = true := by
  unfold mapServe
  dsimp only
  split_ifs with hdead hshort hop hcrash hop hop hop hop
  · exact .inl rfl
  · exact .inl rfl
  · exact .inl rfl
  · unfold mapOpen
    cases hm : m.files (FsReq.ofBytes t.call.msg).name with
    | some e =>
      dsimp only
      split_ifs <;> exact .inl rfl
    | none =>
      dsimp only
      split_ifs
      · refine .inr ⟨_, _, rfl, ⟨_, rfl, rfl⟩, fun e he => ?_⟩
        exact absurd (hm.symm.trans he).symm (Option.some_ne_none e)
      · exact .inl rfl
  · exact .inl rfl
  · exact .inl rfl
  · unfold mapRemove
    cases hm : m.files (FsReq.ofBytes t.call.msg).name with
    | none => exact .inl rfl
    | some e =>
      dsimp only
      split_ifs with hperm
      · exact .inl rfl
      · refine .inr ⟨_, _, rfl, ⟨_, rfl, rfl⟩, fun e' he => ?_⟩
        rw [← Option.some.inj (hm.symm.trans he)]
        simpa using hperm
  · unfold mapWrite
    cases hm : m.files (FsReq.ofBytes t.call.msg).name with
    | none => exact .inl rfl
    | some e =>
      dsimp only
      split_ifs with hperm hroom
      · exact .inl rfl
      · exact .inl rfl
      · refine .inr ⟨_, _, rfl, ⟨_, rfl, rfl⟩, fun e' he => ?_⟩
        rw [← Option.some.inj (hm.symm.trans he)]
        simpa using hperm
  · exact .inl rfl

theorem may_write_iff {owner uid : Int32} :
    may_write owner uid = true ↔ uid = 0 ∨ uid = owner := by
  unfold may_write
  rw [Bool.or_eq_true, beq_iff_eq, beq_iff_eq]

/-- The listing has every name once. -/
def Listed (files : List File) : Prop :=
  (keys File.key files).Nodup ∧ ∀ n, n ∈ keys File.key files ↔ (contents files n).isSome

/-- The files that the message of `uid` changes or removes are its own, unless `uid` is 0. -/
def Owned (m m' : Store) (uid : Int32) : Prop :=
  ∀ n e, m n = some e → m' n ≠ some e → uid = 0 ∨ uid = e.owner

/-- A request that fails changes nothing. -/
def Failing (m m' : Store) (r : Option FsResp) : Prop :=
  ∀ resp, r = some resp → resp.status ≠ FSSRV_OK → m' = m

/-- The text is in place, what was there before is around it, and a hole is zero. -/
def Overlays (bytes : List UInt8) (offset : ℕ) (data out : List UInt8) : Prop :=
  out.length = max bytes.length (offset + data.length) ∧
    ∀ i < out.length, out[i]? =
      if offset ≤ i ∧ i < offset + data.length then data[i - offset]?
      else if i < bytes.length then bytes[i]? else some 0

/-- The server answers as the map does. -/
theorem serve_refines (calls : List Call) :
    let s := run (fun s c => (serve s c).1) Server.start calls
    let turns := labels serve turn Server.start calls
    replies serve Server.start calls = replies mapServe MapServer.start turns ∧
      contents s.files = (run (fun m t => (mapServe m t).1) MapServer.start turns).files ∧
      turns.map Turn.call = calls ∧
      (∀ t ∈ turns, t.refused = true → t.call.malloc = false) ∧
      Listed s.files ∧
      (∀ c, Owned (contents s.files) (contents (serve s c).1.files) c.sender_uid ∧
        Failing (contents s.files) (contents (serve s c).1.files) (serve s c).2) ∧
      ∀ bytes offset data, Overlays bytes offset data (overlay bytes offset data) := by
  intro s turns
  obtain ⟨hreplies, hholds⟩ := serve_refinesVia.run start_holds calls
  refine ⟨hreplies, hholds.files, labels_map (fun _ _ => rfl) _ _,
    labels_forall (fun _ _ => refused_malloc) _ _, ⟨hholds.ok.distinct.nodup_keys, fun n => ?_⟩,
    fun c => ?_, fun bytes offset data => ⟨overlay_length .., fun i hi => ?_⟩⟩
  · rw [mem_keys]
    unfold contents
    rw [Option.isSome_map]
  · obtain ⟨hout, hnext⟩ := serve_refinesVia _ _ c hholds
    rw [hnext.files, hout, hholds.files]
    rcases mapServe_cases (run (fun m t => (mapServe m t).1) MapServer.start turns) (turn s c)
      with hsame | ⟨n, v, hupd, ⟨r, hr, hok⟩, hmay⟩
    · exact ⟨fun n e he hne => absurd (by rw [hsame]; exact he) hne, fun _ _ _ => hsame⟩
    · refine ⟨fun n' e he hne => ?_, fun resp hresp hbad => ?_⟩
      · rw [hupd] at hne
        by_cases hn : n' = n
        · exact may_write_iff.mp (hmay e (hn ▸ he))
        · rw [Function.update_of_ne hn] at hne
          exact absurd he hne
      · rw [hr] at hresp
        exact absurd ((Option.some.inj hresp) ▸ hok) hbad
  · exact overlay_getElem? _ _ _ (overlay_length bytes offset data ▸ hi)

/-- A header for the file `a`. -/
def header (op flags offset len : UInt32) : List UInt8 :=
  u32Bytes op ++ u32Bytes flags ++ u32Bytes offset ++ u32Bytes len ++ 0x61 :: List.replicate 31 0

def openNew : Call := ⟨header FSSRV_OP_OPEN FSSRV_F_CREATE 0 0, 0, true, by decide⟩

/-- One byte behind the first 4096. -/
def writeFar : Call := ⟨header FSSRV_OP_WRITE 0 4096 1 ++ [7], 0, true, by decide⟩

/-- All of the file is asked for. -/
def readAll : Call := ⟨header FSSRV_OP_READ 0 0 5000, 0, true, by decide⟩

theorem writeFar_contents :
    contents (run (fun s c => (serve s c).1) Server.start [openNew, writeFar]).files [0x61] =
      some ⟨0, overlay [] 4096 [7]⟩ := by
  rw [(serve_refinesVia.run start_holds [openNew, writeFar]).2.files]
  have hopen : FsReq.ofBytes openNew.msg = ⟨FSSRV_OP_OPEN, FSSRV_F_CREATE, 0, 0, [0x61]⟩ := by
    decide
  have hwrite : FsReq.ofBytes writeFar.msg = ⟨FSSRV_OP_WRITE, 0, 4096, 1, [0x61]⟩ := by
    decide
  have hnew : mapServe MapServer.start (turn Server.start openNew) =
      (⟨Function.update (fun _ => none) [0x61] (some ⟨0, []⟩), true⟩,
        some ((Entry.mk 0 []).resp [])) := by
    unfold mapServe
    dsimp only
    rw [show (turn Server.start openNew).call = openNew from rfl, hopen]
    rfl
  have hmem : refused (serve Server.start openNew).1.files writeFar = false :=
    eq_false_of_ne_true fun h => Bool.false_ne_true (refused_malloc h).symm
  unfold labels labels labels
  rw [run_cons, run_cons, run_nil, hnew]
  unfold mapServe turn
  dsimp only
  rw [hwrite, hmem]
  unfold mapWrite
  dsimp only
  rw [Function.update_self]
  rfl

/-- Calls of others leave a file as it is. -/
theorem Holds.kept {s : Server} {m : MapServer} (h : Holds s m) {n : List UInt8} {e : Entry}
    (he : contents s.files n = some e) (calls : List Call)
    (hc : ∀ c ∈ calls, c.sender_uid ≠ 0 ∧ c.sender_uid ≠ e.owner) :
    contents (run (fun s c => (serve s c).1) s calls).files n = some e := by
  induction calls generalizing s m with
  | nil => exact he
  | cons c calls ih =>
    obtain ⟨-, hnext⟩ := serve_refinesVia s m c h
    apply ih hnext _ fun d hd => hc d (.tail _ hd)
    rw [hnext.files]
    rw [h.files] at he
    rcases mapServe_cases m (turn s c) with hsame | ⟨n', v, hupd, -, hmay⟩
    · rw [hsame]
      exact he
    · obtain ⟨h0, h1⟩ := hc c List.mem_cons_self
      have hne : n ≠ n' := by
        rintro rfl
        exact (may_write_iff.mp (hmay e he)).elim h0 h1
      rw [hupd, Function.update_of_ne hne]
      exact he

/-- A read can be short before the end of the file. -/
theorem not_serve_refines :
    ¬ ∀ (calls : List Call) (c : Call) (r : FsResp),
      (serve (run (fun s c => (serve s c).1) Server.start calls) c).2 = some r →
        (FsReq.ofBytes c.msg).op = FSSRV_OP_READ → r.status = FSSRV_OK →
        r.data.length < (FsReq.ofBytes c.msg).len.toNat →
        r.size ≤ (FsReq.ofBytes c.msg).offset.toNat + r.data.length := by
  intro hall
  have hread : FsReq.ofBytes readAll.msg = ⟨FSSRV_OP_READ, 0, 0, 5000, [0x61]⟩ := by
    decide
  have hholds := (serve_refinesVia.run start_holds [openNew, writeFar]).2
  have hfile := writeFar_contents
  have halive : (run (fun s c => (serve s c).1) Server.start [openNew, writeFar]).alive = true :=
    rfl
  have hanswer : (serve (run (fun s c => (serve s c).1) Server.start [openNew, writeFar])
      readAll).2 = some ((Entry.mk 0 (overlay [] 4096 [7])).resp
        ((overlay [] 4096 [7]).take FSSRV_MAX_DATA)) := by
    generalize run (fun s c => (serve s c).1) Server.start [openNew, writeFar] = s at *
    unfold serve
    rw [halive, hread, if_neg (by decide), if_neg (by decide)]
    dsimp only
    rw [if_neg (by decide), if_pos rfl]
    dsimp only
    rw [hholds.ok.serveRead]
    unfold mapRead
    dsimp only
    rw [hfile]
    rfl
  have hsize := hall _ readAll _ hanswer
  rw [hread] at hsize
  have hlen : (overlay [] 4096 [7]).length = 4097 := overlay_length ..
  have htake : ((overlay [] 4096 [7]).take FSSRV_MAX_DATA).length = 4096 := by
    rw [List.length_take, hlen]
    rfl
  have hend := hsize rfl rfl (htake.trans_lt (by decide))
  unfold Entry.resp okResp at hend
  dsimp only at hend
  rw [hlen, htake] at hend
  exact absurd hend (by decide)

end Xeneva.Fssrv
