import Xeneva.Base.Run
import Xeneva.Fs.FatGrow
import Xeneva.Fs.FatRoundTrip

/-!
# Seeking in a file

A seek goes on from the cluster that the last seek found. The node of an open file stands on a
cluster of its chain, or off the chain: behind its end, or on clusters that a write behind the
end has taken and not linked.
-/

namespace Xeneva.Fat

open Base

variable {fs : FatFS} {d d' : Disk} {file : AuVFSNode} {cs ps : List ℕ} {a c new : ℕ}

/-- The cluster number `n` of the chain, and its end mark from the end on. -/
def resolve (fs : FatFS) (d : Disk) : ℕ → ℕ → ℕ
  | 0, cluster => cluster
  | n + 1, cluster => if isEoc cluster then cluster else resolve fs d n (fatReadFAT fs d cluster)

/-- No place of the chain before that of the offset is behind the end. -/
def Reaches (fs : FatFS) (d : Disk) (file : AuVFSNode) (offset : ℕ) : Prop :=
  ∀ m < offset / fs.cluster_sz_in_bytes, isEoc (resolve fs d m file.first_block) = false

structure OpenFile where
  disk : Disk
  file : AuVFSNode

/-- The calls on an open file; `page` is what the page buffer holds before a read. -/
inductive FileOp
  | seek (offset : ℕ)
  | read (length : ℕ) (page : ℕ → UInt8)
  | append (buffer : ℕ → UInt8) (length : ℕ)

/-- The walk through the directory of the file passes at most `n` clusters. -/
def fileStep (fs : FatFS) (n : ℕ) (s : OpenFile) : FileOp → OpenFile
  | .seek offset => { s with file := fileSetOffset fs s.disk s.file offset }
  | .read length page => { s with file := (fatReadFile fs s.disk s.file length page).2 }
  | .append buffer length =>
    match fatWrite fs s.disk n s.file buffer length with
    | none => s
    | some (disk, file, _) => ⟨disk, file⟩

/-- A seek goes no further than to the end of the chain. An append has room, and the file is not
where a seek to the end has left it. -/
def WithinChain (fs : FatFS) (s : OpenFile) : FileOp → Prop
  | .seek offset => Reaches fs s.disk s.file offset
  | .read _ _ => True
  | .append _ length => (s.file.eof = false → isEoc s.file.current = false) ∧
      numCluster fs length ≤ (free fs s.disk).card

theorem resolve_eq_walk (n c : ℕ) (h : ∀ m < n, isEoc (resolve fs d m c) = false) :
    resolve fs d n c = walk fs d n c := by
  induction n generalizing c with
  | zero => rfl
  | succ n ih =>
    have h0 := h 0 (Nat.zero_lt_succ n)
    change isEoc c = false at h0
    have hstep (m : ℕ) : resolve fs d (m + 1) c = resolve fs d m (fatReadFAT fs d c) := by
      rw [resolve, h0]
      exact if_neg Bool.false_ne_true
    rw [hstep, ih]
    · exact (Function.iterate_succ_apply (fatReadFAT fs d) n c).symm
    · intro m hm
      rw [← hstep]
      exact h (m + 1) (by omega)

theorem Reaches.eq_walk {offset : ℕ} (h : Reaches fs d file offset) {m : ℕ}
    (hm : m ≤ offset / fs.cluster_sz_in_bytes) :
    resolve fs d m file.first_block = walk fs d m file.first_block := by
  apply resolve_eq_walk
  intro k hk
  exact h k (by omega)

theorem walk_zero (c : ℕ) : walk fs d 0 c = c := rfl

theorem walk_add (m n c : ℕ) : walk fs d n (walk fs d m c) = walk fs d (m + n) c := by
  induction n with
  | zero => rfl
  | succ n ih => rw [walk_succ, ih, ← Nat.add_assoc, walk_succ]

/-- Behind the last cluster is the mark. -/
theorem Chain.walk_end (h : Chain fs d cs) (ha : cs[0]? = some a) :
    isEoc (Fat.walk fs d cs.length a) = true := by
  have hpos : 0 < cs.length := (List.getElem?_eq_some_iff.mp ha).1
  have hlast := List.getElem?_eq_getElem (show cs.length - 1 < cs.length by omega)
  have hs : Fat.walk fs d (cs.length - 1 + 1) a = _ := walk_succ _ _
  rw [Nat.sub_add_cancel hpos] at hs
  rw [hs, h.walk ha _ hlast]
  exact h.mark _ hlast

/-- A walk to the end of a chain depends on the entries of the chain only. -/
theorem Chain.walk_congr (h : Chain fs d cs) (ha : cs[0]? = some a)
    (he : ∀ c ∈ cs, entry fs d' c = entry fs d c) {n : ℕ} (hn : n ≤ cs.length) :
    Fat.walk fs d' n a = Fat.walk fs d n a := by
  induction n with
  | zero => rw [walk_zero, walk_zero]
  | succ n ih =>
    have hm := List.getElem?_eq_getElem (show n < cs.length by omega)
    rw [walk_succ, walk_succ, ih (by omega), h.walk ha n hm, fatReadFAT_eq, fatReadFAT_eq,
      he _ (List.mem_of_getElem? hm)]

/-- Behind the end of the chain, or on a cluster that is not linked. -/
def Off (fs : FatFS) (d : Disk) (file : AuVFSNode) (cs ps : List ℕ) : Prop :=
  isEoc file.current = true ∨ file.eof = true ∧ fs.Cluster file.current ∧
    entry fs d file.current ≠ 0 ∧ file.current ∉ cs ∧ file.current ∉ ps

/-- On the chain, `eof` telling whether the cluster is the last one and written. -/
def On (file : AuVFSNode) (cs : List ℕ) : Prop :=
  file.eof = false ∧ file.current ∈ cs ∨
    file.eof = true ∧ cs[cs.length - 1]? = some file.current

/-- `cs` are the clusters of the file, `ps` those of its directory, and the cached cluster is at
its place in the chain. -/
structure SeekCursor (fs : FatFS) (d : Disk) (file : AuVFSNode) (cs ps : List ℕ) : Prop where
  chain : Chain fs d cs
  first : cs[0]? = some file.first_block
  dir : Chain fs d ps
  parent : file.parent_block = 0 ∨ ps[0]? = some file.parent_block
  apart : ∀ c ∈ ps, c ∉ cs
  place : On file cs ∨ Off fs d file cs ps
  cache : file.last_resolved_cluster ≠ 0 →
    file.last_resolved_cluster = walk fs d file.last_resolved_index file.first_block ∧
      file.last_resolved_index ≤ cs.length ∧
      (file.last_resolved_index = cs.length → Off fs d file cs ps)

theorem On.mem (h : On file cs) : file.current ∈ cs := by
  rcases h with ⟨-, h⟩ | ⟨-, h⟩
  · exact h
  · exact List.mem_of_getElem? h

theorem On.not_off (hv : Volume fs) (hc : Chain fs d cs) (h : On file cs) :
    ¬Off fs d file cs ps := by
  rintro (he | ⟨-, -, -, hn, -⟩)
  · rw [(hc.cluster _ h.mem).not_isEoc hv] at he
    exact Bool.false_ne_true he
  · exact hn h.mem

/-- The cursor depends on some fields of the node only. -/
theorem SeekCursor.congr {file' : AuVFSNode} (h : SeekCursor fs d file cs ps)
    (heof : file'.eof = file.eof) (hcur : file'.current = file.current)
    (hfirst : file'.first_block = file.first_block)
    (hparent : file'.parent_block = file.parent_block)
    (hcluster : file'.last_resolved_cluster = file.last_resolved_cluster)
    (hindex : file'.last_resolved_index = file.last_resolved_index) :
    SeekCursor fs d file' cs ps where
  chain := h.chain
  first := hfirst ▸ h.first
  dir := h.dir
  parent := hparent ▸ h.parent
  apart := h.apart
  place := by
    unfold On Off
    rw [heof, hcur]
    exact h.place
  cache := by
    unfold Off
    rw [heof, hcur, hfirst, hcluster, hindex]
    exact h.cache

/-- A seek within the chain, or to its end. -/
theorem SeekCursor.length (h : SeekCursor fs d file cs ps) {offset : ℕ}
    (hr : Reaches fs d file offset) :
    offset / fs.cluster_sz_in_bytes ≤ cs.length := by
  by_contra hlt
  have hend := h.chain.walk_end h.first
  rw [← hr.eq_walk (by omega), hr cs.length (by omega)] at hend
  exact Bool.false_ne_true hend

/-- The cache does not change what is found. -/
theorem SeekCursor.fatGetClusterFor (h : SeekCursor fs d file cs ps) (offset : ℕ) :
    (fatGetClusterFor fs d file offset).1 =
      walk fs d (offset / fs.cluster_sz_in_bytes) file.first_block := by
  unfold Fat.fatGetClusterFor
  dsimp only
  by_cases hc : file.last_resolved_cluster ≠ 0 ∧
      file.last_resolved_index ≤ offset / fs.cluster_sz_in_bytes
  · rw [if_pos hc]
    dsimp only
    rw [(h.cache hc.1).1, walk_add]
    congr 1
    omega
  · rw [if_neg hc]
    rfl

theorem SeekCursor.seek (hv : Volume fs) (h : SeekCursor fs d file cs ps) {offset : ℕ}
    (hr : Reaches fs d file offset) : SeekCursor fs d (fileSetOffset fs d file offset) cs ps := by
  have hle := h.length hr
  have hfound := h.fatGetClusterFor offset
  have hnode : fileSetOffset fs d file offset = { file with
      eof := if ¬ isEoc (Fat.fatGetClusterFor fs d file offset).1 ∧ file.eof then false
        else file.eof
      pos := offset % 2 ^ 32
      current := (Fat.fatGetClusterFor fs d file offset).1
      last_resolved_index := offset / fs.cluster_sz_in_bytes
      last_resolved_cluster := (Fat.fatGetClusterFor fs d file offset).1 } := rfl
  rw [hfound] at hnode
  have hplace : On (fileSetOffset fs d file offset) cs ∧
        offset / fs.cluster_sz_in_bytes < cs.length ∨
      Off fs d (fileSetOffset fs d file offset) cs ps := by
    rw [hnode]
    rcases Nat.lt_or_eq_of_le hle with hlt | heq
    · have hget := List.getElem?_eq_getElem hlt
      have hmem := List.mem_of_getElem? hget
      have hwalk := h.chain.walk h.first _ hget
      have heoc := (h.chain.cluster _ hmem).not_isEoc hv
      refine .inl ⟨.inl ⟨?_, ?_⟩, hlt⟩
      · dsimp only
        rw [hwalk, heoc]
        cases file.eof <;> rfl
      · dsimp only
        rw [hwalk]
        exact hmem
    · right
      left
      dsimp only
      rw [heq]
      exact h.chain.walk_end h.first
  have hindex : (fileSetOffset fs d file offset).last_resolved_index =
      offset / fs.cluster_sz_in_bytes := by rw [hnode]
  have hcluster : (fileSetOffset fs d file offset).last_resolved_cluster =
      walk fs d (offset / fs.cluster_sz_in_bytes) file.first_block := by rw [hnode]
  constructor
  · exact h.chain
  · rw [hnode]
    exact h.first
  · exact h.dir
  · rw [hnode]
    exact h.parent
  · exact h.apart
  · exact hplace.imp_left And.left
  · intro _
    rw [hindex, hcluster]
    refine ⟨by rw [hnode], hle, fun heq => ?_⟩
    rcases hplace with ⟨-, hlt⟩ | hoff
    · omega
    · exact hoff

/-- A read of one cluster changes where the node stands, and nothing else. -/
theorem fatRead_node (hv : Volume fs) (hc : fs.Cluster file.current) (page : ℕ → UInt8) :
    ∃ eof current, (fatRead fs d file page).2 = { file with eof, current } ∧
      current = fatReadFAT fs d file.current ∧
      (current < FAT_BAD_CLUSTER % 2 ^ 28 → eof = file.eof) := by
  obtain ⟨buf, hread, -⟩ := fatRead_spec (d := d) hv hc page
  refine ⟨_, _, congrArg Prod.snd hread, rfl, fun hlt => ?_⟩
  rw [FAT_BAD_CLUSTER] at hlt
  rw [FAT_EOC_MARK, FAT_BAD_CLUSTER, Bool.decide_or, decide_eq_false (by omega), Bool.false_or,
    Bool.decide_eq_true]

theorem SeekCursor.fatRead (hv : Volume fs) (h : SeekCursor fs d file cs ps)
    (heof : file.eof = false)
    (page : ℕ → UInt8) : SeekCursor fs d (fatRead fs d file page).2 cs ps := by
  rcases h.place with hon | hoff
  · have hmem := hon.mem
    obtain ⟨eof, current, hread, hcur, hsame⟩ :=
      fatRead_node (d := d) hv (h.chain.cluster _ hmem) page
    obtain ⟨i, hi⟩ := List.mem_iff_getElem?.mp hmem
    have hlt : i < cs.length := (List.getElem?_eq_some_iff.mp hi).1
    have hplace : On { file with eof, current } cs ∨ Off fs d { file with eof, current } cs ps := by
      by_cases hnext : i + 1 < cs.length
      · have hlink := h.chain.link i _ _ hi (List.getElem?_eq_getElem hnext)
        have hbound : cs[i + 1] < FAT_BAD_CLUSTER % 2 ^ 28 :=
          lt_of_lt_of_le (h.chain.cluster _ (List.getElem_mem hnext)).2.1 hv.count
        rw [← hcur] at hlink
        refine .inl (.inl ⟨?_, ?_⟩)
        · exact (hsame (hlink ▸ hbound)).trans heof
        · exact hlink ▸ List.getElem_mem hnext
      · have hmark := h.chain.mark _ (by rwa [show cs.length - 1 = i by omega])
        rw [← hcur] at hmark
        exact .inr (.inl hmark)
    rw [hread]
    refine ⟨h.chain, h.first, h.dir, h.parent, h.apart, hplace, fun hz => ?_⟩
    obtain ⟨hwalk, hle, hend⟩ := h.cache hz
    exact ⟨hwalk, hle, fun he => absurd (hend he) (hon.not_off hv h.chain)⟩
  · rcases hoff with heoc | ⟨htrue, -⟩
    · unfold Fat.fatRead
      rw [if_pos heoc]
      exact h
    · rw [heof] at htrue
      exact absurd htrue Bool.false_ne_true

theorem SeekCursor.readLoop (hv : Volume fs) (n skip : ℕ) (page : ℕ → UInt8)
    (h : SeekCursor fs d file cs ps) (length : ℕ) :
    SeekCursor fs d (readLoop fs d n skip page file length).2 cs ps := by
  induction n generalizing skip page file length with
  | zero => exact h
  | succ n ih =>
    unfold Fat.readLoop
    by_cases heof : file.eof = true
    · rw [if_pos heof]
      exact h
    · rw [if_neg heof]
      exact ih 0 _ (h.fatRead hv (by simpa using heof) page) _

theorem SeekCursor.read (hv : Volume fs) (h : SeekCursor fs d file cs ps) (length : ℕ)
    (page : ℕ → UInt8) : SeekCursor fs d (fatReadFile fs d file length page).2 cs ps := by
  unfold fatReadFile
  exact (h.readLoop hv _ _ page length).congr rfl rfl rfl rfl rfl rfl

/-! ## Appends -/

/-- A place behind the end is no entry of the table. -/
theorem fatAllocCluster_eoc (hv : Volume fs) (hc : fs.Cluster c) {position : ℕ}
    (he : isEoc position = true) (v : ℕ) : fatAllocCluster fs d position v = d := by
  have hcount := hv.count
  obtain ⟨-, hlt, -⟩ := hc
  rw [isEoc, decide_eq_true_eq, FAT_EOC_MARK] at he
  rw [FAT_BAD_CLUSTER] at hcount
  rw [fatAllocCluster, if_pos (by omega)]

/-- What a page behind the last cluster does to the table: a free cluster is taken, and linked
where the node stands on a cluster. -/
structure Taken (fs : FatFS) (d d' : Disk) (current new : ℕ) : Prop where
  cluster : fs.Cluster new
  unused : entry fs d new = 0
  mark : isEoc (fatReadFAT fs d' new) = true
  link : fs.Cluster current → current ≠ new → fatReadFAT fs d' current = new
  other : ∀ p < fs.sectorPerFAT32 * 128, p ≠ new → p ≠ current → entry fs d' p = entry fs d p
  behind : isEoc current = true → ∀ p < fs.sectorPerFAT32 * 128, p ≠ new →
    entry fs d' p = entry fs d p

theorem fatFileWriteContent_eof (hv : Volume fs) (heof : file.eof = true)
    (hfree : 0 < (free fs d).card) (buffer : ℕ → UInt8) :
    ∃ d' new, fatFileWriteContent fs d file buffer = (d', file.written fs new) ∧
      Taken fs d d' file.current new := by
  obtain ⟨hn, h0⟩ := fatFindFreeCluster_of_free hv hfree
  generalize hnew : fatFindFreeCluster fs d = new at hn h0
  have h28 : new < 2 ^ 28 := lt_of_lt_of_le hn.2.1 (hv.count.trans (by decide))
  obtain ⟨d₁, hd₁⟩ : ∃ d₁, d₁ = fatClearCluster fs (fatAllocCluster fs
    (fatAllocCluster fs d file.current new) new FAT_EOC_MARK) new := ⟨_, rfl⟩
  have heq := fatFileWriteContent_eq buffer d hv
    (((if_pos heof).trans (by rw [hnew, hd₁])) : _ = (d₁, new)) hn
  have hclear : OnlyCluster fs new (fatAllocCluster fs
      (fatAllocCluster fs d file.current new) new FAT_EOC_MARK) d₁ := by
    rw [hd₁]
    exact auVDiskWrite_only le_rfl _
  have honly := hclear.trans (auVDiskWrite_only le_rfl buffer)
  have hread : fatReadFAT fs d₁ new = FAT_EOC_MARK % 2 ^ 28 := by
    rw [fatReadFAT_eq, hclear.entry hv hn hn.2.2, entry_alloc hv hn, FAT_EOC_MARK]
    omega
  have hmark : isEoc (fatReadFAT fs d₁ new) = true := by
    rw [hread]
    decide
  rw [AuVFSNode.wrote_of_mark hmark] at heq
  refine ⟨_, new, heq, hn, h0, ?_, ?_, ?_, ?_⟩
  · rw [fatReadFAT_eq, (auVDiskWrite_only le_rfl buffer).entry hv hn hn.2.2, ← fatReadFAT_eq]
    exact hmark
  · intro hc hne
    rw [fatReadFAT_eq, honly.entry hv hn hc.2.2, entry_alloc_of_ne hv _ hne, entry_alloc hv hc]
    omega
  · intro p hp hpn hpc
    rw [honly.entry hv hn hp, entry_alloc_of_ne hv _ hpn, entry_alloc_of_ne hv _ hpc]
  · intro he p hp hpn
    rw [honly.entry hv hn hp, entry_alloc_of_ne hv _ hpn, fatAllocCluster_eoc hv hn he]

theorem Taken.card (h : Taken fs d d' c new) (hc : isEoc c = true ∨ entry fs d c ≠ 0) :
    (free fs d).card ≤ (free fs d').card + 1 := by
  apply card_free_le new
  intro p hp h0 hpn
  rcases hc with he | hz
  · rw [h.behind he p hp.2.2 hpn, h0]
  · rw [h.other p hp.2.2 hpn (fun hpc => hz (hpc ▸ h0)), h0]

/-- An append may go on. -/
def Writable (file : AuVFSNode) : Prop := file.eof = false → isEoc file.current = false

/-- The chain grows. -/
theorem SeekCursor.grow (hv : Volume fs) (h : SeekCursor fs d file cs ps)
    (hl : cs[cs.length - 1]? = some file.current) (heof : file.eof = true)
    (ht : Taken fs d d' file.current new) :
    SeekCursor fs d' (file.written fs new) (cs ++ [new]) ps := by
  have hmem := List.mem_of_getElem? hl
  have hon : On file cs := .inr ⟨heof, hl⟩
  have hne : file.current ≠ new := fun he => entry_ne_zero (h.chain.used hmem) (he ▸ ht.unused)
  have hps : ∀ c ∈ ps, c ≠ new ∧ c ≠ file.current := fun c hc =>
    ⟨fun he => entry_ne_zero (h.dir.used hc) (he ▸ ht.unused), fun he => h.apart c hc (he ▸ hmem)⟩
  have hchain : Chain fs d' (cs ++ [new]) := by
    apply h.chain.append hl ht.cluster ht.unused _ (ht.link (h.chain.cluster _ hmem) hne) ht.mark
    intro c hc hcl
    apply ht.other c (h.chain.cluster c hc).2.2 _ hcl
    exact fun he => entry_ne_zero (h.chain.used hc) (he ▸ ht.unused)
  have hget (i : ℕ) (hi : i < cs.length) : (cs ++ [new])[i]? = cs[i]? :=
    List.getElem?_append_left hi
  have hpos : 0 < cs.length := (List.getElem?_eq_some_iff.mp h.first).1
  have hfirst : (cs ++ [new])[0]? = some file.first_block := (hget 0 hpos).trans h.first
  refine ⟨hchain, hfirst, ?_, h.parent, ?_, ?_, fun hz => ?_⟩
  · apply h.dir.congr
    intro c hc
    exact ht.other c (h.dir.cluster c hc).2.2 (hps c hc).1 (hps c hc).2
  · intro c hc hcs
    rcases List.mem_append.mp hcs with hcs | hcs
    · exact h.apart c hc hcs
    · exact (hps c hc).1 (List.mem_singleton.mp hcs)
  · left
    right
    refine ⟨rfl, ?_⟩
    rw [List.length_append, List.length_singleton, Nat.add_sub_cancel, List.getElem?_concat_length]
    rfl
  · obtain ⟨hwalk, hle, hend⟩ := h.cache hz
    have hlt : file.last_resolved_index < cs.length := by
      apply Nat.lt_of_le_of_ne hle
      exact fun he => hon.not_off hv h.chain (hend he)
    have hold := List.getElem?_eq_getElem hlt
    have hsame : walk fs d' file.last_resolved_index file.first_block =
        walk fs d file.last_resolved_index file.first_block := by
      rw [hchain.walk hfirst _ ((hget _ hlt).trans hold), h.chain.walk h.first _ hold]
    refine ⟨hwalk.trans hsame.symm, ?_, fun he => ?_⟩
    · rw [List.length_append]
      exact Nat.le_add_right_of_le hle
    · rw [List.length_append, List.length_singleton] at he
      change file.last_resolved_index = cs.length + 1 at he
      omega

/-- Off the chain a page goes to a cluster that is not linked. -/
theorem SeekCursor.stray (h : SeekCursor fs d file cs ps) (hoff : Off fs d file cs ps)
    (ht : Taken fs d d' file.current new) : SeekCursor fs d' (file.written fs new) cs ps := by
  have hsame (c : ℕ) (hc : c ∈ cs ∨ c ∈ ps) : entry fs d' c = entry fs d c ∧ c ≠ new := by
    have hused : fatReadFAT fs d c ≠ 0 ∧ fs.Cluster c :=
      hc.elim (fun h' => ⟨h.chain.used h', h.chain.cluster c h'⟩)
        (fun h' => ⟨h.dir.used h', h.dir.cluster c h'⟩)
    have hne : c ≠ new := fun he => entry_ne_zero hused.1 (he ▸ ht.unused)
    refine ⟨?_, hne⟩
    rcases hoff with he | ⟨-, -, -, hcs, hps⟩
    · exact ht.behind he c hused.2.2.2 hne
    · apply ht.other c hused.2.2.2 hne
      rintro rfl
      exact hc.elim hcs hps
  have hnew : Off fs d' (file.written fs new) cs ps := by
    right
    refine ⟨rfl, ht.cluster, ?_, fun hm => (hsame _ (.inl hm)).2 rfl,
      fun hm => (hsame _ (.inr hm)).2 rfl⟩
    intro h0
    have hmark := ht.mark
    change entry fs d' new = 0 at h0
    rw [fatReadFAT_eq, h0] at hmark
    exact absurd hmark (by decide)
  refine ⟨h.chain.congr fun c hc => (hsame c (.inl hc)).1, h.first,
    h.dir.congr fun c hc => (hsame c (.inr hc)).1, h.parent, h.apart, .inr hnew, fun hz => ?_⟩
  obtain ⟨hwalk, hle, -⟩ := h.cache hz
  refine ⟨hwalk.trans ?_, hle, fun _ => hnew⟩
  exact (h.chain.walk_congr h.first (fun c hc => (hsame c (.inl hc)).1) hle).symm

/-- Disks with the same table. -/
theorem SeekCursor.table (h : SeekCursor fs d file cs ps)
    (he : ∀ p < fs.sectorPerFAT32 * 128, entry fs d' p = entry fs d p) :
    SeekCursor fs d' file cs ps := by
  have hcs : ∀ c ∈ cs, entry fs d' c = entry fs d c :=
    fun c hc => he c (h.chain.cluster c hc).2.2
  have hoff (ho : Off fs d file cs ps) : Off fs d' file cs ps := by
    rcases ho with heoc | ⟨heof, hc, hz, hrest⟩
    · exact .inl heoc
    · exact .inr ⟨heof, hc, by rwa [he _ hc.2.2], hrest⟩
  refine ⟨h.chain.congr hcs, h.first, h.dir.congr fun c hc => he c (h.dir.cluster c hc).2.2,
    h.parent, h.apart, h.place.imp_right hoff, fun hz => ?_⟩
  obtain ⟨hwalk, hle, hend⟩ := h.cache hz
  exact ⟨hwalk.trans (h.chain.walk_congr h.first hcs hle).symm, hle, fun heq => hoff (hend heq)⟩

/-- A page goes to a cluster of the chain, and the node to the next one. -/
theorem SeekCursor.overwrite (hv : Volume fs) (h : SeekCursor fs d file cs ps) (hon : On file cs)
    {next : ℕ} (hnext : fatReadFAT fs d file.current = next) :
    SeekCursor fs d (file.wrote fs file.current next) cs ps ∧
      Writable (file.wrote fs file.current next) := by
  have hmem := hon.mem
  obtain ⟨i, hi⟩ := List.mem_iff_getElem?.mp hmem
  have hlt : i < cs.length := (List.getElem?_eq_some_iff.mp hi).1
  have hwrote : On (file.wrote fs file.current next) cs := by
    by_cases hin : i + 1 < cs.length
    · have hlink := h.chain.link i _ _ hi (List.getElem?_eq_getElem hin)
      have hmem' := List.getElem_mem hin
      rw [← hlink, hnext] at hmem'
      have hno := (h.chain.cluster _ hmem').not_isEoc hv
      refine .inl ⟨hno, ?_⟩
      unfold AuVFSNode.wrote
      dsimp only
      rw [hno, if_neg Bool.false_ne_true]
      exact hmem'
    · have hlast : cs[cs.length - 1]? = some file.current := by
        rwa [show cs.length - 1 = i by omega]
      have hmark := h.chain.mark _ hlast
      rw [hnext] at hmark
      refine .inr ⟨hmark, ?_⟩
      unfold AuVFSNode.wrote
      dsimp only
      rw [if_pos hmark]
      exact hlast
  constructor
  · refine ⟨h.chain, h.first, h.dir, h.parent, h.apart, .inl hwrote, fun hz => ?_⟩
    obtain ⟨hwalk, hle, hend⟩ := h.cache hz
    exact ⟨hwalk, hle, fun heq => absurd (hend heq) (hon.not_off hv h.chain)⟩
  · exact fun _ => (h.chain.cluster _ hwrote.mem).not_isEoc hv

theorem SeekCursor.writeContent (hv : Volume fs) (h : SeekCursor fs d file cs ps)
    (hw : Writable file)
    (hfree : 0 < (free fs d).card) (buffer : ℕ → UInt8) :
    ∃ cs', SeekCursor fs (fatFileWriteContent fs d file buffer).1
        (fatFileWriteContent fs d file buffer).2 cs' ps ∧
      Writable (fatFileWriteContent fs d file buffer).2 ∧
      (free fs d).card ≤ (free fs (fatFileWriteContent fs d file buffer).1).card + 1 := by
  by_cases heof : file.eof = true
  · obtain ⟨d', new, heq, ht⟩ := fatFileWriteContent_eof hv heof hfree buffer
    rw [heq]
    have hwritten : Writable (file.written fs new) := fun hno => absurd hno Bool.true_eq_false.mp
    rcases h.place with hon | hoff
    · have hused := entry_ne_zero (h.chain.used hon.mem)
      rcases hon with ⟨hno, -⟩ | ⟨-, hl⟩
      · rw [heof] at hno
        exact absurd hno.symm Bool.false_ne_true
      · exact ⟨cs ++ [new], h.grow hv hl heof ht, hwritten, ht.card (.inr hused)⟩
    · exact ⟨cs, h.stray hoff ht, hwritten, ht.card (hoff.imp_right fun ho => ho.2.2.1)⟩
  · have hno : file.eof = false := by simpa using heof
    have hon : On file cs := by
      rcases h.place with hon | hoff
      · exact hon
      · rcases hoff with heoc | ⟨htrue, -⟩
        · rw [hw hno] at heoc
          exact absurd heoc Bool.false_ne_true
        · exact absurd htrue heof
    have hc := h.chain.cluster _ hon.mem
    have honly := auVDiskWrite_only (d := d) (c := file.current) (le_refl fs.sectorPerCluster)
      buffer
    rw [fatFileWriteContent_eq buffer d hv (if_neg heof) hc]
    obtain ⟨hcursor, hwrite⟩ := h.overwrite hv hon rfl
    exact ⟨cs, hcursor.table fun p hp => honly.entry hv hc hp, hwrite,
      (congrArg Finset.card (honly.free hv hc)).ge.trans (Nat.le_succ _)⟩

theorem SeekCursor.writeLoop (hv : Volume fs) (buffer : ℕ → UInt8) (num i : ℕ)
    (h : SeekCursor fs d file cs ps) (hw : Writable file) (hroom : num ≤ (free fs d).card) :
    ∃ cs', SeekCursor fs (writeLoop fs buffer num i d file).1 (writeLoop fs buffer num i d file).2
      cs' ps := by
  induction num generalizing i d file cs with
  | zero => exact ⟨cs, h⟩
  | succ num ih =>
    obtain ⟨cs', h', hw', hcard⟩ := h.writeContent hv hw (by omega)
      fun a => buffer (i * fs.cluster_sz_in_bytes + a)
    unfold Fat.writeLoop
    generalize fatFileWriteContent fs d file (fun a => buffer (i * fs.cluster_sz_in_bytes + a)) = r
      at h' hw' hcard ⊢
    obtain ⟨d', file'⟩ := r
    dsimp only at h' hw' hcard ⊢
    exact ih (i + 1) h' hw' (by omega)

/-- The update of the size goes along the directory, and writes one of its sectors. -/
theorem updateSizeLoop_table (hv : Volume fs) (hp : Chain fs d ps) (name : ℕ → UInt8)
    (size n k : ℕ) (hk : ps[k]? = some c) (hn : ps.length ≤ k + n) :
    ∃ d', updateSizeLoop fs d name size n c = some d' ∧
      ∀ p < fs.sectorPerFAT32 * 128, entry fs d' p = entry fs d p := by
  have hlt : k < ps.length := (List.getElem?_eq_some_iff.mp hk).1
  induction n generalizing k c with
  | zero => omega
  | succ n ih =>
    have hc := hp.cluster c (List.mem_of_getElem? hk)
    unfold updateSizeLoop
    cases hin : entryIn fs d name c with
    | some slot =>
      obtain ⟨j, i⟩ := slot
      refine ⟨_, rfl, fun p hpt => ?_⟩
      exact (writeSector_only (entryIn_some hin).1 _).entry hv hc hpt
    | none =>
      dsimp only
      by_cases heoc : isEoc (fatReadFAT fs d c) = true
      · rw [if_pos heoc]
        exact ⟨d, rfl, fun _ _ => rfl⟩
      · rw [if_neg heoc]
        have hnext : k + 1 < ps.length := by
          by_contra hge
          apply heoc
          exact hp.mark c (by rwa [show ps.length - 1 = k by omega])
        have hget := List.getElem?_eq_getElem hnext
        have hlink := hp.link k _ _ hk hget
        exact ih (k + 1) (by rw [hget, hlink]) (by omega) hnext

/-- An append returns, and leaves the node on the chain or off it. -/
theorem SeekCursor.append (hv : Volume fs) (h : SeekCursor fs d file cs ps) (hw : Writable file)
    {n length : ℕ} (hn : ps.length ≤ n) (hroom : numCluster fs length ≤ (free fs d).card)
    (buffer : ℕ → UInt8) :
    ∃ cs' d' file', fatWrite fs d n file buffer length = some (d', file', length) ∧
      SeekCursor fs d' file' cs' ps := by
  obtain ⟨cs', h'⟩ := h.writeLoop hv buffer (numCluster fs length) 0 hw hroom
  unfold fatWrite
  generalize Fat.writeLoop fs buffer (numCluster fs length) 0 d file = r at h' ⊢
  obtain ⟨d₁, file₁⟩ := r
  dsimp only at h' ⊢
  unfold fatFileUpdateSize
  by_cases hz : file₁.parent_block = 0
  · rw [if_pos hz]
    exact ⟨cs', d₁, file₁, rfl, h'⟩
  · rw [if_neg hz]
    obtain ⟨d', hupd, htable⟩ := updateSizeLoop_table hv h'.dir file₁.name length n 0
      (h'.parent.resolve_left hz) (by omega)
    rw [hupd]
    exact ⟨cs', d', file₁, rfl, h'.table htable⟩

/-! ## Runs -/

/-- The node of a file that has just been opened, on a volume whose chains are sound. -/
structure Opened (fs : FatFS) (n : ℕ) (s : OpenFile) (cs ps : List ℕ) : Prop where
  chain : Chain fs s.disk cs
  first : cs[0]? = some s.file.first_block
  dir : Chain fs s.disk ps
  parent : s.file.parent_block = 0 ∨ ps[0]? = some s.file.parent_block
  apart : ∀ c ∈ ps, c ∉ cs
  walks : ps.length ≤ n
  eof : s.file.eof = false
  current : s.file.current = s.file.first_block
  fresh : s.file.last_resolved_cluster = 0

theorem Opened.cursor {s : OpenFile} {n : ℕ} (h : Opened fs n s cs ps) :
    SeekCursor fs s.disk s.file cs ps where
  chain := h.chain
  first := h.first
  dir := h.dir
  parent := h.parent
  apart := h.apart
  place := .inl (.inl ⟨h.eof, h.current ▸ List.mem_of_getElem? h.first⟩)
  cache hz := absurd h.fresh hz

theorem SeekCursor.step {s : OpenFile} {n : ℕ} (hv : Volume fs) (hn : ps.length ≤ n)
    (h : ∃ cs, SeekCursor fs s.disk s.file cs ps) {op : FileOp} (hop : WithinChain fs s op) :
    ∃ cs, SeekCursor fs (fileStep fs n s op).disk (fileStep fs n s op).file cs ps := by
  obtain ⟨cs, h⟩ := h
  cases op with
  | seek offset => exact ⟨cs, h.seek hv hop⟩
  | read length page => exact ⟨cs, h.read hv length page⟩
  | append buffer length =>
    obtain ⟨cs', d', file', hwrite, h'⟩ := h.append hv hop.1 hn hop.2 buffer
    unfold fileStep
    dsimp only
    rw [hwrite]
    exact ⟨cs', h'⟩

/-- In every run of seeks, reads and appends within the chain, a seek within it finds what a walk
from the first cluster finds. -/
theorem exec_fatGetClusterFor (fs : FatFS) (n : ℕ) (s : OpenFile) (cs ps : List ℕ)
    (ops : List FileOp) (hv : Volume fs) (ho : Opened fs n s cs ps)
    (h : Respects (WithinChain fs) (fileStep fs n) s ops) (offset : ℕ)
    (hr : Reaches fs (run (fileStep fs n) s ops).disk (run (fileStep fs n) s ops).file offset) :
    (fatGetClusterFor fs (run (fileStep fs n) s ops).disk (run (fileStep fs n) s ops).file
        offset).1 =
      resolve fs (run (fileStep fs n) s ops).disk (offset / fs.cluster_sz_in_bytes)
        (run (fileStep fs n) s ops).file.first_block := by
  obtain ⟨cs', hc⟩ := h.invariant
    (I := fun s => ∃ cs, SeekCursor fs s.disk s.file cs ps)
    (fun _ _ hi hop => SeekCursor.step hv ho.walks hi hop) ⟨cs, ho.cursor⟩
  rw [hc.fatGetClusterFor, hr.eq_walk le_rfl]

/-- A file of one cluster, number 3, in the root directory. -/
def oneCluster : OpenFile where
  disk q o := if q = 1 ∧ (o / 4 = 2 ∨ o / 4 = 3) then byte FAT_EOC_MARK (o % 4) else 0
  file := newNode (fun _ => 0x41) 3 2

theorem chain_single (hc : fs.Cluster c) (hm : isEoc (fatReadFAT fs d c) = true) :
    Chain fs d [c] where
  cluster := List.forall_mem_singleton.mpr hc
  nodup := List.nodup_singleton c
  link i a b _ hb := by
    rw [List.getElem?_cons_succ, List.getElem?_nil] at hb
    cases hb
  mark a ha := by
    obtain rfl := Option.some.inj ha
    exact hm

theorem oneCluster_opened : Opened smallVolume 1 oneCluster [3] [2] where
  chain := chain_single (by unfold FatFS.Cluster; decide) (by decide +kernel)
  first := rfl
  dir := chain_single (by unfold FatFS.Cluster; decide) (by decide +kernel)
  parent := .inr rfl
  apart := by decide
  walks := le_rfl
  eof := rfl
  current := rfl
  fresh := rfl

instance (fs : FatFS) (d : Disk) (file : AuVFSNode) (offset : ℕ) :
    Decidable (Reaches fs d file offset) := inferInstanceAs (Decidable (∀ m < _, _))

instance (fs : FatFS) (s : OpenFile) (op : FileOp) : Decidable (WithinChain fs s op) :=
  match op with
  | .seek _ => inferInstanceAs (Decidable (Reaches ..))
  | .read _ _ => inferInstanceAs (Decidable True)
  | .append _ _ => inferInstanceAs (Decidable (_ ∧ _))

/-- A seek to the end, one back, and two clusters written: the second one is found. -/
def seekAndGrow : List FileOp :=
  [.seek 512, .seek 0, .append (fun _ => 1) 1024, .seek 100, .read 10 fun _ => 0]

theorem exec_fatGetClusterFor_grown :
    (fatGetClusterFor smallVolume (run (fileStep smallVolume 1) oneCluster seekAndGrow).disk
        (run (fileStep smallVolume 1) oneCluster seekAndGrow).file 512).1 =
      resolve smallVolume (run (fileStep smallVolume 1) oneCluster seekAndGrow).disk 1
        (run (fileStep smallVolume 1) oneCluster seekAndGrow).file.first_block :=
  exec_fatGetClusterFor smallVolume 1 oneCluster [3] [2] seekAndGrow smallVolume_sound
    oneCluster_opened (by decide +kernel) 512 (by decide +kernel)

/-- Two clusters behind the end of the file the table is read at the end mark's number. -/
theorem not_exec_fatGetClusterFor : ¬∀ (fs : FatFS) (n : ℕ) (s : OpenFile) (cs ps : List ℕ)
    (ops : List FileOp) (offset : ℕ), Volume fs → Opened fs n s cs ps →
      (fatGetClusterFor fs (run (fileStep fs n) s ops).disk (run (fileStep fs n) s ops).file
          offset).1 =
        resolve fs (run (fileStep fs n) s ops).disk (offset / fs.cluster_sz_in_bytes)
          (run (fileStep fs n) s ops).file.first_block := by
  intro h
  have hseek := h smallVolume 1 oneCluster [3] [2] [] 1024 smallVolume_sound oneCluster_opened
  revert hseek
  decide +kernel

end Xeneva.Fat
