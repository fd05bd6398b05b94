import Xeneva.Base.Run
import Xeneva.Fs.FatEntry
import Xeneva.Fs.FatRoundTrip

/-!
# The chains of a volume stay apart

Creations, writes and removals, with the nodes that the callers hold, keep the tree: every
used cluster is in the chain of one file or directory, and no two chains meet.
-/

namespace Xeneva.Fat

open Xeneva.Base

variable {fs : FatFS} {top : ℕ} {d d' : Disk} {objs rest : List Obj} {o g : Obj} {x y : Slot}
variable {c h : ℕ}

inductive TreeOp
  | create (parent_cluster : ℕ) (fname : ℕ → UInt8)
  | mkdir (parent_clust : ℕ) (fname : ℕ → UInt8)
  | write (file : AuVFSNode) (buffer : ℕ → UInt8) (length : ℕ)
  | remove (file : AuVFSNode)
  | rmdir (file : AuVFSNode)

/-- The disk after an operation, whose walks pass at most as many clusters as there are. -/
def treeOp (fs : FatFS) (d : Disk) : TreeOp → Option Disk
  | .create parent fname => (fatCreateFile fs d fs.totalClusters parent fname).map (·.1)
  | .mkdir parent fname => (fatCreateDir fs d fs.totalClusters parent fname).map (·.1)
  | .write file buffer length =>
    (fatWrite fs d fs.totalClusters file buffer length).map (·.1)
  | .remove file => (fatFileRemove fs d fs.totalClusters file).map (·.1)
  | .rmdir file => (fatRemoveDir fs d fs.totalClusters file).map (·.1)

/-- A run of operations; nothing is left of it where a walk does not end. -/
def treeStep (fs : FatFS) (d : Option Disk) (op : TreeOp) : Option Disk :=
  d.bind fun d => treeOp fs d op

/-- The clusters that follow `h` up to the end mark. -/
inductive InChain (fs : FatFS) (d : Disk) (h : ℕ) : ℕ → Prop
  | head : InChain fs d h h
  | next (c : ℕ) (hc : InChain fs d h c) (hn : isEoc (fatReadFAT fs d c) = false) :
      InChain fs d h (fatReadFAT fs d c)

/-- The first clusters of the directories that the root leads to. -/
inductive DirHead (fs : FatFS) (d : Disk) : ℕ → Prop
  | root : DirHead fs d fs.rootDirFirstCluster
  | sub (g h : ℕ) (x : Slot) (hg : DirHead fs d g) (hx : InChain fs d g x.1)
      (hj : x.2.1 < fs.sectorPerCluster) (hi : x.2.2 < 16) (ho : ownerAt fs d x = some h)
      (hd : dirAt fs d x = true) : DirHead fs d h

def InDir (fs : FatFS) (d : Disk) (c : ℕ) : Prop := ∃ g, DirHead fs d g ∧ InChain fs d g c

/-- A file of the volume: the entry of a directory that names its chain. -/
def FileHead (fs : FatFS) (d : Disk) (h : ℕ) : Prop :=
  ∃ x : Slot, InDir fs d x.1 ∧ x.2.1 < fs.sectorPerCluster ∧ x.2.2 < 16 ∧
    ownerAt fs d x = some h ∧ dirAt fs d x = false

/-- The node's directory is one, and its name leads to the node's own chain, if anywhere. -/
def Names (fs : FatFS) (d : Disk) (file : AuVFSNode) (k : Bool) : Prop :=
  (InDir fs d file.parent_block ∨ inTable fs file.parent_block = false) ∧
  ∀ x, findEntry fs d file.name fs.totalClusters file.parent_block = some (some x) →
    ownerAt fs d x = some file.first_block ∧ dirAt fs d x = k

/-- At least `m` clusters of the chain are left from `c` on. -/
def Left (fs : FatFS) (d : Disk) (c m : ℕ) : Prop :=
  ∀ k, k + 1 < m → isEoc (fatReadFAT fs d (walk fs d k c)) = false

/-- The parent is a directory, a node agrees with the volume, and a cluster is free for each
one that the operation allocates. -/
def Kind (fs : FatFS) (top : ℕ) (d : Disk) : TreeOp → Prop
  | .create parent fname => DirHead fs d parent ∧ NameOk fname ∧
    (0 < (freeBelow fs top d).card ∨ findSlot fs d fs.totalClusters parent = some none)
  | .mkdir parent fname => DirHead fs d parent ∧ NameOk fname ∧
    (0 < (freeBelow fs top d).card ∨ findSlot fs d fs.totalClusters parent = some none ∨
      dirHas fs d fname fs.totalClusters parent = some true)
  | .write file _ length => FileHead fs d file.first_block ∧
    InChain fs d file.first_block file.current ∧
    (file.eof = true → isEoc (fatReadFAT fs d file.current) = true) ∧
    (file.parent_block = 0 ∨ InDir fs d file.parent_block) ∧
    ∃ m, numCluster fs length ≤ m + (freeBelow fs top d).card ∧ Left fs d file.current m ∧
      (file.eof = true → m = 0)
  | .remove file => Names fs d file false
  | .rmdir file => Names fs d file true ∧ DirHead fs d file.current ∧
    file.current = file.first_block

theorem InChain.mem {cs : List ℕ} (hi : InChain fs d h c) (hc : Chain fs d cs)
    (hh : cs.head? = some h) : c ∈ cs := by
  induction hi with
  | head => exact mem_of_head? hh
  | next c _ hn ih =>
    obtain ⟨k, hk⟩ := List.mem_iff_getElem?.mp ih
    have hlt := (List.getElem?_eq_some_iff.mp hk).1
    by_cases hl : k + 1 < cs.length
    · rw [hc.link k c _ hk (List.getElem?_eq_getElem hl)]
      exact List.getElem_mem hl
    · have hm := hc.mark c (by rwa [show cs.length - 1 = k by omega])
      rw [hn] at hm
      cases hm

theorem DirHead.obj (hh : DirHead fs d h) (ht : Tree fs top d objs) :
    ∃ g ∈ objs, g.dir = true ∧ g.chain.head? = some h := by
  induction hh with
  | root =>
    obtain ⟨o, ho, hs⟩ := ht.root
    obtain ⟨h1, h2⟩ := ht.rootDir o ho hs
    exact ⟨o, ho, h1, h2⟩
  | sub _ h x _ hx hj hi ho hd ih =>
    obtain ⟨g, hg, hgd, hgh⟩ := ih
    have hxg : x ∈ slots fs g.chain := mem_slots.mpr ⟨hx.mem (ht.chain g hg) hgh, hj, hi⟩
    obtain ⟨z, hz, hzs⟩ := ht.owners g hg hgd x hxg h ho
    obtain ⟨_, _, _, _, h1, h2⟩ := ht.held z hz x hzs
    exact ⟨z, hz, by rw [← h2, hd], by rw [← h1, ho]⟩

theorem InDir.obj (hc : InDir fs d c) (ht : Tree fs top d objs) :
    ∃ g ∈ objs, g.dir = true ∧ c ∈ g.chain := by
  obtain ⟨h, hh, hi⟩ := hc
  obtain ⟨g, hg, hgd, hgh⟩ := hh.obj ht
  exact ⟨g, hg, hgd, hi.mem (ht.chain g hg) hgh⟩

/-- The object of an entry. -/
theorem Tree.obj_of_owner (ht : Tree fs top d objs) (hg : g ∈ objs) (hgd : g.dir = true)
    (hx : x ∈ slots fs g.chain) (ho : ownerAt fs d x = some h) :
    ∃ o ∈ objs, o.slot = some x ∧ o.chain.head? = some h ∧ o.dir = dirAt fs d x := by
  obtain ⟨o, hm, hs⟩ := ht.owners g hg hgd x hx h ho
  obtain ⟨_, _, _, _, h1, h2⟩ := ht.held o hm x hs
  exact ⟨o, hm, hs, by rw [← h1, ho], h2.symm⟩

theorem FileHead.obj (hh : FileHead fs d h) (ht : Tree fs top d objs) :
    ∃ o ∈ objs, o.dir = false ∧ o.chain.head? = some h := by
  obtain ⟨x, hx, hj, hi, ho, hd⟩ := hh
  obtain ⟨g, hg, hgd, hm⟩ := hx.obj ht
  obtain ⟨o, hom, -, hoh, hod⟩ := ht.obj_of_owner hg hgd (mem_slots.mpr ⟨hm, hj, hi⟩) ho
  exact ⟨o, hom, by rw [hod, hd], hoh⟩

/-- An object in front. -/
theorem Tree.front (ht : Tree fs top d objs) (ho : o ∈ objs) :
    ∃ rest, Tree fs top d (o :: rest) ∧ ∀ z, z ∈ objs ↔ z ∈ o :: rest :=
  ⟨objs.erase o, ht.perm (List.perm_cons_erase ho), fun _ => (List.perm_cons_erase ho).mem_iff⟩

/-- The fuel of a walk along the rest of a chain. -/
theorem Chain.fuel (pre : List ℕ) {tail : List ℕ} (hc : Chain fs d (pre ++ c :: tail)) :
    tail.length < fs.totalClusters := by
  have := hc.length_le
  rw [List.length_append, List.length_cons] at this
  omega

theorem chain_of_head {cs : List ℕ} (hh : cs.head? = some h) : ∃ tail, cs = h :: tail := by
  cases cs with
  | nil => cases hh
  | cons a tail =>
    cases hh
    exact ⟨tail, rfl⟩

/-- The file that an operation writes or frees. -/
def TreeOp.target : TreeOp → Option ℕ
  | .write file _ _ => some file.first_block
  | .remove file => some file.first_block
  | _ => none

/-- The operation keeps the tree, and every other file with its entry, chain and bytes. -/
def Steps (fs : FatFS) (top : ℕ) (d : Disk) (objs : List Obj) (op : TreeOp) : Prop :=
  ∃ d' objs', treeOp fs d op = some d' ∧ Tree fs top d' objs' ∧
    ∀ z ∈ objs, z.dir = false → z.chain.head? ≠ op.target → z ∈ objs' ∧ Intact fs d d' z

theorem Tree.steps_same {op : TreeOp} (ht : Tree fs top d objs) (h : treeOp fs d op = some d) :
    Steps fs top d objs op :=
  ⟨d, objs, h, ht, fun z hz _ _ => ⟨hz, .refl fs d z⟩⟩

/-! ## Creation -/

theorem Tree.createFile {parent : ℕ} {fname : ℕ → UInt8} (ha : Area fs top)
    (ht : Tree fs top d objs) (hk : Kind fs top d (.create parent fname)) :
    Steps fs top d objs (.create parent fname) := by
  obtain ⟨hp, hname, hroom⟩ := hk
  obtain ⟨g, hg, hgd, hgh⟩ := hp.obj ht
  obtain ⟨tail, hcs⟩ := chain_of_head hgh
  have hch := ht.chain g hg
  rw [hcs] at hch
  obtain ⟨r, hr, hspec⟩ := findSlot_spec ha.volume hch (hch.fuel [])
  cases r with
  | none => exact ht.steps_same (by rw [treeOp, fatCreateFile, hr]; rfl)
  | some x =>
    obtain ⟨pre, post, hsl, hpre, hx⟩ := hspec x rfl
    have hfree := hroom.resolve_right (by rw [hr]; exact fun he => by cases he)
    rw [← hcs] at hsl
    obtain ⟨objs', ht', hother⟩ := ht.create FAT_ATTRIBUTE_ARCHIVE false ha hg hgd hsl hpre hx
      hfree hname (by decide) rfl (auVDiskWrite_only le_rfl _) rfl
      (fun hd => absurd hd (by decide))
    exact ⟨_, objs', by rw [treeOp, fatCreateFile, hr]; rfl, ht', fun z hz hf _ => hother z hz hf⟩

/-- A new directory begins with `.` and `..`, and ends there. -/
theorem dotSector_head (fs : FatFS) (cluster parent i : ℕ) :
    dotSector fs cluster parent (32 * i) = if i ≤ 1 then 0x2E else 0 := by
  rw [dotSector]
  rcases Nat.lt_trichotomy i 1 with h0 | h1 | h2
  · have hi : i = 0 := by omega
    subst hi
    rw [fillEntry, if_pos (by omega), fillEntry_head, if_pos rfl, if_pos (by omega)]
  · subst h1
    rw [fillEntry_head, if_pos le_rfl]
    rfl
  · rw [fillEntry, if_pos (by omega), fillEntry, if_pos (by omega), if_neg (by omega)]

theorem owner_of_zero {s : Sector} {i : ℕ} (h : s (32 * i) = 0) : owner s i = none :=
  owner_of_end (decide_eq_true h)

/-- The entries of a new directory own nothing. -/
theorem owner_newDir (hv : Volume fs) {new parent : ℕ} (hx : x ∈ slots fs [new]) :
    ownerAt fs (auVDiskWrite fs (fatClearCluster fs d new) (fatClusterToSector32 fs new) 1
      (dotSector fs new parent)) x = none := by
  obtain ⟨c, j, i⟩ := x
  obtain ⟨hx1, hj, hi⟩ := mem_slots.mp hx
  have hc : c = new := List.mem_singleton.mp hx1
  have hj : j < fs.sectorPerCluster := hj
  have hi : i < 16 := hi
  have hp := hv.page
  rw [ownerAt, hc]
  by_cases hj0 : j = 0
  · -- the first sector
    have hhead : sectorAt fs (auVDiskWrite fs (fatClearCluster fs d new)
        (fatClusterToSector32 fs new) 1 (dotSector fs new parent)) (new, j, i) (32 * i) =
        dotSector fs new parent (32 * i) := by
      have hlt : 32 * i < PAGE_SIZE := by
        rw [PAGE_SIZE]
        omega
      rw [sectorAt, auVDiskWrite, hj0, Nat.add_zero, if_pos ⟨le_rfl, Nat.lt_succ_self _⟩]
      simp only [Nat.sub_self, Nat.zero_mul, Nat.zero_add]
      rw [if_pos hlt]
    rw [dotSector_head] at hhead
    by_cases h1 : i ≤ 1
    · rw [if_pos h1] at hhead
      exact owner_of_dot hhead
    · rw [if_neg h1] at hhead
      exact owner_of_zero hhead
  · -- the sectors that were only cleared
    apply owner_of_zero
    have hlt : j * fs.bytesPerSector + 32 * i < PAGE_SIZE := by
      rw [hv.bytes, PAGE_SIZE]
      omega
    change auVDiskWrite fs (fatClearCluster fs d new) (fatClusterToSector32 fs new) 1
      (dotSector fs new parent) (fatClusterToSector32 fs new + j) (32 * i) = 0
    rw [auVDiskWrite, if_neg (by omega), fatClearCluster, auVDiskWrite, if_pos (by omega)]
    simp only [Nat.add_sub_cancel_left]
    rw [if_pos hlt]

theorem Tree.createDir {parent : ℕ} {fname : ℕ → UInt8} (ha : Area fs top)
    (ht : Tree fs top d objs) (hk : Kind fs top d (.mkdir parent fname)) :
    Steps fs top d objs (.mkdir parent fname) := by
  obtain ⟨hp, hname, hroom⟩ := hk
  obtain ⟨g, hg, hgd, hgh⟩ := hp.obj ht
  obtain ⟨tail, hcs⟩ := chain_of_head hgh
  have hch := ht.chain g hg
  rw [hcs] at hch
  obtain ⟨b, hb⟩ := dirHas_total ha.volume hch (hch.fuel []) fname
  cases b with
  | true => exact ht.steps_same (by rw [treeOp, fatCreateDir, hb]; rfl)
  | false =>
    obtain ⟨r, hr, hspec⟩ := findSlot_spec ha.volume hch (hch.fuel [])
    cases r with
    | none => exact ht.steps_same (by rw [treeOp, fatCreateDir, hb, Option.bind_some, hr]; rfl)
    | some x =>
      obtain ⟨pre, post, hsl, hpre, hx⟩ := hspec x rfl
      have hfree : 0 < (freeBelow fs top d).card := by
        rcases hroom with h | h | h
        · exact h
        · rw [hr] at h
          cases h
        · rw [hb] at h
          cases h
      rw [← hcs] at hsl
      obtain ⟨d₁, hd₁⟩ : ∃ d₁, d₁ = fatAllocCluster fs d (fatFindFreeCluster fs d) FAT_EOC_MARK :=
        ⟨_, rfl⟩
      have honly : OnlyCluster fs (fatFindFreeCluster fs d) d₁
          (auVDiskWrite fs (fatClearCluster fs d₁ (fatFindFreeCluster fs d))
            (fatClusterToSector32 fs (fatFindFreeCluster fs d)) 1
            (dotSector fs (fatFindFreeCluster fs d) x.1)) :=
        OnlyCluster.trans (auVDiskWrite_only le_rfl _) (auVDiskWrite_only ha.volume.some _)
      have hnew := ht.create FAT_ATTRIBUTE_DIRECTORY true ha hg hgd hsl hpre hx hfree hname
        (by decide) hd₁ honly rfl
        (fun _ y hy => owner_newDir ha.volume hy)
      rw [hd₁] at hnew
      obtain ⟨objs', ht', hother⟩ := hnew
      exact ⟨_, objs', by rw [treeOp, fatCreateDir, hb, Option.bind_some, hr]; rfl, ht',
        fun z hz hf _ => hother z hz hf⟩

/-! ## Writing -/

theorem card_freeBelow_le (new : ℕ) (he : ∀ c, 2 ≤ c → c < top → entry fs d c = 0 → c ≠ new →
    entry fs d' c = 0) : (freeBelow fs top d).card ≤ (freeBelow fs top d').card + 1 := by
  have hs : freeBelow fs top d ⊆ insert new (freeBelow fs top d') := by
    intro c hc
    obtain ⟨hct, hc2, h0⟩ := mem_freeBelow.mp hc
    by_cases hn : c = new
    · exact Finset.mem_insert.mpr (.inl hn)
    · exact Finset.mem_insert_of_mem (mem_freeBelow.mpr ⟨hct, hc2, he c hc2 hct h0 hn⟩)
  exact (Finset.card_le_card hs).trans (Finset.card_insert_le new _)

theorem OnlyCluster.freeBelow (ha : Area fs top) (hc : fs.Cluster c) (h : OnlyCluster fs c d d') :
    freeBelow fs top d' = freeBelow fs top d := by
  ext p
  rw [mem_freeBelow, mem_freeBelow]
  apply and_congr_right
  intro hp
  apply and_congr_right
  intro h2
  rw [h.entry ha.volume hc (ha.cluster h2 hp).2.2]

/-- The node stands at the `k`th cluster of the object's chain, with room for `num` pages. -/
structure Cursor (fs : FatFS) (top : ℕ) (d : Disk) (o : Obj) (file : AuVFSNode) (num k : ℕ) :
    Prop where
  notDir : o.dir = false
  current : o.chain[k]? = some file.current
  last : file.eof = true → k + 1 = o.chain.length
  room : num ≤ (if file.eof then 0 else o.chain.length - k) + (freeBelow fs top d).card

section
variable {file : AuVFSNode} {num k : ℕ} (buffer : ℕ → UInt8)

/-- A page goes into a cluster of the chain. -/
theorem Cursor.overwrite (ha : Area fs top) (ht : Tree fs top d (o :: rest))
    (hc : Cursor fs top d o file (num + 1) k) (he : ¬ file.eof = true) :
    ∃ d' file' k', fatFileWriteContent fs d file buffer = (d', file') ∧
      Tree fs top d' (o :: rest) ∧ Cursor fs top d' o file' num k' ∧
      file'.parent_block = file.parent_block ∧ ∀ z ∈ rest, Intact fs d d' z := by
  have hv := ha.volume
  have hoc := ht.chain o List.mem_cons_self
  have hmem := List.mem_of_getElem? hc.current
  have hcl := hoc.cluster _ hmem
  have hk := (List.getElem?_eq_some_iff.mp hc.current).1
  have hroom := hc.room
  rw [if_neg he] at hroom
  have hw := auVDiskWrite_only (d := d) (c := file.current) (le_refl fs.sectorPerCluster) buffer
  have ht' := ht.same ha (hw.sameTree ha ht List.mem_cons_self hc.notDir hmem)
  have hfree := hw.freeBelow ha hcl
  have hother : ∀ z ∈ rest, Intact fs d _ z := fun z hz =>
    hw.intact hv ht (.tail _ hz) hcl fun hm => ht.not_mem_head hz hm hmem
  have heq := fatFileWriteContent_eq buffer d hv (if_neg he) hcl
  by_cases hl : k + 1 < o.chain.length
  · have hnext := List.getElem?_eq_getElem hl
    have hlink := hoc.link k _ _ hc.current hnext
    have hne := (hoc.cluster _ (List.getElem_mem hl)).not_isEoc hv
    rw [hlink] at heq
    refine ⟨_, _, k + 1, heq, ht', ⟨hc.notDir, ?_, ?_, ?_⟩, rfl, hother⟩
    · simp only [AuVFSNode.wrote, hne, Bool.false_eq_true, if_false]
      exact hnext
    · simp only [AuVFSNode.wrote, hne, Bool.false_eq_true]
      exact fun h => h.elim
    · simp only [AuVFSNode.wrote, hne, Bool.false_eq_true, if_false, hfree]
      omega
  · have hmark := hoc.mark file.current (by
      rw [show o.chain.length - 1 = k by omega]
      exact hc.current)
    rw [AuVFSNode.wrote_of_mark hmark] at heq
    refine ⟨_, _, k, heq, ht', ⟨hc.notDir, hc.current, fun _ => by omega, ?_⟩, rfl, hother⟩
    simp only [AuVFSNode.written, if_true, hfree]
    omega

/-- A page goes into a new cluster behind the last one. -/
theorem Cursor.appendPage (ha : Area fs top) (ht : Tree fs top d (o :: rest))
    (hc : Cursor fs top d o file (num + 1) k) (he : file.eof = true) :
    ∃ d' file' o' k', fatFileWriteContent fs d file buffer = (d', file') ∧
      Tree fs top d' (o' :: rest) ∧ Cursor fs top d' o' file' num k' ∧
      file'.parent_block = file.parent_block ∧ ∀ z ∈ rest, Intact fs d d' z := by
  have hv := ha.volume
  have hmem := List.mem_of_getElem? hc.current
  have hroom := hc.room
  rw [if_pos he] at hroom
  have hlast : o.chain[o.chain.length - 1]? = some file.current := by
    rw [← hc.last he, Nat.add_sub_cancel]
    exact hc.current
  obtain ⟨h2, hn, h0⟩ := ha.findFree (show 0 < (freeBelow fs top d).card by omega)
  have hnc := ha.cluster h2 hn
  have heq := fatFileWriteContent_eq buffer d hv (if_pos he) hnc
  obtain ⟨new, hnew⟩ : ∃ new, new = fatFindFreeCluster fs d := ⟨_, rfl⟩
  rw [← hnew] at h2 hn h0 hnc heq
  obtain ⟨d₁, hd₁⟩ : ∃ d₁, d₁ = fatAllocCluster fs (fatAllocCluster fs d file.current new) new
      FAT_EOC_MARK := ⟨_, rfl⟩
  rw [← hd₁] at heq
  have ht₁ := ht.extend ha hc.notDir hlast h2 hn h0 hd₁
  have hne : file.current ≠ new := by
    intro h
    exact ht.not_mem_of_free h0 List.mem_cons_self (h ▸ hmem)
  have hlink := linked_alloc (d := d) hv ((ht.chain o List.mem_cons_self).cluster _ hmem) hnc hne
  rw [← hd₁] at hlink
  have hclear : OnlyCluster fs new d₁ (fatClearCluster fs d₁ new) := auVDiskWrite_only le_rfl _
  have hw := hclear.trans (auVDiskWrite_only (le_refl fs.sectorPerCluster) buffer)
  have hmark : isEoc (fatReadFAT fs (fatClearCluster fs d₁ new) new) = true := by
    rw [fatReadFAT_eq, hclear.entry hv hnc hnc.2.2, ← fatReadFAT_eq, hlink.mark]
    decide
  rw [AuVFSNode.wrote_of_mark hmark] at heq
  have hm : new ∈ o.chain ++ [new] := List.mem_append_right _ (List.mem_singleton_self new)
  refine ⟨_, _, _, o.chain.length, heq,
    ht₁.same ha (hw.sameTree ha ht₁ List.mem_cons_self hc.notDir hm), ⟨hc.notDir, ?_, ?_, ?_⟩, rfl,
    ?_⟩
  · exact List.getElem?_concat_length
  · intro _
    change _ = (o.chain ++ [new]).length
    rw [List.length_append, List.length_singleton]
  · have hcard : (freeBelow fs top d).card ≤ (freeBelow fs top d₁).card + 1 := by
      apply card_freeBelow_le new
      intro p hp2 hpt hz hpn
      rw [hlink.other p hpn _, hz]
      rintro rfl
      exact ht.not_mem_of_free hz List.mem_cons_self hmem
    simp only [AuVFSNode.written, if_true, hw.freeBelow ha hnc]
    omega
  · intro z hz
    have hz := List.mem_cons_of_mem o hz
    have hcl := (ht.chain o List.mem_cons_self).cluster _ hmem
    have h1 := (ht.intact_alloc hv hz hcl new d).trans
      (ht.intact_alloc hv hz hnc FAT_EOC_MARK _)
    rw [← hd₁] at h1
    exact h1.trans (hw.intact hv ht hz hnc (ht.not_mem_of_free h0 hz))

/-- The turns of a write. -/
theorem Cursor.writeLoop (ha : Area fs top) (num i : ℕ) (ht : Tree fs top d (o :: rest))
    (hc : Cursor fs top d o file num k) :
    ∃ d' file' o', writeLoop fs buffer num i d file = (d', file') ∧
      Tree fs top d' (o' :: rest) ∧ file'.parent_block = file.parent_block ∧
      ∀ z ∈ rest, Intact fs d d' z := by
  induction num generalizing i d file o k with
  | zero => exact ⟨d, file, o, rfl, ht, rfl, fun z _ => .refl fs d z⟩
  | succ num ih =>
    obtain ⟨d₁, file₁, o₁, k₁, he₁, ht₁, hc₁, hp₁, hs₁⟩ : ∃ d' file' o' k',
        fatFileWriteContent fs d file (fun a => buffer (i * fs.cluster_sz_in_bytes + a)) =
          (d', file') ∧ Tree fs top d' (o' :: rest) ∧ Cursor fs top d' o' file' num k' ∧
          file'.parent_block = file.parent_block ∧ ∀ z ∈ rest, Intact fs d d' z := by
      by_cases he : file.eof = true
      · exact hc.appendPage _ ha ht he
      · obtain ⟨d', file', k', h⟩ := hc.overwrite
          (fun a => buffer (i * fs.cluster_sz_in_bytes + a)) ha ht he
        exact ⟨d', file', o, k', h⟩
    obtain ⟨d₂, file₂, o₂, he₂, ht₂, hp₂, hs₂⟩ := ih (i + 1) ht₁ hc₁
    refine ⟨d₂, file₂, o₂, ?_, ht₂, hp₂.trans hp₁, fun z hz => (hs₁ z hz).trans (hs₂ z hz)⟩
    rw [Fat.writeLoop, he₁]
    exact he₂

end

/-- `m` clusters are left from the `k`th one on. -/
theorem Left.le_length {cs : List ℕ} {k m : ℕ} (hc : Chain fs d cs) (hk : cs[k]? = some c)
    (hl : Left fs d c m) : m ≤ cs.length - k := by
  have hlt := (List.getElem?_eq_some_iff.mp hk).1
  by_contra hgt
  -- the end mark of the chain comes first
  have hw : walk fs d (cs.length - 1 - k) c = cs[cs.length - 1] := by
    have hgo : ∀ j (hj : k + j < cs.length), walk fs d j c = cs[k + j] := by
      intro j
      induction j with
      | zero =>
        intro _
        exact (List.getElem?_eq_some_iff.mp hk).2.symm
      | succ j ih =>
        intro hj
        rw [walk_succ, ih (by omega)]
        exact hc.link (k + j) _ _ (List.getElem?_eq_getElem (by omega))
          (List.getElem?_eq_getElem hj)
    rw [hgo _ (by omega)]
    congr 1
    omega
  have hm := hc.mark _ (List.getElem?_eq_getElem (show cs.length - 1 < cs.length by omega))
  have hn := hl (cs.length - 1 - k) (by omega)
  rw [hw, hm] at hn
  cases hn

/-- The walk that adds to the size keeps the tree. -/
theorem Tree.updateSize {file : AuVFSNode} (ha : Area fs top) (ht : Tree fs top d objs)
    (hp : file.parent_block = 0 ∨ ∃ g ∈ objs, g.dir = true ∧ file.parent_block ∈ g.chain)
    (length : ℕ) :
    ∃ d', fatFileUpdateSize fs d fs.totalClusters file length = some d' ∧ Tree fs top d' objs ∧
      ∀ z ∈ objs, z.dir = false → Intact fs d d' z := by
  by_cases h0 : file.parent_block = 0
  · exact ⟨d, if_pos h0, ht, fun z _ _ => .refl fs d z⟩
  · obtain ⟨g, hg, hgd, hm⟩ := hp.resolve_left h0
    obtain ⟨pre, tail, hcs⟩ := List.append_of_mem hm
    have hch := ht.chain g hg
    rw [hcs] at hch
    obtain ⟨d', hd', hspec⟩ :=
      updateSizeLoop_spec ha.volume (hch.suffix pre) (hch.fuel pre) file.name length
    refine ⟨d', by rw [fatFileUpdateSize, if_neg h0, hd'], ?_⟩
    rcases hspec with rfl | ⟨x, hx, v, rfl⟩
    · exact ⟨ht, fun z _ _ => .refl fs d' z⟩
    · have hxg : x ∈ slots fs g.chain := by
        obtain ⟨h1, h2⟩ := mem_slots.mp hx
        rw [hcs]
        exact mem_slots.mpr ⟨List.mem_append_right _ h1, h2⟩
      obtain ⟨hx1, hxj, -⟩ := mem_slots.mp hxg
      refine ⟨ht.same ha (sameTree_size ha ht hg hxg v), fun z hz hf => ?_⟩
      exact (writeSector_only hxj _).intact ha.volume ht hz ((ht.chain g hg).cluster _ hx1)
        (ht.not_mem_file hz hf hg hgd hx1)

theorem Tree.write {file : AuVFSNode} {buffer : ℕ → UInt8} {length : ℕ} (ha : Area fs top)
    (ht : Tree fs top d objs) (hk : Kind fs top d (.write file buffer length)) :
    Steps fs top d objs (.write file buffer length) := by
  obtain ⟨hfile, hcur, heof, hpar, m, hroom, hleft, hm0⟩ := hk
  obtain ⟨o, ho, hof, hoh⟩ := hfile.obj ht
  obtain ⟨rest, ht', hmem⟩ := ht.front ho
  have hoc := ht.chain o ho
  obtain ⟨k, hkc⟩ := List.mem_iff_getElem?.mp (hcur.mem hoc hoh)
  have hlt := (List.getElem?_eq_some_iff.mp hkc).1
  have hcursor : Cursor fs top d o file (numCluster fs length) k := by
    refine ⟨hof, hkc, ?_, ?_⟩
    · intro he
      have hmark := heof he
      by_contra hne
      have hnext := List.getElem?_eq_getElem (show k + 1 < o.chain.length by omega)
      rw [hoc.link k _ _ hkc hnext,
        (hoc.cluster _ (List.getElem_mem _)).not_isEoc ha.volume] at hmark
      cases hmark
    · split_ifs with he
      · rw [hm0 he] at hroom
        exact hroom
      · have := hleft.le_length hoc hkc
        omega
  obtain ⟨d₁, file₁, o₁, he₁, ht₁, hp₁, hs₁⟩ := hcursor.writeLoop buffer ha _ 0 ht'
  have hpar₁ : file₁.parent_block = 0 ∨
      ∃ g ∈ o₁ :: rest, g.dir = true ∧ file₁.parent_block ∈ g.chain := by
    rw [hp₁]
    apply hpar.imp_right
    intro hd
    obtain ⟨g, hg, hgd, hgm⟩ := hd.obj ht
    refine ⟨g, ?_, hgd, hgm⟩
    rcases List.mem_cons.mp ((hmem g).mp hg) with rfl | hg
    · rw [hof] at hgd
      cases hgd
    · exact List.mem_cons_of_mem _ hg
  obtain ⟨d₂, he₂, ht₂, hs₂⟩ := ht₁.updateSize ha hpar₁ length
  refine ⟨d₂, _, ?_, ht₂, fun z hz hf hne => ?_⟩
  · simp only [treeOp, fatWrite, he₁, he₂, Option.map_some]
  · rcases List.mem_cons.mp ((hmem z).mp hz) with rfl | hz
    · exact absurd hoh hne
    · have hz' := List.mem_cons_of_mem o₁ hz
      exact ⟨hz', (hs₁ z hz).trans (hs₂ z hz' hf)⟩

/-! ## Removing -/

/-- An object that no entry leads out of. -/
def Childless (fs : FatFS) (objs : List Obj) (o : Obj) : Prop :=
  ∀ z ∈ objs, ∀ y, z.slot = some y → y ∉ slots fs o.chain

/-- A file has no entries. -/
theorem Tree.childless_file (ht : Tree fs top d objs) (ho : o ∈ objs) (hf : o.dir = false) :
    Childless fs objs o := by
  intro z hz y hy hyo
  obtain ⟨g, hg, hgd, hyg, -, -⟩ := ht.held z hz y hy
  rw [eq_of_mem_chain ht ho hg (mem_slots.mp hyo).1 (mem_slots.mp hyg).1, hgd] at hf
  cases hf

/-- A directory whose entries own nothing. -/
theorem Tree.childless_empty (ht : Tree fs top d objs)
    (he : ∀ y ∈ slots fs o.chain, ownerAt fs d y = none) : Childless fs objs o := by
  intro z hz y hy hyo
  obtain ⟨_, _, _, _, h1, _⟩ := ht.held z hz y hy
  rw [he y hyo] at h1
  exact ht.full z hz (List.head?_eq_none_iff.mp h1.symm)

/-- The node's entry and chain go, if its name leads to an object without children. -/
theorem Tree.removeNode {file : AuVFSNode} {k : Bool} (ha : Area fs top)
    (ht : Tree fs top d objs) (hk : Names fs d file k)
    (hleaf : ∀ o ∈ objs, o.dir = k → o.chain.head? = some file.first_block →
      Childless fs objs o) :
    ∃ r objs', fatFileRemove fs d fs.totalClusters file = some r ∧ Tree fs top r.1 objs' ∧
      ∀ z ∈ objs, z.dir = false → (k = false → z.chain.head? ≠ some file.first_block) →
        z ∈ objs' ∧ Intact fs d r.1 z := by
  have hv := ha.volume
  obtain ⟨hdir, hname⟩ := hk
  rcases hdir with hdir | hout
  · obtain ⟨g, hg, hgd, hgm⟩ := hdir.obj ht
    obtain ⟨pre, tail, hcs⟩ := List.append_of_mem hgm
    have hch := ht.chain g hg
    rw [hcs] at hch
    obtain ⟨r, hr, hspec⟩ := findEntry_spec hv (hch.suffix pre) (hch.fuel pre) file.name
    cases r with
    | none =>
      refine ⟨(d, false), objs, ?_, ht, fun z hz _ _ => ⟨hz, .refl fs d z⟩⟩
      rw [fatFileRemove, fatFileClearDirEntry, hr]
      rfl
    | some x =>
      obtain ⟨hown, hk⟩ := hname x hr
      have hxg : x ∈ slots fs g.chain := by
        obtain ⟨h1, h2⟩ := mem_slots.mp (hspec x rfl)
        rw [hcs]
        exact mem_slots.mpr ⟨List.mem_append_right _ h1, h2⟩
      obtain ⟨o, ho, hos, hoh, hod⟩ := ht.obj_of_owner hg hgd hxg hown
      have hchild := hleaf o ho (hod.trans hk) hoh
      obtain ⟨rest, ht', hmem⟩ := ht.front ho
      have hgr : g ∈ rest := by
        rcases List.mem_cons.mp ((hmem g).mp hg) with rfl | hgr
        · exact absurd hxg (hchild g ho x hos)
        · exact hgr
      obtain ⟨tail, htail⟩ := chain_of_head hoh
      have hoc := ht.chain o ho
      rw [htail] at hoc
      obtain ⟨d', hd', hrem, hs⟩ := ht'.removed ha hgr hgd hxg htail (hoc.fuel []) rfl
      have hin := (hoc.cluster _ List.mem_cons_self).inTable hv
      refine ⟨(d', true), rest, ?_, ht'.remove ha hos ?_ hrem, fun z hz hf hne => ?_⟩
      · rw [fatFileRemove, fatFileClearDirEntry, hr]
        simp only [Option.map_some, Option.bind_some, not_true_eq_false, if_false, hin, if_true]
        exact congrArg (Option.map fun d => (d, true)) hd'
      · exact fun z hz => hchild z ((hmem z).mpr hz)
      · rcases List.mem_cons.mp ((hmem z).mp hz) with rfl | hz
        · exact absurd hoh (hne (by rw [← hk, ← hod, hf]))
        · exact ⟨hz, hs z hz hf⟩
  · -- the parent is no cluster of the table, and nothing is searched
    refine ⟨(d, false), objs, ?_, ht, fun z hz _ _ => ⟨hz, .refl fs d z⟩⟩
    have hpos : ∃ n, fs.totalClusters = n + 1 := by
      obtain ⟨o, ho, -⟩ := ht.root
      obtain ⟨c, hc⟩ := List.exists_mem_of_ne_nil _ (ht.full o ho)
      have := ((ht.chain o ho).cluster c hc).2.1
      exact ⟨fs.totalClusters - 1, by omega⟩
    obtain ⟨n, hn⟩ := hpos
    rw [fatFileRemove, fatFileClearDirEntry, hn, findEntry, hout]
    rfl

theorem Tree.removeFile {file : AuVFSNode} (ha : Area fs top) (ht : Tree fs top d objs)
    (hk : Kind fs top d (.remove file)) : Steps fs top d objs (.remove file) := by
  obtain ⟨r, objs', hr, ht', hs⟩ := ht.removeNode ha hk fun o ho hf _ => ht.childless_file ho hf
  exact ⟨r.1, objs', by rw [treeOp, hr, Option.map_some], ht', fun z hz hf hne =>
    hs z hz hf fun _ => hne⟩

theorem Tree.removeDir {file : AuVFSNode} (ha : Area fs top) (ht : Tree fs top d objs)
    (hk : Kind fs top d (.rmdir file)) : Steps fs top d objs (.rmdir file) := by
  obtain ⟨hnames, hcur, heq⟩ := hk
  obtain ⟨g, hg, hgd, hgh⟩ := hcur.obj ht
  obtain ⟨tail, hcs⟩ := chain_of_head hgh
  have hch := ht.chain g hg
  have hended := ht.ended g hg hgd
  rw [hcs] at hch hended
  have h2 : ¬ file.current < 2 := by
    have := (hch.cluster _ List.mem_cons_self).1
    omega
  obtain ⟨b, hb, hempty⟩ := dirEmpty_spec ha.volume hch (hch.fuel []) hended
  cases b with
  | false =>
    apply ht.steps_same
    rw [treeOp, fatRemoveDir, if_neg h2, hb]
    rfl
  | true =>
    obtain ⟨r, objs', hr, ht', hs⟩ := ht.removeNode ha hnames fun o ho _ hoh => by
      -- the object of the node is the directory that was found empty
      have hog : o = g := eq_of_mem_chain ht ho hg (mem_of_head? hoh)
        (mem_of_head? (heq ▸ hgh))
      rw [hog]
      apply ht.childless_empty
      rw [hcs]
      exact hempty rfl
    refine ⟨r.1, objs', ?_, ht', fun z hz hf _ => hs z hz hf fun he => by cases he⟩
    rw [treeOp, fatRemoveDir, if_neg h2, hb, Option.bind_some, if_pos rfl, hr, Option.map_some]

theorem Tree.step {op : TreeOp} (ha : Area fs top) (ht : Tree fs top d objs)
    (hk : Kind fs top d op) : Steps fs top d objs op := by
  cases op with
  | create parent fname => exact ht.createFile ha hk
  | mkdir parent fname => exact ht.createDir ha hk
  | write file buffer length => exact ht.write ha hk
  | remove file => exact ht.removeFile ha hk
  | rmdir file => exact ht.removeDir ha hk

/-- The files and directories of the disk form a tree. -/
def Sound (fs : FatFS) (top : ℕ) (d : Option Disk) : Prop :=
  ∃ d', d = some d' ∧ ∃ objs, Tree fs top d' objs

theorem Sound.step {d : Option Disk} (ha : Area fs top) (op : TreeOp) (hs : Sound fs top d)
    (hk : ∀ d', d = some d' → Kind fs top d' op) : Sound fs top (treeStep fs d op) := by
  obtain ⟨d, rfl, objs, ht⟩ := hs
  obtain ⟨d', objs', hd', ht', -⟩ := ht.step ha (hk d rfl)
  exact ⟨d', hd', objs', ht'⟩

/-- Every run of operations of the kind ends, on a disk whose chains are apart. -/
theorem exec_chainsApart (ha : Area fs top) (ht : Tree fs top d objs) (ops : List TreeOp)
    (hk : Respects (fun d op => ∀ d', d = some d' → Kind fs top d' op) (treeStep fs) (some d) ops) :
    Sound fs top (run (treeStep fs) (some d) ops) :=
  hk.invariant (fun _ op hs hok => hs.step ha op hok) ⟨d, rfl, objs, ht⟩

/-! ## The other files -/

/-- A read along a chain depends on the bytes of its clusters only. -/
theorem Intact.read (hv : Volume fs) (hc : Chain fs d o.chain) (hc' : Chain fs d' o.chain)
    (hs : Intact fs d d' o) {file : AuVFSNode} (hm : file.current ∈ o.chain) (length : ℕ)
    (page : ℕ → UInt8) :
    (fatReadFile fs d' file length page).1 = (fatReadFile fs d file length page).1 := by
  have hpos := hv.size_pos
  obtain ⟨k, hk⟩ := List.mem_iff_getElem?.mp hm
  cases he : file.eof with
  | true => simp only [fatReadFile, readLoop_eof he]
  | false =>
    let stream := fun p => content fs d (o.chain.getD (p / fs.cluster_sz_in_bytes) 0)
      (p % fs.cluster_sz_in_bytes)
    have hkept : ∀ i c, o.chain[i]? = some c → ∀ a < fs.cluster_sz_in_bytes,
        content fs d c a = stream (i * fs.cluster_sz_in_bytes + a) := by
      intro i c hi a ha
      simp only [stream]
      rw [Nat.mul_comm, Nat.mul_add_div hpos, Nat.mul_add_mod, Nat.div_eq_of_lt ha,
        Nat.mod_eq_of_lt ha, Nat.add_zero, List.getD_eq_getElem?_getD, hi, Option.getD_some]
    have hskip := Nat.mod_lt file.pos hpos
    have h := readLoop_spec stream hv hc hkept _ k _ page length he hk hskip (le_blocks hpos _)
    have h' := readLoop_spec stream hv hc' (fun i c hi a ha =>
      (hs c (List.mem_of_getElem? hi) a ha).trans (hkept i c hi a ha)) _ k _ page length he hk
      hskip (le_blocks hpos _)
    simp only [fatReadFile, h, h']

/-- A run keeps the chain and the bytes of every file that none of its operations writes or
frees, and a read along it returns what it returned before. -/
theorem exec_otherFile (ha : Area fs top) (ht : Tree fs top d objs) (ho : o ∈ objs)
    (hf : o.dir = false) (ops : List TreeOp)
    (hk : Respects (fun d op => (∀ d', d = some d' → Kind fs top d' op) ∧
      o.chain.head? ≠ op.target) (treeStep fs) (some d) ops) :
    ∃ d' objs', run (treeStep fs) (some d) ops = some d' ∧ Tree fs top d' objs' ∧ o ∈ objs' ∧
      Intact fs d d' o ∧ ∀ file length page, file.current ∈ o.chain →
        (fatReadFile fs d' file length page).1 = (fatReadFile fs d file length page).1 := by
  have hrun := hk.invariant (I := fun x => ∃ d' objs', x = some d' ∧ Tree fs top d' objs' ∧
      o ∈ objs' ∧ Intact fs d d' o)
    (fun _ op ⟨d₁, objs₁, he, ht₁, ho₁, hs₁⟩ ⟨hkind, hne⟩ => by
      subst he
      obtain ⟨d₂, objs₂, he₂, ht₂, hother⟩ := ht₁.step ha (hkind d₁ rfl)
      obtain ⟨ho₂, hs₂⟩ := hother o ho₁ hf hne
      exact ⟨d₂, objs₂, he₂, ht₂, ho₂, hs₁.trans hs₂⟩)
    ⟨d, objs, rfl, ht, ho, .refl fs d o⟩
  obtain ⟨d', objs', he, ht', ho', hs⟩ := hrun
  exact ⟨d', objs', he, ht', ho', hs, fun file length page hm =>
    hs.read ha.volume (ht.chain o ho) (ht'.chain o ho') hm length page⟩

/-! ## A volume with nothing but the root -/

theorem tree_of_root {cs : List ℕ} (hc : Chain fs d cs)
    (hh : cs.head? = some fs.rootDirFirstCluster) (ha : ∀ c ∈ cs, c < top)
    (hu : ∀ c < top, 2 ≤ c → fatReadFAT fs d c ≠ 0 → c ∈ cs)
    (ho : ∀ x ∈ slots fs cs, ownerAt fs d x = none) : Tree fs top d [⟨cs, true, none⟩] where
  chain o hm := by rwa [List.mem_singleton.mp hm]
  area o hm := by rwa [List.mem_singleton.mp hm]
  full o hm := by
    rw [List.mem_singleton.mp hm]
    rintro (he : cs = [])
    rw [he] at hh
    cases hh
  apart := by
    rw [List.flatMap_singleton]
    exact hc.nodup
  used c h2 hct h0 _ := by
    rw [List.flatMap_singleton]
    exact hu c hct h2 h0
  root := ⟨_, List.mem_singleton_self _, rfl⟩
  rootDir o hm _ := by
    rw [List.mem_singleton.mp hm]
    exact ⟨rfl, hh⟩
  held o hm x hx := by
    rw [List.mem_singleton.mp hm] at hx
    cases hx
  owners g hm _ x hx h hown := by
    rw [List.mem_singleton.mp hm] at hx
    rw [ho x hx] at hown
    cases hown
  reach o hm := by
    rw [List.mem_singleton.mp hm]
    exact .root _ (List.mem_singleton_self _) rfl
  ended g hm _ := by
    rw [List.mem_singleton.mp hm]
    apply (List.pairwise_of_forall fun _ _ => trivial).imp_of_mem
    intro x y _ hy _ _
    exact ho y hy

theorem smallVolume_area : Area smallVolume 8 where
  volume := smallVolume_sound
  count := le_rfl
  table := by decide

theorem emptyRoot_tree : Tree smallVolume 8 emptyRoot [⟨[2], true, none⟩] := by
  apply tree_of_root
  · constructor
    · intro c hc
      rw [List.mem_singleton.mp hc]
      unfold FatFS.Cluster
      decide
    · exact List.nodup_singleton 2
    · intro i a b _ hb
      cases hb
    · intro a ha
      cases ha
      decide +kernel
  · rfl
  · decide
  · decide +kernel
  · decide +kernel

/-- A file of two clusters and a directory come and go. -/
def fileAndDir : List TreeOp :=
  [.create 2 fun _ => 0x41, .write (newNode (fun _ => 0x41) 3 2) (fun a => UInt8.ofNat a) 600,
    .mkdir 2 fun _ => 0x42, .remove (newNode (fun _ => 0x41) 3 2),
    .rmdir (newNode (fun _ => 0x42) 5 2)]

def afterOps (k : ℕ) : Disk :=
  (run (treeStep smallVolume) (some emptyRoot) (fileAndDir.take k)).getD emptyRoot

theorem kind_getD {d : Option Disk} {op : TreeOp} (hk : Kind fs top (d.getD emptyRoot) op) :
    ∀ d', d = some d' → Kind fs top d' op := by
  rintro d' rfl
  exact hk

theorem root_inDir (d : Disk) : InDir smallVolume d 2 := ⟨2, .root, .head⟩

theorem exec_chainsApart_fileAndDir :
    Sound smallVolume 8 (run (treeStep smallVolume) (some emptyRoot) fileAndDir) := by
  have h0 : Kind smallVolume 8 (afterOps 0) (.create 2 fun _ => 0x41) :=
    ⟨.root, by decide, .inl (by decide +kernel)⟩
  have h1 : Kind smallVolume 8 (afterOps 1)
      (.write (newNode (fun _ => 0x41) 3 2) (fun a => UInt8.ofNat a) 600) := by
    refine ⟨⟨(2, 0, 0), root_inDir _, by decide, by decide, ?_, ?_⟩, .head, ?_,
      .inr (root_inDir _), 1, ?_, ?_, ?_⟩
    · decide +kernel
    · decide +kernel
    · exact fun he => by cases he
    · decide +kernel
    · intro k hk
      omega
    · exact fun he => by cases he
  have h2 : Kind smallVolume 8 (afterOps 2) (.mkdir 2 fun _ => 0x42) :=
    ⟨.root, by decide, .inl (by decide +kernel)⟩
  have h3 : Kind smallVolume 8 (afterOps 3) (.remove (newNode (fun _ => 0x41) 3 2)) := by
    refine ⟨.inl (root_inDir _), fun x hx => ?_⟩
    have hfound : findEntry smallVolume (afterOps 3) (fun _ => 0x41) 8 2 = some (some (2, 0, 0)) := by
      decide +kernel
    cases hfound.symm.trans hx
    exact ⟨by decide +kernel, by decide +kernel⟩
  have h4 : Kind smallVolume 8 (afterOps 4) (.rmdir (newNode (fun _ => 0x42) 5 2)) := by
    refine ⟨⟨.inl (root_inDir _), fun x hx => ?_⟩, ?_, rfl⟩
    · have hfound : findEntry smallVolume (afterOps 4) (fun _ => 0x42) 8 2 =
          some (some (2, 0, 1)) := by
        decide +kernel
      cases hfound.symm.trans hx
      exact ⟨by decide +kernel, by decide +kernel⟩
    · exact .sub 2 5 (2, 0, 1) .root .head (by decide) (by decide) (by decide +kernel)
        (by decide +kernel)
  exact exec_chainsApart smallVolume_area emptyRoot_tree fileAndDir
    ⟨kind_getD h0, kind_getD h1, kind_getD h2, kind_getD h3, kind_getD h4, trivial⟩

/-- A new file keeps its zero bytes where a directory is made. -/
theorem exec_otherFile_mkdir : ∃ (o : Obj) (d' : Disk), o.chain.head? = some 3 ∧
    run (treeStep smallVolume) (some (afterOps 1)) [.mkdir 2 fun _ => 0x42] = some d' ∧
    Intact smallVolume (afterOps 1) d' o := by
  have h0 : Kind smallVolume 8 emptyRoot (.create 2 fun _ => 0x41) :=
    ⟨.root, by decide, .inl (by decide +kernel)⟩
  obtain ⟨d, objs, hd, ht, -⟩ := emptyRoot_tree.step smallVolume_area h0
  have he : afterOps 1 = d := congrArg (·.getD emptyRoot) hd
  have hhead : FileHead smallVolume (afterOps 1) 3 :=
    ⟨(2, 0, 0), root_inDir _, by decide, by decide, by decide +kernel, by decide +kernel⟩
  have h1 : Kind smallVolume 8 (afterOps 1) (.mkdir 2 fun _ => 0x42) :=
    ⟨.root, by decide, .inl (by decide +kernel)⟩
  rw [← he] at ht
  obtain ⟨o, ho, hof, hoh⟩ := hhead.obj ht
  obtain ⟨d', _, hrun, _, _, hs, _⟩ := exec_otherFile smallVolume_area ht ho hof
    [.mkdir 2 fun _ => 0x42] ⟨⟨kind_getD h1, by rw [hoh]; exact fun h => by cases h⟩, trivial⟩
  exact ⟨o, d', hoh, hrun, hs⟩

/-- A root directory that takes the whole data area. -/
def fullRoot : Disk := fun q o =>
  if q = 1 ∧ 8 ≤ o ∧ o < 32 then
    byte (if o / 4 = 7 then FAT_EOC_MARK else o / 4 + 1) (o % 4)
  else 0

theorem fullRoot_tree : Tree smallVolume 8 fullRoot [⟨[2, 3, 4, 5, 6, 7], true, none⟩] := by
  apply tree_of_root
  · constructor
    · intro c hc
      unfold FatFS.Cluster
      revert c
      decide
    · decide
    · intro i a b ha hb
      have hlt := (List.getElem?_eq_some_iff.mp hb).1
      have hi : i < 5 := by
        simp only [List.length_cons, List.length_nil] at hlt
        omega
      have hall : ∀ i < 5, ∀ a ∈ ([2, 3, 4, 5, 6, 7] : List ℕ)[i]?,
          ∀ b ∈ ([2, 3, 4, 5, 6, 7] : List ℕ)[i + 1]?, fatReadFAT smallVolume fullRoot a = b := by
        decide +kernel
      exact hall i hi a ha b hb
    · intro a ha
      cases ha
      decide +kernel
  · rfl
  · decide
  · decide +kernel
  · decide +kernel

/-- A new file gets the cluster behind the data area. -/
theorem not_exec_chainsApart : Area smallVolume 8 ∧
    Tree smallVolume 8 fullRoot [⟨[2, 3, 4, 5, 6, 7], true, none⟩] ∧
    ¬ Sound smallVolume 8 (treeStep smallVolume (some fullRoot) (.create 2 fun _ => 0x41)) := by
  refine ⟨smallVolume_area, fullRoot_tree, ?_⟩
  rintro ⟨d, hd, objs, ht⟩
  have hown : (treeStep smallVolume (some fullRoot) (.create 2 fun _ => 0x41)).map
      (fun d => ownerAt smallVolume d (2, 0, 0)) = some (some 8) := by
    decide +kernel
  rw [hd, Option.map_some] at hown
  obtain ⟨o, ho, hs⟩ := ht.root
  obtain ⟨hod, hoh⟩ := ht.rootDir o ho hs
  have hx : ((2, 0, 0) : Slot) ∈ slots smallVolume o.chain :=
    mem_slots.mpr ⟨mem_of_head? hoh, by decide, by decide⟩
  obtain ⟨z, hz, -, hzh, -⟩ := ht.obj_of_owner ho hod hx (Option.some.inj hown)
  exact absurd (ht.area z hz 8 (mem_of_head? hzh)) (lt_irrefl 8)

end Xeneva.Fat
