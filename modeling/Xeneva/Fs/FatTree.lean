import Xeneva.Fs.FatChain

/-!
# The tree of files on a volume

Every file and directory owns a chain of clusters, named by its entry in the directory above.
The chains of a sound volume are apart, and each used cluster is in one of them.
-/

namespace Xeneva.Fat

variable {fs : FatFS} {top : ℕ} {d d' : Disk} {cs : List ℕ} {c : ℕ}

def firstCluster (s : Sector) (i : ℕ) : ℕ :=
  (s (32 * i + 26)).toNat + (s (32 * i + 27)).toNat * 2 ^ 8 +
    (s (32 * i + 20)).toNat * 2 ^ 16 + (s (32 * i + 21)).toNat * 2 ^ 24

/-- The first cluster of the chain that an entry owns: a free entry, `.` and `..`, a part of a
long name and an entry without clusters own none. -/
def owner (s : Sector) (i : ℕ) : Option ℕ :=
  if entryFree s i ∨ s (32 * i) = 0x2E ∨ isLongName s i ∨ firstCluster s i = 0 then none
  else some (firstCluster s i)

def isDir (s : Sector) (i : ℕ) : Bool :=
  s (32 * i + 11) &&& FAT_ATTRIBUTE_DIRECTORY = FAT_ATTRIBUTE_DIRECTORY

/-- An entry by its cluster, the sector in the cluster and the place in the sector. -/
abbrev Slot := ℕ × ℕ × ℕ

def sectorAt (fs : FatFS) (d : Disk) (x : Slot) : Sector :=
  d (fatClusterToSector32 fs x.1 + x.2.1)

def ownerAt (fs : FatFS) (d : Disk) (x : Slot) : Option ℕ := owner (sectorAt fs d x) x.2.2
def dirAt (fs : FatFS) (d : Disk) (x : Slot) : Bool := isDir (sectorAt fs d x) x.2.2
def endAt (fs : FatFS) (d : Disk) (x : Slot) : Bool := isEnd (sectorAt fs d x) x.2.2

/-- The entries of a directory in their order. -/
def slots (fs : FatFS) (cs : List ℕ) : List Slot :=
  cs.flatMap fun c => (places fs).map fun x => (c, x)

theorem mem_places {x : ℕ × ℕ} : x ∈ places fs ↔ x.1 < fs.sectorPerCluster ∧ x.2 < 16 := by
  obtain ⟨j, i⟩ := x
  simp [places]

theorem mem_slots {x : Slot} :
    x ∈ slots fs cs ↔ x.1 ∈ cs ∧ x.2.1 < fs.sectorPerCluster ∧ x.2.2 < 16 := by
  obtain ⟨c, x⟩ := x
  simp [slots, mem_places]

/-! ## The tree -/

/-- A file or a directory: its chain, and the entry that names it, except for the root. -/
structure Obj where
  chain : List ℕ
  dir : Bool
  slot : Option Slot
  deriving DecidableEq

/-- What a path from the root leads to. -/
inductive Reach (fs : FatFS) (objs : List Obj) : Obj → Prop
  | root (o : Obj) (h : o ∈ objs) (hs : o.slot = none) : Reach fs objs o
  | child (g o : Obj) (x : Slot) (h : Reach fs objs g) (hg : g ∈ objs) (hd : g.dir = true)
      (hx : x ∈ slots fs g.chain) (ho : o ∈ objs) (hs : o.slot = some x) : Reach fs objs o

/-- The objects are the root and what the entries of its directories lead to; their chains lie
in the data area `[2, top)`, end with a mark, share no cluster and take every used one. -/
structure Tree (fs : FatFS) (top : ℕ) (d : Disk) (objs : List Obj) : Prop where
  chain : ∀ o ∈ objs, Chain fs d o.chain
  area : ∀ o ∈ objs, ∀ c ∈ o.chain, c < top
  full : ∀ o ∈ objs, o.chain ≠ []
  apart : (objs.flatMap Obj.chain).Nodup
  used : ∀ c, 2 ≤ c → c < top → fatReadFAT fs d c ≠ 0 →
    fatReadFAT fs d c ≠ FAT_BAD_CLUSTER % 2 ^ 28 → c ∈ objs.flatMap Obj.chain
  root : ∃ o ∈ objs, o.slot = none
  rootDir : ∀ o ∈ objs, o.slot = none →
    o.dir = true ∧ o.chain.head? = some fs.rootDirFirstCluster
  held : ∀ o ∈ objs, ∀ x, o.slot = some x → ∃ g ∈ objs, g.dir = true ∧
    x ∈ slots fs g.chain ∧ ownerAt fs d x = o.chain.head? ∧ dirAt fs d x = o.dir
  owners : ∀ g ∈ objs, g.dir = true → ∀ x ∈ slots fs g.chain, ∀ h, ownerAt fs d x = some h →
    ∃ o ∈ objs, o.slot = some x
  reach : ∀ o ∈ objs, Reach fs objs o
  ended : ∀ g ∈ objs, g.dir = true →
    (slots fs g.chain).Pairwise fun x y => endAt fs d x = true → ownerAt fs d y = none

/-- A sound volume whose data area ends within the clusters that the driver allocates and the
table. -/
structure Area (fs : FatFS) (top : ℕ) : Prop where
  volume : Volume fs
  count : top ≤ fs.totalClusters
  table : top ≤ fs.sectorPerFAT32 * 128

theorem Area.cluster (ha : Area fs top) (h2 : 2 ≤ c) (hc : c < top) : fs.Cluster c :=
  ⟨h2, hc.trans_le ha.count, hc.trans_le ha.table⟩

section
variable {objs objs' : List Obj} {o g : Obj} {x y : Slot} {h : ℕ}

/-- A cluster is in one chain only. -/
theorem eq_of_mem_chain (ht : Tree fs top d objs) (ho : o ∈ objs) (hg : g ∈ objs)
    (hc : c ∈ o.chain) (hc' : c ∈ g.chain) : o = g := by
  have hp := (List.nodup_flatMap.mp ht.apart).2
  have : Std.Symm (Function.onFun List.Disjoint Obj.chain) := ⟨fun _ _ hd => hd.symm⟩
  by_contra hne
  exact hp.forall ho hg hne hc hc'

theorem mem_of_head? {l : List ℕ} (h : l.head? = some c) : c ∈ l :=
  List.mem_of_mem_head? h

/-- A path stays where every directory with something in it stays. -/
theorem Reach.transfer (hr : Reach fs objs o) (ho : o ∈ objs')
    (keep : ∀ g ∈ objs, ∀ z ∈ objs, ∀ x ∈ slots fs g.chain, g.dir = true → z.slot = some x →
      g ∈ objs') : Reach fs objs' o := by
  induction hr with
  | root o _ hs => exact .root o ho hs
  | child g o x _ hg hd hx hm hs ih =>
    have hg' := keep g hg o hm x hx hd hs
    exact .child g o x (ih hg') hg' hd hx ho hs

theorem Reach.perm (hr : Reach fs objs o) (hp : objs.Perm objs') : Reach fs objs' o := by
  have ho : o ∈ objs := by
    cases hr with
    | root _ h _ => exact h
    | child _ _ _ _ _ _ _ h _ => exact h
  exact hr.transfer (hp.mem_iff.mp ho) fun g hg _ _ _ _ _ _ => hp.mem_iff.mp hg

theorem Tree.perm (ht : Tree fs top d objs) (hp : objs.Perm objs') : Tree fs top d objs' := by
  have hm : ∀ o, o ∈ objs' ↔ o ∈ objs := fun o => hp.mem_iff.symm
  constructor
  · exact fun o ho => ht.chain o ((hm o).mp ho)
  · exact fun o ho => ht.area o ((hm o).mp ho)
  · exact fun o ho => ht.full o ((hm o).mp ho)
  · exact (hp.flatMap_right Obj.chain).nodup_iff.mp ht.apart
  · exact fun c h2 hc h0 hb => (hp.flatMap_right Obj.chain).mem_iff.mp (ht.used c h2 hc h0 hb)
  · obtain ⟨o, ho, hs⟩ := ht.root
    exact ⟨o, (hm o).mpr ho, hs⟩
  · exact fun o ho => ht.rootDir o ((hm o).mp ho)
  · intro o ho x hx
    obtain ⟨g, hg, hrest⟩ := ht.held o ((hm o).mp ho) x hx
    exact ⟨g, (hm g).mpr hg, hrest⟩
  · intro g hg hd x hx h hh
    obtain ⟨o, ho, hs⟩ := ht.owners g ((hm g).mp hg) hd x hx h hh
    exact ⟨o, (hm o).mpr ho, hs⟩
  · exact fun o ho => (ht.reach o ((hm o).mp ho)).perm hp
  · exact fun g hg => ht.ended g ((hm g).mp hg)

/-- Two objects have different entries. -/
theorem eq_of_slot (ht : Tree fs top d objs) (ho : o ∈ objs) (hg : g ∈ objs)
    (hso : o.slot = some x) (hsg : g.slot = some x) : o = g := by
  obtain ⟨_, _, _, _, h1, _⟩ := ht.held o ho x hso
  obtain ⟨_, _, _, _, h2, _⟩ := ht.held g hg x hsg
  cases hh : o.chain.head? with
  | none => exact absurd (List.head?_eq_none_iff.mp hh) (ht.full o ho)
  | some c =>
    apply eq_of_mem_chain ht ho hg (mem_of_head? hh)
    rw [hh] at h1
    rw [h1] at h2
    exact mem_of_head? h2.symm

/-- Nothing that the tree depends on differs. -/
structure SameTree (fs : FatFS) (d d' : Disk) (objs : List Obj) : Prop where
  entry : ∀ c, fs.Cluster c → entry fs d' c = entry fs d c
  owner : ∀ g ∈ objs, g.dir = true → ∀ x ∈ slots fs g.chain, ownerAt fs d' x = ownerAt fs d x
  dir : ∀ g ∈ objs, g.dir = true → ∀ x ∈ slots fs g.chain, dirAt fs d' x = dirAt fs d x
  ends : ∀ g ∈ objs, g.dir = true → ∀ x ∈ slots fs g.chain, endAt fs d' x = endAt fs d x

theorem Tree.same (ha : Area fs top) (ht : Tree fs top d objs) (hs : SameTree fs d d' objs) :
    Tree fs top d' objs where
  chain o ho := (ht.chain o ho).congr fun c hc => hs.entry c ((ht.chain o ho).cluster c hc)
  area := ht.area
  full := ht.full
  apart := ht.apart
  used c h2 hc h0 hb := by
    rw [fatReadFAT_eq, hs.entry c (ha.cluster h2 hc)] at h0 hb
    exact ht.used c h2 hc h0 hb
  root := ht.root
  rootDir := ht.rootDir
  held o ho x hx := by
    obtain ⟨g, hg, hd, hm, h1, h2⟩ := ht.held o ho x hx
    refine ⟨g, hg, hd, hm, ?_, ?_⟩
    · rw [hs.owner g hg hd x hm, h1]
    · rw [hs.dir g hg hd x hm, h2]
  owners g hg hd x hm h hh := by
    rw [hs.owner g hg hd x hm] at hh
    exact ht.owners g hg hd x hm h hh
  reach := ht.reach
  ended g hg hd := by
    apply (ht.ended g hg hd).imp_of_mem
    intro x y hx hy hxy he
    rw [hs.ends g hg hd x hx] at he
    rw [hs.owner g hg hd y hy]
    exact hxy he

/-- A write into a file's cluster. -/
theorem OnlyCluster.sameTree (ha : Area fs top) (ht : Tree fs top d objs)
    (hd : OnlyCluster fs c d d') (ho : o ∈ objs) (hf : o.dir = false) (hc : c ∈ o.chain) :
    SameTree fs d d' objs := by
  have hcc := (ht.chain o ho).cluster c hc
  have hsec : ∀ g ∈ objs, g.dir = true → ∀ x ∈ slots fs g.chain,
      sectorAt fs d' x = sectorAt fs d x := by
    intro g hg hgd x hx
    obtain ⟨hx1, hx2, -⟩ := mem_slots.mp hx
    apply hd.sector ha.volume hcc ((ht.chain g hg).cluster _ hx1) _ hx2
    rintro rfl
    rw [eq_of_mem_chain ht ho hg hc hx1, hgd] at hf
    cases hf
  constructor
  · exact fun p hp => hd.entry ha.volume hcc hp.2.2
  · intro g hg hgd x hx
    rw [ownerAt, ownerAt, hsec g hg hgd x hx]
  · intro g hg hgd x hx
    rw [dirAt, dirAt, hsec g hg hgd x hx]
  · intro g hg hgd x hx
    rw [endAt, endAt, hsec g hg hgd x hx]

/-- The bytes in the clusters of an object stay. -/
def Intact (fs : FatFS) (d d' : Disk) (o : Obj) : Prop :=
  ∀ c ∈ o.chain, ∀ a < fs.cluster_sz_in_bytes, content fs d' c a = content fs d c a

theorem Intact.refl (fs : FatFS) (d : Disk) (o : Obj) : Intact fs d d o :=
  fun _ _ _ _ => rfl

theorem Intact.trans {d'' : Disk} (h : Intact fs d d' o) (h' : Intact fs d' d'' o) :
    Intact fs d d'' o := fun c hc a ha => (h' c hc a ha).trans (h c hc a ha)

theorem OnlyCluster.intact (hv : Volume fs) (ht : Tree fs top d objs) (ho : o ∈ objs)
    (hc : fs.Cluster c) (hn : c ∉ o.chain) {d₁ : Disk} (h : OnlyCluster fs c d₁ d') :
    Intact fs d₁ d' o := by
  intro p hp a ha
  apply h.content hv hc ((ht.chain o ho).cluster p hp) _ ha
  exact fun he => hn (he ▸ hp)

theorem Tree.intact_alloc (hv : Volume fs) (ht : Tree fs top d objs) (ho : o ∈ objs)
    (hc : fs.Cluster c) (v : ℕ) (d₁ : Disk) : Intact fs d₁ (fatAllocCluster fs d₁ c v) o :=
  fun p hp _ _ => content_alloc hv hc ((ht.chain o ho).cluster p hp) v

/-- A directory's cluster is in no file. -/
theorem Tree.not_mem_file (ht : Tree fs top d objs) (ho : o ∈ objs) (hf : o.dir = false)
    (hg : g ∈ objs) (hgd : g.dir = true) (hc : c ∈ g.chain) : c ∉ o.chain := by
  intro hco
  rw [eq_of_mem_chain ht ho hg hco hc, hgd] at hf
  cases hf

end

end Xeneva.Fat
