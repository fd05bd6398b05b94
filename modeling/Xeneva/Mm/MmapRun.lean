import Xeneva.Mm.MmapFile

/-!
# When mappings hold the file

The offset stays where it is in the loop over the pages, and an entry of the cache gets the number
of entries before it as its index. A mapping is right where only its first page is in the file, and
the page is in the cache or the node stands at it when it is the next to be cached.
-/

namespace Xeneva.Mmap
open Base Fat

variable {fs : FatFS} {d : Disk} {s s' : State} {c : Call} {r r' : Loop} {n f i p addr blk : ℕ}
  {made : Bool}

/-! ## Turns -/

/-- What a turn leaves: the cache, the frames it does not write any more, and the mapped pages. -/
structure Turn (fs : FatFS) (d : Disk) (c : Call) (n f p : ℕ) (r r' : Loop) : Prop where
  inv : LoopInv fs d c n f r'
  leaves : Leaves c f r r'
  cached : ∃ blk, fileCacheGetPhysicalBlock r'.st f c.offset = some blk
  pages : ∀ v x, pageAt r.st p v = some x → pageAt r'.st p v = some x

theorem Turn.trans {r'' : Loop} (h : Turn fs d c n f p r r') (h' : Turn fs d c n f p r' r'') :
    Turn fs d c n f p r r'' :=
  ⟨h'.inv, h.leaves.trans h'.leaves, h'.cached, fun v x hv => h'.pages v x (h.pages v x hv)⟩

theorem pageAt_procs (h : s'.procs = s.procs) (p v : ℕ) : pageAt s' p v = pageAt s p v := by
  unfold pageAt
  rw [h]

/-- The end of a turn, which maps the page. -/
theorem turn_of_fetch {x : ℕ × Loop} (hinv : LoopInv fs d c n f x.2) (hleaves : Leaves c f r x.2)
    (hprocs : x.2.st.procs = r.st.procs)
    (hcached : ∃ blk, fileCacheGetPhysicalBlock x.2.st f c.offset = some blk) (virt : ℕ) :
    let r' : Loop := { x.2 with st := auMapPage (markComplete x.2.st n f) p x.1 virt }
    Turn fs d c n f p r r' ∧ Leaves c f x.2 r' ∧
      ∀ v, pageAt r'.st p v = (pageAt r.st p v).or
        (if v = virt / PAGE_SIZE then some (x.1 / PAGE_SIZE * PAGE_SIZE) else none) := by
  have hdata := (markComplete_data x.2.st n f).trans
    (auMapPage_data (markComplete x.2.st n f) p x.1 virt)
  have hpage (v : ℕ) : pageAt (auMapPage (markComplete x.2.st n f) p x.1 virt) p v =
      (pageAt r.st p v).or
        (if v = virt / PAGE_SIZE then some (x.1 / PAGE_SIZE * PAGE_SIZE) else none) := by
    rw [auMapPage_pageAt, pageAt_procs ((markComplete_procs x.2.st n f).trans hprocs)]
  refine ⟨⟨hinv.sameData hdata, hleaves.trans hdata.leaves, ?_, fun v y hv => ?_⟩, hdata.leaves,
    hpage⟩
  · rw [getBlock_congr (hdata.back f).2.1]
    exact hcached
  · rw [hpage, hv]
    rfl

theorem mapTurn_later (p addr i : ℕ) (made : Bool) (hfr : Frames c) (h : LoopInv fs d c n f r)
    (hblk : ∃ blk, fileCacheGetPhysicalBlock r.st f c.offset = some blk) :
    Turn fs d c n f p r (mapTurn fs d c p addr (some (n, f)) made i r) ∧
      pageAt (mapTurn fs d c p addr (some (n, f)) made i r).st p
        ((addr + i * PAGE_SIZE) % 2 ^ 64 / PAGE_SIZE) ≠ none := by
  obtain ⟨blk, hblk⟩ := hblk
  obtain ⟨hset, -⟩ := h.cached hblk
  have hx : Found c f blk i made r (fetchPage fs d c n f made i r) :=
    fetchPage_found hfr hblk hset
  have hcached : ∃ blk, fileCacheGetPhysicalBlock (fetchPage fs d c n f made i r).2.st f c.offset =
      some blk := by
    refine ⟨blk, ?_⟩
    rw [getBlock_congr (s := r.st) (by rw [hx.backs]), hblk]
  obtain ⟨hturn, -, hpage⟩ := turn_of_fetch (p := p) (h.found hx) hx.leaves hx.procs hcached
    ((addr + i * PAGE_SIZE) % 2 ^ 64)
  rw [mapTurn_eq]
  refine ⟨hturn, ?_⟩
  dsimp only
  rw [hpage, if_pos rfl]
  cases pageAt r.st p ((addr + i * PAGE_SIZE) % 2 ^ 64 / PAGE_SIZE) <;> exact Option.some_ne_none _

/-- Later turns map their pages, and change nothing that is settled. -/
theorem mapLoop_later (p addr i : ℕ) (made : Bool) (hfr : Frames c) (pages : ℕ)
    (h : LoopInv fs d c n f r)
    (hblk : ∃ blk, fileCacheGetPhysicalBlock r.st f c.offset = some blk) :
    Turn fs d c n f p r (mapLoop fs d c p addr (some (n, f)) made pages i r) ∧
      ∀ k < pages, pageAt (mapLoop fs d c p addr (some (n, f)) made pages i r).st p
        ((addr + (i + k) * PAGE_SIZE) % 2 ^ 64 / PAGE_SIZE) ≠ none := by
  induction pages generalizing i r with
  | zero =>
    exact ⟨⟨h, .refl c f r, hblk, fun _ _ hv => hv⟩, fun k hk => absurd hk (Nat.not_lt_zero k)⟩
  | succ pages ih =>
    obtain ⟨hturn, hmapped⟩ := mapTurn_later p addr i made hfr h hblk
    obtain ⟨hturns, hrest⟩ := ih (i + 1) hturn.inv hturn.cached
    unfold mapLoop
    refine ⟨hturn.trans hturns, fun k hk => ?_⟩
    cases k with
    | zero =>
      rw [Nat.add_zero i]
      obtain ⟨x, hx⟩ := Option.ne_none_iff_exists'.mp hmapped
      rw [hturns.pages _ x hx]
      exact Option.some_ne_none x
    | succ k =>
      have hk' := hrest k (by omega)
      rwa [Nat.add_assoc i 1 k, Nat.add_comm 1 k] at hk'

/-- The whole loop, from a first turn on. -/
theorem mapLoop_first (hfr : Frames c) {pages : ℕ} (hpos : 0 < pages)
    (h : First fs d c n f r (fetchPage fs d c n f made 0 r))
    (hfree : pageAt r.st p (addr % 2 ^ 64 / PAGE_SIZE) = none) :
    let r' := mapLoop fs d c p addr (some (n, f)) made pages 0 r
    LoopInv fs d c n f r' ∧ Leaves c f r r' ∧
      (∀ k < pages, pageAt r'.st p ((addr + k * PAGE_SIZE) % 2 ^ 64 / PAGE_SIZE) ≠ none) ∧
      ∃ frame, pageAt r'.st p (addr % 2 ^ 64 / PAGE_SIZE) = some frame ∧
        Holds fs d r'.st.mem (r.st.nodes n).node frame (c.offset / PAGE_SIZE) := by
  obtain ⟨pages, rfl⟩ := Nat.exists_eq_succ_of_ne_zero hpos.ne'
  obtain ⟨hturn, hlast, hpage⟩ := turn_of_fetch (p := p) h.inv h.leaves h.procs h.cached
    ((addr + 0 * PAGE_SIZE) % 2 ^ 64)
  rw [← mapTurn_eq] at hturn hlast hpage
  generalize hr1 : mapTurn fs d c p addr (some (n, f)) made 0 r = r1 at hturn hlast hpage
  obtain ⟨hturns, hrest⟩ := mapLoop_later p addr 1 made hfr pages hturn.inv hturn.cached
  have hzero : (addr + 0 * PAGE_SIZE) % 2 ^ 64 / PAGE_SIZE = addr % 2 ^ 64 / PAGE_SIZE := by
    rw [Nat.zero_mul, Nat.add_zero]
  rw [hzero] at hpage
  generalize fetchPage fs d c n f made 0 r = x at h hlast hpage
  have hmul : x.1 / PAGE_SIZE * PAGE_SIZE = x.1 :=
    Nat.div_mul_cancel (Nat.dvd_of_mod_eq_zero h.settled.1)
  have hmine : pageAt r1.st p (addr % 2 ^ 64 / PAGE_SIZE) = some x.1 := by
    rw [hpage, hfree, if_pos rfl, hmul]
    rfl
  have hmine' := hturns.pages _ _ hmine
  have hall := hturn.trans hturns
  dsimp only
  unfold mapLoop
  rw [hr1]
  refine ⟨hall.inv, hall.leaves, fun k hk => ?_, x.1, hmine', ?_⟩
  · cases k with
    | zero =>
      rw [hzero, hmine']
      exact Option.some_ne_none _
    | succ k =>
      have hk' := hrest k (by omega)
      rwa [Nat.add_comm 1 k] at hk'
  · intro a ha b hb
    rw [hturns.leaves.mem _ (h.settled.later hlast.used) a ha, hlast.mem _ h.settled a ha]
    exact h.holds a ha b hb

/-- What the cache holds are pages of the files. -/
structure CacheInv (fs : FatFS) (d : Disk) (s : State) : Prop where
  entries : ∀ g ∈ s.fileBacks, ∀ e ∈ (s.fileBack g).pageCache, EntryOk fs d s.mem (fileOf s g) e
  below : ∀ g ∈ s.fileBacks, g < s.nextFileBack

theorem SameData.cacheInv (h : SameData s s') (hi : CacheInv fs d s) : CacheInv fs d s' where
  entries g hg e he := by
    rw [h.backs] at hg
    rw [(h.back g).2.1] at he
    rw [h.mem, fileOf, h.nodes, (h.back g).1]
    exact hi.entries g hg e he
  below g hg := by
    rw [h.backs] at hg
    rw [h.next]
    exact hi.below g hg

/-- What the cache and the files do not depend on may change. -/
theorem CacheInv.of_data (h : CacheInv fs d s) (hm : s'.mem = s.mem) (hn : s'.nodes = s.nodes)
    (hb : s'.fileBacks = s.fileBacks) (hx : s'.nextFileBack = s.nextFileBack)
    (hf : s'.fileBack = s.fileBack) : CacheInv fs d s' :=
  SameData.cacheInv ⟨hm, hn, hb, hx, fun _ => by rw [hf]; exact ⟨rfl, rfl, rfl⟩⟩ h

/-- The entries of the file in the cache, or those of a new entry. -/
def backOf (s : State) (n : ℕ) : AuMMFileBack :=
  match fileCacheLookup s (s.nodes n).filename with
  | some f => s.fileBack f
  | none => { file := n }

/-- The frame of the page in the cache. -/
def blockOf (s : State) (c : Call) (n : ℕ) : Option ℕ :=
  ((backOf s n).pageCache.find? fun e => e.pageIndex = c.index).map (·.physicalPage)

/-- The address and the number of the pages. -/
def addrOf (s : State) (c : Call) (p : ℕ) : ℕ := (reserveRange s p c.address (pageAlign c.len)).2

def Call.pages (c : Call) : ℕ := pageAlign c.len / PAGE_SIZE

/-- When a mapping of the file `n` is right, and keeps the cache right: the clusters are as large
as the pages, the frames are new, the first page of the range is not mapped yet and only it is in
the file; a name stands for one file; and the page is in the cache, or it is the next to be cached
and the node stands at it. -/
structure MapOk (fs : FatFS) (d : Disk) (s : State) (c : Call) (p n : ℕ) : Prop where
  cluster : fs.cluster_sz_in_bytes = PAGE_SIZE
  frames : Frames c
  fresh : ∀ g ∈ s.fileBacks, ∀ e ∈ (s.fileBack g).pageCache, ∀ k, c.frames k ≠ e.physicalPage
  room : fileCacheLookup s (s.nodes n).filename = none → c.backRoom = true
  same : ∀ f, fileCacheLookup s (s.nodes n).filename = some f →
    SameFile (fileOf s f) (s.nodes n).node
  size : (s.nodes n).node.size < 2 ^ 32
  free : (s.procs p).pages (addrOf s c p % 2 ^ 64 / PAGE_SIZE) = none
  offset : c.offset % PAGE_SIZE = 0
  single : ∀ i, 0 < i → i < c.pages →
    ¬ InFile fs d (s.nodes n).node (c.offset / PAGE_SIZE + i)
  next : blockOf s c n = none →
    (backOf s n).numPageIndex = c.index ∧ Stands fs d c (s.nodes n).node c.index
  object : (openShared s c p n).2.1 ≠ 0 →
    blockOf s c n = some (openShared s c p n).2.1 ∧ (openShared s c p n).2.1 < 2 ^ 64

variable {f : ℕ}

/-- The file's entry, found or new. -/
structure Opened (fs : FatFS) (d : Disk) (c : Call) (s : State) (n : ℕ) (s' : State) (f : ℕ) :
    Prop where
  entries : ∀ g, g ∈ s'.fileBacks ∨ g = f → ∀ e ∈ (s'.fileBack g).pageCache,
    EntryOk fs d s'.mem (fileOf s' g) e ∧ ∀ k, c.frames k ≠ e.physicalPage
  same : SameFile (fileOf s' f) (s'.nodes n).node
  back : s'.fileBack f = backOf s n
  below : ∀ g ∈ s'.fileBacks, g < s'.nextFileBack
  nodes : s'.nodes = s.nodes
  procs : s'.procs = s.procs
  objects : s'.shmmaplist = s.shmmaplist

theorem fileCacheLookup_mem {name : List Char} (h : fileCacheLookup s name = some f) :
    f ∈ s.fileBacks := by
  unfold fileCacheLookup at h
  split_ifs at h
  exact List.mem_of_find?_eq_some h

theorem CacheInv.openFileBack (hi : CacheInv fs d s)
    (hfresh : ∀ g ∈ s.fileBacks, ∀ e ∈ (s.fileBack g).pageCache, ∀ k, c.frames k ≠ e.physicalPage)
    (hroom : fileCacheLookup s (s.nodes n).filename = none → c.backRoom = true)
    (hsame : ∀ f, fileCacheLookup s (s.nodes n).filename = some f →
      SameFile (fileOf s f) (s.nodes n).node) :
    ∃ s' f, openFileBack s c n = (s', some f) ∧ Opened fs d c s n s' f := by
  unfold Mmap.openFileBack
  cases hl : fileCacheLookup s (s.nodes n).filename with
  | some f =>
    have hmem := fileCacheLookup_mem hl
    refine ⟨s, f, rfl, ?_, hsame f hl, ?_, hi.below, rfl, rfl, rfl⟩
    · intro g hg e he
      have hg' : g ∈ s.fileBacks := hg.elim id fun hgf => hgf ▸ hmem
      exact ⟨hi.entries g hg' e he, hfresh g hg' e he⟩
    · unfold backOf
      rw [hl]
  | none =>
    dsimp only
    rw [if_pos (hroom hl)]
    refine ⟨_, _, rfl, ?_⟩
    have hnew : s.nextFileBack ∉ s.fileBacks := fun hm => lt_irrefl _ (hi.below _ hm)
    have hback : backOf s n = { file := n } := by
      unfold backOf
      rw [hl]
    -- the new entry is the last of the list, or in no list
    have hlist : (addFileBack { setFileBack s s.nextFileBack { file := n } with
        nextFileBack := s.nextFileBack + 1 } s.nextFileBack).fileBacks = s.fileBacks ∨
        (addFileBack { setFileBack s s.nextFileBack { file := n } with
          nextFileBack := s.nextFileBack + 1 } s.nextFileBack).fileBacks =
            s.fileBacks ++ [s.nextFileBack] := by
      unfold addFileBack setFileBack
      dsimp only
      split_ifs
      · exact .inl rfl
      · exact .inr rfl
    have hrest : (addFileBack { setFileBack s s.nextFileBack { file := n } with
        nextFileBack := s.nextFileBack + 1 } s.nextFileBack) =
        { s with
          fileBack := Function.update s.fileBack s.nextFileBack { file := n }
          nextFileBack := s.nextFileBack + 1
          fileBacks := (addFileBack { setFileBack s s.nextFileBack { file := n } with
            nextFileBack := s.nextFileBack + 1 } s.nextFileBack).fileBacks } := by
      unfold addFileBack setFileBack
      dsimp only
      split_ifs <;> rfl
    generalize (addFileBack { setFileBack s s.nextFileBack { file := n } with
      nextFileBack := s.nextFileBack + 1 } s.nextFileBack).fileBacks = backs at hlist hrest
    rw [hrest]
    have hmem (g : ℕ) (hg : g ∈ backs) : g ∈ s.fileBacks ∨ g = s.nextFileBack := by
      rcases hlist with hl | hl
      · exact .inl (hl ▸ hg)
      · rw [hl] at hg
        exact (List.mem_append.mp hg).imp id List.mem_singleton.mp
    refine ⟨fun g hg e he => ?_, ?_, ?_, fun g hg => ?_, rfl, rfl, rfl⟩
    · dsimp only at hg he
      have hg' : g ∈ s.fileBacks ∨ g = s.nextFileBack := hg.elim (hmem g) .inr
      rcases hg' with hg' | hg'
      · have hne : g ≠ s.nextFileBack := fun he => hnew (he ▸ hg')
        rw [Function.update_of_ne hne] at he
        have hfile := hi.entries g hg' e he
        unfold fileOf at hfile ⊢
        dsimp only
        rw [Function.update_of_ne hne]
        exact ⟨hfile, hfresh g hg' e he⟩
      · rw [hg', Function.update_self] at he
        exact absurd he List.not_mem_nil
    · unfold fileOf
      dsimp only
      rw [Function.update_self]
      exact ⟨rfl, rfl⟩
    · dsimp only
      rw [Function.update_self, hback]
    · dsimp only at hg ⊢
      rcases hmem g hg with hg' | hg'
      · exact Nat.lt_succ_of_lt (hi.below g hg')
      · rw [hg']
        exact Nat.lt_succ_self _

theorem openShared_snd (h : s'.nodes = s.nodes) (ho : s'.shmmaplist = s.shmmaplist) (c : Call)
    (p n : ℕ) : (openShared s' c p n).2 = (openShared s c p n).2 := by
  unfold openShared
  rw [h, ho]
  cases c.shared with
  | false => rfl
  | true =>
    rw [Bool.not_true, if_neg Bool.false_ne_true, if_neg Bool.false_ne_true]
    cases s.shmmaplist.find? fun o => o.objectName = (s.nodes n).filename with
    | some o =>
      dsimp only
      split_ifs <;> rfl
    | none =>
      dsimp only
      split_ifs <;> rfl

theorem openShared_fst (s : State) (c : Call) (p n : ℕ) :
    ∃ objs, (openShared s c p n).1 = { s with shmmaplist := objs } := by
  unfold openShared
  cases c.shared with
  | false => exact ⟨_, rfl⟩
  | true =>
    rw [Bool.not_true, if_neg Bool.false_ne_true]
    cases s.shmmaplist.find? fun o => o.objectName = (s.nodes n).filename with
    | some o =>
      dsimp only
      split_ifs <;> exact ⟨_, rfl⟩
    | none =>
      dsimp only
      split_ifs <;> exact ⟨_, rfl⟩

theorem closeShared_eq (s : State) (c : Call) (p n len start : ℕ) (made : Bool) :
    ∃ objs, closeShared s c p n len start made = { s with shmmaplist := objs } := by
  unfold closeShared
  dsimp only
  split_ifs <;> exact ⟨_, rfl⟩

/-- The marks that the call leaves do not touch the cache. -/
theorem CacheInv.setCached (h : CacheInv fs d s) (n : ℕ) : CacheInv fs d (setCached s n) where
  entries g hg e he := by
    have hfile : fileOf (Mmap.setCached s n) g = fileOf s g := by
      unfold fileOf Mmap.setCached
      dsimp only
      by_cases hn : (s.fileBack g).file = n
      · rw [hn, Function.update_self]
      · rw [Function.update_of_ne hn]
    rw [hfile]
    exact h.entries g hg e he
  below := h.below

/-- The loop of a mapping of a file is entered with the cache in order. -/
theorem MapOk.entered (h : MapOk fs d s c p n) (hi : CacheInv fs d s) :
    ∃ s2 f, openFileBack (reserveRange s p c.address (pageAlign c.len)).1 c n = (s2, some f) ∧
      (∀ g ∈ s2.fileBacks, g < s2.nextFileBack) ∧
      let o := openShared s2 c p n
      let r : Loop := ⟨o.1, o.2.1, 0⟩
      LoopInv fs d c n f r ∧ (r.st.nodes n) = s.nodes n ∧ r.st.fileBacks = s2.fileBacks ∧
        r.st.nextFileBack = s2.nextFileBack ∧
        pageAt r.st p (addrOf s c p % 2 ^ 64 / PAGE_SIZE) = none ∧
        First fs d c n f r (fetchPage fs d c n f o.2.2 0 r) := by
  have hkeep : SameData s (reserveRange s p c.address (pageAlign c.len)).1 :=
    ⟨rfl, rfl, rfl, rfl, fun _ => ⟨rfl, rfl, rfl⟩⟩
  obtain ⟨s2, f, heq, hopen⟩ := (hkeep.cacheInv hi).openFileBack h.fresh h.room h.same
  refine ⟨s2, f, heq, hopen.below, ?_⟩
  have hsnd : (openShared s2 c p n).2 = (openShared s c p n).2 :=
    openShared_snd (s := s) hopen.nodes hopen.objects c p n
  have hnode : s2.nodes n = s.nodes n := congrFun hopen.nodes n
  have hback : s2.fileBack f = backOf s n := hopen.back
  have hpages : pageAt s2 p (addrOf s c p % 2 ^ 64 / PAGE_SIZE) = none := by
    rw [pageAt_procs hopen.procs]
    unfold pageAt reserveRange
    dsimp only
    rw [Function.update_self]
    exact h.free
  obtain ⟨objs, hfst⟩ := openShared_fst s2 c p n
  dsimp only
  rw [hsnd, hfst]
  have hblock : fileCacheGetPhysicalBlock { s2 with shmmaplist := objs } f c.offset =
      blockOf s c n := by
    unfold fileCacheGetPhysicalBlock blockOf
    dsimp only
    rw [hback]
    rfl
  have hinv : LoopInv fs d c n f ⟨{ s2 with shmmaplist := objs }, (openShared s c p n).2.1, 0⟩ := by
    refine ⟨fun g hg e he => ?_, hopen.same⟩
    obtain ⟨hentry, hfresh⟩ := hopen.entries g hg e he
    exact ⟨⟨hentry.aligned, fun k _ => hfresh k⟩, hentry⟩
  refine ⟨hinv, hnode, rfl, rfl, hpages, ?_⟩
  apply fetchPage_first h.cluster h.frames hinv
  · dsimp only
    rw [hnode]
    exact h.size
  · intro hs
    dsimp only at hs ⊢
    rw [hblock]
    exact h.object hs.1
  · intro hnone
    dsimp only at hnone ⊢
    rw [hblock] at hnone
    rw [hnode, hback]
    exact h.next hnone

/-- The call on a file. -/
theorem createMemMapping_file {s2 : State} {f : ℕ} (hp : c.proc = some p) (hlen : c.len ≠ 0)
    (hn : c.fd.bind (s.procs p).fds = some n) (hgen : (s.nodes n).general = true)
    (hroot : s.rootFs = true)
    (ho : openFileBack (reserveRange s p c.address (pageAlign c.len)).1 c n = (s2, some f)) :
    let o := openShared s2 c p n
    let r := mapLoop fs d c p (addrOf s c p) (some (n, f)) o.2.2 c.pages 0 ⟨o.1, o.2.1, 0⟩
    createMemMapping fs d s c =
      (setCached (closeShared r.st c p n (pageAlign c.len) r.start o.2.2) n, addrOf s c p) := by
  have hgen' : ((reserveRange s p c.address (pageAlign c.len)).1.nodes n).general = true := hgen
  have hroot' : (reserveRange s p c.address (pageAlign c.len)).1.rootFs = true := hroot
  unfold createMemMapping
  rw [hp]
  dsimp only
  rw [if_neg hlen, hn]
  dsimp only
  rw [hgen', hroot', Bool.not_true, if_neg Bool.false_ne_true, if_neg Bool.false_ne_true, ho]
  rfl

/-- The loop's state as the cache between calls. -/
theorem LoopInv.cacheInv (h : LoopInv fs d c n f r)
    (hbelow : ∀ g ∈ r.st.fileBacks, g < r.st.nextFileBack) : CacheInv fs d r.st :=
  ⟨fun g hg e he => (h.entries g (.inl hg) e he).2, hbelow⟩

theorem closeShared_cacheInv (h : CacheInv fs d s) (c : Call) (p n len start : ℕ) (made : Bool) :
    CacheInv fs d (closeShared s c p n len start made) := by
  obtain ⟨objs, ho⟩ := closeShared_eq s c p n len start made
  rw [ho]
  exact h.of_data rfl rfl rfl rfl rfl

/-- What a mapping does where it is right. -/
theorem MapOk.spec (h : MapOk fs d s c p n) (hi : CacheInv fs d s) (hp : c.proc = some p)
    (hlen : c.len ≠ 0) (hn : c.fd.bind (s.procs p).fds = some n)
    (hgen : (s.nodes n).general = true) (hroot : s.rootFs = true) :
    CacheInv fs d (createMemMapping fs d s c).1 ∧
      ∀ i < c.pages, ∃ frame,
        ((createMemMapping fs d s c).1.procs p).pages
          (((createMemMapping fs d s c).2 + i * PAGE_SIZE) % 2 ^ 64 / PAGE_SIZE) = some frame ∧
        ∀ j < PAGE_SIZE, ∀ b,
          HasByte fs d (s.nodes n).node (c.offset + i * PAGE_SIZE + j) b →
            (createMemMapping fs d s c).1.mem (frame + j) = b := by
  obtain ⟨s2, f, ho, hbelow, hinv, hnode, hbacks, hnext, hfree, hfirst⟩ := h.entered hi
  rw [createMemMapping_file hp hlen hn hgen hroot ho]
  dsimp only at hinv hnode hbacks hnext hfree hfirst ⊢
  generalize openShared s2 c p n = o at *
  obtain ⟨objs, hclose⟩ := closeShared_eq (mapLoop fs d c p (addrOf s c p) (some (n, f)) o.2.2
    c.pages 0 ⟨o.1, o.2.1, 0⟩).st c p n (pageAlign c.len) (mapLoop fs d c p (addrOf s c p)
      (some (n, f)) o.2.2 c.pages 0 ⟨o.1, o.2.1, 0⟩).start o.2.2
  by_cases hpos : 0 < c.pages
  · obtain ⟨hinv', hleaves, hmapped, frame, hframe, hholds⟩ :=
      mapLoop_first h.frames hpos hfirst hfree
    constructor
    · apply CacheInv.setCached
      apply closeShared_cacheInv
      apply hinv'.cacheInv
      rw [hleaves.backs, hleaves.next]
      dsimp only
      rw [hbacks, hnext]
      exact hbelow
    · intro i hi
      rw [hclose]
      by_cases hzero : i = 0
      · rw [hzero, Nat.zero_mul, Nat.add_zero, Nat.add_zero]
        refine ⟨frame, hframe, fun j hj b hb => hholds j hj b ?_⟩
        rw [Nat.div_mul_cancel (Nat.dvd_of_mod_eq_zero h.offset)]
        dsimp only
        rw [hnode]
        exact hb
      · -- no byte of a later page is in the file
        obtain ⟨frame', hframe'⟩ := Option.ne_none_iff_exists'.mp (hmapped i hi)
        refine ⟨frame', hframe', fun j hj b hb => ?_⟩
        refine absurd ⟨_, b, ?_, hb⟩ (h.single i (Nat.pos_of_ne_zero hzero) hi)
        have hoff := h.offset
        unfold PAGE_SIZE at hj hoff ⊢
        omega
  · have hzero : c.pages = 0 := by omega
    rw [hzero] at hclose ⊢
    refine ⟨?_, fun i hi => absurd hi (Nat.not_lt_zero i)⟩
    apply CacheInv.setCached
    apply closeShared_cacheInv
    apply hinv.cacheInv
    dsimp only
    rw [hbacks, hnext]
    exact hbelow

/-! ## Runs -/

/-- Replacing a node by one of the same file. -/
theorem CacheInv.openFile (h : CacheInv fs d s) {v : VfsNode}
    (hv : ∀ g ∈ s.fileBacks, (s.fileBack g).file = n → SameFile v.node (s.nodes n).node) :
    CacheInv fs d { s with nodes := Function.update s.nodes n v } where
  entries g hg e he := by
    obtain ⟨hal, hholds⟩ := h.entries g hg e he
    refine ⟨hal, hholds.sameFile ?_⟩
    unfold fileOf
    dsimp only
    by_cases hn : (s.fileBack g).file = n
    · rw [hn, Function.update_self]
      exact hv g hg hn
    · rw [Function.update_of_ne hn]
      exact ⟨rfl, rfl⟩
  below := h.below

def smallFs : FatFS := ⟨1, 10, 8, 2, 1, 100, 512, fun _ => 0⟩

/-- Cluster 2 is full of ones and goes on in cluster 3, which is full of twos. -/
def smallDisk : Disk := fun lba a =>
  if lba = 1 then
    if a = 8 then 3 else if 12 ≤ a ∧ a < 15 then 0xFF else if a = 15 then 0x0F else 0
  else if lba < 18 then 1 else 2

def smallFile : VfsNode where
  filename := ['f']
  general := true
  node := { name := fun _ => 0, size := 8192, current := 2, first_block := 2, parent_block := 0 }

/-- A process opens the file. -/
def opening : List Op :=
  [.enableCache, .openFile 0 smallFile, .setProcess 1 ⟨fun _ => some 0, 0x600000, 0, fun _ => none⟩]

def opened : State := run (step smallFs smallDisk) (boot (fun _ => smallFile) fun _ => 0) opening

end Xeneva.Mmap
