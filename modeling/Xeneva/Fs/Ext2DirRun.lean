import Xeneva.Fs.Ext2Dir

/-!
# Runs over a directory

Additions, lookups, removals and reads of a whole directory keep it well formed, and agree with what
was added last under each name.
-/

namespace Xeneva.Ext2

open Base Function

variable {fs : Ext2Fs} {s : State} {n i : ℕ} {recs : ℕ → List Rec} {rs : List Rec} {b : Buf}
  {name : Name}

theorem readBlock_write_self (fs : Ext2Fs) (s : State) (k : ℕ) (b : Buf) {o : ℕ}
    (ho : o < fs.block_size) :
    readBlock fs (auVDiskWrite s (k * fs.sector_per_block) fs.sector_per_block b)
      (k * fs.sector_per_block) o = b o := by
  obtain ⟨-, -, hbs, -⟩ := fs.block_size_spec
  have hsub : k * fs.sector_per_block * 512 + o - k * fs.sector_per_block * 512 = o := by omega
  simp only [readBlock, auVDiskRead, auVDiskWrite]
  rw [if_pos (by omega), if_pos (by omega), hsub]

theorem readBlock_write_ne (fs : Ext2Fs) (s : State) {j k : ℕ} (h : j ≠ k) (b : Buf) :
    readBlock fs (auVDiskWrite s (k * fs.sector_per_block) fs.sector_per_block b)
      (j * fs.sector_per_block) = readBlock fs s (j * fs.sector_per_block) := by
  funext o
  simp only [readBlock, auVDiskRead, auVDiskWrite]
  by_cases ho : o < fs.sector_per_block * 512
  · rw [if_pos ho, if_pos ho, if_neg]
    rcases Nat.lt_or_gt_of_ne h with hlt | hlt
    · have hle := Nat.mul_le_mul_right fs.sector_per_block (Nat.succ_le_of_lt hlt)
      rw [Nat.succ_mul] at hle
      omega
    · have hle := Nat.mul_le_mul_right fs.sector_per_block (Nat.succ_le_of_lt hlt)
      rw [Nat.succ_mul] at hle
      omega
  · rw [if_neg ho, if_neg ho]

/-- Only the records of one block change. -/
theorem flatMap_range_update (hi : i < n) (recs : ℕ → List Rec) :
    ∃ as bs, ∀ rs, (List.range n).flatMap (update recs i rs) = as ++ (rs ++ bs) := by
  obtain ⟨x, y, hxy⟩ := List.append_of_mem (List.mem_range.2 hi)
  have hnodup := List.nodup_range (n := n)
  rw [hxy, List.nodup_append] at hnodup
  obtain ⟨-, hy, hdisj⟩ := hnodup
  have hother : ∀ l : List ℕ, (∀ j ∈ l, j ≠ i) →
      ∀ rs, l.flatMap (update recs i rs) = l.flatMap recs := by
    intro l hl rs
    apply List.flatMap_congr
    intro j hj
    exact update_of_ne (hl j hj) rs recs
  refine ⟨x.flatMap recs, y.flatMap recs, fun rs => ?_⟩
  rw [hxy, List.flatMap_append, List.flatMap_cons, update_self,
    hother x fun j hj => hdisj j hj i List.mem_cons_self,
    hother y fun j hj hji => (List.nodup_cons.1 hy).1 (hji ▸ hj)]

theorem WellFormed.write (h : WellFormed fs s n recs) (hb : FillsBlock fs b rs)
    {last : Name → Option (ℕ × UInt8)} (hi : i < n)
    (hlast : Listed (live ((List.range n).flatMap (update recs i rs))) last) :
    WellFormed fs { auVDiskWrite s (s.block i * fs.sector_per_block) fs.sector_per_block b with
      last := last } n (update recs i rs) where
  block := h.block
  inj := h.inj
  size := h.size
  used := h.used
  listed := hlast
  fills j hj := by
    by_cases hji : j = i
    · subst hji
      rw [update_self]
      apply hb.congr local_recAt
      intro o _ ho
      exact (readBlock_write_self fs s (s.block j) b ho).symm
    · rw [update_of_ne hji]
      have hne : s.block j ≠ s.block i := fun he => hji (h.inj j hj i hi he)
      have hread := readBlock_write_ne fs s hne b
      exact (congrArg (FillsBlock fs · (recs j)) hread).mpr (h.fills j hj)

theorem WellFormed.added (h : WellFormed fs s n recs) (hi : i < n) (hb : FillsBlock fs b rs)
    {v : ℕ × UInt8} {xs ys : List (Name × ℕ × UInt8)} (hold : live (recs i) = xs ++ ys)
    (hnew : live rs = xs ++ (name, v) :: ys) (hname : s.last name = none) :
    WellFormed fs { auVDiskWrite s (s.block i * fs.sector_per_block) fs.sector_per_block b with
      last := update s.last name (some v) } n (update recs i rs) := by
  apply h.write hb hi
  obtain ⟨as, bs, hsplit⟩ := flatMap_range_update hi recs
  have hlisted := h.listed
  have hself := hsplit (recs i)
  rw [update_eq_self] at hself
  rw [hself, live_append, live_append, hold, List.append_assoc, ← List.append_assoc] at hlisted
  rw [hsplit, live_append, live_append, hnew, List.append_assoc, List.cons_append,
    ← List.append_assoc]
  exact hlisted.insert hname

theorem WellFormed.removed (h : WellFormed fs s n recs) (hi : i < n) (hb : FillsBlock fs b rs)
    {v : ℕ × UInt8} {xs ys : List (Name × ℕ × UInt8)} (hold : live (recs i) = xs ++ (name, v) :: ys)
    (hnew : live rs = xs ++ ys) :
    WellFormed fs { auVDiskWrite s (s.block i * fs.sector_per_block) fs.sector_per_block b with
      last := update s.last name none } n (update recs i rs) := by
  apply h.write hb hi
  obtain ⟨as, bs, hsplit⟩ := flatMap_range_update hi recs
  have hlisted := h.listed
  have hself := hsplit (recs i)
  rw [update_eq_self] at hself
  rw [hself, live_append, live_append, hold, List.append_assoc, List.cons_append,
    ← List.append_assoc] at hlisted
  rw [hsplit, live_append, live_append, hnew, List.append_assoc, ← List.append_assoc]
  exact hlisted.erase

theorem WellFormed.mem_last (h : WellFormed fs s n recs) {v : ℕ × UInt8} :
    s.last name = some v ↔ ∃ i < n, (name, v) ∈ live (recs i) := by
  rw [h.listed.mem, mem_live]
  constructor
  · rintro ⟨r, hr, hne, he⟩
    obtain ⟨i, hi, hr⟩ := List.mem_flatMap.1 hr
    exact ⟨i, List.mem_range.1 hi, mem_live.2 ⟨r, hr, hne, he⟩⟩
  · rintro ⟨i, hi, hv⟩
    obtain ⟨r, hr, hne, he⟩ := mem_live.1 hv
    exact ⟨r, List.mem_flatMap.2 ⟨i, List.mem_range.2 hi, hr⟩, hne, he⟩

theorem WellFormed.last_eq_none (h : WellFormed fs s n recs)
    (hnone : ∀ i < n, ∀ v, (name, v) ∉ live (recs i)) : s.last name = none := by
  cases hlast : s.last name with
  | none => rfl
  | some v =>
    obtain ⟨i, hi, hv⟩ := h.mem_last.1 hlast
    exact absurd hv (hnone i hi v)

theorem WellFormed.short (h : WellFormed fs s n recs) (hname : s.last name ≠ none) :
    name.length ≤ 255 := by
  obtain ⟨v, hv⟩ := Option.ne_none_iff_exists'.1 hname
  obtain ⟨i, hi, hv⟩ := h.mem_last.1 hv
  exact (h.fills i hi).short hv

/-- The sectors of every block have numbers of 32 bits. -/
def Low (fs : Ext2Fs) (s : State) (n : ℕ) : Prop :=
  ∀ i < n, s.block i * fs.sector_per_block < 2 ^ 32

theorem WellFormed.lookup (h : WellFormed fs s n recs) (hn : n ≤ 12) (hlow : Low fs s n)
    (name : Name) : ext2FindEntry fs s name = ((s.last name).map Prod.fst).getD 0 := by
  have hblock : ∀ i < n, (if s.block i = 0 then none
      else findIn fs (readBlock fs s (s.block i * fs.sector_per_block % 2 ^ 32)) name) =
      findIn fs (blockData fs s i) name := by
    intro i hi
    rw [if_neg ((h.block i).2 hi), Nat.mod_eq_of_lt (hlow i hi), blockData]
  rw [ext2FindEntry]
  cases hfind : (List.range 12).findSome? _ with
  | none =>
    rw [List.findSome?_eq_none_iff] at hfind
    have hlast : s.last name = none := by
      apply h.last_eq_none
      intro i hi v hv
      have hnone := (hblock i hi).symm.trans (hfind i (List.mem_range.2 (by omega)))
      rcases findIn_spec (h.fills i hi) name with ⟨-, hmem⟩ | ⟨inode, file_type, hsome, -⟩
      · exact hmem v hv
      · rw [hnone] at hsome
        cases hsome
    rw [hlast]
    rfl
  | some inode =>
    obtain ⟨i, -, hi⟩ := List.exists_of_findSome?_eq_some hfind
    have hin : i < n := by
      by_contra hc
      rw [if_pos (not_not.1 fun hb => hc ((h.block i).1 hb))] at hi
      cases hi
    rcases findIn_spec (h.fills i hin) name with ⟨hnone, -⟩ | ⟨inode', file_type, hsome, hmem⟩
    · rw [hblock i hin, hnone] at hi
      cases hi
    · rw [hblock i hin, hsome] at hi
      rw [h.mem_last.2 ⟨i, hin, hmem⟩]
      exact (Option.some.inj hi).symm

/-! ## Additions -/

/-- A directory whose blocks are all found by the lookups. -/
def Inv (fs : Ext2Fs) (s : State) : Prop := ∃ n recs, WellFormed fs s n recs ∧ n ≤ 12 ∧ Low fs s n

theorem ext2AllocBlock_spec (fs : Ext2Fs) (s : State) :
    (∃ f, (∀ k, s.bitmap k = true → f k = true) ∧
      ext2AllocBlock fs s = ({ s with bitmap := f }, 0)) ∨
    ∃ k c g, k < 8 * fs.block_size ∧ s.bitmap k = false ∧ k + fs.free_data_block ≠ 0 ∧
      ext2AllocBlock fs s = ({ s with
        bitmap := update s.bitmap k true
        free_blocks_count := c
        group_free_blocks := g }, k + fs.free_data_block) := by
  rw [ext2AllocBlock]
  by_cases hfree : s.free_blocks_count = 0 ∨ s.group_free_blocks = 0
  · rw [if_pos hfree]
    exact .inl ⟨s.bitmap, fun _ h => h, rfl⟩
  · rw [if_neg hfree]
    cases hfind : (List.range (8 * fs.block_size)).find? fun k => !s.bitmap k with
    | none => exact .inl ⟨s.bitmap, fun _ h => h, rfl⟩
    | some k =>
      have hlt := List.mem_range.1 (List.mem_of_find?_eq_some hfind)
      have hk := List.find?_some hfind
      rw [Bool.not_eq_true'] at hk
      by_cases hz : k + fs.free_data_block = 0
      · left
        refine ⟨update s.bitmap k true, fun j hj => ?_, by simp only [hz, if_pos]⟩
        by_cases hjk : j = k
        · rw [hjk, update_self]
        · rw [update_of_ne hjk, hj]
      · exact .inr ⟨k, s.free_blocks_count - 1, s.group_free_blocks - 1, hlt, hk, hz, by
          simp only [if_neg hz]⟩

theorem addPlace_spec {required_rec_len : ℕ} {o : Option ℕ}
    (h : addPlace fs s required_rec_len = some (i, o)) :
    i < 12 ∧ ((o = none ∧ s.block i = 0 ∧ ∀ j < i, s.block j ≠ 0) ∨
      ∃ q, o = some q ∧ s.block i ≠ 0 ∧
        roomIn fs (blockData fs s i) required_rec_len = some q) := by
  obtain ⟨xs, k, ys, hrange, hk, hbefore⟩ := List.findSome?_eq_some_iff.1 h
  have hmem : k ∈ List.range 12 := by
    rw [hrange]
    exact List.mem_append_right _ List.mem_cons_self
  by_cases hb : s.block k = 0
  · rw [if_pos hb, Option.some.injEq, Prod.mk.injEq] at hk
    obtain ⟨rfl, rfl⟩ := hk
    refine ⟨List.mem_range.1 hmem, .inl ⟨rfl, hb, fun j hj hz => ?_⟩⟩
    have hlt := List.mem_range.1 hmem
    have hsorted := List.pairwise_lt_range (n := 12)
    have hj' : j ∈ List.range 12 := List.mem_range.2 (by omega)
    rw [hrange] at hsorted hj'
    rcases List.mem_append.1 hj' with hj' | hj'
    · have hnone := hbefore j hj'
      rw [if_pos hz] at hnone
      cases hnone
    · -- the range is sorted
      have hle := (List.pairwise_append.1 hsorted).2.1
      rcases List.mem_cons.1 hj' with rfl | hj'
      · exact Nat.lt_irrefl _ hj
      · exact Nat.lt_asymm hj (List.rel_of_pairwise_cons hle hj')
  · rw [if_neg hb] at hk
    obtain ⟨q, hq, he⟩ := Option.map_eq_some_iff.1 hk
    rw [Prod.mk.injEq] at he
    obtain ⟨rfl, rfl⟩ := he
    exact ⟨List.mem_range.1 hmem, .inr ⟨q, rfl, hb, hq⟩⟩

/-- The entry of a new block fills it. -/
theorem fillsBlock_new (fs : Ext2Fs) {inode : ℕ} (hinode : inode < 2 ^ 32)
    (hname : name.length ≤ 255) (file_type : UInt8) :
    FillsBlock fs (putEntry (fun _ => 0) 0 inode fs.block_size name file_type)
      [⟨inode, fs.block_size, name, file_type⟩] := by
  obtain ⟨hle, hle', -, hdvd⟩ := fs.block_size_spec
  have hlen := EXT2_DIR_REC_LEN_le name.length
  refine ⟨recAt_putEntry _ 0 hinode (by omega) hname file_type, ⟨?_, hdvd⟩, Nat.zero_add _⟩
  change EXT2_DIR_REC_LEN name.length ≤ fs.block_size
  omega

/-- A directory that gets the block after its last one. -/
theorem WellFormed.grow (h : WellFormed fs s n recs) {k c g inode : ℕ} {file_type : UInt8}
    (hk : k < 8 * fs.block_size) (hfree : s.bitmap k = false) (hz : k + fs.free_data_block ≠ 0)
    (hinode : inode < 2 ^ 32) (hne : inode ≠ 0) (hname : name.length ≤ 255)
    (hlast : s.last name = none) :
    WellFormed fs { auVDiskWrite { s with
        bitmap := update s.bitmap k true
        free_blocks_count := c
        group_free_blocks := g
        block := update s.block n (k + fs.free_data_block)
        size := s.size + fs.block_size }
      ((k + fs.free_data_block) * fs.sector_per_block) fs.sector_per_block
      (putEntry (fun _ => 0) 0 inode fs.block_size name file_type) with
      last := update s.last name (some (inode, file_type)) } (n + 1)
      (update recs n [⟨inode, fs.block_size, name, file_type⟩]) := by
  have hfresh : ∀ j < n, s.block j ≠ k + fs.free_data_block := by
    intro j hj hc
    have hused := h.used j hj k hk hc
    rw [hfree] at hused
    cases hused
  constructor
  · intro j
    change update s.block n (k + fs.free_data_block) j ≠ 0 ↔ j < n + 1
    by_cases hjn : j = n
    · subst hjn
      rw [update_self]
      exact iff_of_true hz (Nat.lt_succ_self _)
    · rw [update_of_ne hjn, h.block]
      omega
  · intro j hj l hl
    change update s.block n (k + fs.free_data_block) j =
      update s.block n (k + fs.free_data_block) l → j = l
    by_cases hjn : j = n <;> by_cases hln : l = n
    · intro _
      rw [hjn, hln]
    · rw [hjn, update_self, update_of_ne hln]
      intro he
      exact absurd he.symm (hfresh l (by omega))
    · rw [hln, update_self, update_of_ne hjn]
      intro he
      exact absurd he (hfresh j (by omega))
    · rw [update_of_ne hjn, update_of_ne hln]
      exact h.inj j (by omega) l (by omega)
  · change s.size + fs.block_size = (n + 1) * fs.block_size
    rw [h.size, Nat.succ_mul]
  · intro j hj
    by_cases hjn : j = n
    · subst hjn
      rw [update_self]
      apply (fillsBlock_new fs hinode hname file_type).congr local_recAt
      intro o _ ho
      rw [blockData]
      simp only [auVDiskWrite, update_self]
      exact (readBlock_write_self fs s (k + fs.free_data_block) _ ho).symm
    · have hlt : j < n := by omega
      have hread := readBlock_write_ne fs s (hfresh j hlt)
        (putEntry (fun _ => 0) 0 inode fs.block_size name file_type)
      rw [update_of_ne hjn, blockData]
      simp only [auVDiskWrite, update_of_ne hjn]
      exact (congrArg (FillsBlock fs · (recs j)) hread).mpr (h.fills j hlt)
  · intro j hj l hl
    change update s.block n (k + fs.free_data_block) j = l + fs.free_data_block →
      update s.bitmap k true l = true
    by_cases hlk : l = k
    · intro _
      rw [hlk, update_self]
    · rw [update_of_ne hlk]
      by_cases hjn : j = n
      · rw [hjn, update_self]
        omega
      · rw [update_of_ne hjn]
        exact h.used j (by omega) l hl
  · change Listed (live ((List.range (n + 1)).flatMap _))
      (update s.last name (some (inode, file_type)))
    have hold : (List.range n).flatMap (update recs n [⟨inode, fs.block_size, name, file_type⟩]) =
        (List.range n).flatMap recs := by
      apply List.flatMap_congr
      intro j hj
      exact update_of_ne (Nat.ne_of_lt (List.mem_range.1 hj)) _ _
    have hlisted := h.listed
    rw [← List.append_nil (live _)] at hlisted
    rw [List.range_succ, List.flatMap_append, hold, List.flatMap_singleton, update_self,
      live_append, live_cons, if_pos hne]
    exact hlisted.insert hlast

theorem WellFormed.of_bitmap (h : WellFormed fs s n recs) {f : ℕ → Bool}
    (hf : ∀ k, s.bitmap k = true → f k = true) : WellFormed fs { s with bitmap := f } n recs where
  block := h.block
  inj := h.inj
  size := h.size
  fills := h.fills
  used i hi k hk he := hf k (h.used i hi k hk he)
  listed := h.listed

theorem Inv.add (h : Inv fs s) {inode : ℕ} (file_type : UInt8) (hinode : inode < 2 ^ 32)
    (hne : inode ≠ 0) (hname : name.length ≤ 255) (hlast : s.last name = none) :
    Inv fs (step fs s (.add inode name file_type)) := by
  obtain ⟨n, recs, hw, hn, hlow⟩ := h
  have hlen := EXT2_DIR_REC_LEN_le name.length
  have hreq : EXT2_DIR_REC_LEN name.length % 2 ^ 16 = EXT2_DIR_REC_LEN name.length :=
    Nat.mod_eq_of_lt (by omega)
  rw [step, ext2AddDirEntry, hreq]
  cases hplace : addPlace fs s (EXT2_DIR_REC_LEN name.length) with
  | none => exact ⟨n, recs, hw, hn, hlow⟩
  | some p =>
    obtain ⟨i, o⟩ := p
    obtain ⟨hi, ⟨rfl, hz, hbefore⟩ | ⟨q, rfl, hnz, hq⟩⟩ := addPlace_spec hplace
    · -- the block after the last one
      have hin : i = n := by
        have h1 : ¬i < n := fun hc => (hw.block i).2 hc hz
        have h2 : ¬n < i := fun hc => Nat.lt_irrefl _ ((hw.block n).1 (hbefore n hc))
        omega
      subst hin
      rcases ext2AllocBlock_spec fs s with ⟨f, hf, halloc⟩ | ⟨k, c, g, hk, hfree, hkz, halloc⟩
      · simp only [halloc, if_pos]
        exact ⟨i, recs, hw.of_bitmap hf, hn, hlow⟩
      · simp only [halloc, if_neg hkz, if_pos]
        refine ⟨i + 1, _, hw.grow hk hfree hkz hinode hne hname hlast, hi, fun j hj => ?_⟩
        change update s.block i (k + fs.free_data_block) j * fs.sector_per_block < 2 ^ 32
        by_cases hji : j = i
        · obtain ⟨-, hbs, hbs', -⟩ := fs.block_size_spec
          have hfirst := fs.first
          rw [hji, update_self]
          calc (k + fs.free_data_block) * fs.sector_per_block
              ≤ 32768 * 8 := Nat.mul_le_mul (by omega) (by omega)
            _ < 2 ^ 32 := by decide
        · rw [update_of_ne hji]
          exact hlow j (by omega)
    · -- the slack of a record
      have hin := (hw.block i).1 hnz
      obtain ⟨xs, r, ys, hrecs, hroom, hx, hy⟩ := roomIn_spec (hw.fills i hin) hq
      have hb := split_spec hx hy hroom hinode hname file_type
      have hold : live (recs i) = (live xs ++ live [r]) ++ live ys := by
        rw [hrecs, live_append, ← List.singleton_append, live_append, List.append_assoc]
      refine ⟨n, _, hw.added hin hb hold ?_ hlast, hn, hlow⟩
      rw [live_append, live_append, live_cons, live_cons, live_cons, if_pos hne, List.append_assoc]
      by_cases hr : r.inode = 0
      · rw [if_neg (not_not.2 hr), if_neg (not_not.2 hr)]
        rfl
      · rw [if_pos hr, if_pos hr]
        rfl

theorem Inv.remove (h : Inv fs s) (name : Name) : Inv fs (step fs s (.remove name)) := by
  obtain ⟨n, recs, hw, hn, hlow⟩ := h
  have hblock : ∀ i < n, (if s.block i = 0 then none
      else (removeIn fs (readBlock fs s (s.block i * fs.sector_per_block)) name).map fun b =>
        (i, b)) = (removeIn fs (blockData fs s i) name).map fun b => (i, b) := by
    intro i hi
    rw [if_neg ((hw.block i).2 hi), blockData]
  rw [step, ext2RemoveDirEntry]
  cases hplace : (List.range 12).findSome? _ with
  | none =>
    rw [List.findSome?_eq_none_iff] at hplace
    have hlast : s.last name = none := by
      apply hw.last_eq_none
      intro i hi v hv
      have hnone := (hblock i hi).symm.trans (hplace i (List.mem_range.2 (by omega)))
      rcases removeIn_spec (hw.fills i hi) name with ⟨-, hmem⟩ | ⟨c, -, -, -, -, hsome, -⟩
      · exact hmem v hv
      · rw [hsome] at hnone
        cases hnone
    have hupdate : update s.last name none = s.last := by
      rw [← hlast, update_eq_self]
    rw [hupdate]
    exact ⟨n, recs, hw, hn, hlow⟩
  | some p =>
    obtain ⟨i, -, hi⟩ := List.exists_of_findSome?_eq_some hplace
    have hin : i < n := by
      by_contra hc
      rw [if_pos (not_not.1 fun hb => hc ((hw.block i).1 hb))] at hi
      cases hi
    rw [hblock i hin] at hi
    obtain ⟨b, hb, rfl⟩ := Option.map_eq_some_iff.1 hi
    rcases removeIn_spec (hw.fills i hin) name with
      ⟨hnone, -⟩ | ⟨c, rs, xs, v, ys, hsome, hfills, hold, hnew⟩
    · rw [hnone] at hb
      cases hb
    · rw [hsome, Option.some.injEq] at hb
      subst hb
      exact ⟨n, _, hw.removed hin hfills hold hnew, hn, hlow⟩

/-! ## Reads -/

/-- The records that lie from a position of the directory on. -/
inductive Remains (fs : Ext2Fs) (s : State) (n : ℕ) : ℕ → List Rec → Prop
  | done : Remains fs s n (n * fs.block_size) []
  | next {i o : ℕ} {rs : List Rec} (hi : i < n) (ho : o < fs.block_size)
      (hok : (recAt (blockData fs s i) o).Good)
      (h : Remains fs s n (i * fs.block_size + o + (recAt (blockData fs s i) o).rec_len) rs) :
      Remains fs s n (i * fs.block_size + o) (recAt (blockData fs s i) o :: rs)

theorem Remains.length_le {pos : ℕ} (h : Remains fs s n pos rs) :
    pos + rs.length ≤ n * fs.block_size := by
  induction h with
  | done => exact le_rfl
  | next hi ho hok h ih =>
    have hpos := local_recAt.pos _ hok
    rw [List.length_cons]
    omega

/-- The records of a block come before those of the next one. -/
theorem Remains.block {ys : List Rec} {o : ℕ} (hi : i < n)
    (h : Records recAt Rec.rec_len Rec.Good (blockData fs s i) o ys fs.block_size)
    (hrest : Remains fs s n ((i + 1) * fs.block_size) rs) :
    Remains fs s n (i * fs.block_size + o) (ys ++ rs) := by
  induction ys generalizing o with
  | nil =>
    have ho : o = fs.block_size := h
    rw [ho, ← Nat.succ_mul]
    exact hrest
  | cons r ys ih =>
    obtain ⟨rfl, hok, ht⟩ := h
    have hpos := local_recAt.pos _ hok
    have hle := ht.le
    apply Remains.next hi (by omega) hok
    rw [Nat.add_assoc]
    exact ih ht

theorem WellFormed.remains (h : WellFormed fs s n recs) {k : ℕ} (hk : k ≤ n) :
    Remains fs s n ((n - k) * fs.block_size) ((List.range' (n - k) k).flatMap recs) := by
  induction k with
  | zero => exact .done
  | succ k ih =>
    have hsucc : n - (k + 1) + 1 = n - k := by omega
    have hrest := ih (by omega)
    rw [List.range'_succ, List.flatMap_cons, hsucc]
    rw [← hsucc] at hrest
    have hblock := Remains.block (by omega) (h.fills (n - (k + 1)) (by omega)) hrest
    rw [hsucc] at hblock
    exact hblock

theorem ext2ReadDir_spec (h : WellFormed fs s n recs) (hn : n ≤ 12) {pos : ℕ}
    (hr : Remains fs s n pos rs) (fuel : ℕ) (hfuel : rs.length < fuel) :
    (live rs = [] ∧ (ext2ReadDir fs s fuel pos).2 = none) ∨
      ∃ e pos' rs', live rs = e :: live rs' ∧ Remains fs s n pos' rs' ∧
        ext2ReadDir fs s fuel pos = (pos', some (dirEntry e.1 e.2.2)) := by
  induction hr generalizing fuel with
  | done =>
    obtain ⟨k, rfl⟩ := Nat.exists_eq_succ_of_ne_zero (Nat.ne_of_gt hfuel)
    left
    rw [ext2ReadDir, h.size, if_neg (Nat.lt_irrefl _)]
    exact ⟨rfl, rfl⟩
  | @next i o rs hi ho hok hr ih =>
    obtain ⟨k, rfl⟩ := Nat.exists_eq_succ_of_ne_zero (Nat.ne_of_gt (Nat.zero_lt_of_lt hfuel))
    rw [List.length_cons] at hfuel
    have hlt : i * fs.block_size + o < s.size := by
      have hle := Nat.mul_le_mul_right fs.block_size (Nat.succ_le_of_lt hi)
      rw [Nat.succ_mul] at hle
      rw [h.size]
      omega
    have hdiv : (i * fs.block_size + o) / fs.block_size = i := by
      rw [Nat.add_comm, Nat.add_mul_div_right _ _ (by omega), Nat.div_eq_of_lt ho, Nat.zero_add]
    have hmod : (i * fs.block_size + o) % fs.block_size = o := by
      rw [Nat.add_comm, Nat.add_mul_mod_self_right, Nat.mod_eq_of_lt ho]
    have hlen : recLenAt (readBlock fs s (s.block i * fs.sector_per_block)) o ≠ 0 :=
      Nat.ne_of_gt (local_recAt.pos _ hok)
    simp only [ext2ReadDir]
    rw [if_pos hlt, hdiv, hmod, if_neg (by omega), if_neg ((h.block i).2 hi), if_neg hlen,
      live_cons]
    by_cases hz : (recAt (blockData fs s i) o).inode = 0
    · have hinode : inodeAt (readBlock fs s (s.block i * fs.sector_per_block)) o = 0 := hz
      rw [if_pos hinode, if_neg (not_not.2 hz)]
      exact ih k (by omega)
    · have hinode : inodeAt (readBlock fs s (s.block i * fs.sector_per_block)) o ≠ 0 := hz
      right
      rw [if_neg hinode, if_pos hz]
      exact ⟨_, _, rs, rfl, hr, rfl⟩

theorem readFrom_eq (h : WellFormed fs s n recs) (hn : n ≤ 12) {pos fuel : ℕ}
    (hr : Remains fs s n pos rs) (hfuel : (live rs).length < fuel) :
    readFrom fs s fuel pos = (live rs).map fun e => dirEntry e.1 e.2.2 := by
  induction fuel generalizing pos rs with
  | zero => exact absurd hfuel (Nat.not_lt_zero _)
  | succ k ih =>
    have hlen := hr.length_le
    have hsize := h.size
    rw [readFrom]
    rcases ext2ReadDir_spec h hn hr (s.size + 1) (by omega) with
      ⟨hlive, hnone⟩ | ⟨e, pos', rs', hlive, hr', hread⟩
    · rw [hlive, List.map_nil]
      cases hread : ext2ReadDir fs s (s.size + 1) pos with
      | mk pos' o =>
        rw [hread] at hnone
        cases hnone
        rfl
    · rw [hlive, List.length_cons] at hfuel
      rw [hread, hlive, List.map_cons]
      exact congrArg _ (ih hr' (by omega))

theorem length_live_le (rs : List Rec) : (live rs).length ≤ rs.length := by
  rw [live, List.length_map]
  exact List.length_filter_le _ _

theorem WellFormed.readAll (h : WellFormed fs s n recs) (hn : n ≤ 12) :
    readAll fs s =
      (live ((List.range n).flatMap recs)).map fun e => dirEntry e.1 e.2.2 := by
  have hr := h.remains (k := n) le_rfl
  rw [Nat.sub_self, Nat.zero_mul, ← List.range_eq_range'] at hr
  have hlen := hr.length_le
  have hlive := length_live_le ((List.range n).flatMap recs)
  have hsize := h.size
  exact readFrom_eq h hn hr (by omega)

theorem Inv.fine (h : Inv fs s) : Fine fs s := by
  obtain ⟨n, recs, hw, hn, hlow⟩ := h
  refine ⟨⟨n, recs, hw⟩, fun name => hw.short, hw.lookup hn hlow,
    (live ((List.range n).flatMap recs)).map Prod.fst, hw.listed.nodup, hw.listed.key_mem, ?_⟩
  rw [hw.readAll hn, List.map_map]
  apply List.map_congr_left
  rintro ⟨name, v⟩ he
  rw [Function.comp_apply, (hw.listed.mem name v).2 he]
  rfl

theorem Inv.step (h : Inv fs s) {op : Op} (hp : op.Proper) (hf : Fits s op) :
    Inv fs (step fs s op) := by
  cases op with
  | add inode name file_type => exact h.add file_type hp hf.1 hf.2.1 hf.2.2
  | lookup name => exact h
  | remove name => exact h.remove name
  | read => exact h

/-- A directory of twelve blocks at most, whose sectors have numbers of 32 bits, stays fine while
only new names of 255 bytes at most are added, with inodes. -/
theorem dir_run (hs : WellFormed fs s n recs) (hn : n ≤ 12)
    (hlow : ∀ i < n, s.block i * fs.sector_per_block < 2 ^ 32) {ops : List Op}
    (hp : ∀ op ∈ ops, op.Proper) (hf : Respects Fits (step fs) s ops) :
    Respects (fun s op => Fine fs (step fs s op)) (step fs) s ops := by
  have hmem : Respects (fun _ op => op ∈ ops) (step fs) s ops := respects_mem s ops
  apply Respects.imp (I := Inv fs) ?_ ⟨n, recs, hs, hn, hlow⟩ (hf.and hmem)
  intro t op ht hop
  have hi := ht.step (hp op hop.2) hop.1
  exact ⟨hi, hi.fine⟩

/-- Blocks of one kilobyte. -/
def kilobyte : Ext2Fs := ⟨0, 1, by decide, by decide⟩

/-- A directory of one entry, in the block `k`. -/
def oneEntry (k : ℕ) : State :=
  let empty : State := {
    disk := fun _ => 0
    block := fun i => if i = 0 then k else 0
    size := 1024
    bitmap := fun _ => true
    free_blocks_count := 0
    group_free_blocks := 0
    last := update (fun _ => none) [97] (some (11, 2)) }
  auVDiskWrite empty (k * 2) 2 (putEntry (fun _ => 0) 0 11 1024 [97] 2)

theorem oneEntry_wellFormed {k : ℕ} (hk : k ≠ 0) :
    WellFormed kilobyte (oneEntry k) 1 fun _ => [⟨11, 1024, [97], 2⟩] where
  block i := by
    change (if i = 0 then k else 0) ≠ 0 ↔ i < 1
    by_cases hi : i = 0
    · rw [if_pos hi]
      exact iff_of_true hk (by omega)
    · rw [if_neg hi]
      exact iff_of_false (not_not.2 rfl) (by omega)
  inj i hi j hj _ := by omega
  size := rfl
  fills i hi := by
    have hi' : i = 0 := by omega
    subst hi'
    have hname : ([97] : Name).length ≤ 255 := by decide
    apply (fillsBlock_new kilobyte (by decide) hname 2).congr local_recAt
    intro o _ ho
    exact (readBlock_write_self kilobyte _ k _ ho).symm
  used i _ k _ _ := rfl
  listed := by
    have hnil : Listed ([] ++ []) fun _ : Name => (none : Option (ℕ × UInt8)) :=
      ⟨List.nodup_nil, fun _ v =>
        iff_of_false (Option.some_ne_none v ∘ Eq.symm) List.not_mem_nil⟩
    exact hnil.insert rfl

/-- A name is added into the slack of another, which is removed then. -/
theorem dir_run_oneEntry : Respects (fun s op => Fine kilobyte (step kilobyte s op))
    (step kilobyte) (oneEntry 5)
    [.add 12 [98] 1, .lookup [98], .remove [97], .lookup [97], .read] := by
  apply dir_run (oneEntry_wellFormed (by decide)) (by decide)
  · decide
  · simp [Op.Proper]
  · exact ⟨⟨by decide, by decide, by decide⟩, trivial, trivial, trivial, trivial, trivial⟩

/-- The first sector of the block has the number `2 ^ 32`, and the one at zero is read. -/
theorem lookup_wraps : ¬∀ fs s n recs, WellFormed fs s n recs → ∀ ops : List Op,
    (∀ op ∈ ops, op.Proper) →
      Respects (fun s op => Fine fs (step fs s op)) (step fs) s ops := by
  intro h
  have hrun := h kilobyte (oneEntry (2 ^ 31)) 1 _ (oneEntry_wellFormed (by decide)) [.lookup [97]]
    fun op hop => by
      rw [List.mem_singleton.1 hop]
      exact trivial
  have hfine := hrun.1.lookup [97]
  have hzero : ext2FindEntry kilobyte (oneEntry (2 ^ 31)) [97] = 0 := by decide +kernel
  have hlast : (((oneEntry (2 ^ 31)).last [97]).map Prod.fst).getD 0 = 11 := by decide +kernel
  exact absurd (hzero.symm.trans (hfine.trans hlast)) (by decide)

end Xeneva.Ext2
