import Xeneva.Fs.FatTree

/-!
# How a tree changes

A chain grows by a free cluster, an entry with a cluster of its own appears in a free place, and
an object that no entry leads out of disappears with its chain.
-/

namespace Xeneva.Fat

variable {fs : FatFS} {top : ℕ} {d d' : Disk} {cs : List ℕ} {c new : ℕ}
variable {objs rest : List Obj} {o g : Obj} {x y : Slot}

def freeAt (fs : FatFS) (d : Disk) (x : Slot) : Bool := entryFree (sectorAt fs d x) x.2.2

theorem ownerAt_of_free (h : freeAt fs d x = true) : ownerAt fs d x = none := by
  rw [ownerAt, owner, if_pos (.inl h)]

theorem freeAt_of_end (h : endAt fs d x = true) : freeAt fs d x = true := by
  rw [endAt, isEnd, decide_eq_true_eq] at h
  rw [freeAt, entryFree]
  exact decide_eq_true (.inl h)

theorem nodup_places : (places fs).Nodup := by
  rw [places, List.nodup_flatMap]
  constructor
  · intro j _
    exact List.nodup_range.map fun a b hab => (Prod.mk.inj hab).2
  · apply List.nodup_range.imp
    intro a b hab y hy hy'
    obtain ⟨i, -, rfl⟩ := List.mem_map.mp hy
    obtain ⟨i', -, he⟩ := List.mem_map.mp hy'
    exact hab (Prod.mk.inj he).1.symm

theorem nodup_slots (h : cs.Nodup) : (slots fs cs).Nodup := by
  rw [slots, List.nodup_flatMap]
  constructor
  · intro c _
    exact nodup_places.map fun a b hab => (Prod.mk.inj hab).2
  · apply h.imp
    intro a b hab y hy hy'
    obtain ⟨i, -, rfl⟩ := List.mem_map.mp hy
    obtain ⟨i', -, he⟩ := List.mem_map.mp hy'
    exact hab (Prod.mk.inj he).1.symm

/-- A relation on the pairs of a list that changes at one element only. -/
theorem pairwise_update {α : Type*} {R R' : α → α → Prop} {pre post : List α} {a : α}
    (h : (pre ++ a :: post).Pairwise R) (hn : (pre ++ a :: post).Nodup)
    (hpre : ∀ b ∈ pre, R' b a) (hother : ∀ b c, b ∈ pre ++ a :: post → c ∈ pre ++ a :: post →
      c ≠ a → R b c → R' b c) : (pre ++ a :: post).Pairwise R' := by
  have hna := (List.nodup_middle.mp hn)
  rw [List.nodup_cons, List.mem_append, not_or] at hna
  apply List.pairwise_iff_getElem.mpr
  intro i j hi hj hij
  by_cases hja : (pre ++ a :: post)[j] = a
  · -- only what stands before the element is related to it
    have hjp : j = pre.length := by
      have hlt : pre.length < (pre ++ a :: post).length := by
        rw [List.length_append, List.length_cons]
        omega
      have hp : (pre ++ a :: post)[pre.length] = a := by
        rw [List.getElem_append_right le_rfl]
        simp
      exact (hn.getElem_inj_iff).mp (hja.trans hp.symm)
    rw [hja]
    have hip : i < pre.length := by omega
    rw [List.getElem_append_left hip]
    exact hpre _ (List.getElem_mem hip)
  · exact hother _ _ (List.getElem_mem hi) (List.getElem_mem hj) hja
      (List.pairwise_iff_getElem.mp h i j hi hj hij)

/-! ## A chain grows -/

theorem Tree.not_mem_head (ht : Tree fs top d (o :: rest)) (hg : g ∈ rest) (hc : c ∈ g.chain) :
    c ∉ o.chain := by
  have hn := ht.apart
  rw [List.flatMap_cons] at hn
  intro hco
  exact List.disjoint_of_nodup_append hn hco (List.mem_flatMap.mpr ⟨g, hg, hc⟩)

/-- A free cluster is in no chain. -/
theorem Tree.not_mem_of_free (ht : Tree fs top d objs) (h0 : entry fs d c = 0) (ho : o ∈ objs) :
    c ∉ o.chain :=
  fun hc => entry_ne_zero ((ht.chain o ho).used hc) h0

/-- The slots of the directories lie in clusters of the volume. -/
theorem Tree.slot_cluster (ht : Tree fs top d objs) (hg : g ∈ objs) (hx : x ∈ slots fs g.chain) :
    fs.Cluster x.1 :=
  (ht.chain g hg).cluster _ (mem_slots.mp hx).1

theorem sectorAt_alloc (hv : Volume fs) (hc : fs.Cluster c) (hx : fs.Cluster x.1) (v : ℕ) :
    sectorAt fs (fatAllocCluster fs d c v) x = sectorAt fs d x := by
  have := hv.behind hx
  rw [sectorAt, sectorAt, sector_alloc hv hc.2.2 v (by omega)]

/-- What linking a free cluster behind the last one does to the table. -/
structure Linked (fs : FatFS) (d d' : Disk) (l new : ℕ) : Prop where
  link : fatReadFAT fs d' l = new
  mark : fatReadFAT fs d' new = FAT_EOC_MARK % 2 ^ 28
  other : ∀ p, p ≠ new → p ≠ l → entry fs d' p = entry fs d p

theorem linked_alloc {l : ℕ} (hv : Volume fs) (hl : fs.Cluster l) (hn : fs.Cluster new)
    (hne : l ≠ new) :
    Linked fs d (fatAllocCluster fs (fatAllocCluster fs d l new) new FAT_EOC_MARK) l new := by
  have h28 : new < 2 ^ 28 := lt_of_lt_of_le hn.2.1 (hv.count.trans (by decide))
  constructor
  · rw [fatReadFAT_eq, entry_alloc_of_ne hv _ hne, entry_alloc hv hl]
    omega
  · rw [fatReadFAT_eq, entry_alloc hv hn]
    rw [FAT_EOC_MARK]
    omega
  · intro p h1 h2
    rw [entry_alloc_of_ne hv _ h1, entry_alloc_of_ne hv _ h2]

/-- A file takes a free cluster. -/
theorem Tree.extend {l : ℕ} (ha : Area fs top) (ht : Tree fs top d (o :: rest))
    (hf : o.dir = false) (hl : o.chain[o.chain.length - 1]? = some l) (h2 : 2 ≤ new)
    (hn : new < top) (h0 : entry fs d new = 0)
    (hd : d' = fatAllocCluster fs (fatAllocCluster fs d l new) new FAT_EOC_MARK) :
    Tree fs top d' ({ o with chain := o.chain ++ [new] } :: rest) := by
  have hoc := ht.chain o List.mem_cons_self
  have hlm := List.mem_of_getElem? hl
  have hlc := hoc.cluster l hlm
  have hnc := ha.cluster h2 hn
  have hne : l ≠ new := by
    rintro rfl
    exact ht.not_mem_of_free h0 List.mem_cons_self hlm
  have hlink : Linked fs d d' l new := hd ▸ linked_alloc ha.volume hlc hnc hne
  have hsec : ∀ x : Slot, fs.Cluster x.1 → sectorAt fs d' x = sectorAt fs d x := by
    intro x hx
    rw [hd, sectorAt_alloc ha.volume hnc hx, sectorAt_alloc ha.volume hlc hx]
  have hown : ∀ x : Slot, fs.Cluster x.1 → ownerAt fs d' x = ownerAt fs d x := by
    intro x hx
    rw [ownerAt, ownerAt, hsec x hx]
  -- the directories are all among the other objects
  have hdir : ∀ g ∈ o :: rest, g.dir = true → g ∈ rest := by
    intro g hg hgd
    rcases List.mem_cons.mp hg with rfl | hg
    · rw [hf] at hgd
      cases hgd
    · exact hg
  have hdir' : ∀ g ∈ { o with chain := o.chain ++ [new] } :: rest, g.dir = true → g ∈ rest := by
    intro g hg hgd
    rcases List.mem_cons.mp hg with rfl | hg
    · rw [hf] at hgd
      cases hgd
    · exact hg
  have hreach : ∀ z ∈ rest, Reach fs ({ o with chain := o.chain ++ [new] } :: rest) z := by
    intro z hz
    apply (ht.reach z (List.mem_cons_of_mem _ hz)).transfer (List.mem_cons_of_mem _ hz)
    intro g hg z _ x _ hgd _
    exact List.mem_cons_of_mem _ (hdir g hg hgd)
  constructor
  · intro z hz
    rcases List.mem_cons.mp hz with rfl | hz
    · apply hoc.append hl hnc h0 _ hlink.link
      · rw [hlink.mark]
        decide
      · intro c hc hcl
        apply hlink.other c _ hcl
        rintro rfl
        exact ht.not_mem_of_free h0 List.mem_cons_self hc
    · apply (ht.chain z (List.mem_cons_of_mem _ hz)).congr
      intro c hc
      have hcn : new ∉ z.chain := ht.not_mem_of_free h0 (List.mem_cons_of_mem _ hz)
      have hcl := ht.not_mem_head hz hc
      apply hlink.other c
      · exact fun he => hcn (he ▸ hc)
      · exact fun he => hcl (he ▸ hlm)
  · intro z hz c hc
    rcases List.mem_cons.mp hz with rfl | hz
    · rcases List.mem_append.mp hc with hc | hc
      · exact ht.area o List.mem_cons_self c hc
      · rwa [List.mem_singleton.mp hc]
    · exact ht.area z (List.mem_cons_of_mem _ hz) c hc
  · intro z hz
    rcases List.mem_cons.mp hz with rfl | hz
    · exact List.append_ne_nil_of_right_ne_nil _ (List.cons_ne_nil _ _)
    · exact ht.full z (List.mem_cons_of_mem _ hz)
  · have hnd := ht.apart
    have hnew : new ∉ (o :: rest).flatMap Obj.chain := by
      intro hm
      obtain ⟨z, hz, hc⟩ := List.mem_flatMap.mp hm
      exact ht.not_mem_of_free h0 hz hc
    rw [List.flatMap_cons] at hnd hnew ⊢
    rw [List.append_assoc, List.singleton_append]
    exact List.nodup_middle.mpr (List.nodup_cons.mpr ⟨hnew, hnd⟩)
  · intro c hc2 hct hc0 hcb
    rw [List.flatMap_cons, List.mem_append, List.mem_append, List.mem_singleton]
    by_cases hcn : c = new
    · exact .inl (.inr hcn)
    by_cases hcl : c = l
    · exact .inl (.inl (hcl ▸ hlm))
    · rw [fatReadFAT_eq, hlink.other c hcn hcl] at hc0 hcb
      have hm := ht.used c hc2 hct hc0 hcb
      rw [List.flatMap_cons, List.mem_append] at hm
      exact hm.imp_left .inl
  · obtain ⟨z, hz, hs⟩ := ht.root
    exact ⟨z, List.mem_cons_of_mem _ (hdir z hz (ht.rootDir z hz hs).1), hs⟩
  · intro z hz hs
    rcases List.mem_cons.mp hz with rfl | hz
    · have := (ht.rootDir o List.mem_cons_self hs).1
      rw [hf] at this
      cases this
    · exact ht.rootDir z (List.mem_cons_of_mem _ hz) hs
  · intro z hz x hx
    rcases List.mem_cons.mp hz with rfl | hz
    · obtain ⟨g, hg, hgd, hxg, h1, h3⟩ := ht.held o List.mem_cons_self x hx
      refine ⟨g, List.mem_cons_of_mem _ (hdir g hg hgd), hgd, hxg, ?_, ?_⟩
      · rw [hown x (ht.slot_cluster hg hxg), h1,
          List.head?_append_of_ne_nil _ (ht.full o List.mem_cons_self)]
      · rw [dirAt, hsec x (ht.slot_cluster hg hxg)]
        exact h3
    · obtain ⟨g, hg, hgd, hxg, h1, h3⟩ := ht.held z (List.mem_cons_of_mem _ hz) x hx
      refine ⟨g, List.mem_cons_of_mem _ (hdir g hg hgd), hgd, hxg, ?_, ?_⟩
      · rw [hown x (ht.slot_cluster hg hxg), h1]
      · rw [dirAt, hsec x (ht.slot_cluster hg hxg)]
        exact h3
  · intro g hg hgd x hx h hh
    have hg := List.mem_cons_of_mem o (hdir' g hg hgd)
    rw [hown x (ht.slot_cluster hg hx)] at hh
    obtain ⟨z, hz, hs⟩ := ht.owners g hg hgd x hx h hh
    rcases List.mem_cons.mp hz with rfl | hz
    · exact ⟨_, List.mem_cons_self, hs⟩
    · exact ⟨z, List.mem_cons_of_mem _ hz, hs⟩
  · intro z hz
    rcases List.mem_cons.mp hz with rfl | hz
    · cases ht.reach o List.mem_cons_self with
      | root _ _ hs =>
        have := (ht.rootDir o List.mem_cons_self hs).1
        rw [hf] at this
        cases this
      | child g _ x hr hg hgd hx _ hs =>
        have hg' := hdir g hg hgd
        exact .child g _ x (hreach g hg') (List.mem_cons_of_mem _ hg') hgd hx
          List.mem_cons_self hs
    · exact hreach z hz
  · intro g hg hgd
    have hg := List.mem_cons_of_mem o (hdir' g hg hgd)
    apply (ht.ended g hg hgd).imp_of_mem
    intro x y hx hy hxy he
    rw [hown y (ht.slot_cluster hg hy)]
    rw [endAt, hsec x (ht.slot_cluster hg hx)] at he
    exact hxy he

/-! ## An entry appears -/

/-- What a new entry changes: a free cluster is marked and becomes the entry's chain. -/
structure Added (fs : FatFS) (d d' : Disk) (objs : List Obj) (x : Slot) (new : ℕ) (k : Bool) :
    Prop where
  mark : fatReadFAT fs d' new = FAT_EOC_MARK % 2 ^ 28
  entry : ∀ c, fs.Cluster c → c ≠ new → entry fs d' c = entry fs d c
  owner : ∀ g ∈ objs, ∀ y ∈ slots fs g.chain, y ≠ x → ownerAt fs d' y = ownerAt fs d y
  dir : ∀ g ∈ objs, ∀ y ∈ slots fs g.chain, y ≠ x → dirAt fs d' y = dirAt fs d y
  ends : ∀ g ∈ objs, ∀ y ∈ slots fs g.chain, y ≠ x → endAt fs d' y = endAt fs d y
  ownerNew : ownerAt fs d' x = some new
  dirNew : dirAt fs d' x = k
  endNew : endAt fs d' x = false
  empty : k = true → ∀ y ∈ slots fs [new], ownerAt fs d' y = none

/-- A free place of a directory, the first one, takes an entry with a free cluster. -/
theorem Tree.add {pre post : List Slot} {k : Bool} (ha : Area fs top) (ht : Tree fs top d objs)
    (hg : g ∈ objs) (hgd : g.dir = true) (hsl : slots fs g.chain = pre ++ x :: post)
    (hpre : ∀ y ∈ pre, freeAt fs d y = false) (hx : freeAt fs d x = true) (h2 : 2 ≤ new)
    (hn : new < top) (h0 : entry fs d new = 0) (had : Added fs d d' objs x new k) :
    Tree fs top d' ({ chain := [new], dir := k, slot := some x } :: objs) := by
  have hnew : ∀ o ∈ objs, new ∉ o.chain := fun o ho => ht.not_mem_of_free h0 ho
  have hxg : x ∈ slots fs g.chain := by
    rw [hsl]
    exact List.mem_append_right _ List.mem_cons_self
  have hxo : ownerAt fs d x = none := ownerAt_of_free hx
  have hreach : ∀ z ∈ objs,
      Reach fs ({ chain := [new], dir := k, slot := some x } :: objs) z := by
    intro z hz
    apply (ht.reach z hz).transfer (List.mem_cons_of_mem _ hz)
    intro g hg _ _ _ _ _ _
    exact List.mem_cons_of_mem _ hg
  constructor
  · intro z hz
    rcases List.mem_cons.mp hz with rfl | hz
    · constructor
      · intro c hc
        rw [List.mem_singleton.mp hc]
        exact ha.cluster h2 hn
      · exact List.nodup_singleton new
      · intro i a b _ hb
        cases hb
      · intro a hab
        cases hab
        rw [had.mark]
        decide
    · apply (ht.chain z hz).congr
      intro c hc
      have hcn := hnew z hz
      exact had.entry c ((ht.chain z hz).cluster c hc) fun he => hcn (he ▸ hc)
  · intro z hz c hc
    rcases List.mem_cons.mp hz with rfl | hz
    · rwa [List.mem_singleton.mp hc]
    · exact ht.area z hz c hc
  · intro z hz
    rcases List.mem_cons.mp hz with rfl | hz
    · exact List.cons_ne_nil _ _
    · exact ht.full z hz
  · rw [List.flatMap_cons, List.singleton_append]
    apply List.nodup_cons.mpr ⟨_, ht.apart⟩
    intro hm
    obtain ⟨z, hz, hc⟩ := List.mem_flatMap.mp hm
    exact hnew z hz hc
  · intro c hc2 hct hc0 hcb
    rw [List.flatMap_cons, List.singleton_append, List.mem_cons]
    by_cases hcn : c = new
    · exact .inl hcn
    · rw [fatReadFAT_eq, had.entry c (ha.cluster hc2 hct) hcn] at hc0 hcb
      exact .inr (ht.used c hc2 hct hc0 hcb)
  · obtain ⟨z, hz, hs⟩ := ht.root
    exact ⟨z, List.mem_cons_of_mem _ hz, hs⟩
  · intro z hz hs
    rcases List.mem_cons.mp hz with rfl | hz
    · cases hs
    · exact ht.rootDir z hz hs
  · intro z hz y hy
    rcases List.mem_cons.mp hz with rfl | hz
    · cases hy
      exact ⟨g, List.mem_cons_of_mem _ hg, hgd, hxg, had.ownerNew, had.dirNew⟩
    · obtain ⟨g', hg', hgd', hyg, h1, h3⟩ := ht.held z hz y hy
      have hfull := ht.full z hz
      have hyx : y ≠ x := by
        rintro rfl
        rw [hxo] at h1
        exact hfull (List.head?_eq_none_iff.mp h1.symm)
      refine ⟨g', List.mem_cons_of_mem _ hg', hgd', hyg, ?_, ?_⟩
      · rw [had.owner g' hg' y hyg hyx, h1]
      · rw [had.dir g' hg' y hyg hyx, h3]
  · intro z hz hzd y hy h hh
    by_cases hyx : y = x
    · exact ⟨_, List.mem_cons_self, congrArg some hyx.symm⟩
    rcases List.mem_cons.mp hz with rfl | hz
    · rw [had.empty hzd y hy] at hh
      cases hh
    · rw [had.owner z hz y hy hyx] at hh
      obtain ⟨w, hw, hs⟩ := ht.owners z hz hzd y hy h hh
      exact ⟨w, List.mem_cons_of_mem _ hw, hs⟩
  · intro z hz
    rcases List.mem_cons.mp hz with rfl | hz
    · exact .child g _ x (hreach g hg) (List.mem_cons_of_mem _ hg) hgd hxg List.mem_cons_self rfl
    · exact hreach z hz
  · intro z hz hzd
    rcases List.mem_cons.mp hz with rfl | hz
    · apply (List.pairwise_of_forall fun _ _ => trivial).imp_of_mem
      intro a b _ hb _ _
      exact had.empty hzd b hb
    by_cases hxz : x ∈ slots fs z.chain
    · have hzg : z = g := eq_of_mem_chain ht hz hg (mem_slots.mp hxz).1 (mem_slots.mp hxg).1
      have hpw := ht.ended z hz hzd
      have hnd : (slots fs z.chain).Nodup := nodup_slots (ht.chain z hz).nodup
      have hmem : ∀ a, a ∈ pre ++ x :: post → a ∈ slots fs z.chain := by
        intro a hm
        rw [hzg, hsl]
        exact hm
      rw [hzg, hsl] at hpw hnd ⊢
      apply pairwise_update hpw hnd
      · intro a hap he
        have hax : a ≠ x := by
          rintro rfl
          have := hpre a hap
          rw [hx] at this
          cases this
        rw [had.ends z hz a (hmem a (List.mem_append_left _ hap)) hax] at he
        have := hpre a hap
        rw [freeAt_of_end he] at this
        cases this
      · intro a b hma hmb hbx hab he
        by_cases hax : a = x
        · rw [hax, had.endNew] at he
          cases he
        · rw [had.ends z hz a (hmem a hma) hax] at he
          rw [had.owner z hz b (hmem b hmb) hbx]
          exact hab he
    · apply (ht.ended z hz hzd).imp_of_mem
      intro a b hma hmb hab he
      have hax : a ≠ x := fun h => hxz (h ▸ hma)
      have hbx : b ≠ x := fun h => hxz (h ▸ hmb)
      rw [had.ends z hz a hma hax] at he
      rw [had.owner z hz b hmb hbx]
      exact hab he

/-- What a removal changes: the entry owns nothing any more, and the chain is free. -/
structure Removed (fs : FatFS) (d d' : Disk) (objs : List Obj) (x : Slot) (cs : List ℕ) : Prop where
  freed : ∀ c ∈ cs, fatReadFAT fs d' c = 0
  entry : ∀ c, fs.Cluster c → c ∉ cs → entry fs d' c = entry fs d c
  owner : ∀ g ∈ objs, ∀ y ∈ slots fs g.chain, y ≠ x → ownerAt fs d' y = ownerAt fs d y
  dir : ∀ g ∈ objs, ∀ y ∈ slots fs g.chain, y ≠ x → dirAt fs d' y = dirAt fs d y
  ends : ∀ g ∈ objs, ∀ y ∈ slots fs g.chain, y ≠ x → endAt fs d' y = endAt fs d y
  ownerGone : ownerAt fs d' x = none
  endGone : endAt fs d' x = false

/-- A file, or a directory that no entry leads out of. -/
theorem Tree.remove (ha : Area fs top) (ht : Tree fs top d (o :: rest)) (hx : o.slot = some x)
    (hleaf : ∀ z ∈ o :: rest, ∀ y, z.slot = some y → y ∉ slots fs o.chain)
    (hr : Removed fs d d' rest x o.chain) : Tree fs top d' rest := by
  have hm : ∀ z ∈ rest, z ∈ o :: rest := fun z hz => List.mem_cons_of_mem _ hz
  have hnd := ht.apart
  rw [List.flatMap_cons] at hnd
  -- what an entry names is still there, unless it is the one removed
  have hslot : ∀ z ∈ rest, ∀ y, z.slot = some y → y ≠ x := by
    intro z hz y hy
    rintro rfl
    have hzo := eq_of_slot ht (hm z hz) List.mem_cons_self hy hx
    cases hh : z.chain.head? with
    | none => exact ht.full z (hm z hz) (List.head?_eq_none_iff.mp hh)
    | some c =>
      have hc := mem_of_head? hh
      exact ht.not_mem_head hz hc (hzo ▸ hc)
  have hparent : ∀ g ∈ o :: rest, ∀ z ∈ o :: rest, ∀ y ∈ slots fs g.chain, z.slot = some y →
      g ∈ rest := by
    intro g hg z hz y hy hs
    rcases List.mem_cons.mp hg with rfl | hg
    · exact absurd hy (hleaf z hz y hs)
    · exact hg
  constructor
  · intro z hz
    apply (ht.chain z (hm z hz)).congr
    intro c hc
    exact hr.entry c ((ht.chain z (hm z hz)).cluster c hc) (ht.not_mem_head hz hc)
  · exact fun z hz => ht.area z (hm z hz)
  · exact fun z hz => ht.full z (hm z hz)
  · exact hnd.of_append_right
  · intro c hc2 hct hc0 hcb
    have hco : c ∉ o.chain := fun hco => hc0 (hr.freed c hco)
    rw [fatReadFAT_eq, hr.entry c (ha.cluster hc2 hct) hco] at hc0 hcb
    have hu := ht.used c hc2 hct hc0 hcb
    rw [List.flatMap_cons, List.mem_append] at hu
    exact hu.resolve_left hco
  · obtain ⟨z, hz, hs⟩ := ht.root
    rcases List.mem_cons.mp hz with rfl | hz
    · rw [hx] at hs
      cases hs
    · exact ⟨z, hz, hs⟩
  · exact fun z hz => ht.rootDir z (hm z hz)
  · intro z hz y hy
    obtain ⟨g, hg, hgd, hyg, h1, h3⟩ := ht.held z (hm z hz) y hy
    have hg' := hparent g hg z (hm z hz) y hyg hy
    have hyx := hslot z hz y hy
    refine ⟨g, hg', hgd, hyg, ?_, ?_⟩
    · rw [hr.owner g hg' y hyg hyx, h1]
    · rw [hr.dir g hg' y hyg hyx, h3]
  · intro g hg hgd y hy h hh
    have hyx : y ≠ x := by
      rintro rfl
      rw [hr.ownerGone] at hh
      cases hh
    rw [hr.owner g hg y hy hyx] at hh
    obtain ⟨z, hz, hs⟩ := ht.owners g (hm g hg) hgd y hy h hh
    rcases List.mem_cons.mp hz with rfl | hz
    · rw [hx] at hs
      exact absurd (Option.some.inj hs).symm hyx
    · exact ⟨z, hz, hs⟩
  · intro z hz
    apply (ht.reach z (hm z hz)).transfer hz
    intro g hg z hz y hy _ hs
    exact hparent g hg z hz y hy hs
  · intro g hg hgd
    apply (ht.ended g (hm g hg) hgd).imp_of_mem
    intro a b hma hmb hab he
    have hax : a ≠ x := by
      rintro rfl
      rw [hr.endGone] at he
      cases he
    rw [hr.ends g hg a hma hax] at he
    by_cases hbx : b = x
    · rw [hbx, hr.ownerGone]
    · rw [hr.owner g hg b hmb hbx]
      exact hab he

end Xeneva.Fat
