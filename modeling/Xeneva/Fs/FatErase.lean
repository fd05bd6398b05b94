import Xeneva.Fs.FatEntry
import Xeneva.Fs.FatLocate

/-!
# What a removal writes

A removal writes the first byte of one directory entry and the table entries of one chain, and
nothing else. Each table entry is read before it is freed, so the walk along the chain comes to
a free entry at the latest when it is back at where it has been.
-/

namespace Xeneva.Fat

variable {fs : FatFS} {d d' : Disk} {file : AuVFSNode} {dir cs rest : List ℕ} {x : Slot} {c n : ℕ}

/-- An entry of a file, a directory or the volume. -/
def liveAt (fs : FatFS) (d : Disk) (x : Slot) : Bool :=
  ¬ isEnd (sectorAt fs d x) x.2.2 ∧ ¬ isDeleted (sectorAt fs d x) x.2.2 ∧
    ¬ isLongName (sectorAt fs d x) x.2.2

def namedAt (fs : FatFS) (d : Disk) (name : ℕ → UInt8) (x : Slot) : Bool :=
  liveAt fs d x ∧ nameAt (sectorAt fs d x) x.2.2 name

/-- The file's entry in its directory: no other entry there has the name, nothing is behind the
end mark, and the node's parent is a cluster of the directory at the entry or before it. -/
structure FileEntry (fs : FatFS) (d : Disk) (file : AuVFSNode) (dir : List ℕ) (x : Slot) :
    Prop where
  chain : Chain fs d dir
  parent : ∃ pre rest, dir = pre ++ file.parent_block :: rest ∧
    x ∈ slots fs (file.parent_block :: rest)
  named : namedAt fs d file.name x = true
  unique : ∀ y ∈ slots fs dir, namedAt fs d file.name y = true → y = x
  ended : (slots fs dir).Pairwise fun y z => endAt fs d y = true → liveAt fs d z = false

theorem liveAt_iff : liveAt fs d x = true ↔ endAt fs d x = false ∧
    isDeleted (sectorAt fs d x) x.2.2 = false ∧ isLongName (sectorAt fs d x) x.2.2 = false := by
  rw [liveAt, decide_eq_true_eq, endAt, Bool.not_eq_true, Bool.not_eq_true, Bool.not_eq_true]

theorem namedAt_iff {name : ℕ → UInt8} : namedAt fs d name x = true ↔
    liveAt fs d x = true ∧ nameAt (sectorAt fs d x) x.2.2 name = true := by
  rw [namedAt, decide_eq_true_eq]

/-- A cluster as the search sees it. -/
def sectorsOf (fs : FatFS) (d : Disk) (c : ℕ) : ℕ → Sector :=
  fun j => d (fatClusterToSector32 fs c + j)

theorem clearIn_cons (name : ℕ → UInt8) (q : ℕ × ℕ) (es : List (ℕ × ℕ)) :
    clearIn (sectorsOf fs d c) name (q :: es) =
      if endAt fs d (c, q) then some none
      else if namedAt fs d name (c, q) then some (some q)
      else clearIn (sectorsOf fs d c) name es := by
  obtain ⟨j, i⟩ := q
  have hs : sectorsOf fs d c j = sectorAt fs d (c, j, i) := rfl
  rw [clearIn, hs, endAt, namedAt, liveAt]
  by_cases h1 : isEnd (sectorAt fs d (c, j, i)) i = true
  · rw [if_pos h1, if_pos h1]
  · rw [if_neg h1, if_neg h1]
    split_ifs with h2 h3 h4 h5 h5 h5 h5 <;> simp_all

/-- The search takes the one entry of the name. -/
theorem clearIn_found {name : ℕ → UInt8} {p : ℕ × ℕ} {es : List (ℕ × ℕ)} (hp : p ∈ es)
    (hn : namedAt fs d name (c, p) = true)
    (hu : ∀ q ∈ es, namedAt fs d name (c, q) = true → q = p)
    (he : es.Pairwise fun y z => endAt fs d (c, y) = true → liveAt fs d (c, z) = false) :
    clearIn (sectorsOf fs d c) name es = some (some p) := by
  obtain ⟨hlive, -⟩ := namedAt_iff.mp hn
  induction es with
  | nil => cases hp
  | cons q es ih =>
    rw [List.pairwise_cons] at he
    rw [List.forall_mem_cons] at hu
    rw [clearIn_cons]
    by_cases hq : p = q
    · rw [← hq, if_neg (Bool.eq_false_iff.mp (liveAt_iff.mp hlive).1), if_pos hn]
    · have hpe : p ∈ es := (List.mem_cons.mp hp).resolve_left hq
      have hend : ¬ endAt fs d (c, q) = true := by
        intro h
        have hdead := he.1 p hpe h
        rw [hlive] at hdead
        cases hdead
      rw [if_neg hend, if_neg fun h => hq (hu.1 h).symm]
      exact ih hpe hu.2 he.2

/-- A cluster without the name and without an end mark is passed. -/
theorem clearIn_none {name : ℕ → UInt8} {es : List (ℕ × ℕ)}
    (hend : ∀ q ∈ es, ¬ endAt fs d (c, q) = true)
    (hn : ∀ q ∈ es, ¬ namedAt fs d name (c, q) = true) :
    clearIn (sectorsOf fs d c) name es = none := by
  induction es with
  | nil => rfl
  | cons q es ih =>
    rw [List.forall_mem_cons] at hend hn
    rw [clearIn_cons, if_neg hend.1, if_neg hn.1]
    exact ih hend.2 hn.2

theorem findEntry_succ (name : ℕ → UInt8) (hc : inTable fs c = true) :
    findEntry fs d name (n + 1) c =
      match clearIn (sectorsOf fs d c) name (places fs) with
      | some found => some (found.map fun (j, i) => (c, j, i))
      | none =>
        let next := fatReadFAT fs d c
        if isEoc next ∨ next < 2 then some none else findEntry fs d name n next := by
  rw [findEntry, if_neg (not_not.mpr hc)]
  rfl

/-- The walk comes to the one entry of the name. -/
theorem findEntry_found {name : ℕ → UInt8} (hl : Layout fs) (h : Chain fs d (c :: rest))
    (hn : rest.length < n) (hx : x ∈ slots fs (c :: rest)) (hname : namedAt fs d name x = true)
    (hu : ∀ y ∈ slots fs (c :: rest), namedAt fs d name y = true → y = x)
    (he : (slots fs (c :: rest)).Pairwise fun y z =>
      endAt fs d y = true → liveAt fs d z = false) :
    findEntry fs d name n c = some (some x) := by
  induction n generalizing c rest with
  | zero => exact absurd hn (Nat.not_lt_zero _)
  | succ n ih =>
    rw [slots_cons] at hx hu he
    rw [findEntry_succ name (hl.inTable (h.cluster c List.mem_cons_self))]
    obtain ⟨hfirst, hlater, hcross⟩ := List.pairwise_append.mp he
    rcases List.mem_append.mp hx with hx | hx
    · obtain ⟨p, hp, rfl⟩ := List.mem_map.mp hx
      have hfound : clearIn (sectorsOf fs d c) name (places fs) = some (some p) := by
        apply clearIn_found hp hname
        · intro q hq hqn
          have hqp := hu (c, q) (List.mem_append_left _ (List.mem_map_of_mem hq)) hqn
          exact (Prod.mk.inj hqp).2
        · exact List.pairwise_map.mp hfirst
      rw [hfound]
      rfl
    · have hxc : x.1 ≠ c := by
        intro hxc
        have hm := (mem_slots.mp hx).1
        rw [hxc] at hm
        exact (List.nodup_cons.mp h.nodup).1 hm
      have hpass : clearIn (sectorsOf fs d c) name (places fs) = none := by
        apply clearIn_none
        · intro q hq hend
          have hdead := hcross (c, q) (List.mem_map_of_mem hq) x hx hend
          rw [(namedAt_iff.mp hname).1] at hdead
          cases hdead
        · intro q hq hqn
          have hqx := hu (c, q) (List.mem_append_left _ (List.mem_map_of_mem hq)) hqn
          exact hxc (congrArg Prod.fst hqx).symm
      rw [hpass]
      cases rest with
      | nil => exact absurd (mem_slots.mp hx).1 List.not_mem_nil
      | cons c' rest =>
        have hgo := hl.go_on (h.tail.cluster c' List.mem_cons_self)
        simp only [h.next, if_neg hgo]
        exact ih h.tail (Nat.lt_of_succ_lt_succ hn) hx
          (fun y hy => hu y (List.mem_append_right _ hy)) hlater

theorem FileEntry.found (hl : Layout fs) (he : FileEntry fs d file dir x)
    (hn : fs.totalClusters ≤ n) : findEntry fs d file.name n file.parent_block = some (some x) := by
  obtain ⟨pre, rest, hdir, hx⟩ := he.parent
  have hchain := he.chain
  have hended := he.ended
  have hsub : slots fs dir = slots fs pre ++ slots fs (file.parent_block :: rest) := by
    rw [hdir, slots, List.flatMap_append]
    rfl
  rw [hdir] at hchain
  rw [hsub] at hended
  have hlen := hchain.length_le
  rw [List.length_append, List.length_cons] at hlen
  apply findEntry_found hl (hchain.suffix pre) (by omega) hx he.named
  · intro y hy
    apply he.unique
    rw [hsub]
    exact List.mem_append_right _ hy
  · exact (List.pairwise_append.mp hended).2.1

theorem FileEntry.cluster (he : FileEntry fs d file dir x) : fs.Cluster x.1 := by
  obtain ⟨pre, rest, hdir, hx⟩ := he.parent
  apply he.chain.cluster
  rw [hdir]
  exact List.mem_append_right _ (mem_slots.mp hx).1

end Xeneva.Fat
