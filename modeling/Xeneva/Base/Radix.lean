import Mathlib

/-!
# Radix trees in memory

Tables of entries, each table at its place in memory; an entry may point to a table of the next
level. Several roots may share tables below them. When no table is at the end of two different
paths, a write to a table changes only what the paths through it find there.
-/

namespace Xeneva.Base.Radix

variable {F I D : Type*} (next : D → Option F)

/-- The table at the end of a path. -/
def walk (mem : F → I → D) (t : F) : List I → Option F
  | [] => some t
  | i :: p => (next (mem t i)).bind fun t' => walk mem t' p

/-- The entries a path meets, up to the first that points to no table. -/
def trail (mem : F → I → D) (t : F) : List I → List D
  | [] => []
  | i :: p => mem t i :: match next (mem t i) with
    | some t' => trail mem t' p
    | none => []

/-- Down to depth `n` a table lies at the end of one path only, whichever root that starts at. -/
def Forest (roots : List F) (n : ℕ) (mem : F → I → D) : Prop :=
  ∀ r ∈ roots, ∀ r' ∈ roots, ∀ p q t, p.length ≤ n → q.length ≤ n →
    walk next mem r p = some t → walk next mem r' q = some t → p = q

/-- The table is at the end of no path down to depth `n`. -/
def Unreached (roots : List F) (n : ℕ) (mem : F → I → D) (f : F) : Prop :=
  ∀ r ∈ roots, ∀ p, p.length ≤ n → walk next mem r p ≠ some f

/-- The path goes through the entry `i` of the table `t`, which is at the end of `p`. -/
def Through (mem : F → I → D) (t : F) (p : List I) (i : I) (r : F) (q : List I) : Prop :=
  p ++ [i] <+: q ∧ walk next mem r p = some t

variable {next} {mem mem' : F → I → D} {roots : List F} {n : ℕ} {r r' t t' f : F} {p q : List I}
  {i j : I} {d zero : D}

theorem walk_append : walk next mem t (p ++ q) =
    (walk next mem t p).bind fun t' => walk next mem t' q := by
  induction p generalizing t with
  | nil => rfl
  | cons i p ih =>
    rw [List.cons_append, walk, walk, Option.bind_assoc]
    congr 1
    funext t'
    exact ih

theorem walk_concat : walk next mem t (p ++ [i]) =
    (walk next mem t p).bind fun t' => next (mem t' i) := by
  rw [walk_append]
  congr 1
  funext t'
  simp [walk]

theorem trail_append (h : walk next mem t p = some t') :
    trail next mem t (p ++ q) = trail next mem t p ++ trail next mem t' q := by
  induction p generalizing t with
  | nil =>
    rw [Option.some.inj h]
    rfl
  | cons i p ih =>
    obtain ⟨u, hu, hw⟩ := Option.bind_eq_some_iff.mp h
    simp only [List.cons_append, trail, hu, ih hw]

theorem trail_length (h : walk next mem t p = some t') : (trail next mem t p).length = p.length := by
  induction p generalizing t with
  | nil => rfl
  | cons i p ih =>
    obtain ⟨u, hu, hw⟩ := Option.bind_eq_some_iff.mp h
    simp [trail, hu, ih hw]

/-- A trail is the entries of the tables that the shorter paths lead to. -/
theorem trail_congr (h : ∀ q i, q ++ [i] <+: p → walk next mem' t q = walk next mem t q ∧
      ∀ u, walk next mem t q = some u → mem' u i = mem u i) :
    trail next mem' t p = trail next mem t p := by
  induction p generalizing t with
  | nil => rfl
  | cons i p ih =>
    have h0 := (h [] i ⟨p, rfl⟩).2 t rfl
    unfold trail
    rw [h0]
    congr 1
    cases hn : next (mem t i) with
    | none => rfl
    | some u =>
      apply ih
      intro q j hq
      have hc := h (i :: q) j (List.cons_prefix_cons.mpr ⟨rfl, hq⟩)
      simpa only [walk, h0, hn, Option.bind_some] using hc

/-- A path does not go through an entry of the table it ends at. -/
theorem not_through_self : ¬Through next mem t p i r p := by
  intro h
  have hlen := h.1.length_le
  simp only [List.length_append, List.length_singleton] at hlen
  omega

/-- What a link needs: the entry has room for it, and the new table is in no other use. -/
structure Links (next : D → Option F) (roots : List F) (n : ℕ) (mem : F → I → D) (zero : D)
    (r t : F) (p : List I) (i : I) (f : F) (d : D) : Prop where
  forest : Forest next roots n mem
  root : r ∈ roots
  short : p.length < n
  table : walk next mem r p = some t
  room : next (mem t i) = none
  unreached : Unreached next roots n mem f
  empty : next zero = none
  points : next d = some f

namespace Links

variable (h : Links next roots n mem zero r t p i f d)
include h

theorem ne : t ≠ f := by
  intro htf
  exact h.unreached r h.root p h.short.le (htf ▸ h.table)

theorem trail_before (hw : walk next mem r' p = some t) :
    trail next mem r' (p ++ [i] ++ q) = trail next mem r' p ++ [mem t i] := by
  rw [List.append_assoc, trail_append hw]
  simp [trail, h.room]

end Links

variable [DecidableEq F]

/-- All entries of the table `t` become `d`. -/
def fill (mem : F → I → D) (t : F) (d : D) : F → I → D :=
  fun t' i => if t' = t then d else mem t' i

@[simp] theorem fill_self : fill mem t d t i = d := by
  simp [fill]

theorem fill_of_ne (h : t' ≠ t) : fill mem t d t' i = mem t' i := by
  simp [fill, h]

theorem Unreached.walk_fill (hf : Unreached next roots n mem f) (hr : r ∈ roots)
    (hq : q.length ≤ n + 1) : walk next (fill mem f zero) r q = walk next mem r q := by
  induction q using List.reverseRecOn with
  | nil => rfl
  | append_singleton q j ih =>
    have hlen : q.length ≤ n := by simpa using hq
    rw [walk_concat, walk_concat, ih (by omega)]
    cases hw : walk next mem r q with
    | none => rfl
    | some u =>
      dsimp only [Option.bind_some]
      rw [fill_of_ne]
      intro hu
      exact hf r hr q hlen (hu ▸ hw)

theorem Unreached.trail_fill (hf : Unreached next roots n mem f) (hr : r ∈ roots)
    (hq : q.length ≤ n + 1) : trail next (fill mem f zero) r q = trail next mem r q := by
  apply trail_congr
  intro q' j hq'
  have hlen : q'.length + 1 ≤ q.length := by simpa using hq'.length_le
  refine ⟨hf.walk_fill hr (by omega), ?_⟩
  intro u hu
  apply fill_of_ne
  intro huf
  exact hf r hr q' (by omega) (huf ▸ hu)

theorem Links.filled (h : Links next roots n mem zero r t p i f d) :
    Forest next roots n (fill mem f zero) := by
  intro r₁ h₁ r₂ h₂ p₁ p₂ t hp₁ hp₂ hw₁ hw₂
  rw [h.unreached.walk_fill h₁ (by omega)] at hw₁
  rw [h.unreached.walk_fill h₂ (by omega)] at hw₂
  exact h.forest r₁ h₁ r₂ h₂ p₁ p₂ t hp₁ hp₂ hw₁ hw₂

theorem Links.filled_table (h : Links next roots n mem zero r t p i f d) :
    walk next (fill mem f zero) r p = some t := by
  rw [h.unreached.walk_fill h.root (by have := h.short; omega)]
  exact h.table

variable [DecidableEq I]

/-- The entry `i` of the table `t` becomes `d`. -/
def write (mem : F → I → D) (t : F) (i : I) (d : D) : F → I → D :=
  fun t' i' => if t' = t ∧ i' = i then d else mem t' i'

@[simp] theorem write_self : write mem t i d t i = d := by
  simp [write]

theorem write_of_ne (h : ¬(t' = t ∧ j = i)) : write mem t i d t' j = mem t' j := by
  simp [write, h]

theorem Forest.walk_write (hf : Forest next roots n mem) (hr : r ∈ roots)
    (hp : p.length ≤ n) (ht : walk next mem r p = some t) (hr' : r' ∈ roots)
    (hq : q.length ≤ n + 1) (hn : ¬Through next mem t p i r' q) :
    walk next (write mem t i d) r' q = walk next mem r' q := by
  induction q using List.reverseRecOn with
  | nil => rfl
  | append_singleton q j ih =>
    have hlen : q.length ≤ n := by simpa using hq
    have hsub : ¬Through next mem t p i r' q :=
      fun h => hn ⟨h.1.trans (List.prefix_append q [j]), h.2⟩
    rw [walk_concat, walk_concat, ih (by omega) hsub]
    cases hw : walk next mem r' q with
    | none => rfl
    | some u =>
      dsimp only [Option.bind_some]
      rw [write_of_ne]
      intro ⟨hu, hj⟩
      -- the table is at the end of this path, so the path goes through the entry
      have hpq : p = q := hf r hr r' hr' p q t hp hlen ht (hu ▸ hw)
      subst hpq hu hj
      exact hn ⟨List.prefix_refl _, hw⟩

theorem Forest.trail_write (hf : Forest next roots n mem) (hr : r ∈ roots)
    (hp : p.length ≤ n) (ht : walk next mem r p = some t) (hr' : r' ∈ roots)
    (hq : q.length ≤ n + 1) (hn : ¬Through next mem t p i r' q) :
    trail next (write mem t i d) r' q = trail next mem r' q := by
  apply trail_congr
  intro q' j hq'
  have hlen : q'.length + 1 ≤ q.length := by simpa using hq'.length_le
  have hsub : ¬Through next mem t p i r' q' :=
    fun h => hn ⟨(h.1.trans (List.prefix_append q' [j])).trans hq', h.2⟩
  refine ⟨hf.walk_write hr hp ht hr' (by omega) hsub, ?_⟩
  intro u hu
  apply write_of_ne
  intro ⟨hut, hj⟩
  have hpq : p = q' := hf r hr r' hr' p q' t hp (by omega) ht (hut ▸ hu)
  subst hpq hut hj
  exact hn ⟨hq', hu⟩

/-- A write to a table of the last level leaves all tables where they are. -/
theorem Forest.walk_write_last (hf : Forest next roots n mem) (hr : r ∈ roots)
    (hp : p.length = n) (ht : walk next mem r p = some t) (hr' : r' ∈ roots) (hq : q.length ≤ n) :
    walk next (write mem t i d) r' q = walk next mem r' q := by
  apply hf.walk_write hr hp.le ht hr' (by omega)
  intro hc
  have hlen := hc.1.length_le
  simp only [List.length_append, List.length_singleton] at hlen
  omega

theorem Forest.forest_write (hf : Forest next roots n mem) (hr : r ∈ roots)
    (hp : p.length = n) (ht : walk next mem r p = some t) :
    Forest next roots n (write mem t i d) := by
  intro r₁ h₁ r₂ h₂ p₁ p₂ t hp₁ hp₂ hw₁ hw₂
  rw [hf.walk_write_last hr hp ht h₁ hp₁] at hw₁
  rw [hf.walk_write_last hr hp ht h₂ hp₂] at hw₂
  exact hf r₁ h₁ r₂ h₂ p₁ p₂ t hp₁ hp₂ hw₁ hw₂

/-- The entries after such a write: all but one are as before. -/
theorem Forest.entry_write (hf : Forest next roots n mem) (hr : r ∈ roots)
    (hp : p.length = n) (ht : walk next mem r p = some t) (hr' : r' ∈ roots) (hq : q.length ≤ n)
    (hw : walk next (write mem t i d) r' q = some t') (j : I) :
    walk next mem r' q = some t' ∧
      (write mem t i d t' j = mem t' j ∨ (q = p ∧ write mem t i d t' j = d)) := by
  rw [hf.walk_write_last hr hp ht hr' hq] at hw
  refine ⟨hw, ?_⟩
  by_cases hc : t' = t ∧ j = i
  · obtain ⟨rfl, rfl⟩ := hc
    exact Or.inr ⟨hf r' hr' r hr q p t' hq hp.le hw ht, write_self⟩
  · exact Or.inl (write_of_ne hc)

/-! ## A new table -/

/-- The empty table `f` is filled with `zero` and linked in as entry `i` of `t`. -/
def link (mem : F → I → D) (zero : D) (t : F) (i : I) (f : F) (d : D) : F → I → D :=
  write (fill mem f zero) t i d

namespace Links

variable (h : Links next roots n mem zero r t p i f d)
include h

/-- A path that does not go through the new entry leads to where it led. -/
theorem walk_other (hr' : r' ∈ roots) (hq : q.length ≤ n + 1)
    (hn : ¬Through next mem t p i r' q) :
    walk next (link mem zero t i f d) r' q = walk next mem r' q := by
  unfold link
  have hs := h.short
  have hw : ∀ q : List I, q.length ≤ n + 1 →
      walk next (fill mem f zero) r' q = walk next mem r' q :=
    fun q hq => h.unreached.walk_fill hr' hq
  rw [h.filled.walk_write h.root hs.le h.filled_table hr' hq, hw q hq]
  intro hc
  exact hn ⟨hc.1, hw p (by omega) ▸ hc.2⟩

theorem trail_other (hr' : r' ∈ roots) (hq : q.length ≤ n + 1)
    (hn : ¬Through next mem t p i r' q) :
    trail next (link mem zero t i f d) r' q = trail next mem r' q := by
  unfold link
  have hs := h.short
  rw [h.filled.trail_write h.root hs.le h.filled_table hr' hq, h.unreached.trail_fill hr' hq]
  intro hc
  have hw : walk next (fill mem f zero) r' p = walk next mem r' p :=
    h.unreached.walk_fill hr' (by omega)
  exact hn ⟨hc.1, hw ▸ hc.2⟩

/-- What leads to the table led to it before. -/
theorem walk_table (hr' : r' ∈ roots) (hw : walk next mem r' p = some t) :
    walk next (link mem zero t i f d) r' p = some t := by
  rw [h.walk_other hr' (by have := h.short; omega) not_through_self, hw]

theorem walk_new (hr' : r' ∈ roots) (hw : walk next mem r' p = some t) :
    walk next (link mem zero t i f d) r' (p ++ [i]) = some f := by
  rw [walk_concat, h.walk_table hr' hw]
  simp [link, h.points]

@[simp] theorem link_new : link mem zero t i f d f j = zero := by
  unfold link
  rw [write_of_ne fun hc => h.ne hc.1.symm, fill_self]

/-- The new table points nowhere. -/
theorem walk_below (hr' : r' ∈ roots) (hw : walk next mem r' p = some t) :
    walk next (link mem zero t i f d) r' (p ++ [i] ++ (j :: q)) = none := by
  rw [walk_append, h.walk_new hr' hw]
  simp [walk, h.link_new, h.empty]

theorem trail_after (hr' : r' ∈ roots) (hw : walk next mem r' p = some t) :
    trail next (link mem zero t i f d) r' (p ++ [i] ++ (j :: q)) =
      trail next mem r' p ++ [d, zero] := by
  rw [List.append_assoc, trail_append (h.walk_table hr' hw)]
  have hp : trail next (link mem zero t i f d) r' p = trail next mem r' p := by
    exact h.trail_other hr' (by have := h.short; omega) not_through_self
  have hd : link mem zero t i f d t i = d := by
    unfold link
    rw [write_self]
  rw [hp]
  simp [trail, hd, h.points, h.link_new, h.empty]

/-- After a link a table is at the end of its one path, or is the new one. -/
theorem walk_cases (hr' : r' ∈ roots) (hq : q.length ≤ n)
    (hw : walk next (link mem zero t i f d) r' q = some t') :
    walk next mem r' q = some t' ∨ (q = p ++ [i] ∧ t' = f ∧ walk next mem r' p = some t) := by
  by_cases hn : Through next mem t p i r' q
  · obtain ⟨⟨s, rfl⟩, hp⟩ := hn
    cases s with
    | nil =>
      rw [List.append_nil, h.walk_new hr' hp] at hw
      exact Or.inr ⟨List.append_nil _, (Option.some.inj hw).symm, hp⟩
    | cons j s =>
      rw [h.walk_below hr' hp] at hw
      exact absurd hw (by simp)
  · rw [h.walk_other hr' (by omega) hn] at hw
    exact Or.inl hw

/-- The entries after a link: those that were there, the new one, and those of the new table. -/
theorem entry_cases (hr' : r' ∈ roots) (hq : q.length ≤ n)
    (hw : walk next (link mem zero t i f d) r' q = some t') (j : I) :
    (walk next mem r' q = some t' ∧ link mem zero t i f d t' j = mem t' j) ∨
      (q = p ∧ link mem zero t i f d t' j = d) ∨ link mem zero t i f d t' j = zero := by
  apply (h.walk_cases hr' hq hw).elim
  · intro hw'
    by_cases hc : t' = t ∧ j = i
    · obtain ⟨rfl, rfl⟩ := hc
      have hqp := h.forest r' hr' r h.root q p t' hq h.short.le hw' h.table
      exact Or.inr (Or.inl ⟨hqp, write_self⟩)
    · have hf : t' ≠ f := fun hf => h.unreached r' hr' q hq (hf ▸ hw')
      exact Or.inl ⟨hw', (write_of_ne hc).trans (fill_of_ne hf)⟩
  · intro hc
    rw [hc.2.1]
    exact Or.inr (Or.inr h.link_new)

theorem forest_link : Forest next roots n (link mem zero t i f d) := by
  intro r₁ h₁ r₂ h₂ p₁ p₂ u hp₁ hp₂ hw₁ hw₂
  apply (h.walk_cases h₁ hp₁ hw₁).elim
  · intro hu₁
    apply (h.walk_cases h₂ hp₂ hw₂).elim
    · exact h.forest r₁ h₁ r₂ h₂ p₁ p₂ u hp₁ hp₂ hu₁
    · intro hu₂
      exact absurd (hu₂.2.1 ▸ hu₁) (h.unreached r₁ h₁ p₁ hp₁)
  · intro hu₁
    apply (h.walk_cases h₂ hp₂ hw₂).elim
    · intro hu₂
      exact absurd (hu₁.2.1 ▸ hu₂) (h.unreached r₂ h₂ p₂ hp₂)
    · intro hu₂
      rw [hu₁.1, hu₂.1]

/-- A table that is not in use and is not the new one stays out of use. -/
theorem unreached_link {g : F} (hg : Unreached next roots n mem g) (hne : g ≠ f) :
    Unreached next roots n (link mem zero t i f d) g := by
  intro r' hr' q hq hw
  apply (h.walk_cases hr' hq hw).elim
  · exact hg r' hr' q hq
  · intro hc
    exact hne hc.2.1

end Links

end Xeneva.Base.Radix

/-!
# The paths of a radix tree in the order of a teardown

`postorder` lists the paths that lead to a table, each after the longer ones that begin with it:
the order in which a recursive walk is done with the tables.
-/

namespace Xeneva.Base.Radix

variable {F I D : Type*} (next : D → Option F)

/-- The paths over the indices `idx` down to depth `n` that lead somewhere. -/
def postorder (idx : List I) (mem : F → I → D) : ℕ → F → List (List I)
  | 0, _ => [[]]
  | n + 1, t => idx.flatMap (fun i => match next (mem t i) with
      | some t' => (postorder idx mem n t').map (i :: ·)
      | none => []) ++ [[]]

variable {next} {idx : List I} {mem : F → I → D} {n : ℕ} {t f : F} {p : List I} {i : I}

theorem walk_cons : walk next mem t (i :: p) =
    (next (mem t i)).bind fun t' => walk next mem t' p := rfl

theorem cons_mem_postorder : i :: p ∈ postorder next idx mem (n + 1) t ↔
    i ∈ idx ∧ ∃ t', next (mem t i) = some t' ∧ p ∈ postorder next idx mem n t' := by
  simp only [postorder, List.mem_append, List.mem_flatMap, List.mem_singleton, reduceCtorEq,
    or_false]
  constructor
  · intro ⟨j, hj, hp⟩
    split at hp
    · next t' hn =>
      obtain ⟨q, hq, hc⟩ := List.mem_map.mp hp
      obtain ⟨rfl, rfl⟩ := List.cons.inj hc
      exact ⟨hj, t', hn, hq⟩
    · exact absurd hp List.not_mem_nil
  · intro ⟨hi, t', hn, hp⟩
    refine ⟨i, hi, ?_⟩
    rw [hn]
    exact List.mem_map.mpr ⟨p, hp, rfl⟩

theorem nil_mem_postorder : [] ∈ postorder next idx mem n t := by
  cases n with
  | zero => exact List.mem_singleton.mpr rfl
  | succ n => exact List.mem_append.mpr (Or.inr (List.mem_singleton.mpr rfl))

/-- All paths that lead somewhere are listed. -/
theorem mem_postorder (hidx : ∀ i, i ∈ idx) : p ∈ postorder next idx mem n t ↔
    p.length ≤ n ∧ ∃ f, walk next mem t p = some f := by
  induction p generalizing n t with
  | nil => simpa [walk] using nil_mem_postorder
  | cons i p ih =>
    cases n with
    | zero => simp [postorder]
    | succ n =>
      rw [cons_mem_postorder]
      simp only [hidx, true_and, ih, List.length_cons, Nat.add_le_add_iff_right, walk,
        Option.bind_eq_some_iff]
      constructor
      · intro ⟨t', hn, hl, f, hw⟩
        exact ⟨hl, f, t', hn, hw⟩
      · intro ⟨hl, f, t', hn, hw⟩
        exact ⟨t', hn, hl, f, hw⟩

theorem head_of_mem {o : Option F} {f : F → List (List I)}
    (h : p ∈ (match o with | some t' => (f t').map (i :: ·) | none => [])) : ∃ q, p = i :: q := by
  cases o with
  | none => exact absurd h List.not_mem_nil
  | some t' =>
    obtain ⟨q, -, hq⟩ := List.mem_map.mp h
    exact ⟨q, hq.symm⟩

theorem nodup_postorder (hidx : idx.Nodup) : (postorder next idx mem n t).Nodup := by
  induction n generalizing t with
  | zero => exact List.nodup_singleton []
  | succ n ih =>
    unfold postorder
    apply List.Nodup.append
    · apply List.nodup_flatMap.mpr
      constructor
      · intro i _
        split
        · exact ih.map (List.cons_injective)
        · exact List.nodup_nil
      · apply hidx.imp
        intro i j hij p hi hj
        obtain ⟨q, rfl⟩ := head_of_mem hi
        obtain ⟨q', hc⟩ := head_of_mem hj
        exact hij (List.cons.inj hc).1
    · exact List.nodup_singleton []
    · intro p hp hnil
      rw [List.mem_singleton.mp hnil] at hp
      obtain ⟨i, -, hi⟩ := List.mem_flatMap.mp hp
      obtain ⟨q, hc⟩ := head_of_mem hi
      exact absurd hc (List.cons_ne_nil i q).symm

end Xeneva.Base.Radix
