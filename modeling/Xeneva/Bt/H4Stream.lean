import Xeneva.Bt.H4

/-!
# The packets of a stream

The state of the deframer inside a packet is the state that the bytes so far say, and after a
packet it is the first one again. So a stream of packets that fit the buffer is reported packet by
packet, when each byte is looked at.
-/

namespace Xeneva.Bt
open Base.Feed

variable {cap : ℕ} {kind b : UInt8} {payload q r : List UInt8} {h : BtH4}

def headerLen (kind : UInt8) : ℕ :=
  if kind = H4_CMD ∨ kind = H4_SCO then 3 else if kind = H4_EVT then 2 else 4

theorem h4Known_iff :
    h4Known b ↔ b = H4_CMD ∨ b = H4_ACL ∨ b = H4_SCO ∨ b = H4_EVT ∨ b = H4_ISO := by
  unfold h4Known
  rw [decide_eq_true_iff]

theorem not_h4Known_zero : ¬h4Known 0 := by decide

theorem h4Known_ne_zero (hk : h4Known kind) : kind ≠ 0 := by
  intro h
  exact not_h4Known_zero (h ▸ hk)

theorem headerLen_pos (kind : UInt8) : 0 < headerLen kind := by
  unfold headerLen
  split_ifs <;> omega

/-- The length that a header says follows it. -/
def lengthField (kind : UInt8) (hdr : List UInt8) : ℕ :=
  if kind = H4_CMD ∨ kind = H4_SCO then (hdr.getD 2 0).toNat
  else if kind = H4_EVT then (hdr.getD 1 0).toNat
  else (hdr.getD 2 0).toNat + 256 * (hdr.getD 3 0).toNat

theorem payloadLen_eq (hk : h4Known kind) (q : List UInt8) : payloadLen kind q =
    if headerLen kind ≤ q.length then headerLen kind + lengthField kind q else 0 := by
  obtain rfl | rfl | rfl | rfl | rfl := h4Known_iff.mp hk <;>
    simp [payloadLen, headerLen, lengthField, H4_CMD, H4_ACL, H4_SCO, H4_EVT, H4_ISO]

/-- Only the header matters. -/
theorem lengthField_append (hq : headerLen kind ≤ q.length) (r : List UInt8) :
    lengthField kind (q ++ r) = lengthField kind q := by
  have hget : ∀ i, i < q.length → (q ++ r).getD i 0 = q.getD i 0 := by
    intro i hi
    rw [List.getD_eq_getElem?_getD, List.getElem?_append_left hi, List.getD_eq_getElem?_getD]
  unfold headerLen at hq
  unfold lengthField
  by_cases h3 : kind = H4_CMD ∨ kind = H4_SCO
  · rw [if_pos h3] at hq
    rw [if_pos h3, if_pos h3, hget 2 (by omega)]
  · rw [if_neg h3] at hq
    by_cases h2 : kind = H4_EVT
    · rw [if_pos h2] at hq
      rw [if_neg h3, if_neg h3, if_pos h2, if_pos h2, hget 1 (by omega)]
    · rw [if_neg h2] at hq
      rw [if_neg h3, if_neg h3, if_neg h2, if_neg h2, hget 2 (by omega), hget 3 (by omega)]

/-- A part of a packet says its length, or does not have the header. -/
theorem payloadLen_part (hk : h4Known kind) (hp : payloadLen kind (q ++ r) = (q ++ r).length) :
    (q.length < headerLen kind ∧ payloadLen kind q = 0) ∨
      (headerLen kind ≤ q.length ∧ payloadLen kind q = (q ++ r).length) := by
  rw [payloadLen_eq hk q]
  by_cases hq : headerLen kind ≤ q.length
  · have hqr : headerLen kind ≤ (q ++ r).length := by
      rw [List.length_append]
      omega
    rw [payloadLen_eq hk, if_pos hqr, lengthField_append hq] at hp
    rw [if_pos hq]
    exact Or.inr ⟨hq, hp⟩
  · rw [if_neg hq]
    exact Or.inl ⟨by omega, rfl⟩

/-! ## One packet -/

/-- The state after the first bytes of a packet. -/
def inside (kind : UInt8) (q : List UInt8) : BtH4 := { kind, need := payloadLen kind q, buf := q }

theorem inside_nil (hk : h4Known kind) : inside kind [] = { kind } := by
  unfold inside
  rw [payloadLen_eq hk, if_neg (by have := headerLen_pos kind; simp; omega)]

theorem h4Byte_first (hk : h4Known kind) : h4Byte cap {} kind = (inside kind [], none) := by
  unfold h4Byte
  rw [if_pos rfl, if_neg (not_not.mpr hk), inside_nil hk]

theorem h4Byte_unknown (hb : ¬h4Known b) : h4Byte cap {} b = ({}, none) := by
  unfold h4Byte
  rw [if_pos rfl, if_pos hb]

/-- A byte inside a packet that fits the buffer: the packet goes on, or it was the last byte. -/
theorem h4Byte_inside (hk : h4Known kind)
    (hp : payloadLen kind (q ++ b :: r) = (q ++ b :: r).length)
    (hfit : (q ++ b :: r).length ≤ H4_BUF) :
    h4Byte cap (inside kind q) b =
      if r = [] then ({}, (Item.packet kind (q ++ [b])).reported cap)
      else (inside kind (q ++ [b]), none) := by
  have hlen : (q ++ b :: r).length = q.length + 1 + r.length := by
    rw [List.length_append, List.length_cons]
    omega
  have hq1 : (q ++ [b]).length = q.length + 1 := by simp
  have hcons : q ++ b :: r = (q ++ [b]) ++ r := by simp
  have hbuf : (inside kind q).buf.length < H4_BUF := by
    change q.length < H4_BUF
    omega
  have hpart := payloadLen_part (q := q) (r := b :: r) hk hp
  rw [hcons] at hp
  have hpart' := payloadLen_part (q := q ++ [b]) (r := r) hk hp
  rw [← hcons] at hpart' hp
  have hk0 : (inside kind q).kind ≠ 0 := h4Known_ne_zero hk
  unfold h4Byte
  rw [if_neg hk0, if_pos hbuf]
  dsimp only [inside]
  apply hpart'.elim
  · intro ⟨hh, hpl⟩
    -- the header is not complete, so the packet goes on
    have hneed : payloadLen kind q = 0 := by
      apply hpart.elim And.right
      intro h
      omega
    have hr : r ≠ [] := by
      intro hr
      subst hr
      rw [hpl] at hp
      omega
    rw [if_pos ⟨hneed, hpl⟩, if_neg hr, hneed, hpl]
  · intro ⟨_, hpl⟩
    have hpos : payloadLen kind (q ++ [b]) ≠ 0 := by omega
    have hneed : (if payloadLen kind q = 0 then
        { kind, need := payloadLen kind (q ++ [b]), buf := q ++ [b] : BtH4 }
        else { kind, need := payloadLen kind q, buf := q ++ [b] }) = inside kind (q ++ [b]) := by
      split
      · rfl
      · next hq =>
        have hsame : payloadLen kind q = payloadLen kind (q ++ [b]) := by
          apply hpart.elim
          · intro h
            exact absurd h.2 hq
          · intro h
            rw [h.2, hpl]
        rw [hsame]
        rfl
    rw [if_neg fun h => hpos h.2, if_neg (by omega), hneed]
    by_cases hr : r = []
    · subst hr
      have hlast : (inside kind (q ++ [b])).buf.length ≥ (inside kind (q ++ [b])).need :=
        Nat.le_of_eq hpl
      rw [if_pos hlast, if_pos rfl]
      change (if payloadLen kind (q ++ [b]) ≤ cap then _ else _) =
        (_, if (q ++ [b]).length ≤ cap then _ else _)
      rw [hpl]
      split <;> rfl
    · have hmore : ¬(inside kind (q ++ [b])).buf.length ≥ (inside kind (q ++ [b])).need := by
        have hr1 := List.length_pos_iff.mpr hr
        change ¬(q ++ [b]).length ≥ payloadLen kind (q ++ [b])
        omega
      rw [if_neg hmore, if_neg hr]
      rfl

/-- Up to its last byte a packet is taken in without a report. -/
theorem feed_inside (hk : h4Known kind) (hp : payloadLen kind (q ++ r) = (q ++ r).length)
    (hfit : (q ++ r).length ≤ H4_BUF) (hr : r ≠ []) :
    feed (h4Byte cap) (inside kind q) r =
      ({}, ((Item.packet kind (q ++ r)).reported cap).toList) := by
  induction r generalizing q with
  | nil => exact absurd rfl hr
  | cons b r ih =>
    rw [feed, h4Byte_inside hk hp hfit]
    by_cases hr : r = []
    · rw [if_pos hr, hr]
      simp [feed]
    · have hcons : q ++ b :: r = (q ++ [b]) ++ r := by simp
      rw [hcons] at hp hfit ⊢
      rw [if_neg hr, ih hp hfit hr]
      rfl

/-- A part of a packet that does not reach its end is taken in without a report. -/
theorem feed_part (hk : h4Known kind) (hp : payloadLen kind (q ++ r) = (q ++ r).length)
    (hfit : (q ++ r).length ≤ H4_BUF) (hr : r ≠ []) :
    feed (h4Byte cap) (inside kind []) q = (inside kind q, []) := by
  have h : ∀ x y, x ++ y = q → feed (h4Byte cap) (inside kind x) y = (inside kind q, []) := by
    intro x y
    induction y generalizing x with
    | nil =>
      intro hxy
      rw [List.append_nil] at hxy
      rw [hxy, feed]
    | cons b y ih =>
      intro hxy
      have hyr : y ++ r ≠ [] := fun h => hr (List.append_eq_nil_iff.mp h).2
      have hq : x ++ b :: (y ++ r) = q ++ r := by
        rw [← hxy]
        simp
      rw [feed, h4Byte_inside hk (hq ▸ hp) (hq ▸ hfit), if_neg hyr]
      dsimp only
      rw [ih (x ++ [b]) (by rw [← hxy]; simp)]
      rfl
  exact h [] q rfl

/-! ## A stream -/

variable {i : Item} {items : List Item} {u : List UInt8}

theorem reports_cons : reports cap (i :: items) =
    (i.reported cap).toList ++ reports cap items := by
  unfold reports
  rw [List.filterMap_cons]
  cases i.reported cap <;> rfl

theorem stream_cons : stream (i :: items) = i.bytes ++ stream items := by
  simp [stream]

theorem feed_unknown {bytes : List UInt8} (h : ∀ b ∈ bytes, ¬h4Known b) :
    feed (h4Byte cap) {} bytes = ({}, []) := by
  induction bytes with
  | nil => rfl
  | cons b bytes ih =>
    rw [feed, h4Byte_unknown (h b List.mem_cons_self)]
    dsimp only
    rw [ih fun c hc => h c (List.mem_cons_of_mem b hc)]
    rfl

/-- All bytes of an item. -/
theorem feed_item (cap : ℕ) (hs : i.Sent) (hi : i.InSync) :
    feed (h4Byte cap) {} i.bytes = ({}, (i.reported cap).toList) := by
  cases i with
  | packet kind payload =>
    obtain ⟨hk, hne, hp⟩ := hs
    change feed (h4Byte cap) {} (kind :: payload) = _
    rw [feed, h4Byte_first hk]
    dsimp only
    rw [feed_inside (q := []) hk hp hi hne]
    rfl
  | unknown bytes => exact feed_unknown hi

/-- Some of its bytes, but not all. -/
theorem feed_item_part (hs : i.Sent) (hi : i.InSync) {x y : List UInt8} (hxy : i.bytes = x ++ y)
    (hy : y ≠ []) : (feed (h4Byte cap) {} x).2 = [] := by
  cases i with
  | packet kind payload =>
    obtain ⟨hk, hne, hp⟩ := hs
    cases x with
    | nil => rfl
    | cons b x =>
      obtain ⟨rfl, hpay⟩ := List.cons.inj hxy
      have hfit : payload.length ≤ H4_BUF := hi
      rw [hpay] at hp hfit
      rw [feed, h4Byte_first hk]
      dsimp only
      rw [feed_part hk hp hfit hy]
      rfl
  | unknown bytes =>
    have hb : ∀ b ∈ x, ¬h4Known b := by
      intro b hb
      have hxy : bytes = x ++ y := hxy
      exact hi b (hxy ▸ List.mem_append_left y hb)
    rw [feed_unknown hb]

/-- A stream in sync is reported item by item. -/
theorem feed_stream (cap : ℕ) (hs : ∀ i ∈ items, i.Sent) (hi : ∀ i ∈ items, i.InSync) :
    feed (h4Byte cap) {} (stream items) = ({}, reports cap items) := by
  induction items with
  | nil => rfl
  | cons i items ih =>
    have hmem : ∀ j ∈ items, j ∈ i :: items := fun j hj => List.mem_cons_of_mem i hj
    rw [stream_cons, feed_append,
      feed_item cap (hs i List.mem_cons_self) (hi i List.mem_cons_self)]
    dsimp only
    rw [ih (fun j hj => hs j (hmem j hj)) (fun j hj => hi j (hmem j hj)), reports_cons]

/-- The bytes so far are some items and a part of the next, and the items are reported. -/
theorem feed_prefix (cap : ℕ) (hs : ∀ i ∈ items, i.Sent) (hi : ∀ i ∈ items, i.InSync)
    (hu : u <+: stream items) : ∃ done rest, items = done ++ rest ∧
      (feed (h4Byte cap) {} u).2 = reports cap done ∧ (stream done).length ≤ u.length ∧
      ∀ i, rest.head? = some i → u.length < (stream (done ++ [i])).length := by
  induction items generalizing u with
  | nil =>
    have hnil : u = [] := List.prefix_nil.mp hu
    subst hnil
    exact ⟨[], [], rfl, rfl, Nat.le_refl 0, by simp⟩
  | cons i items ih =>
    have hsi := hs i List.mem_cons_self
    have hii := hi i List.mem_cons_self
    have hmem : ∀ j ∈ items, j ∈ i :: items := fun j hj => List.mem_cons_of_mem i hj
    rw [stream_cons] at hu
    obtain ⟨w, hw⟩ := hu
    by_cases hlt : u.length < i.bytes.length
    · -- the first item is not complete
      obtain ⟨y, hy⟩ := (List.prefix_of_prefix_length_le ⟨w, hw⟩ (List.prefix_append _ _)
        (Nat.le_of_lt hlt))
      have hy0 : y ≠ [] := by
        intro h
        rw [← hy, h, List.append_nil] at hlt
        exact Nat.lt_irrefl _ hlt
      refine ⟨[], i :: items, rfl, feed_item_part hsi hii hy.symm hy0, by simp [stream], ?_⟩
      intro j hj
      obtain rfl : i = j := Option.some.inj hj
      simpa [stream] using hlt
    · have hle : i.bytes <+: u :=
        List.prefix_of_prefix_length_le (List.prefix_append _ _) ⟨w, hw⟩ (by omega)
      obtain ⟨u', rfl⟩ := hle
      rw [List.append_assoc, List.append_cancel_left_eq] at hw
      obtain ⟨done, rest, hitems, hfeed, hlen, hnext⟩ :=
        ih (fun j hj => hs j (hmem j hj)) (fun j hj => hi j (hmem j hj)) ⟨w, hw⟩
      refine ⟨i :: done, rest, by rw [hitems, List.cons_append], ?_, ?_, ?_⟩
      · rw [feed_append, feed_item cap hsi hii]
        dsimp only
        rw [hfeed, reports_cons]
      · rw [stream_cons, List.length_append, List.length_append]
        omega
      · intro j hj
        have h := hnext j hj
        rw [List.cons_append, stream_cons, List.length_append, List.length_append]
        omega

/-! ## Chunks -/

variable {chunks : List (List UInt8)}

theorem stream_append (xs ys : List Item) : stream (xs ++ ys) = stream xs ++ stream ys := by
  simp [stream]

theorem reports_append (xs ys : List Item) :
    reports cap (xs ++ ys) = reports cap xs ++ reports cap ys := by
  simp [reports]

/-- What was read before a chunk, and a part of the chunk. -/
theorem read_start (hc : chunks.flatten = stream items) {pre post : List (List UInt8)}
    {c x y : List UInt8} (hch : chunks = pre ++ c :: post) (hxy : c = x ++ y) :
    pre.flatten ++ x <+: stream items := by
  refine ⟨y ++ post.flatten, ?_⟩
  rw [← hc, hch, hxy]
  simp

theorem stream_length_mono {xs ys : List Item} (h : xs <+: ys) :
    (stream xs).length ≤ (stream ys).length := by
  obtain ⟨zs, rfl⟩ := h
  rw [stream_append, List.length_append]
  omega

/-- An item that is not among the first ones ends after what was read. -/
theorem length_lt_of_next {done rest its more : List Item} {n : ℕ}
    (hnext : ∀ j, rest.head? = some j → n < (stream (done ++ [j])).length)
    (hrest : rest = its ++ i :: more) : n < (stream (done ++ its ++ [i])).length := by
  obtain ⟨j, tl, htl⟩ := List.exists_cons_of_ne_nil (show its ++ [i] ≠ [] by simp)
  have hj : rest.head? = some j := by
    have hl : rest = (its ++ [i]) ++ more := by rw [hrest]; simp
    rw [hl, htl]
    rfl
  have hp : done ++ [j] <+: done ++ its ++ [i] := by
    refine ⟨tl, ?_⟩
    rw [List.append_assoc done its, htl]
    simp
  exact Nat.lt_of_lt_of_le (hnext j hj) (stream_length_mono hp)

/-- When no reported packet ends inside a chunk, all bytes are looked at. -/
theorem quiet_of_endsChunks (hs : ∀ i ∈ items, i.Sent) (hi : ∀ i ∈ items, i.InSync)
    (hc : chunks.flatten = stream items) (he : EndsChunks cap items chunks) :
    ∀ pre c post, chunks = pre ++ c :: post →
      Quiet (h4Byte cap) (feed (h4Byte cap) {} pre.flatten).1 c := by
  intro pre c post hch x y hxy hy
  have hpre := read_start hc hch (List.nil_append c).symm
  rw [List.append_nil] at hpre
  obtain ⟨done₀, rest₀, hitems₀, hfeed₀, _, hnext₀⟩ := feed_prefix cap hs hi hpre
  obtain ⟨done, rest, hitems, hfeed, hlen, _⟩ := feed_prefix cap hs hi (read_start hc hch hxy)
  have hxlen : x.length < c.length := by
    have hy1 := List.length_pos_iff.mpr hy
    rw [hxy, List.length_append]
    omega
  rw [feed_append, hfeed₀] at hfeed
  dsimp only at hfeed
  rw [List.length_append] at hlen
  have h₀ : done₀ <+: items := ⟨rest₀, hitems₀.symm⟩
  have h₁ : done <+: items := ⟨rest, hitems.symm⟩
  apply (List.prefix_or_prefix_of_prefix h₀ h₁).elim
  · intro ⟨mid, hmid⟩
    -- no packet of the items that end in this part is reported
    have hnone : ∀ i ∈ mid, i.reported cap = none := by
      intro i him
      by_contra hrep
      obtain ⟨its, more, hm⟩ := List.append_of_mem him
      have hsplit : items = (done₀ ++ its) ++ i :: (more ++ rest) := by
        rw [hitems, ← hmid, hm]
        simp
      have hrest : rest₀ = its ++ i :: (more ++ rest) := by
        rw [hitems₀, List.append_assoc] at hsplit
        exact List.append_cancel_left hsplit
      have hend := he pre c post hch _ _ _ hsplit hrep (length_lt_of_next hnext₀ hrest)
      have hwhole : (stream (done₀ ++ its ++ [i])).length ≤ (stream done).length := by
        apply stream_length_mono
        refine ⟨more, ?_⟩
        rw [← hmid, hm]
        simp
      omega
    have hrep : reports cap mid = [] := List.filterMap_eq_nil_iff.mpr hnone
    rw [← hmid, reports_append, hrep] at hfeed
    exact List.append_cancel_left hfeed
  · intro ⟨mid, hmid⟩
    rw [← hmid, reports_append, List.append_assoc] at hfeed
    have hl := congrArg List.length hfeed
    simp only [List.length_append] at hl
    exact List.length_eq_zero_iff.mp (by omega)

/-- And the other way round. -/
theorem endsChunks_of_quiet (hs : ∀ i ∈ items, i.Sent) (hi : ∀ i ∈ items, i.InSync)
    (hc : chunks.flatten = stream items)
    (hq : ∀ pre c post, chunks = pre ++ c :: post →
      Quiet (h4Byte cap) (feed (h4Byte cap) {} pre.flatten).1 c) :
    EndsChunks cap items chunks := by
  intro pre c post hch its i rest hitems hrep hlt
  by_contra hgt
  -- the packet ends after the part `x` of the chunk
  have hn : (stream (its ++ [i])).length - pre.flatten.length < c.length := by omega
  obtain ⟨x, y, hxy, hx⟩ : ∃ x y, c = x ++ y ∧
      x.length = (stream (its ++ [i])).length - pre.flatten.length :=
    ⟨_, _, (List.take_append_drop _ c).symm, List.length_take_of_le (Nat.le_of_lt hn)⟩
  have hy : y ≠ [] := by
    intro hy
    rw [hxy, hy, List.append_nil] at hn
    omega
  have hsplit : items = (its ++ [i]) ++ rest := by
    rw [hitems]
    simp
  have hread : pre.flatten ++ x = stream (its ++ [i]) := by
    have hp : stream (its ++ [i]) <+: stream items :=
      ⟨stream rest, by rw [hsplit, stream_append (its ++ [i])]⟩
    have hlen : (pre.flatten ++ x).length = (stream (its ++ [i])).length := by
      rw [List.length_append]
      omega
    exact (List.prefix_of_prefix_length_le (read_start hc hch hxy) hp
      (Nat.le_of_eq hlen)).eq_of_length hlen
  have hmem : ∀ j ∈ its ++ [i], j ∈ items := by
    intro j hj
    rw [hsplit]
    exact List.mem_append_left rest hj
  have hpre := read_start hc hch (List.nil_append c).symm
  rw [List.append_nil] at hpre
  obtain ⟨done₀, rest₀, hitems₀, hfeed₀, hlen₀, _⟩ := feed_prefix cap hs hi hpre
  have hall := feed_stream cap (fun j hj => hs j (hmem j hj)) fun j hj => hi j (hmem j hj)
  rw [← hread, feed_append, hq pre c post hch x y hxy hy, hfeed₀, List.append_nil] at hall
  have hrs : reports cap done₀ = reports cap (its ++ [i]) := (Prod.ext_iff.mp hall).2
  have hshort : done₀ <+: its := by
    have h₀ : done₀ <+: items := ⟨rest₀, hitems₀.symm⟩
    have h₁ : its ++ [i] <+: items := ⟨rest, hsplit.symm⟩
    apply (List.prefix_or_prefix_of_prefix h₀ h₁).elim
    · intro h
      apply (List.prefix_concat_iff.mp h).elim
      · intro he
        rw [he] at hlen₀
        omega
      · exact id
    · intro h
      have := stream_length_mono h
      omega
  obtain ⟨mid, rfl⟩ := hshort
  obtain ⟨o, ho⟩ := Option.ne_none_iff_exists'.mp hrep
  have hl := congrArg List.length hrs
  have hone : reports cap [i] = [o] := by simp [reports, ho]
  rw [reports_append, reports_append, hone] at hl
  simp only [List.length_append, List.length_singleton] at hl
  omega

/-! ## What is received -/

/-- The buffer with the byte, where there is room for it. -/
def taken (h : BtH4) (b : UInt8) : List UInt8 :=
  if h.buf.length < H4_BUF then h.buf ++ [b] else h.buf

/-- The length of the packet under way, if the header with this byte says it. -/
def needed (h : BtH4) (b : UInt8) : ℕ :=
  if h.need = 0 then payloadLen h.kind (taken h b) else h.need

/-- What a byte inside a packet can do: the header is not complete, the packet is dropped, it
goes on, or it is reported. -/
theorem h4Byte_cases (hk : h.kind ≠ 0) (cap : ℕ) (b : UInt8) :
    (h4Byte cap h b = ({ h with buf := taken h b }, none) ∧ h.need = 0 ∧
        payloadLen h.kind (taken h b) = 0) ∨
      h4Byte cap h b = ({}, none) ∨
      (h4Byte cap h b = ({ h with need := needed h b, buf := taken h b }, none) ∧
        (taken h b).length < needed h b ∧ (h.need = 0 → needed h b ≤ H4_BUF)) ∨
      (h4Byte cap h b = ({}, some (h.kind, taken h b)) ∧ needed h b ≠ 0 ∧ needed h b ≤ cap) := by
  have ht : (if h.buf.length < H4_BUF then { h with buf := h.buf ++ [b] } else h) =
      { h with buf := taken h b } := by
    unfold taken
    split <;> rfl
  have hn : (if h.need = 0 then
      { h with need := payloadLen h.kind (taken h b), buf := taken h b : BtH4 }
      else { h with buf := taken h b }) = { h with need := needed h b, buf := taken h b } := by
    unfold needed
    split <;> rfl
  unfold h4Byte
  rw [if_neg hk, ht]
  dsimp only
  by_cases h0 : h.need = 0 ∧ payloadLen h.kind (taken h b) = 0
  · rw [if_pos h0]
    exact Or.inl ⟨rfl, h0⟩
  · rw [if_neg h0]
    by_cases hbig : h.need = 0 ∧ payloadLen h.kind (taken h b) > H4_BUF
    · rw [if_pos hbig]
      exact Or.inr (Or.inl rfl)
    · rw [if_neg hbig, hn]
      dsimp only
      by_cases hend : (taken h b).length ≥ needed h b
      · rw [if_pos hend]
        by_cases hcap : needed h b ≤ cap
        · rw [if_pos hcap]
          refine Or.inr (Or.inr (Or.inr ⟨rfl, ?_, hcap⟩))
          unfold needed
          split
          · next hz => exact fun hpl => h0 ⟨hz, hpl⟩
          · next hz => exact hz
        · rw [if_neg hcap]
          exact Or.inr (Or.inl rfl)
      · rw [if_neg hend]
        refine Or.inr (Or.inr (Or.inl ⟨rfl, Nat.lt_of_not_le hend, ?_⟩))
        intro hz
        have hb : ¬payloadLen h.kind (taken h b) > H4_BUF := fun hc => hbig ⟨hz, hc⟩
        unfold needed
        rw [if_pos hz]
        omega

theorem taken_length (h : BtH4) (b : UInt8) : (taken h b).length ≤ h.buf.length + 1 := by
  unfold taken
  split <;> simp

/-- The bytes of the packet under way. -/
def pending (h : BtH4) : ℕ := if h.kind = 0 then 0 else 1 + h.buf.length

theorem h4Byte_weight (h : BtH4) (b : UInt8) :
    pending (h4Byte cap h b).1 +
      ((h4Byte cap h b).2.toList.map fun o => 1 + o.2.length).sum ≤ pending h + 1 := by
  by_cases hk : h.kind = 0
  · unfold h4Byte
    rw [if_pos hk]
    split
    · simp
    · simp only [pending, Option.toList_none, List.map_nil, List.sum_nil]
      split <;> simp
  · have hp : pending h = 1 + h.buf.length := if_neg hk
    have ht := taken_length h b
    have hp' : ∀ n, pending { h with need := n, buf := taken h b } = 1 + (taken h b).length :=
      fun n => if_neg hk
    have h0 : pending {} = 0 := rfl
    obtain ⟨he, _⟩ | he | ⟨he, _⟩ | ⟨he, _⟩ := h4Byte_cases hk cap b
    · rw [he]
      simp only [hp', Option.toList_none, List.map_nil, List.sum_nil]
      omega
    · rw [he]
      simp only [h0, Option.toList_none, List.map_nil, List.sum_nil]
      omega
    · rw [he]
      simp only [hp', Option.toList_none, List.map_nil, List.sum_nil]
      omega
    · rw [he]
      simp only [h0, Option.toList_some, List.map_cons, List.map_nil, List.sum_cons, List.sum_nil]
      omega

/-- The state between two bytes, whatever they are: inside a packet the buffer holds less than
the packet needs, which fits the buffer. -/
def H4Inv (h : BtH4) : Prop :=
  h.kind = 0 ∧ h.buf = [] ∨
    h4Known h.kind ∧ h.need = payloadLen h.kind h.buf ∧ h.need ≤ H4_BUF ∧
      (h.need = 0 ∨ h.buf.length < h.need)

theorem H4Inv.buf_lt (hi : H4Inv h) : h.buf.length < H4_BUF := by
  obtain ⟨_, hb⟩ | ⟨hk, hn, hle, hlt⟩ := hi
  · rw [hb]
    decide
  · have hc := payloadLen_eq hk h.buf
    rw [← hn] at hc
    have h4 : headerLen h.kind ≤ 4 := by
      unfold headerLen
      split_ifs <;> omega
    have hpos := headerLen_pos h.kind
    have hbuf : H4_BUF = 1024 := rfl
    split at hc <;> omega

theorem needed_eq (hi : H4Inv h) (hk : h4Known h.kind) (b : UInt8) :
    needed h b = payloadLen h.kind (h.buf ++ [b]) := by
  have ht : taken h b = h.buf ++ [b] := if_pos hi.buf_lt
  unfold needed
  rw [ht]
  split
  · rfl
  · next hne =>
    obtain ⟨h0, _⟩ | ⟨_, hn, _⟩ := hi
    · exact absurd h0 (h4Known_ne_zero hk)
    · rw [hn] at hne ⊢
      rw [payloadLen_eq hk] at hne ⊢
      split at hne
      · next hq =>
        rw [payloadLen_eq hk, if_pos hq, if_pos (by simp; omega), lengthField_append hq]
      · exact absurd rfl hne

/-- No byte is written past the buffer, and no packet past the caller's. -/
theorem H4Inv.byte (hi : H4Inv h) (b : UInt8) : H4Inv (h4Byte cap h b).1 ∧
    ∀ o ∈ (h4Byte cap h b).2, o.2.length ≤ cap := by
  have hempty : H4Inv {} := Or.inl ⟨rfl, rfl⟩
  by_cases hk : h.kind = 0
  · unfold h4Byte
    rw [if_pos hk]
    by_cases hb : h4Known b
    · rw [if_neg (not_not.mpr hb)]
      refine ⟨Or.inr ⟨hb, ?_, Nat.zero_le _, Or.inl rfl⟩, by simp⟩
      rw [payloadLen_eq hb, if_neg (by have := headerLen_pos b; simp; omega)]
    · rw [if_pos hb]
      exact ⟨hi, by simp⟩
  · have hkn : h4Known h.kind := by
      obtain ⟨h0, _⟩ | ⟨hkn, _⟩ := hi
      · exact absurd h0 hk
      · exact hkn
    have ht : taken h b = h.buf ++ [b] := if_pos hi.buf_lt
    have hneed := needed_eq hi hkn b
    obtain ⟨he, h0, hpl⟩ | he | ⟨he, hlt, hfit⟩ | ⟨he, hne, hcap⟩ := h4Byte_cases hk cap b
    · rw [he]
      exact ⟨Or.inr ⟨hkn, h0.trans hpl.symm, by rw [h0]; exact Nat.zero_le _, Or.inl h0⟩, by simp⟩
    · rw [he]
      exact ⟨hempty, by simp⟩
    · rw [he]
      refine ⟨Or.inr ⟨hkn, ?_, ?_, Or.inr hlt⟩, by simp⟩
      · change needed h b = payloadLen h.kind (taken h b)
        rw [ht, hneed]
      · change needed h b ≤ H4_BUF
        by_cases h0 : h.need = 0
        · exact hfit h0
        · obtain ⟨h1, _⟩ | ⟨_, _, hle, _⟩ := hi
          · exact absurd h1 hk
          · unfold needed
            rw [if_neg h0]
            exact hle
    · rw [he]
      refine ⟨hempty, ?_⟩
      intro o ho
      obtain rfl : (h.kind, taken h b) = o := by simpa using ho
      have hlen : (taken h b).length = h.buf.length + 1 := by
        rw [ht]
        simp
      have hle : (taken h b).length ≤ needed h b := by
        obtain ⟨h1, _⟩ | ⟨_, hn, _, hlt⟩ := hi
        · exact absurd h1 hk
        · rw [hneed] at hne ⊢
          have hnow := payloadLen_eq hkn (h.buf ++ [b])
          have hbefore := payloadLen_eq hkn h.buf
          rw [← hn] at hbefore
          have hpos := headerLen_pos h.kind
          have h1 : (h.buf ++ [b]).length = h.buf.length + 1 := by simp
          apply hlt.elim
          · intro hz
            rw [hz] at hbefore
            split at hbefore
            · omega
            · split at hnow <;> omega
          · intro hlt
            have hh : headerLen h.kind ≤ h.buf.length := by
              by_contra hc
              rw [if_neg hc] at hbefore
              omega
            rw [if_pos hh] at hbefore
            rw [if_pos (by omega), lengthField_append hh] at hnow
            omega
      exact Nat.le_trans hle hcap

/-- What is received of any bytes, in any chunks, fits the caller's buffer. -/
theorem received_bounded (cap : ℕ) (chunks : List (List UInt8)) :
    (calls (h4Byte cap) {} chunks).1.buf.length ≤ H4_BUF ∧
      ∀ o ∈ received cap chunks, o.2.length ≤ cap := by
  have hinit : H4Inv {} := Or.inl ⟨rfl, rfl⟩
  have hstep : ∀ h b, H4Inv h → H4Inv (h4Byte cap h b).1 ∧ ∀ o ∈ (h4Byte cap h b).2,
      o.2.length ≤ cap := fun _ b hi => hi.byte b
  have h := calls_invariant hstep chunks hinit
  exact ⟨Nat.le_of_lt h.1.buf_lt, h.2⟩

/-- Reported packets account for the stream they are in. -/
theorem reports_weight (hr : ∀ i ∈ items, i.reported cap ≠ none) :
    ((reports cap items).map fun o => 1 + o.2.length).sum = (stream items).length := by
  induction items with
  | nil => rfl
  | cons i items ih =>
    have hi := hr i List.mem_cons_self
    rw [reports_cons, stream_cons, List.map_append, List.sum_append, List.length_append,
      ih fun j hj => hr j (List.mem_cons_of_mem i hj)]
    cases i with
    | packet kind payload =>
      have hle : payload.length ≤ cap := by
        by_contra hgt
        exact hi (if_neg hgt)
      have hrep : (Item.packet kind payload).reported cap = some (kind, payload) := if_pos hle
      rw [hrep]
      simp [Item.bytes]
      omega
    | unknown bytes => exact absurd rfl hi

theorem received_of_endsChunks (hs : ∀ i ∈ items, i.Sent) (hi : ∀ i ∈ items, i.InSync)
    (hc : chunks.flatten = stream items) (he : EndsChunks cap items chunks) :
    received cap chunks = reports cap items := by
  unfold received
  rw [calls_of_quiet (quiet_of_endsChunks hs hi hc he), hc, feed_stream cap hs hi]

/-- A wrapped packet is received as it was. -/
theorem btH4Feed_wrap (hp : ValidPacket kind payload) (hfit : payload.length ≤ H4_BUF)
    (hcap : payload.length ≤ cap) {room : ℕ} {frame : List UInt8}
    (hw : btH4Wrap kind payload room = some frame) :
    btH4Feed cap {} frame = ({}, some (kind, payload)) := by
  have hframe : frame = kind :: payload := by
    unfold btH4Wrap at hw
    split at hw
    · exact absurd hw (by simp)
    · exact (Option.some.inj hw).symm
  have hsent : (Item.packet kind payload).Sent := hp
  have hq : Quiet (h4Byte cap) {} frame := by
    intro x y hxy hy
    exact feed_item_part hsent hfit (hframe.symm.trans hxy) hy
  have hfeed : feed (h4Byte cap) {} frame = ({}, [(kind, payload)]) := by
    have h := feed_item cap hsent hfit
    have hrep : (Item.packet kind payload).reported cap = some (kind, payload) := if_pos hcap
    rw [hrep] at h
    exact hframe ▸ h
  obtain ⟨h1, h2⟩ := call_of_quiet hq
  rw [hfeed] at h1 h2
  unfold btH4Feed
  apply Prod.ext h1
  cases ho : (call (h4Byte cap) {} frame).2 with
  | none => rw [ho] at h2; exact absurd h2 (by simp)
  | some o =>
    rw [ho] at h2
    simpa using h2

/-- A stream in sync is received item by item when no packet to be reported ends inside a chunk;
where every item is such a packet, only then. What is received of any bytes in any chunks fits
the buffers, and a wrapped packet is received as it was. -/
theorem received_eq (cap : ℕ) (items : List Item) (hs : ∀ i ∈ items, i.Sent)
    (chunks : List (List UInt8)) (hc : chunks.flatten = stream items) :
    ((∀ i ∈ items, i.InSync) → EndsChunks cap items chunks →
        received cap chunks = reports cap items) ∧
      ((∀ i ∈ items, i.InSync ∧ i.reported cap ≠ none) →
        (received cap chunks = reports cap items ↔ EndsChunks cap items chunks)) ∧
      (∀ any : List (List UInt8), (calls (h4Byte cap) {} any).1.buf.length ≤ H4_BUF ∧
        ∀ o ∈ received cap any, o.2.length ≤ cap) ∧
      ∀ kind payload room frame, ValidPacket kind payload → payload.length ≤ H4_BUF →
        payload.length ≤ cap → btH4Wrap kind payload room = some frame →
        btH4Feed cap {} frame = ({}, some (kind, payload)) := by
  refine ⟨fun hi he => received_of_endsChunks hs hi hc he, ?_, received_bounded cap,
    fun _ _ _ _ hp hfit hcap hw => btH4Feed_wrap hp hfit hcap hw⟩
  intro h
  have hi : ∀ i ∈ items, i.InSync := fun i him => (h i him).1
  constructor
  · intro hrec
    apply endsChunks_of_quiet hs hi hc
    apply quiet_of_weight pending (fun o => 1 + o.2.length) h4Byte_weight
    have hw := reports_weight fun i him => (h i him).2
    rw [← hrec, ← hc] at hw
    have h0 : pending {} = 0 := rfl
    unfold received at hw
    omega
  · exact received_of_endsChunks hs hi hc

/-- Two packets, the first cut in two. -/
theorem received_eq_two : received 1024 [[1, 3, 12], [0], [4, 14, 1, 7]] =
      reports 1024 [.packet 1 [3, 12, 0], .packet 4 [14, 1, 7]] ↔
    EndsChunks 1024 [.packet 1 [3, 12, 0], .packet 4 [14, 1, 7]]
      [[1, 3, 12], [0], [4, 14, 1, 7]] := by
  have h1 : ValidPacket 1 [3, 12, 0] := by decide
  have h2 : ValidPacket 4 [14, 1, 7] := by decide
  have hs : ∀ i ∈ [Item.packet 1 [3, 12, 0], .packet 4 [14, 1, 7]], i.Sent := by
    simp [Item.Sent, h1, h2]
  have hi : ∀ i ∈ [Item.packet 1 [3, 12, 0], .packet 4 [14, 1, 7]],
      i.InSync ∧ i.reported 1024 ≠ none := by
    simp [Item.InSync, Item.reported, H4_BUF]
  exact (received_eq 1024 _ hs [[1, 3, 12], [0], [4, 14, 1, 7]] (by decide)).2.1 hi

/-- The second packet of a chunk is lost. And a packet too long for the buffer is taken for the
packets that its payload could be: here the bytes of an event. -/
theorem not_received_eq :
    received 1024 [[1, 3, 12, 0, 4, 14, 1, 7]] ≠
        reports 1024 [.packet 1 [3, 12, 0], .packet 4 [14, 1, 7]] ∧
      (ValidPacket 2 ([0, 0, 0, 4, 4, 14, 1, 7] ++ List.replicate 1020 0) ∧
        received 1024 [[2, 0, 0, 0, 4], [4, 14, 1, 7], List.replicate 1020 0] ≠
          reports 1024 [.packet 2 ([0, 0, 0, 4, 4, 14, 1, 7] ++ List.replicate 1020 0)]) := by
  decide +kernel

end Xeneva.Bt
