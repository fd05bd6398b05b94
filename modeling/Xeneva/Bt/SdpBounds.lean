import Xeneva.Bt.Sdp

/-!
# What the parsers read

Every parser but one ends within its packet for any bytes. The walk over the attributes scans the
protocol lists at the length that their headers say, so it ends within the packet exactly when
these scans do.
-/

namespace Xeneva.Bt.Sdp
open Base.Checked

variable {p out : List UInt8} {off len i : ℕ} {s : Proto}

theorem rd_getD (h : i < p.length) : rd p i = .ok (p.getD i 0) := by
  rw [rd_of_lt h, List.getD_eq_getElem p 0 h]

/-! ## Lengths and counts -/

/-- The header of an element lies in the bytes looked at. -/
theorem sdpDeLen_ends (h : off + len ≤ p.length) :
    Ends (sdpDeLen p off len) fun r => ∀ l, r = some l → 1 ≤ l.2 ∧ l.2 ≤ len := by
  unfold sdpDeLen
  split
  · apply ends_pure
    intro l hl
    exact nomatch hl
  next hlen =>
  apply (ends_rd (show off < p.length by omega)).bind
  intro b _
  split
  case h_6 =>
    split
    · exact ends_pure fun l hl => nomatch hl
    next h2 =>
    apply (ends_rd (show off + 1 < p.length by omega)).bind
    intro n _
    apply ends_pure
    intro l hl
    rw [← Option.some.inj hl]
    exact ⟨show 1 ≤ 2 by decide, Nat.le_of_not_lt h2⟩
  case h_7 =>
    split
    · exact ends_pure fun l hl => nomatch hl
    next h3 =>
    apply (ends_rd (show off + 1 < p.length by omega)).bind
    intro hi _
    apply (ends_rd (show off + 2 < p.length by omega)).bind
    intro lo _
    apply ends_pure
    intro l hl
    split at hl
    · exact nomatch hl
    · rw [← Option.some.inj hl]
      exact ⟨show 1 ≤ 3 by decide, Nat.le_of_not_lt h3⟩
  case h_8 => exact ends_pure fun l hl => nomatch hl
  all_goals
    apply ends_pure
    intro l hl
    rw [← Option.some.inj hl]
    exact ⟨by decide, Nat.le_of_not_lt hlen⟩

/-- The length of the element at `off`, if the bytes left have its header. -/
def deLen (p : List UInt8) (off : ℕ) : Option (ℕ × ℕ) :=
  match sdpDeLen p off (p.length - off) with
  | .ok l => l
  | .error _ => none

theorem sdpDeLen_eq (h : off ≤ p.length) :
    sdpDeLen p off (p.length - off) = .ok (deLen p off) := by
  obtain ⟨l, hl, _⟩ := sdpDeLen_ends (show off + (p.length - off) ≤ p.length by omega)
  unfold deLen
  rw [hl]

theorem deLen_header (h : off ≤ p.length) {l : ℕ × ℕ} (hl : deLen p off = some l) : 1 ≤ l.2 := by
  obtain ⟨r, hr, hpos⟩ := sdpDeLen_ends (show off + (p.length - off) ≤ p.length by omega)
  unfold deLen at hl
  rw [hr] at hl
  exact (hpos l hl).1

/-- The count of a response. -/
def count (p : List UInt8) : ℕ := word (p.getD 7 0) (p.getD 8 0)

/-- The bytes of a response that its count stands for. -/
def payLen (p : List UInt8) : ℕ := payBytes (p.getD 0 0) (count p)

/-- The length of the continuation state, if the response is as long as it says. -/
def contLen (p : List UInt8) : Option ℕ :=
  if p.length < 9 + 1 ∨ p.length < 9 + payLen p + 1 ∨
    p.length < 9 + payLen p + 1 + (p.getD (9 + payLen p) 0).toNat then none
  else some (p.getD (9 + payLen p) 0).toNat

theorem sdpContGet_eq (p : List UInt8) :
    sdpContGet p = .ok ((contLen p).map fun cl => (cl, 9 + payLen p + 1)) := by
  unfold sdpContGet contLen
  by_cases h10 : p.length < 9 + 1
  · rw [if_pos h10, if_pos (Or.inl h10)]
    rfl
  rw [if_neg h10, rd_getD (show 5 < p.length by omega), ok_bind,
    rd_getD (show 6 < p.length by omega), ok_bind, rd_getD (show 7 < p.length by omega), ok_bind,
    rd_getD (show 8 < p.length by omega), ok_bind, rd_getD (show 0 < p.length by omega), ok_bind]
  change (if p.length < 9 + payLen p + 1 then pure none else _) = _
  by_cases hpay : p.length < 9 + payLen p + 1
  · rw [if_pos hpay, if_pos (Or.inr (Or.inl hpay))]
    rfl
  rw [if_neg hpay]
  change (rd p (9 + payLen p) >>= _) = _
  rw [rd_getD (show 9 + payLen p < p.length by omega), ok_bind]
  change (if p.length < 9 + payLen p + 1 + (p.getD (9 + payLen p) 0).toNat then pure none
    else pure (some ((p.getD (9 + payLen p) 0).toNat, 9 + payLen p + 1))) = _
  by_cases hcl : p.length < 9 + payLen p + 1 + (p.getD (9 + payLen p) 0).toNat
  · rw [if_pos hcl, if_pos (Or.inr (Or.inr hcl))]
    rfl
  · rw [if_neg hcl, if_neg (by omega)]
    rfl

theorem contLen_fits {cl : ℕ} (h : contLen p = some cl) : 9 + payLen p + 1 + cl ≤ p.length := by
  unfold contLen at h
  split at h
  · exact nomatch h
  next hin =>
    rw [← Option.some.inj h]
    omega

theorem sdpContGet_safe (p : List UInt8) : Safe (sdpContGet p) := by
  rw [sdpContGet_eq]
  exact safe_ok _

theorem copy_ends {src o : List UInt8} {n i j : ℕ} (hi : i + n ≤ src.length)
    (hj : j + n ≤ o.length) : Ends (copy src n i j o) fun q => q.length = o.length := by
  induction n generalizing i j o with
  | zero => exact ends_pure rfl
  | succ n ih =>
    apply (ends_rd (show i < src.length by omega)).bind
    intro b _
    apply (ends_wr (show j < o.length by omega)).bind
    intro q hq
    have hlen : q.length = o.length := by rw [hq, List.length_set]
    apply (ih (by omega) (by omega)).mono
    intro r hr
    rw [hr, hlen]

/-- The caller leaves room for the longest state behind the request; a longer one is refused. -/
theorem sdpContAppend_ends {o src : List UInt8} {clen state slen : ℕ} (hc : 1 ≤ clen)
    (ho : clen + 16 ≤ o.length) (hs : state + slen ≤ src.length) :
    Ends (sdpContAppend o clen src state slen) fun r =>
      if 16 < slen then r = none else ∃ q, r = some (q, clen + slen) ∧ q.length = o.length := by
  unfold sdpContAppend
  by_cases h16 : 16 < slen
  · rw [if_pos (Or.inr h16)]
    apply ends_pure
    rw [if_pos h16]
  rw [if_neg (by omega)]
  apply (ends_wr (show clen - 1 < o.length by omega)).bind
  intro o₁ h₁
  have hl₁ : o₁.length = o.length := by rw [h₁, List.length_set]
  apply (copy_ends hs (show clen + slen ≤ o₁.length by omega)).bind
  intro o₂ hl₂
  apply (ends_rd (show 3 < o₂.length by omega)).bind
  intro hi _
  apply (ends_rd (show 4 < o₂.length by omega)).bind
  intro lo _
  apply (ends_wr (show 3 < o₂.length by omega)).bind
  intro o₃ h₃
  have hl₃ : o₃.length = o₂.length := by rw [h₃, List.length_set]
  apply (ends_wr (show 4 < o₃.length by omega)).bind
  intro o₄ h₄
  have hl₄ : o₄.length = o₃.length := by rw [h₄, List.length_set]
  apply ends_pure
  rw [if_neg h16]
  exact ⟨o₄, rfl, by omega⟩

theorem header_safe (h : 3 ≤ p.length) (type : UInt8) (tid : ℕ) : Safe (header p type tid) := by
  unfold header
  apply (ends_rd (show 0 < p.length by omega)).bind
  intro b _
  split
  · exact safe_pure _
  apply (ends_rd (show 1 < p.length by omega)).bind
  intro hi _
  split
  · exact safe_pure _
  apply (ends_rd (show 2 < p.length by omega)).bind
  intro lo _
  exact safe_pure _

theorem sdpParseSearchRsp_safe (p : List UInt8) (tid : ℕ) : Safe (sdpParseSearchRsp p tid) := by
  unfold sdpParseSearchRsp
  split
  · exact safe_pure _
  next hlen =>
  apply (header_safe (by omega) _ tid).bind
  intro ok _
  split
  · exact safe_pure _
  apply (ends_rd (show 5 < p.length by omega)).bind
  intro _ _
  apply (ends_rd (show 6 < p.length by omega)).bind
  intro _ _
  apply (ends_rd (show 7 < p.length by omega)).bind
  intro c₁ _
  apply (ends_rd (show 8 < p.length by omega)).bind
  intro c₀ _
  split
  · exact safe_pure _
  next hc =>
  -- one handle at least is there
  have h13 : 14 ≤ p.length := by omega
  apply (ends_rd (show 9 < p.length by omega)).bind
  intro _ _
  apply (ends_rd (show 10 < p.length by omega)).bind
  intro _ _
  apply (ends_rd (show 11 < p.length by omega)).bind
  intro _ _
  apply (ends_rd (show 12 < p.length by omega)).bind
  intro _ _
  exact safe_pure _

/-! ## Scans -/

/-- What the scan reads at `i` lies in the packet. -/
def WindowInside (p : List UInt8) (i : ℕ) : Prop :=
  i < p.length ∧
    (p.getD i 0 = 0x19 → i + 3 < p.length ∧ (p.getD (i + 3) 0 = 0x09 → i + 5 < p.length))

/-- The identifier and the value at `i`. -/
def pair (p : List UInt8) (i : ℕ) : Option (ℕ × ℕ) :=
  if p.getD i 0 = 0x19 ∧ p.getD (i + 3) 0 = 0x09 then
    some (word (p.getD (i + 1) 0) (p.getD (i + 2) 0), word (p.getD (i + 4) 0) (p.getD (i + 5) 0))
  else none

def Proto.add (s : Proto) : Option (ℕ × ℕ) → Proto
  | some (uuid, val) => s.assign uuid val
  | none => s

theorem protoWindow_eq (h : WindowInside p i) (s : Proto) :
    protoWindow p i s = .ok (s.add (pair p i)) := by
  obtain ⟨h0, h3⟩ := h
  unfold protoWindow pair
  rw [rd_getD h0, ok_bind]
  by_cases hb : p.getD i 0 = 0x19
  · obtain ⟨h3, h5⟩ := h3 hb
    rw [if_neg (not_not.mpr hb), rd_getD h3, ok_bind]
    by_cases hb3 : p.getD (i + 3) 0 = 0x09
    · have h5 := h5 hb3
      rw [if_neg (not_not.mpr hb3), if_pos ⟨hb, hb3⟩, rd_getD (show i + 1 < p.length by omega),
        ok_bind, rd_getD (show i + 2 < p.length by omega), ok_bind,
        rd_getD (show i + 4 < p.length by omega), ok_bind, rd_getD h5, ok_bind]
      rfl
    · rw [if_pos hb3, if_neg fun h => hb3 h.2]
      rfl
  · rw [if_pos hb, if_neg fun h => hb h.1]
    rfl

theorem windowInside_of_safe (h : Safe (protoWindow p i s)) : WindowInside p i := by
  unfold protoWindow at h
  obtain ⟨b, hb, h⟩ := safe_bind_iff.mp h
  have hi : i < p.length := safe_rd_iff.mp ⟨b, hb, trivial⟩
  refine ⟨hi, ?_⟩
  intro h19
  rw [rd_getD hi] at hb
  rw [← Except.ok.inj hb, if_neg (not_not.mpr h19)] at h
  obtain ⟨b₃, hb₃, h⟩ := safe_bind_iff.mp h
  have hi₃ : i + 3 < p.length := safe_rd_iff.mp ⟨b₃, hb₃, trivial⟩
  refine ⟨hi₃, ?_⟩
  intro h09
  rw [rd_getD hi₃] at hb₃
  rw [← Except.ok.inj hb₃, if_neg (not_not.mpr h09)] at h
  obtain ⟨_, _, h⟩ := safe_bind_iff.mp h
  obtain ⟨_, _, h⟩ := safe_bind_iff.mp h
  obtain ⟨_, _, h⟩ := safe_bind_iff.mp h
  obtain ⟨v, hv, _⟩ := safe_bind_iff.mp h
  exact safe_rd_iff.mp ⟨v, hv, trivial⟩

/-- What the scan of the `len` bytes at `off` reads lies in the packet. -/
def ScanInside (p : List UInt8) (off len : ℕ) : Prop :=
  ∀ i, i + 6 ≤ len → WindowInside p (off + i)

theorem scanInside_of_le (h : off + len ≤ p.length) : ScanInside p off len := by
  intro i hi
  refine ⟨by omega, fun _ => ⟨by omega, fun _ => by omega⟩⟩

/-- The pairs of the scan, from `i` on. -/
def scanned (p : List UInt8) (off len i : ℕ) (s : Proto) : Proto :=
  (List.range' i (len - 5 - i)).foldl (fun s i => s.add (pair p (off + i))) s

theorem scanned_step (h : i + 6 ≤ len) :
    scanned p off len i s = scanned p off len (i + 1) (s.add (pair p (off + i))) := by
  unfold scanned
  rw [show len - 5 - i = len - 5 - (i + 1) + 1 by omega, List.range'_succ, List.foldl_cons]

theorem scanned_done (h : ¬i + 6 ≤ len) : scanned p off len i s = s := by
  unfold scanned
  rw [show len - 5 - i = 0 by omega]
  rfl

theorem protoScan_eq {fuel : ℕ} (hi : i ≤ len) (hf : len < i + fuel) (h : ∀ j, i ≤ j → j + 6 ≤ len →
    WindowInside p (off + j)) : protoScan p off len fuel i s = .ok (scanned p off len i s) := by
  induction fuel generalizing i s with
  | zero => omega
  | succ fuel ih =>
    unfold protoScan
    split
    next hi =>
      rw [protoWindow_eq (h i (Nat.le_refl i) hi), ok_bind, scanned_step hi]
      apply ih (by omega) (by omega)
      intro j hj
      exact h j (by omega)
    next hi =>
      rw [scanned_done hi]
      rfl

theorem scanInside_of_safe {fuel : ℕ} (h : Safe (protoScan p off len fuel i s)) :
    ∀ j, i ≤ j → j + 6 ≤ len → WindowInside p (off + j) := by
  induction fuel generalizing i s with
  | zero => exact absurd h (not_safe_error _)
  | succ fuel ih =>
    intro j hj hlen
    unfold protoScan at h
    rw [if_pos (show i + 6 ≤ len by omega)] at h
    obtain ⟨s', hs', h⟩ := safe_bind_iff.mp h
    by_cases hij : i = j
    · rw [← hij]
      exact windowInside_of_safe ⟨s', hs', trivial⟩
    · exact ih h j (by omega) hlen

theorem sdpProtoElem_eq (h : ScanInside p off len) (s : Proto) : sdpProtoElem p off len s =
    .ok (decide ((scanned p off len 0 s).psm ≠ 0), scanned p off len 0 s) := by
  unfold sdpProtoElem
  rw [protoScan_eq (Nat.zero_le len) (by omega) fun j _ hj => h j hj]
  rfl

theorem sdpProtoElem_safe_iff : Safe (sdpProtoElem p off len s) ↔ ScanInside p off len := by
  constructor
  · intro h i hi
    obtain ⟨s', hs', _⟩ := safe_bind_iff.mp h
    exact scanInside_of_safe ⟨s', hs', trivial⟩ i (Nat.zero_le i) hi
  · intro h
    rw [sdpProtoElem_eq h]
    exact safe_ok _

theorem sdpParseSsaPsm_safe (p : List UInt8) (tid : ℕ) : Safe (sdpParseSsaPsm p tid) := by
  unfold sdpParseSsaPsm
  split
  · exact safe_pure _
  next hlen =>
  apply (header_safe (by omega) _ tid).bind
  intro ok _
  split
  · exact safe_pure _
  apply (ends_rd (show 7 < p.length by omega)).bind
  intro c₁ _
  apply (ends_rd (show 8 < p.length by omega)).bind
  intro c₀ _
  dsimp only
  split
  · exact safe_pure _
  · apply sdpProtoElem_safe_iff.mpr
    apply scanInside_of_le
    omega

/-! ## The attribute list -/

/-- The value of an attribute. -/
structure Attr where
  id : ℕ
  isSeq : Bool
  off : ℕ
  len : ℕ

/-- The attributes from `off` on, as their own headers say. -/
def attributes (p : List UInt8) (lim : ℕ) : ℕ → ℕ → List Attr
  | 0, _ => []
  | fuel + 1, off =>
    if off + 5 ≤ lim ∧ off + 5 ≤ p.length ∧ p.getD off 0 = 0x09 then
      match deLen p (off + 3) with
      | none => []
      | some (vl, vh) =>
        { id := word (p.getD (off + 1) 0) (p.getD (off + 2) 0)
          isSeq := (p.getD (off + 3) 0).toNat / 8 = 6
          off := off + 3 + vh
          len := vl } :: attributes p lim fuel (off + 3 + vh + vl)
    else []

def Attr.IsProtoList (a : Attr) : Bool := a.isSeq ∧ a.id = SDP_ATTR_PROTO_LIST

/-- The scans of the protocol lists: the first that finds a port ends the walk. -/
def scanLists (p : List UInt8) : List Attr → Proto → Except Fault (Bool × Proto)
  | [], s => pure (decide (s.psm ≠ 0), s)
  | a :: rest, s => do
    let r ← sdpProtoElem p a.off a.len s
    if r.1 then pure r else scanLists p rest r.2

theorem attrWalk_eq {lim fuel : ℕ} (hpos : 0 < fuel) (hf : p.length < off + fuel) :
    attrWalk p lim fuel off s =
      scanLists p ((attributes p lim fuel off).filter Attr.IsProtoList) s := by
  induction fuel generalizing off s with
  | zero => omega
  | succ fuel ih =>
    unfold attrWalk attributes
    by_cases hin : off + 5 ≤ lim ∧ off + 5 ≤ p.length
    swap
    · rw [if_neg hin, if_neg fun h => hin ⟨h.1, h.2.1⟩]
      rfl
    have h5 := hin.2
    rw [if_pos hin, rd_getD (show off < p.length by omega), ok_bind]
    by_cases h9 : p.getD off 0 = 0x09
    swap
    · rw [if_pos h9, if_neg fun h => h9 h.2.2]
      rfl
    rw [if_neg (not_not.mpr h9), if_pos ⟨hin.1, h5, h9⟩,
      rd_getD (show off + 1 < p.length by omega), ok_bind,
      rd_getD (show off + 2 < p.length by omega), ok_bind]
    dsimp only
    rw [if_neg (show ¬p.length ≤ off + 3 by omega), rd_getD (show off + 3 < p.length by omega),
      ok_bind, sdpDeLen_eq (show off + 3 ≤ p.length by omega), ok_bind]
    cases hl : deLen p (off + 3) with
    | none => rfl
    | some l =>
      obtain ⟨vl, vh⟩ := l
      have hvh : 1 ≤ vh := deLen_header (by omega) hl
      have hrest : ∀ s, attrWalk p lim fuel (off + 3 + vh + vl) s = scanLists p
          ((attributes p lim fuel (off + 3 + vh + vl)).filter Attr.IsProtoList) s := by
        intro s
        exact ih (by omega) (by omega)
      dsimp only
      rw [List.filter_cons]
      by_cases hp : (p.getD (off + 3) 0).toNat / 8 = 6 ∧
          word (p.getD (off + 1) 0) (p.getD (off + 2) 0) = SDP_ATTR_PROTO_LIST
      · rw [if_pos hp, if_pos (by simpa [Attr.IsProtoList] using hp)]
        simp only [scanLists, hrest]
      · rw [if_neg hp, if_neg (by simpa [Attr.IsProtoList] using hp), hrest]

/-- The port that a protocol list names, and zero if it names none. -/
def port (p : List UInt8) (a : Attr) : ℕ := (scanned p a.off a.len 0 {}).psm

/-- The scans up to the first list that names a port lie in the packet. -/
def ListsInside (p : List UInt8) : List Attr → Prop
  | [] => True
  | a :: rest => ScanInside p a.off a.len ∧ (port p a = 0 → ListsInside p rest)

theorem add_psm {s s' : Proto} (h : s.psm = s'.psm) (w : Option (ℕ × ℕ)) :
    (s.add w).psm = (s'.add w).psm := by
  cases w with
  | none => exact h
  | some w =>
    unfold Proto.add Proto.assign
    dsimp only
    split_ifs
    · rfl
    · exact h
    · exact h

theorem foldl_add_psm {l : List ℕ} {s s' : Proto} (h : s.psm = s'.psm) :
    (l.foldl (fun s i => s.add (pair p (off + i))) s).psm =
      (l.foldl (fun s i => s.add (pair p (off + i))) s').psm := by
  induction l generalizing s s' with
  | nil => exact h
  | cons i l ih => exact ih (add_psm h _)

theorem scanLists_safe_iff {ls : List Attr} (hs : s.psm = 0) :
    Safe (scanLists p ls s) ↔ ListsInside p ls := by
  induction ls generalizing s with
  | nil => exact ⟨fun _ => trivial, fun _ => safe_pure _⟩
  | cons a rest ih =>
    unfold scanLists ListsInside
    have hport : (scanned p a.off a.len 0 s).psm = port p a := foldl_add_psm hs
    constructor
    · intro h
      obtain ⟨r, hr, h⟩ := safe_bind_iff.mp h
      have hin : ScanInside p a.off a.len := sdpProtoElem_safe_iff.mp ⟨r, hr, trivial⟩
      rw [sdpProtoElem_eq hin] at hr
      rw [← Except.ok.inj hr] at h
      refine ⟨hin, ?_⟩
      intro h0
      rw [if_neg (by simp [hport, h0])] at h
      exact (ih (hport.trans h0)).mp h
    · intro ⟨hin, hrest⟩
      rw [sdpProtoElem_eq hin, ok_bind]
      by_cases h0 : port p a = 0
      · rw [if_neg (by simp [hport, h0])]
        exact (ih (hport.trans h0)).mpr (hrest h0)
      · rw [if_pos (by simp [hport, h0])]
        exact safe_pure _

/-- A response with an attribute list, to the request `tid`. -/
def IsAttrRsp (p : List UInt8) (tid : ℕ) : Prop :=
  7 ≤ p.length ∧ header p SDP_SA_RSP tid = .ok true ∧ word (p.getD 5 0) (p.getD 6 0) ≠ 0 ∧
    7 + word (p.getD 5 0) (p.getD 6 0) ≤ p.length ∧ (p.getD 7 0).toNat / 8 = 6

/-- The protocol lists of a response. -/
def protoLists (p : List UInt8) : List Attr :=
  match deLen p 7 with
  | none => []
  | some (_, h) => (attributes p (7 + word (p.getD 5 0) (p.getD 6 0)) (p.length + 1) (7 + h)).filter
      Attr.IsProtoList

theorem sdpParseAttrPsm_safe_iff (p : List UInt8) (tid : ℕ) :
    Safe (sdpParseAttrPsm p tid) ↔ (IsAttrRsp p tid → ListsInside p (protoLists p)) := by
  unfold sdpParseAttrPsm IsAttrRsp
  by_cases h7 : p.length < 7
  · rw [if_pos h7]
    exact ⟨fun _ h => absurd h.1 (Nat.not_le.mpr h7), fun _ => safe_pure _⟩
  rw [if_neg h7]
  obtain ⟨ok, hok, _⟩ := header_safe (show 3 ≤ p.length by omega) SDP_SA_RSP tid
  rw [hok, ok_bind]
  cases ok with
  | false => exact ⟨fun _ h => absurd h.2.1 (by simp), fun _ => safe_pure _⟩
  | true =>
  rw [if_neg (by decide), rd_getD (show 5 < p.length by omega), ok_bind,
    rd_getD (show 6 < p.length by omega), ok_bind]
  dsimp only
  by_cases hc : word (p.getD 5 0) (p.getD 6 0) = 0 ∨ p.length < 7 + word (p.getD 5 0) (p.getD 6 0)
  · rw [if_pos hc]
    refine ⟨fun _ h => ?_, fun _ => safe_pure _⟩
    apply hc.elim
    · intro h0
      exact absurd h0 h.2.2.1
    · intro hlt
      exact absurd h.2.2.2.1 (Nat.not_le.mpr hlt)
  have hlen : 7 < p.length := by omega
  rw [if_neg hc, rd_getD hlen, ok_bind]
  by_cases h6 : (p.getD 7 0).toNat / 8 = 6
  swap
  · rw [if_pos h6]
    exact ⟨fun _ h => absurd h.2.2.2.2 h6, fun _ => safe_pure _⟩
  rw [if_neg (not_not.mpr h6), sdpDeLen_eq (Nat.le_of_lt hlen), ok_bind]
  have hrsp : 7 ≤ p.length ∧ Except.ok true = Except.ok (ε := Fault) true ∧
      word (p.getD 5 0) (p.getD 6 0) ≠ 0 ∧ 7 + word (p.getD 5 0) (p.getD 6 0) ≤ p.length ∧
      (p.getD 7 0).toNat / 8 = 6 := ⟨by omega, rfl, by omega, by omega, h6⟩
  unfold protoLists
  cases hl : deLen p 7 with
  | none => exact ⟨fun _ _ => trivial, fun _ => safe_pure _⟩
  | some l =>
    obtain ⟨dl, h⟩ := l
    dsimp only
    rw [attrWalk_eq (Nat.succ_pos _) (by omega), scanLists_safe_iff rfl]
    exact ⟨fun hin _ => hin, fun hin => hin hrsp⟩

/-- There is a terminator in the buffer. -/
def Terminated (out : List UInt8) : Prop := ∃ k : ℕ, out[k]? = some 0

theorem copyName_ends {ad : List UInt8} {n i k : ℕ} (hi : i + n ≤ ad.length)
    (hk : k + n ≤ out.length) : Ends (copyName ad n i k out) fun q => q.length = out.length := by
  induction n generalizing i k out with
  | zero => exact ends_pure rfl
  | succ n ih =>
    apply (ends_rd (show i < ad.length by omega)).bind
    intro c _
    apply (ends_wr (show k < out.length by omega)).bind
    intro q hq
    have hlen : q.length = out.length := by rw [hq, List.length_set]
    apply (ih (by omega) (by omega)).mono
    intro r hr
    rw [hr, hlen]

theorem terminated_wr {k : ℕ} (h : k < out.length) :
    Ends (wr out k 0) fun q => q.length = out.length ∧ Terminated q := by
  apply (ends_wr h).mono
  intro q hq
  rw [hq, List.length_set]
  exact ⟨rfl, k, List.getElem?_set_self h⟩

/-- The search for the terminator does not pass it. -/
theorem strlen_safe {k fuel : ℕ} (hk : out[k]? = some 0) (hi : i ≤ k) (hf : k < i + fuel) :
    Safe (strlen out fuel i) := by
  induction fuel generalizing i with
  | zero => omega
  | succ fuel ih =>
    have hlen : k < out.length := (List.getElem?_eq_some_iff.mp hk).1
    apply (ends_rd (show i < out.length by omega)).bind
    intro c hc
    split
    · exact safe_pure _
    next hc0 =>
    apply ih _ (by omega)
    apply Nat.lt_of_le_of_ne hi
    intro hik
    rw [hik, hk] at hc
    exact hc0 (Option.some.inj hc).symm

theorem strlen_done (h : Terminated out) :
    Safe (do let n ← strlen out (out.length + 1) 0; pure (n, out) : Except Fault _) := by
  obtain ⟨k, hk⟩ := h
  have hlen : k < out.length := (List.getElem?_eq_some_iff.mp hk).1
  apply (strlen_safe hk (Nat.zero_le k) (by omega)).bind
  intro n _
  exact safe_pure _

theorem adWalk_safe {ad : List UInt8} {fuel : ℕ} {best : Bool} (ht : Terminated out)
    (hf : ad.length < i + fuel) (hpos : 0 < fuel) : Safe (adWalk ad fuel i best out) := by
  induction fuel generalizing i best out with
  | zero => omega
  | succ fuel ih =>
    have hdone := strlen_done ht
    unfold adWalk
    dsimp only
    split
    swap
    · exact hdone
    next hi =>
    apply (ends_rd hi).bind
    intro fl _
    split
    · exact hdone
    next hfl =>
    apply (ends_rd (show i + 1 < ad.length by omega)).bind
    intro type _
    split
    · have hlen : 0 < out.length := by
        obtain ⟨k, hk⟩ := ht
        have := (List.getElem?_eq_some_iff.mp hk).1
        omega
      apply (copyName_ends (by omega) (by omega)).bind
      intro q hq
      apply (terminated_wr (show min (fl.toNat - 1) (out.length - 1) < q.length by omega)).bind
      intro r ⟨_, hr⟩
      split
      · exact safe_pure _
      · exact ih hr (by omega) (by omega)
    · exact ih ht (by omega) (by omega)

theorem btAdName_safe (ad out : List UInt8) : Safe (btAdName ad out) := by
  unfold btAdName
  split
  · exact safe_pure _
  next h0 =>
  apply (terminated_wr (Nat.pos_of_ne_zero h0)).bind
  intro q ⟨_, hq⟩
  exact adWalk_safe hq (by omega) (Nat.succ_pos _)

end Xeneva.Bt.Sdp
