import Xeneva.Base.FirstMatch
import Xeneva.Base.Run
import Xeneva.Base.Ring

/-!
# Postboxes

Threads receive events in postboxes, which are kept in one list in the order of their creation. A
box has the low sixteen bits of its thread's id; the first box with the right sixteen bits is the
one that is used.
-/

namespace Xeneva.Postbox
open Base

variable {ε : Type*}

def POSTBOX_ROOT_ID : UInt16 := 1

/-- The size of a `PostEvent`, rounded up to eight bytes. -/
def POSTEVENT_SIZE_ALIGNED : ℕ := 176

def PAGE_SIZE : ℕ := 4096

/-- The events in a page. -/
def capacity : ℕ := PAGE_SIZE / POSTEVENT_SIZE_ALIGNED

/-- What is sent; the kernel looks at `to_id` only. -/
structure PostEvent (ε : Type*) where
  to_id : UInt16
  body : ε
deriving DecidableEq

/-- `address` is the page, by the number of the event in it. -/
structure PostBox (ε : Type*) where
  address : ℕ → PostEvent ε
  ownerID : UInt16
  headIdx : ℕ
  tailIdx : ℕ
  full : Bool
  size : ℕ

/-- The list from `firstBox` to `lastBox`. -/
structure State (ε : Type*) where
  boxes : List (PostBox ε)
  _PostBoxRootCreated : Bool

def PostBoxAdvanceIndex (box : PostBox ε) : PostBox ε :=
  let tailIdx := if box.full then (box.tailIdx + 1) % box.size else box.tailIdx
  let headIdx := (box.headIdx + 1) % box.size
  { box with tailIdx, headIdx, full := headIdx = tailIdx }

def PostBoxRetreat (box : PostBox ε) : PostBox ε :=
  { box with full := false, tailIdx := (box.tailIdx + 1) % box.size }

def IsPostBoxEmpty (box : PostBox ε) : Bool := !box.full && box.headIdx = box.tailIdx

def IsPostBoxFull (box : PostBox ε) : Bool := box.full

def PostBoxCreate [Zero ε] (s : State ε) (root : Bool) (tid : UInt16) : State ε :=
  let first := root && !s._PostBoxRootCreated
  { boxes := s.boxes ++
      [{ address := fun _ => ⟨0, 0⟩
         ownerID := if first then POSTBOX_ROOT_ID else tid
         headIdx := 0
         tailIdx := 0
         full := false
         size := PAGE_SIZE / POSTEVENT_SIZE_ALIGNED }]
    _PostBoxRootCreated := if first then true else s._PostBoxRootCreated }

def PostBoxDestroyByID (s : State ε) (id : UInt16) : State ε :=
  { s with boxes := s.boxes.eraseP fun box => box.ownerID == id }

/-- The event is copied into the box, if there is room. -/
def putInto (event : PostEvent ε) (box : PostBox ε) : PostBox ε :=
  if !IsPostBoxFull box then
    PostBoxAdvanceIndex { box with address := Function.update box.address box.headIdx event }
  else box

/-- Waking the thread of that id does nothing to the boxes. -/
def PostBoxPutEvent (s : State ε) (event : PostEvent ε) : State ε :=
  { s with boxes := modifyFirst (fun box => box.ownerID == event.to_id) (putInto event) s.boxes }

/-- The place of the event that was taken is zeroed. -/
def takeFrom [Zero ε] (box : PostBox ε) : PostBox ε :=
  PostBoxRetreat { box with address := Function.update box.address box.tailIdx ⟨0, 0⟩ }

def PostBoxGetEvent [Zero ε] (s : State ε) (root : Bool) (thread_id : UInt64) :
    State ε × Option (PostEvent ε) :=
  let owner_id := if root then POSTBOX_ROOT_ID else thread_id.toUInt16
  match s.boxes.find? fun box => box.ownerID == owner_id with
  | none => (s, none)
  | some box =>
    if !IsPostBoxEmpty box then
      ({ s with boxes := modifyFirst (fun box => box.ownerID == owner_id) takeFrom s.boxes },
        some (box.address box.tailIdx))
    else (s, none)

/-- Events are for a thread, by its full id, or for the one that reads the root box. -/
inductive Addr
  | root
  | thread (id : UInt64)
deriving DecidableEq

/-- What an event has of its address. -/
def Addr.code : Addr → UInt16
  | .root => POSTBOX_ROOT_ID
  | .thread id => id.toUInt16

/-- A call of a thread, or its end, which destroys its box. -/
inductive PostOp (ε : Type*)
  | create (root : Bool) (tid : UInt64)
  | destroy (tid : UInt64)
  | put (dest : Addr) (body : ε)
  | get (root : Bool) (tid : UInt64)

/-- Whose events a thread asks for. -/
def reader (root : Bool) (tid : UInt64) : Addr := if root then .root else .thread tid

def postStep [Zero ε] (s : State ε) : PostOp ε → State ε × Option (PostEvent ε)
  | .create root tid => (PostBoxCreate s root tid.toUInt16, none)
  | .destroy tid => (PostBoxDestroyByID s tid.toUInt16, none)
  | .put dest body => (PostBoxPutEvent s ⟨dest.code, body⟩, none)
  | .get root tid => PostBoxGetEvent s root tid

def State.init : State ε := ⟨[], false⟩

/-- A box with its full address, and the events in it in the order they were put. -/
structure MailBox (ε : Type*) where
  owner : Addr
  queue : List (PostEvent ε)

structure Mail (ε : Type*) where
  boxes : List (MailBox ε)
  rootCreated : Bool

def Mail.init : Mail ε := ⟨[], false⟩

def MailBox.push (event : PostEvent ε) (b : MailBox ε) : MailBox ε :=
  { b with queue := if b.queue.length < capacity then b.queue ++ [event] else b.queue }

def MailBox.pop (b : MailBox ε) : MailBox ε := { b with queue := b.queue.tail }

/-- Events go to the first box of their address, and are dropped where it is full or there is
none. -/
def mailStep (m : Mail ε) : PostOp ε → Mail ε × Option (PostEvent ε)
  | .create root tid =>
    (⟨m.boxes ++ [⟨reader (root && !m.rootCreated) tid, []⟩], m.rootCreated || root⟩, none)
  | .destroy tid => ({ m with boxes := m.boxes.eraseP fun b => b.owner == .thread tid }, none)
  | .put dest body =>
    ({ m with
        boxes := modifyFirst (fun b => b.owner == dest) (MailBox.push ⟨dest.code, body⟩) m.boxes },
      none)
  | .get root tid =>
    let own := fun b : MailBox ε => b.owner == reader root tid
    ({ m with boxes := modifyFirst own MailBox.pop m.boxes },
      (m.boxes.find? own).bind fun b => b.queue.head?)

/-- No box of another address comes first among those with the same sixteen bits. -/
def Own (m : Mail ε) (a : Addr) : Prop :=
  SameFirst (fun b => b.owner.code == a.code) (fun b => b.owner == a) m.boxes

/-- The box that the call is about is that of its address. -/
def Unshared (m : Mail ε) : PostOp ε → Prop
  | .create _ _ => True
  | .destroy tid => Own m (.thread tid)
  | .put dest _ => Own m dest
  | .get root tid => Own m (reader root tid)

instance (m : Mail ε) (a : Addr) : Decidable (Own m a) :=
  inferInstanceAs (Decidable (m.boxes.findIdx? _ = m.boxes.findIdx? _))

instance (m : Mail ε) : (op : PostOp ε) → Decidable (Unshared m op)
  | .create _ _ => inferInstanceAs (Decidable True)
  | .destroy tid => inferInstanceAs (Decidable (Own m (.thread tid)))
  | .put dest _ => inferInstanceAs (Decidable (Own m dest))
  | .get root tid => inferInstanceAs (Decidable (Own m (reader root tid)))

variable {box : PostBox ε} {b : MailBox ε} {s : State ε} {m : Mail ε} {event : PostEvent ε}
  {a : Addr}

/-- The box has the events of the queue. -/
structure Holds (box : PostBox ε) (b : MailBox ε) : Prop where
  owner : box.ownerID = b.owner.code
  size : box.size = capacity
  tail : box.tailIdx < box.size
  room : b.queue.length ≤ box.size
  head : box.headIdx = (box.tailIdx + b.queue.length) % box.size
  full : box.full = decide (b.queue.length = box.size)
  queue : window box.address box.size box.tailIdx b.queue.length = b.queue

theorem Holds.full_iff (h : Holds box b) : box.full = true ↔ b.queue.length = capacity := by
  rw [h.full, decide_eq_true_iff, h.size]

theorem Holds.empty_iff (h : Holds box b) : IsPostBoxEmpty box = true ↔ b.queue = [] := by
  have ht := h.tail
  have hr := h.room
  unfold IsPostBoxEmpty
  rw [Bool.and_eq_true, Bool.not_eq_true', decide_eq_true_iff, h.full, decide_eq_false_iff_not,
    h.head, ring_place ht hr, ← List.length_eq_zero_iff]
  split_ifs <;> omega

theorem Holds.push (h : Holds box b) (event : PostEvent ε) :
    Holds (putInto event box) (b.push event) := by
  have ht := h.tail
  have hr := h.room
  unfold putInto MailBox.push IsPostBoxFull
  cases hf : box.full with
  | true =>
    rw [Bool.not_true, if_neg Bool.false_ne_true, if_neg (by rw [h.full_iff.mp hf]; omega)]
    exact h
  | false =>
    have hne : b.queue.length ≠ capacity :=
      fun he => Bool.false_ne_true (hf.symm.trans (h.full_iff.mpr he))
    have hlt : b.queue.length < box.size := by
      rw [h.size] at hr ⊢
      omega
    have hlen : (b.queue ++ [event]).length = b.queue.length + 1 := List.length_append
    have hnext : (box.headIdx + 1) % box.size =
        (box.tailIdx + (b.queue.length + 1)) % box.size := by
      rw [h.head, Nat.mod_add_mod, Nat.add_assoc]
    rw [Bool.not_false, if_pos rfl, if_pos (h.size ▸ hlt)]
    unfold PostBoxAdvanceIndex
    dsimp only
    rw [if_neg Bool.false_ne_true]
    refine ⟨h.owner, h.size, ht, ?_, ?_, ?_, ?_⟩
    · dsimp only
      rw [hlen]
      exact hlt
    · dsimp only
      rw [hlen, hnext]
    · dsimp only
      rw [hlen, hnext, decide_eq_decide, ring_place ht hlt]
      split_ifs <;> omega
    · dsimp only
      rw [hlen, h.head, window_push ht hlt, h.queue]

theorem Holds.pop [Zero ε] (h : Holds box b) (hne : b.queue ≠ []) :
    b.queue.head? = some (box.address box.tailIdx) ∧ Holds (takeFrom box) b.pop := by
  have ht := h.tail
  have hr := h.room
  obtain ⟨e, q, hq⟩ := List.exists_cons_of_ne_nil hne
  have hlen : b.queue.length = q.length + 1 := by
    rw [hq]
    rfl
  have hwin := h.queue
  rw [hlen, window_pop ht, hq] at hwin
  obtain ⟨he, hrest⟩ := List.cons.inj hwin
  refine ⟨by rw [hq, he]; rfl, ?_⟩
  unfold takeFrom PostBoxRetreat MailBox.pop
  rw [hq, List.tail_cons]
  refine ⟨h.owner, h.size, Nat.mod_lt _ (by dsimp only; omega), by dsimp only; omega, ?_, ?_, ?_⟩
  · dsimp only
    rw [h.head, hlen, Nat.mod_add_mod, Nat.add_assoc, Nat.add_comm 1]
  · dsimp only
    rw [eq_comm, decide_eq_false_iff_not]
    omega
  · dsimp only
    refine Eq.trans ?_ hrest
    apply window_congr
    intro i hi
    apply Function.update_of_ne
    rw [Nat.mod_add_mod, Nat.add_assoc, ring_place ht (by omega)]
    split_ifs <;> omega

/-- The boxes have the events of the mail, in the same order. -/
structure Keeps (s : State ε) (m : Mail ε) : Prop where
  boxes : List.Forall₂ Holds s.boxes m.boxes
  root : s._PostBoxRootCreated = m.rootCreated

theorem Holds.code (h : Holds box b) (id : UInt16) :
    (box.ownerID == id) = (b.owner.code == id) := by
  rw [h.owner]

theorem Keeps.create [Zero ε] (h : Keeps s m) (root : Bool) (tid : UInt64) :
    Keeps (PostBoxCreate s root tid.toUInt16) (mailStep m (.create root tid)).1 := by
  have hroot := h.root
  refine ⟨?_, ?_⟩
  · apply List.rel_append h.boxes
    refine .cons ⟨?_, rfl, Nat.succ_pos 22, Nat.zero_le _, rfl, rfl, rfl⟩ .nil
    dsimp only
    rw [hroot]
    unfold reader
    cases root && !m.rootCreated <;> rfl
  · unfold PostBoxCreate mailStep
    dsimp only
    rw [hroot]
    cases root <;> cases m.rootCreated <;> rfl

theorem Keeps.destroy (h : Keeps s m) {tid : UInt64} (ho : Own m (.thread tid)) :
    Keeps (PostBoxDestroyByID s tid.toUInt16) (mailStep m (.destroy tid)).1 := by
  refine ⟨?_, h.root⟩
  unfold PostBoxDestroyByID mailStep
  dsimp only
  rw [← ho.eraseP]
  exact forall₂_eraseP h.boxes fun _ _ hb => hb.code _

theorem Keeps.put (h : Keeps s m) {dest : Addr} (ho : Own m dest) (body : ε) :
    Keeps (PostBoxPutEvent s ⟨dest.code, body⟩) (mailStep m (.put dest body)).1 := by
  refine ⟨?_, h.root⟩
  unfold PostBoxPutEvent mailStep
  dsimp only
  rw [← ho.modifyFirst]
  exact forall₂_modifyFirst h.boxes (fun _ _ hb => hb.code _) fun _ _ _ _ hb => hb.push _

theorem Keeps.get [Zero ε] (h : Keeps s m) {root : Bool} {tid : UInt64}
    (ho : Own m (reader root tid)) :
    (PostBoxGetEvent s root tid).2 = (mailStep m (.get root tid)).2 ∧
      Keeps (PostBoxGetEvent s root tid).1 (mailStep m (.get root tid)).1 := by
  have hid : (if root then POSTBOX_ROOT_ID else tid.toUInt16) = (reader root tid).code := by
    cases root <;> rfl
  unfold PostBoxGetEvent mailStep
  dsimp only
  rw [hid, ← ho.find?, ← ho.modifyFirst]
  have hcode (x : PostBox ε) (y : MailBox ε) (hxy : Holds x y) := hxy.code (reader root tid).code
  rcases forall₂_find? h.boxes hcode with ⟨hs, hm⟩ | ⟨box, b, hs, hm, hb⟩
  · rw [hs, hm, modifyFirst_eq_self fun x hx => absurd (hm.symm.trans hx).symm
      (Option.some_ne_none x)]
    exact ⟨rfl, h⟩
  · rw [hs, hm]
    dsimp only
    by_cases hnil : b.queue = []
    · rw [hb.empty_iff.mpr hnil, Bool.not_true, if_neg Bool.false_ne_true, Option.bind_some, hnil,
        modifyFirst_eq_self]
      · exact ⟨rfl, h⟩
      · -- nothing is taken from an empty box
        intro x hx
        rw [← Option.some.inj (hm.symm.trans hx)]
        unfold MailBox.pop
        rw [hnil, List.tail_nil, ← hnil]
    · have hne : IsPostBoxEmpty box = false :=
        eq_false_of_ne_true fun he => hnil (hb.empty_iff.mp he)
      rw [hne, Bool.not_false, if_pos rfl, Option.bind_some, (hb.pop hnil).1]
      refine ⟨rfl, forall₂_modifyFirst h.boxes hcode fun x y hx hy hxy => ?_, h.root⟩
      rw [← Option.some.inj (hm.symm.trans hy)] at hxy ⊢
      exact (hxy.pop hnil).2

theorem postStep_refines [Zero ε] :
    Refines (fun m s => Keeps s m) Unshared (@mailStep ε) postStep := by
  intro m s op h ho
  cases op with
  | create root tid => exact ⟨rfl, h.create root tid⟩
  | destroy tid => exact ⟨rfl, h.destroy ho⟩
  | put dest body => exact ⟨rfl, h.put ho body⟩
  | get root tid =>
    obtain ⟨hout, hnext⟩ := h.get ho
    exact ⟨hout.symm, hnext⟩

/-! ## Delivery -/

/-- What the call sends to an address. -/
def sentTo (a : Addr) : PostOp ε → List (PostEvent ε)
  | .put dest body => if dest = a then [⟨dest.code, body⟩] else []
  | _ => []

/-- What the call brings to an address. -/
def takenBy (a : Addr) : PostOp ε → Option (PostEvent ε) → List (PostEvent ε)
  | .get root tid, r => if reader root tid = a then r.toList else []
  | _, _ => []

/-- The events that were sent to an address, in order. -/
def addressed (a : Addr) (ops : List (PostOp ε)) : List (PostEvent ε) := ops.flatMap (sentTo a)

/-- The events that an address got, in order. -/
def delivered (a : Addr) (ops : List (PostOp ε)) (rs : List (Option (PostEvent ε))) :
    List (PostEvent ε) :=
  (List.zipWith (takenBy a) ops rs).flatten

/-- The queues of an address's boxes. -/
def queues (a : Addr) (m : Mail ε) : List (List (PostEvent ε)) :=
  (m.boxes.filter fun b => b.owner == a).map MailBox.queue

/-- What an address has still to get. -/
def pending (a : Addr) (m : Mail ε) : List (PostEvent ε) := (queues a m).headD []

/-- Boxes behind the first of their address are empty. -/
def Fresh (m : Mail ε) : Prop := ∀ a, ∀ q ∈ (queues a m).tail, q = []

theorem map_modifyHead {α β : Type*} {f : α → β} {g : α → α} {k : β → β}
    (h : ∀ x, f (g x) = k (f x)) (l : List α) :
    (l.modifyHead g).map f = (l.map f).modifyHead k := by
  cases l with
  | nil => rfl
  | cons x l => rw [List.modifyHead_cons, List.map_cons, List.map_cons, List.modifyHead_cons, h]

/-- Changing the first box of an address changes the first of its queues, and no other. -/
theorem queues_modifyFirst (f : MailBox ε → MailBox ε)
    (k : List (PostEvent ε) → List (PostEvent ε)) (ho : ∀ b, (f b).owner = b.owner)
    (hk : ∀ b, (f b).queue = k b.queue) (dest a : Addr) (l : List (MailBox ε)) :
    ((modifyFirst (fun b => b.owner == dest) f l).filter fun b => b.owner == a).map
        MailBox.queue =
      if dest = a then ((l.filter fun b => b.owner == a).map MailBox.queue).modifyHead k
      else (l.filter fun b => b.owner == a).map MailBox.queue := by
  by_cases h : dest = a
  · rw [if_pos h, ← map_modifyHead hk, ← h]
    congr 1
    apply filter_modifyFirst
    intro x hx
    rw [ho]
    exact hx
  · rw [if_neg h]
    congr 1
    apply filter_modifyFirst_ne
    intro x hx
    rw [ho, beq_iff_eq.mp hx]
    exact ⟨beq_false_of_ne h, beq_false_of_ne h⟩

theorem queues_create (m : Mail ε) (root : Bool) (tid : UInt64) (a : Addr) :
    queues a (mailStep m (.create root tid)).1 =
      queues a m ++ if reader (root && !m.rootCreated) tid = a then [[]] else [] := by
  unfold queues mailStep
  dsimp only
  rw [List.filter_append, List.map_append]
  rw [List.filter_singleton]
  by_cases h : reader (root && !m.rootCreated) tid = a
  · rw [if_pos h, h, beq_self_eq_true]
    rfl
  · rw [if_neg h, beq_false_of_ne h]
    rfl

theorem queues_destroy (m : Mail ε) (tid : UInt64) (a : Addr) :
    queues a (mailStep m (.destroy tid)).1 =
      if .thread tid = a then (queues a m).tail else queues a m := by
  unfold queues mailStep
  dsimp only
  by_cases h : Addr.thread tid = a
  · rw [if_pos h, h, filter_eraseP, List.map_tail]
  · rw [if_neg h]
    congr 1
    apply filter_eraseP_ne
    intro x hx
    rw [beq_iff_eq.mp hx]
    exact beq_false_of_ne h

theorem queues_put (m : Mail ε) (dest : Addr) (body : ε) (a : Addr) :
    queues a (mailStep m (.put dest body)).1 =
      if dest = a then (queues a m).modifyHead fun q =>
        if q.length < capacity then q ++ [⟨dest.code, body⟩] else q
      else queues a m :=
  queues_modifyFirst (MailBox.push _) _ (fun _ => rfl) (fun _ => rfl) dest a m.boxes

theorem queues_get (m : Mail ε) (root : Bool) (tid : UInt64) (a : Addr) :
    queues a (mailStep m (.get root tid)).1 =
      if reader root tid = a then (queues a m).modifyHead List.tail else queues a m :=
  queues_modifyFirst MailBox.pop _ (fun _ => rfl) (fun _ => rfl) (reader root tid) a m.boxes

theorem get_answer (m : Mail ε) (root : Bool) (tid : UInt64) :
    (mailStep m (.get root tid)).2 = (pending (reader root tid) m).head? := by
  unfold mailStep pending queues
  dsimp only
  rw [← List.head?_filter]
  cases m.boxes.filter fun b => b.owner == reader root tid <;> rfl

/-- The call does not destroy a box of the address. -/
def Spares (a : Addr) (op : PostOp ε) : Prop := ∀ tid, op = .destroy tid → .thread tid ≠ a

/-- What an address gets and has still to get is what it had to get, with the event that is sent
to it where it has a box that is not full. -/
def Conserves (m : Mail ε) (op : PostOp ε) : Prop :=
  ∀ a, Spares a op →
    takenBy a op (mailStep m op).2 ++ pending a (mailStep m op).1 =
      pending a m ++
        if queues a m ≠ [] ∧ (pending a m).length < capacity then sentTo a op else []

theorem Fresh.step (h : Fresh m) (op : PostOp ε) : Fresh (mailStep m op).1 ∧ Conserves m op := by
  have hq (a : Addr) : ∀ q ∈ (queues a m).tail, q = [] := h a
  cases op with
  | create root tid =>
    have hboth (a : Addr) : (∀ q ∈ (queues a (mailStep m (.create root tid)).1).tail, q = []) ∧
        pending a (mailStep m (.create root tid)).1 = pending a m := by
      unfold pending
      rw [queues_create]
      have hq := hq a
      generalize queues a m = qs at hq ⊢
      split_ifs
      · cases qs with
        | nil => exact ⟨fun _ hq => absurd hq List.not_mem_nil, rfl⟩
        | cons q qs =>
          refine ⟨fun q' hq' => ?_, rfl⟩
          rcases List.mem_append.mp hq' with hq' | hq'
          · exact hq q' hq'
          · exact List.mem_singleton.mp hq'
      · rw [List.append_nil]
        exact ⟨hq, rfl⟩
    refine ⟨fun a => (hboth a).1, fun a _ => ?_⟩
    unfold takenBy sentTo
    rw [(hboth a).2, ite_self, List.append_nil]
    rfl
  | destroy tid =>
    refine ⟨fun a => ?_, fun a hne => ?_⟩
    · rw [queues_destroy]
      split_ifs
      · exact fun q hq' => hq a q (List.mem_of_mem_tail hq')
      · exact hq a
    · unfold takenBy pending sentTo
      rw [queues_destroy, if_neg (hne tid rfl), ite_self, List.append_nil]
      rfl
  | put dest body =>
    have hboth (a : Addr) : (∀ q ∈ (queues a (mailStep m (.put dest body)).1).tail, q = []) ∧
        pending a (mailStep m (.put dest body)).1 = pending a m ++
          if queues a m ≠ [] ∧ (pending a m).length < capacity then
            sentTo a (.put dest body) else [] := by
      unfold pending sentTo
      dsimp only
      rw [queues_put]
      have hq := hq a
      generalize queues a m = qs at hq ⊢
      by_cases ha : dest = a
      · rw [if_pos ha, if_pos ha]
        cases qs with
        | nil => exact ⟨hq, rfl⟩
        | cons q qs =>
          refine ⟨hq, ?_⟩
          rw [List.modifyHead_cons, List.headD_cons, List.headD_cons]
          by_cases hlen : q.length < capacity
          · rw [if_pos hlen, if_pos ⟨List.cons_ne_nil q qs, hlen⟩]
          · rw [if_neg hlen, if_neg fun hand => hlen hand.2, List.append_nil]
      · rw [if_neg ha, if_neg ha, ite_self, List.append_nil]
        exact ⟨hq, rfl⟩
    exact ⟨fun a => (hboth a).1, fun a _ => (hboth a).2⟩
  | get root tid =>
    have hboth (a : Addr) : (∀ q ∈ (queues a (mailStep m (.get root tid)).1).tail, q = []) ∧
        takenBy a (.get root tid) (mailStep m (.get root tid)).2 ++
          pending a (mailStep m (.get root tid)).1 = pending a m := by
      unfold takenBy
      dsimp only
      rw [get_answer]
      unfold pending
      rw [queues_get]
      have hq := hq a
      by_cases ha : reader root tid = a
      · rw [if_pos ha, if_pos ha, ha]
        generalize queues a m = qs at hq ⊢
        cases qs with
        | nil => exact ⟨hq, rfl⟩
        | cons q qs =>
          refine ⟨hq, ?_⟩
          rw [List.modifyHead_cons, List.headD_cons, List.headD_cons]
          cases q <;> rfl
      · rw [if_neg ha, if_neg ha]
        exact ⟨hq, rfl⟩
    refine ⟨fun a => (hboth a).1, fun a _ => ?_⟩
    unfold sentTo
    rw [(hboth a).2, ite_self, List.append_nil]

/-- What is got and what is still to get was to get before, or is sent now. -/
theorem Fresh.sublist (h : Fresh m) (op : PostOp ε) (a : Addr) :
    (takenBy a op (mailStep m op).2 ++ pending a (mailStep m op).1).Sublist
      (pending a m ++ sentTo a op) := by
  by_cases hs : Spares a op
  · rw [(h.step op).2 a hs]
    apply List.Sublist.append_left
    split_ifs
    · exact List.Sublist.refl _
    · exact List.nil_sublist _
  · unfold Spares at hs
    rw [not_forall] at hs
    obtain ⟨tid, htid⟩ := hs
    rw [Classical.not_imp, not_not] at htid
    obtain ⟨rfl, rfl⟩ := htid
    unfold takenBy pending
    rw [queues_destroy, if_pos rfl, List.nil_append]
    -- the next box of the address is empty
    have hnil : (queues (.thread tid) m).tail.headD [] = [] := by
      have hq := h (.thread tid)
      cases ht : (queues (.thread tid) m).tail with
      | nil => rfl
      | cons q qs => exact hq q (ht ▸ List.mem_cons_self)
    rw [hnil]
    exact List.nil_sublist _

theorem Fresh.run (h : Fresh m) (ops : List (PostOp ε)) :
    Fresh (run (fun m op => (mailStep m op).1) m ops) := by
  induction ops generalizing m with
  | nil => exact h
  | cons op ops ih => exact ih (h.step op).1

/-- What an address gets in a run was sent to it, in this order. -/
theorem Fresh.delivered (h : Fresh m) (ops : List (PostOp ε)) (a : Addr) :
    (delivered a ops (replies mailStep m ops)).Sublist (pending a m ++ addressed a ops) := by
  induction ops generalizing m with
  | nil => exact List.nil_sublist _
  | cons op ops ih =>
    have hfresh := (h.step op).1
    unfold Postbox.delivered addressed at ih ⊢
    unfold replies
    rw [List.zipWith_cons_cons, List.flatten_cons, List.flatMap_cons, ← List.append_assoc]
    apply List.Sublist.trans ((ih hfresh).append_left _)
    rw [← List.append_assoc]
    exact (h.sublist op a).append_right _

theorem fresh_init : Fresh (Mail.init : Mail ε) := fun _ _ hq => absurd hq List.not_mem_nil

theorem keeps_init : Keeps (State.init : State ε) Mail.init := ⟨.nil, rfl⟩

/-- Where every call meets its own address's box, the boxes are the mail: what an address gets was
sent to it, in this order, and only a full or missing box loses an event. -/
theorem replies_postStep [Zero ε] (ops : List (PostOp ε))
    (h : Respects Unshared (fun m op => (mailStep m op).1) Mail.init ops) :
    replies postStep State.init ops = replies mailStep Mail.init ops ∧
      Keeps (run (fun s op => (postStep s op).1) State.init ops)
        (run (fun m op => (mailStep m op).1) Mail.init ops) ∧
      (∀ a, (delivered a ops (replies postStep State.init ops)).Sublist (addressed a ops)) ∧
      ∀ op, Conserves (run (fun m op => (mailStep m op).1) Mail.init ops) op := by
  obtain ⟨hreplies, hkeeps⟩ := postStep_refines.run keeps_init h
  refine ⟨hreplies.symm, hkeeps, fun a => ?_, fun op => ((fresh_init.run ops).step op).2⟩
  rw [← hreplies]
  exact fresh_init.delivered ops a

/-- Two threads with different low bits. -/
def twoThreads : List (PostOp ℕ) :=
  [.create true 9, .create false 5, .create false 6, .put (.thread 6) 7, .put .root 8,
    .get false 5, .get false 6, .get true 9, .destroy 5]

theorem replies_postStep_twoThreads :
    replies postStep State.init twoThreads = replies mailStep Mail.init twoThreads ∧
      Keeps (run (fun s op => (postStep s op).1) State.init twoThreads)
        (run (fun m op => (mailStep m op).1) Mail.init twoThreads) ∧
      (∀ a, (delivered a twoThreads (replies postStep State.init twoThreads)).Sublist
        (addressed a twoThreads)) ∧
      ∀ op, Conserves (run (fun m op => (mailStep m op).1) Mail.init twoThreads) op :=
  replies_postStep twoThreads (by decide)

/-- Two threads with the same low bits: the event for one is delivered to the other. -/
def sameLowBits : List (PostOp ℕ) :=
  [.create false 5, .create false 65541, .put (.thread 65541) 7, .get false 5]

theorem not_replies_postStep :
    ¬ ∀ (ops : List (PostOp ℕ)) (a : Addr),
      (delivered a ops (replies postStep State.init ops)).Sublist (addressed a ops) := by
  intro hall
  have h := hall sameLowBits (.thread 5)
  exact absurd h (by decide)

end Xeneva.Postbox
