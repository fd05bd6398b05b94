import Xeneva.Net.Listener

/-!
# Runs of listeners

Every socket with a parent is registered, and its parent is allocated, as long as no socket is
closed that is the parent of another. Under this invariant the close of a listener resets all
its registered children, so it does what is meant when none of them was accepted.
-/

namespace Xeneva.Net
open Base

variable {s s' : TcpSys} {a l c : ℕ} {e : TcpSocket}

/-- The parent of each allocated socket. -/
def TcpSys.parents (s : TcpSys) (c : ℕ) : Option ℕ := (s.table c).map TcpSocket.parent

structure ListenInv (s : TcpSys) : Prop where
  zero : s.table 0 = none
  nodup : s.tcpSocketList.Nodup
  listed : ∀ c ∈ s.tcpSocketList, s.parents c ≠ none
  child : ∀ c p, s.parents c = some p → p ≠ 0 → c ∈ s.tcpSocketList ∧ s.parents p ≠ none

/-- No socket is allocated or freed, no parent changes, and what is registered stays so. -/
structure Grows (s s' : TcpSys) : Prop where
  parents : s'.parents = s.parents
  list : s.tcpSocketList ⊆ s'.tcpSocketList
  nodup : s.tcpSocketList.Nodup → s'.tcpSocketList.Nodup
  new : ∀ c ∈ s'.tcpSocketList, c ∈ s.tcpSocketList ∨ s.parents c ≠ none

theorem TcpSys.parents_of (h : s.table c = some e) : s.parents c = some e.parent := by
  simp [parents, h]

theorem TcpSys.parents_ne_none : s.parents c ≠ none ↔ s.table c ≠ none := by
  simp [parents]

theorem parentOf_eq_iff (hc : c ≠ 0) : s.parentOf l = c ↔ s.parents l = some c := by
  unfold TcpSys.parentOf TcpSys.parents
  cases s.table l with
  | none => simp [Ne.symm hc]
  | some e => simp

@[simp] theorem TcpSys.set_table_self (s : TcpSys) (a : ℕ) (e : TcpSocket) :
    (s.set a e).table a = some e := by
  simp [TcpSys.set]

@[simp] theorem TcpSys.set_tcpSocketList (s : TcpSys) (a : ℕ) (e : TcpSocket) :
    (s.set a e).tcpSocketList = s.tcpSocketList := rfl

@[simp] theorem tcpRegisterSocket_table (s : TcpSys) (a : ℕ) :
    (tcpRegisterSocket s a).table = s.table := by
  unfold tcpRegisterSocket
  split <;> rfl

theorem mem_tcpRegisterSocket : c ∈ (tcpRegisterSocket s a).tcpSocketList ↔
    c ∈ s.tcpSocketList ∨ c = a := by
  unfold tcpRegisterSocket
  split
  · next h => exact ⟨Or.inl, fun hc => hc.elim id fun hc => hc ▸ h⟩
  · simp

theorem nodup_tcpRegisterSocket (h : s.tcpSocketList.Nodup) :
    (tcpRegisterSocket s a).tcpSocketList.Nodup := by
  unfold tcpRegisterSocket
  split
  · exact h
  · next ha =>
    rw [List.nodup_append]
    refine ⟨h, by simp, ?_⟩
    intro c hc b hb hcb
    have hba : b = a := by simpa using hb
    exact ha (hba ▸ hcb ▸ hc)

/-- Registering reads the list alone. -/
theorem tcpRegisterSocket_set (s : TcpSys) (a : ℕ) (e : TcpSocket) :
    (tcpRegisterSocket (s.set a e) c).tcpSocketList = (tcpRegisterSocket s c).tcpSocketList := by
  unfold tcpRegisterSocket
  rw [TcpSys.set_tcpSocketList]
  split <;> rfl

/-! ## What the calls keep -/

theorem Grows.refl (s : TcpSys) : Grows s s where
  parents := rfl
  list := List.Subset.refl _
  nodup := id
  new := fun _ => Or.inl

theorem Grows.trans {s₁ s₂ s₃ : TcpSys} (h : Grows s₁ s₂) (h' : Grows s₂ s₃) : Grows s₁ s₃ where
  parents := h'.parents.trans h.parents
  list := List.Subset.trans h.list h'.list
  nodup := h'.nodup ∘ h.nodup
  new := by
    intro c hc
    apply (h'.new c hc).elim (h.new c)
    rw [h.parents]
    exact Or.inr

theorem grows_set (h : s.table a = some e) {e' : TcpSocket} (hp : e'.parent = e.parent) :
    Grows s (s.set a e') where
  parents := by
    funext c
    by_cases hc : c = a
    · subst hc
      simp [TcpSys.parents, h, hp]
    · simp [TcpSys.parents, TcpSys.set, hc]
  list := List.Subset.refl _
  nodup := id
  new := fun _ => Or.inl

theorem grows_register (h : s.table a ≠ none) : Grows s (tcpRegisterSocket s a) where
  parents := by
    unfold TcpSys.parents
    rw [tcpRegisterSocket_table]
  list := fun _ hc => mem_tcpRegisterSocket.mpr (Or.inl hc)
  nodup := nodup_tcpRegisterSocket
  new := by
    intro c hc
    apply (mem_tcpRegisterSocket.mp hc).imp id
    intro hca
    rw [hca]
    exact TcpSys.parents_ne_none.mpr h

theorem grows_files (s : TcpSys) (files : List ℕ) : Grows s { s with files } where
  parents := rfl
  list := List.Subset.refl _
  nodup := id
  new := fun _ => Or.inl

/-- The fields of a socket change and it is registered. -/
theorem grows_set_register (h : s.table a = some e) {e' : TcpSocket}
    (hp : e'.parent = e.parent) : Grows s (tcpRegisterSocket (s.set a e') a) := by
  apply (grows_set h hp).trans
  apply grows_register
  simp

theorem auTCPBind_grows (h : s.table a = some e) (port obtained : ℕ) :
    Grows s (auTCPBind s a e port obtained) := by
  unfold auTCPBind
  split
  · exact Grows.refl s
  · split
    · exact grows_set_register h rfl
    · split
      · exact Grows.refl s
      · exact grows_set_register h rfl

theorem auTCPListenOn_grows (h : s.table a = some e) (backlog : Int) :
    Grows s (auTCPListenOn s a e backlog) := by
  unfold auTCPListenOn
  split
  · exact Grows.refl s
  · exact grows_set h rfl

theorem auTCPConnectTo_grows (h : s.table a = some e) (nonblock route ready : Bool)
    (rand : BitVec 32) (obtained : ℕ) :
    Grows s (auTCPConnectTo s a e nonblock route ready rand obtained) := by
  unfold auTCPConnectTo
  split
  · exact grows_set h rfl
  · split
    · exact Grows.refl s
    · have hp : (if e.sessionPort = 0 then { e with sessionPort := obtained } else e).parent =
          e.parent := by split <;> rfl
      have hr := grows_set_register h hp
      dsimp only
      split
      · exact hr
      · apply hr.trans
        apply grows_set (e := if e.sessionPort = 0 then { e with sessionPort := obtained } else e)
        · simp
        · rfl

theorem tcpQueueAcceptOn_grows (s : TcpSys) (l c : ℕ) : Grows s (tcpQueueAcceptOn s l c) := by
  unfold tcpQueueAcceptOn
  split
  · next h => exact grows_set h rfl
  · exact Grows.refl s

theorem auTCPAccept_grows (h : s.table l = some e) (opened : Bool) :
    Grows s (auTCPAccept s l e opened) := by
  unfold auTCPAccept
  split
  · split
    · exact Grows.refl s
    · dsimp only
      split
      · apply Grows.trans _ (grows_files _ _)
        exact grows_set h rfl
      · exact grows_set h rfl
  · exact Grows.refl s

theorem Grows.inv (h : Grows s s') (hi : ListenInv s) : ListenInv s' where
  zero := by
    have hz : s'.parents 0 = none := by
      rw [h.parents]
      simp [TcpSys.parents, hi.zero]
    simpa [TcpSys.parents] using hz
  nodup := h.nodup hi.nodup
  listed := by
    intro c hc
    rw [h.parents]
    exact (h.new c hc).elim (hi.listed c) id
  child := by
    intro c p hp hp0
    rw [h.parents] at hp ⊢
    exact ⟨h.list (hi.child c p hp hp0).1, (hi.child c p hp hp0).2⟩

/-! ## New sockets -/

theorem TcpSys.unused_iff : s.unused a = true ↔ a ≠ 0 ∧ s.table a = none := by
  simp [TcpSys.unused]

theorem parents_set (s : TcpSys) (a : ℕ) (e : TcpSocket) :
    (s.set a e).parents = Function.update s.parents a (some e.parent) := by
  funext c
  by_cases hc : c = a
  · subst hc
    simp [TcpSys.parents]
  · simp [TcpSys.parents, TcpSys.set, hc]

/-- A new socket has no parent, or it is registered and its parent is allocated. -/
theorem ListenInv.alloc (hi : ListenInv s) (ha : s.unused a)
    (hp : e.parent ≠ 0 → a ∈ s'.tcpSocketList ∧ s.parents e.parent ≠ none)
    (ht : s'.table = (s.set a e).table)
    (hl : s'.tcpSocketList = s.tcpSocketList ∨
      s'.tcpSocketList = (tcpRegisterSocket s a).tcpSocketList) : ListenInv s' := by
  obtain ⟨ha0, han⟩ := TcpSys.unused_iff.mp ha
  have hpa : s.parents a = none := by simp [TcpSys.parents, han]
  have hps : s'.parents = Function.update s.parents a (some e.parent) := by
    rw [← parents_set]
    unfold TcpSys.parents
    rw [ht]
  have hmem : ∀ c ∈ s'.tcpSocketList, c ∈ s.tcpSocketList ∨ c = a := by
    intro c hc
    apply hl.elim
    · intro h
      exact Or.inl (h ▸ hc)
    · intro h
      exact mem_tcpRegisterSocket.mp (h ▸ hc)
  have hsub : s.tcpSocketList ⊆ s'.tcpSocketList := by
    intro c hc
    apply hl.elim
    · intro h
      exact h ▸ hc
    · intro h
      rw [h]
      exact mem_tcpRegisterSocket.mpr (Or.inl hc)
  -- what was allocated still is
  have hkeep : ∀ p, s.parents p ≠ none → s'.parents p ≠ none := by
    intro p hp
    have hpne : p ≠ a := fun h => hp (h ▸ hpa)
    rw [hps, Function.update_of_ne hpne]
    exact hp
  constructor
  · rw [ht]
    simpa [TcpSys.set, Ne.symm ha0] using hi.zero
  · apply hl.elim
    · intro h
      exact h ▸ hi.nodup
    · intro h
      exact h ▸ nodup_tcpRegisterSocket hi.nodup
  · intro c hc
    apply (hmem c hc).elim
    · intro h
      exact hkeep c (hi.listed c h)
    · intro h
      rw [h, hps]
      simp
  · intro c p hcp hp0
    by_cases hc : c = a
    · rw [hps, hc] at hcp
      have hpe : e.parent = p := by simpa using hcp
      have h := hp (hpe ▸ hp0)
      exact ⟨hc ▸ h.1, hkeep p (hpe ▸ h.2)⟩
    · rw [hps, Function.update_of_ne hc] at hcp
      have h := hi.child c p hcp hp0
      exact ⟨hsub h.1, hkeep p h.2⟩

theorem ListenInv.socket (hi : ListenInv s) (ha : s.unused a) :
    ListenInv { s.set a {} with files := a :: s.files } := by
  have h : ListenInv (s.set a {}) := by
    apply hi.alloc ha _ rfl (Or.inl rfl)
    exact fun h => absurd rfl h
  exact (grows_files _ (a :: s.files)).inv h

theorem ListenInv.listenSyn (hi : ListenInv s) (h : s.table l = some e) (ready : Bool)
    (rand : BitVec 32) (tcp : TCPHeader) {child : Option ℕ} (hc : ∀ c ∈ child, s.unused c) :
    ListenInv (tcpHandleListenSynOn s l e ready rand tcp child) := by
  unfold tcpHandleListenSynOn
  split
  · exact hi
  · cases child with
    | none => exact hi
    | some c =>
      apply hi.alloc (hc c rfl) _ (tcpRegisterSocket_table _ c)
        (Or.inr (tcpRegisterSocket_set s c _))
      intro _
      refine ⟨mem_tcpRegisterSocket.mpr (Or.inr rfl), ?_⟩
      rw [TcpSys.parents_of h]
      simp

theorem ListenInv.segment (hi : ListenInv s) (h : s.table a = some e) (ipv6 ready : Bool)
    (tcp : TCPHeader) (payload : List UInt8) (rand : BitVec 32) {child : Option ℕ}
    (hc : ∀ c ∈ child, s.unused c) :
    ListenInv (tcpSegment s a e ipv6 ready tcp payload rand child) := by
  unfold tcpSegment
  split
  · split
    · exact hi.listenSyn h ready rand tcp hc
    · exact hi
  · have hg : Grows s (s.set a { e with sock := tcpHandlePacket ipv6 ready e.sock tcp payload }) :=
      grows_set h rfl
    dsimp only
    split
    · exact (hg.trans (tcpQueueAcceptOn_grows _ _ _)).inv hi
    · exact hg.inv hi

theorem resetChild_eq (ready : ℕ → Bool) (l b : ℕ) (table : ℕ → Option TcpSocket) (c : ℕ) :
    resetChild ready l b table c = (table c).map fun e =>
      if c = b ∧ e.parent = l then e.reset (ready c) else e := by
  unfold resetChild
  by_cases hc : c = b
  · subst hc
    cases h : table c with
    | none => simp [h]
    | some e => by_cases hp : e.parent = l <;> simp [hp, h]
  · have hid : (fun e : TcpSocket =>
        if c = b ∧ e.parent = l then e.reset (ready c) else e) = id := by
      funext e
      simp [hc]
    rw [hid, Option.map_id_fun, id]
    cases table b with
    | none => rfl
    | some e => by_cases hp : e.parent = l <;> simp [hp, hc]

@[simp] theorem TcpSocket.reset_state (e : TcpSocket) (ready : Bool) :
    (e.reset ready).sock.pcb.state = .closed := rfl

/-- The loop resets the sockets of the list that have the parent, and no other. -/
theorem resetChildren_eq (ready : ℕ → Bool) (l : ℕ) {list : List ℕ}
    (table : ℕ → Option TcpSocket) (c : ℕ) (hn : list.Nodup) :
    resetChildren ready l list table c = (table c).map fun e =>
      if c ∈ list ∧ e.parent = l then e.reset (ready c) else e := by
  induction list with
  | nil => simp [resetChildren]
  | cons b list ih =>
    have hb : b ∉ list := (List.nodup_cons.mp hn).1
    have ih := ih (List.nodup_cons.mp hn).2
    unfold resetChildren at ih ⊢
    rw [List.foldr_cons, resetChild_eq, ih, Option.map_map]
    apply congrArg (fun f => (table c).map f)
    funext e
    by_cases hp : e.parent = l
    · by_cases hc : c = b
      · simp [hc, hb, hp]
      · by_cases hm : c ∈ list <;> simp [hc, hm, hp]
    · simp [hp]

/-- What a close leaves of another socket: a registered child of a listener is reset. -/
theorem close_table (hi : ListenInv s) (hl : s.table l = some e) (hf : l ∈ s.files)
    (hc : c ≠ l) (ready : ℕ → Bool) :
    (tcpStep s (.close l ready)).table c = (s.table c).map fun e' =>
      if e.sock.pcb.state = .listen ∧ c ∈ s.tcpSocketList ∧ e'.parent = l then
        e'.reset (ready c)
      else e' := by
  simp only [tcpStep, TcpSys.onFile, hl, if_pos hf, auTCPFileClose, tcpUnregisterSocket,
    Function.update_of_ne hc, auTCPCloseAll]
  split
  · next hs =>
    dsimp only [TcpSys.set_tcpSocketList]
    rw [resetChildren_eq ready l _ c hi.nodup]
    simp [TcpSys.set, hc, hs]
  · next hs =>
    simp [TcpSys.set, hc, hs]

theorem close_table_self (hl : s.table l = some e) (hf : l ∈ s.files) (ready : ℕ → Bool) :
    (tcpStep s (.close l ready)).table l = none := by
  simp [tcpStep, TcpSys.onFile, hl, hf, auTCPFileClose]

theorem close_list (hl : s.table l = some e) (hf : l ∈ s.files) (ready : ℕ → Bool) :
    (tcpStep s (.close l ready)).tcpSocketList = s.tcpSocketList.erase l := by
  simp only [tcpStep, TcpSys.onFile, hl, if_pos hf, auTCPFileClose, tcpUnregisterSocket,
    auTCPCloseAll]
  split <;> rfl

/-- No parent pointer changes. -/
theorem close_parents (hi : ListenInv s) (hl : s.table l = some e) (hf : l ∈ s.files)
    (ready : ℕ → Bool) :
    (tcpStep s (.close l ready)).parents = Function.update s.parents l none := by
  funext c
  by_cases hc : c = l
  · subst hc
    simp [TcpSys.parents, close_table_self hl hf]
  · rw [Function.update_of_ne hc]
    unfold TcpSys.parents
    rw [close_table hi hl hf hc, Option.map_map]
    apply congrArg (fun f => (s.table c).map f)
    funext e'
    simp only [Function.comp_apply]
    split <;> rfl

/-! ## The invariant over runs -/

theorem noDangling_iff : NoDangling s ↔
    ∀ c p, s.parents c = some p → p ≠ 0 → s.parents p ≠ none := by
  constructor
  · intro h c p hp hp0
    obtain ⟨e, he, rfl⟩ := Option.map_eq_some_iff.mp hp
    exact TcpSys.parents_ne_none.mpr (h c e he hp0)
  · intro h c e he hp0
    exact TcpSys.parents_ne_none.mp (h c e.parent (TcpSys.parents_of he) hp0)

theorem ListenInv.noDangling (hi : ListenInv s) : NoDangling s :=
  noDangling_iff.mpr fun c p hp hp0 => (hi.child c p hp hp0).2

theorem ListenInv.ne_zero (hi : ListenInv s) (ha : s.table a ≠ none) : a ≠ 0 := by
  intro h
  exact ha (h ▸ hi.zero)

/-- Every child is registered, so the list shows whether a socket is a parent. -/
theorem ListenInv.childless_iff (hi : ListenInv s) (ha : s.table a ≠ none) :
    Childless s a ↔ ∀ c, c ≠ a → s.parents c ≠ some a := by
  have ha0 := hi.ne_zero ha
  constructor
  · intro h c hc hp
    exact h c (hi.child c a hp ha0).1 hc ((parentOf_eq_iff ha0).mpr hp)
  · intro h c _ hc hp
    exact h c hc ((parentOf_eq_iff ha0).mp hp)

/-- The end of a socket leaves no dangling pointer exactly when it was no parent. -/
theorem ListenInv.noDangling_close_iff (hi : ListenInv s) (ha : s.table a ≠ none)
    (hf : a ∈ s.files) (ready : ℕ → Bool) :
    NoDangling (tcpStep s (.close a ready)) ↔ Childless s a := by
  obtain ⟨e, he⟩ := Option.ne_none_iff_exists'.mp ha
  have ha0 := hi.ne_zero ha
  rw [hi.childless_iff ha, noDangling_iff, close_parents hi he hf]
  constructor
  · intro h c hc hp
    rw [← Function.update_of_ne hc none s.parents] at hp
    exact h c a hp ha0 (Function.update_self _ _ _)
  · intro h c p hp hp0
    by_cases hc : c = a
    · rw [hc, Function.update_self] at hp
      exact absurd hp (by simp)
    · rw [Function.update_of_ne hc] at hp
      have hpa : p ≠ a := fun hpa => h c hc (hpa ▸ hp)
      rw [Function.update_of_ne hpa]
      exact (hi.child c p hp hp0).2

theorem ListenInv.close (hi : ListenInv s) (ha : s.table a = some e) (hf : a ∈ s.files)
    (hn : Childless s a) (ready : ℕ → Bool) : ListenInv (tcpStep s (.close a ready)) where
  zero := by
    have ha0 := hi.ne_zero (Option.ne_none_iff_exists'.mpr ⟨e, ha⟩)
    rw [close_table hi ha hf (Ne.symm ha0), hi.zero]
    rfl
  nodup := by
    rw [close_list ha hf]
    exact hi.nodup.erase a
  listed := by
    rw [close_list ha hf, close_parents hi ha hf]
    intro c hc
    have hm := hi.nodup.mem_erase_iff.mp hc
    rw [Function.update_of_ne hm.1]
    exact hi.listed c hm.2
  child := by
    have ha' : s.table a ≠ none := Option.ne_none_iff_exists'.mpr ⟨e, ha⟩
    have hd := noDangling_iff.mp ((hi.noDangling_close_iff ha' hf ready).mpr hn)
    intro c p hp hp0
    refine ⟨?_, hd c p hp hp0⟩
    rw [close_parents hi ha hf] at hp
    have hc : c ≠ a := by
      intro hc
      simp [hc] at hp
    rw [Function.update_of_ne hc] at hp
    rw [close_list ha hf, hi.nodup.mem_erase_iff]
    exact ⟨hc, (hi.child c p hp hp0).1⟩

/-- A listener's close resets exactly its backlog when none of its children was accepted. -/
theorem ListenInv.closeRight_iff (hi : ListenInv s) (hl : Listening s l) (ready : ℕ → Bool) :
    CloseRight s l ready ↔ NoneAccepted s l := by
  obtain ⟨hf, e, he, hs⟩ := hl
  have hl0 := hi.ne_zero (Option.ne_none_iff_exists'.mpr ⟨e, he⟩)
  constructor
  · intro h c hc hcl e' he' hp
    by_contra hn
    obtain ⟨hst, hw⟩ := not_or.mp hn
    obtain ⟨e'', ht, _, hkeep⟩ := h c e' hcl he'
    rw [close_table hi he hf hcl, he', Option.map_some, if_pos ⟨hs, hc, hp⟩,
      hkeep hw hst] at ht
    have hr : (e'.reset (ready c)).sock.pcb.state = e'.sock.pcb.state := by
      rw [Option.some.inj ht]
    exact hst (hr.symm.trans (TcpSocket.reset_state e' (ready c)))
  · intro h c e' hcl he'
    rw [close_table hi he hf hcl, he', Option.map_some]
    refine ⟨_, rfl, ?_, ?_⟩
    · intro ⟨e₁, _, h₁, _, hp, _⟩
      have hpe : e'.parent = l := by
        rw [← hp, Option.some.inj (he'.symm.trans h₁)]
      have hc := (hi.child c l (hpe ▸ TcpSys.parents_of he') hl0).1
      rw [if_pos ⟨hs, hc, hpe⟩, TcpSocket.reset_state]
    · intro hw hst
      apply if_neg
      intro ⟨_, hc, hp⟩
      exact (h c hc hcl e' he' hp).elim hst hw

/-- The call of a function on an open socket that only lets the sockets grow. -/
theorem ListenInv.onFile (hi : ListenInv s) {f : TcpSocket → TcpSys}
    (hf : ∀ e, s.table a = some e → Grows s (f e)) : ListenInv (s.onFile a f) := by
  unfold TcpSys.onFile
  split
  · next e he =>
    split
    · exact (hf e he).inv hi
    · exact hi
  · exact hi

theorem ListenInv.step (hi : ListenInv s) (act : TcpAct) (h : CloseOk s act) :
    ListenInv (tcpStep s act) := by
  cases act with
  | socket a =>
    simp only [tcpStep]
    split
    · next ha => exact hi.socket ha
    · exact hi
  | bind a port obtained => exact hi.onFile fun e he => auTCPBind_grows he port obtained
  | listen a backlog => exact hi.onFile fun e he => auTCPListenOn_grows he backlog
  | connect a nonblock route ready rand obtained =>
    exact hi.onFile fun e he => auTCPConnectTo_grows he nonblock route ready rand obtained
  | own a call => exact hi.onFile fun e he => grows_set he rfl
  | segment a ipv6 ready tcp payload rand child =>
    simp only [tcpStep]
    split
    · next e he =>
      split
      · apply hi.segment he
        intro c hc
        exact (Option.mem_filter_iff.mp hc).2
      · exact hi
    · exact hi
  | accept l opened => exact hi.onFile fun e he => auTCPAccept_grows he opened
  | close a ready =>
    by_cases hf : a ∈ s.files
    · cases ha : s.table a with
      | none =>
        simp only [tcpStep, TcpSys.onFile, ha]
        exact hi
      | some e => exact hi.close ha hf (h hf) ready
    · simp only [tcpStep, TcpSys.onFile, if_neg hf]
      split <;> exact hi

theorem ListenInv.init : ListenInv {} where
  zero := rfl
  nodup := List.nodup_nil
  listed := by simp
  child := by simp [TcpSys.parents]

/-- As long as each socket is closed when it is the parent of none, no parent pointer dangles.
The next close of a listener resets exactly its backlog when none of its children was accepted,
and the next close of any socket leaves a dangling pointer when it is a parent. -/
theorem exec_listeners (acts : List TcpAct) (h : Respects CloseOk tcpStep {} acts) :
    NoDangling (run tcpStep {} acts) ∧
      (∀ l ready, Listening (run tcpStep {} acts) l →
        (CloseRight (run tcpStep {} acts) l ready ↔ NoneAccepted (run tcpStep {} acts) l)) ∧
      (∀ a ready, a ∈ (run tcpStep {} acts).files → (run tcpStep {} acts).table a ≠ none →
        (NoDangling (tcpStep (run tcpStep {} acts) (.close a ready)) ↔
          Childless (run tcpStep {} acts) a)) := by
  have hi : ListenInv (run tcpStep {} acts) :=
    Respects.invariant (fun _ act hi ha => hi.step act ha) ListenInv.init h
  exact ⟨hi.noDangling, fun l ready hl => hi.closeRight_iff hl ready,
    fun a ready hf ha => hi.noDangling_close_iff ha hf ready⟩

/-- A client comes to a listener, and the owner takes its connection. -/
def acceptedRun : List TcpAct :=
  let syn : TCPHeader := ⟨0, 0, TCP_FLAGS_SYN, 0⟩
  let ack : TCPHeader := ⟨1, 2, TCP_FLAGS_ACK, 0⟩
  [.socket 1, .bind 1 80 0, .listen 1 1, .segment 1 false true syn [] 1 (some 2),
    .segment 2 false true ack [] 0 none, .accept 1 true]

/-- The connection can end before its listener does. -/
theorem exec_listeners_accepted :
    NoDangling (run tcpStep {} acceptedRun) ∧
      NoDangling (tcpStep (run tcpStep {} acceptedRun) (.close 2 fun _ => true)) := by
  have h := exec_listeners acceptedRun (by decide +kernel)
  have hf : 2 ∈ (run tcpStep {} acceptedRun).files := by decide +kernel
  have ha : (run tcpStep {} acceptedRun).table 2 ≠ none :=
    TcpSys.parents_ne_none.mp (by decide +kernel)
  exact ⟨h.1, (h.2.2 2 _ hf ha).mpr (by decide +kernel)⟩

/-- Or its listener ends first: the connection is reset, and its parent pointer dangles. -/
theorem not_exec_listeners :
    ¬ (∀ acts l ready, Listening (run tcpStep {} acts) l →
        CloseRight (run tcpStep {} acts) l ready) ∧
      ¬ ∀ acts, NoDangling (run tcpStep {} acts) := by
  have hi : ListenInv (run tcpStep {} acceptedRun) :=
    Respects.invariant (fun _ act hi ha => hi.step act ha) ListenInv.init
      (by decide +kernel : Respects CloseOk tcpStep {} acceptedRun)
  have hs (c : ℕ) (st : TCPState)
      (h : ((run tcpStep {} acceptedRun).table c).map (fun e => e.sock.pcb.state) = some st) :
      ∃ e, (run tcpStep {} acceptedRun).table c = some e ∧ e.sock.pcb.state = st :=
    Option.map_eq_some_iff.mp h
  obtain ⟨e₁, h₁, hs₁⟩ := hs 1 .listen (by decide +kernel)
  obtain ⟨e₂, h₂, hs₂⟩ := hs 2 .established (by decide +kernel)
  have hp : e₂.parent = 1 := by
    have hp : (run tcpStep {} acceptedRun).parents 2 = some 1 := by decide +kernel
    exact Option.some.inj ((TcpSys.parents_of h₂).symm.trans hp)
  constructor
  · intro h
    have hl : Listening (run tcpStep {} acceptedRun) 1 := ⟨by decide +kernel, e₁, h₁, hs₁⟩
    have hn := (hi.closeRight_iff hl _).mp (h acceptedRun 1 (fun _ => true) hl)
    apply (hn 2 (by decide +kernel) (by decide) e₂ h₂ hp).elim
    · intro hc
      exact absurd (hs₂.symm.trans hc) (by decide)
    · intro ⟨_, _, _, _, _, hf, _⟩
      exact hf (by decide +kernel)
  · intro h
    have h := noDangling_iff.mp (h (acceptedRun ++ [.close 1 fun _ => true]))
    exact h 2 1 (by decide +kernel) (by decide) (by decide +kernel)

end Xeneva.Net
