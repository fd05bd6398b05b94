import Xeneva.Base.Ledger
import Xeneva.Shell.Script

/-!
# What the interpreter keeps

A function of the interpreter keeps the descriptors and counters it found, closes what it opened but
for what its redirections had no room for, and keeps the function table inside the live arenas.
-/

namespace Xeneva.Shell

open Xeneva.Base Xeneva.Base.Prg Function

variable {W α β : Type}

/-! ### The account of a descriptor -/

/-- An opening pays into the account of its descriptor, a closing takes from it. -/
def Event.pays : Event → ℤ → ℤ
  | .opened fd, h => if fd = h then 1 else 0
  | .redirected _ fd, h => if fd = h then 1 else 0
  | .closed fd, h => if fd = h then -1 else 0
  | .memory _ _ _, _ => 0

/-- The openings that `IoSave` has no room for. -/
def Event.spills : Event → ℤ → ℤ
  | .redirected no fd, h => if 8 ≤ no ∧ fd = h then 1 else 0
  | _, _ => 0

theorem Event.spills_nonneg (e : Event) (h : ℤ) : 0 ≤ e.spills h := by
  cases e with
  | redirected no fd =>
    simp only [Event.spills]
    split <;> omega
  | _ => exact le_rfl

/-- The descriptors `fds` are open, and those that there was no room for. -/
def Ledger (fds : List ℤ) (tr : List Event) : Prop :=
  Solvent Event.pays tr ∧ ∀ h, net Event.pays h tr = fds.count h + net Event.spills h tr

theorem Ledger.nil : Ledger [] [] := ⟨Solvent.nil, fun h => by simp⟩

theorem Ledger.append {fds : List ℤ} {tr tr' : List Event} (h : Ledger fds tr)
    (h' : Ledger [] tr') : Ledger fds (tr ++ tr') := by
  refine ⟨h.1.append h'.1, fun fd => ?_⟩
  have h₁ := h.2 fd
  have h₂ := h'.2 fd
  simp only [net_append, List.count_nil] at *
  omega

theorem Ledger.perm {fds fds' : List ℤ} {tr : List Event} (h : Ledger fds tr)
    (hp : fds.Perm fds') : Ledger fds' tr :=
  ⟨h.1, fun x => hp.count_eq x ▸ h.2 x⟩

theorem Ledger.opened {fds : List ℤ} {tr : List Event} (h : Ledger fds tr) (fd : ℤ) :
    Ledger (fd :: fds) (tr ++ [.opened fd]) := by
  refine ⟨h.1.snoc fun x => ?_, fun x => ?_⟩
  · have h₁ := h.1.net_nonneg x
    simp only [Event.pays]
    split <;> omega
  · have h₁ := h.2 x
    simp only [net_append, net_singleton, Event.pays, Event.spills, List.count_cons, beq_iff_eq]
    split <;> simp <;> omega

theorem Ledger.redirected {fds : List ℤ} {tr : List Event} (h : Ledger fds tr) (no : ℕ) (fd : ℤ) :
    Ledger (if no < 8 then fd :: fds else fds) (tr ++ [.redirected no fd]) := by
  refine ⟨h.1.snoc fun x => ?_, fun x => ?_⟩
  · have h₁ := h.1.net_nonneg x
    simp only [Event.pays]
    split <;> omega
  · have h₁ := h.2 x
    simp only [net_append, net_singleton, Event.pays, Event.spills]
    by_cases hno : no < 8 <;> by_cases hfd : fd = x <;> simp [hno, hfd] <;> omega

theorem Ledger.closed {fds : List ℤ} {tr : List Event} (h : Ledger fds tr) {fd : ℤ}
    (hfd : fd ∈ fds) : Ledger (fds.erase fd) (tr ++ [.closed fd]) := by
  have hpos : 0 < fds.count fd := List.count_pos_iff.mpr hfd
  have hsp : ∀ x, 0 ≤ net Event.spills x tr :=
    fun x => net_nonneg fun e _ => e.spills_nonneg x
  refine ⟨h.1.snoc fun x => ?_, fun x => ?_⟩
  · have h₁ := h.2 x
    have h₂ := hsp x
    simp only [Event.pays]
    split
    · rename_i he
      subst he
      omega
    · omega
  · have h₁ := h.2 x
    simp only [net_append, net_singleton, Event.pays, Event.spills]
    by_cases he : fd = x
    · subst he
      rw [List.count_erase_self]
      simp
      omega
    · rw [List.count_erase_of_ne (Ne.symm he)]
      simp [he]
      omega

theorem Ledger.memory {fds : List ℤ} {tr : List Event} (h : Ledger fds tr) (t : FuncTable)
    (live : List Arena) (calls : List ℕ) : Ledger fds (tr ++ [.memory t live calls]) := by
  refine ⟨h.1.snoc fun x => ?_, fun x => ?_⟩
  · have h₁ := h.1.net_nonneg x
    simp only [Event.pays]
    omega
  · have h₁ := h.2 x
    simp only [net_append, net_singleton, Event.pays, Event.spills]
    omega

/-! ### The function table and the arenas -/

/-- The arena of the parse `g` is that of `owner` or was live before it. -/
def Owned : List Arena → Option ℕ → ℕ → Prop
  | [], _, _ => False
  | ar :: live, o, g => (o = some ar.addr ∧ g ∈ gens (ar :: live)) ∨ Owned live o g

theorem Owned.mem {live : List Arena} {o : Option ℕ} {g : ℕ} (h : Owned live o g) :
    g ∈ gens live := by
  induction live with
  | nil => exact h.elim
  | cons ar live ih =>
    obtain ⟨_, hg⟩ | h := h
    · exact hg
    · exact List.mem_cons_of_mem _ (ih h)

/-- The body of a used slot is in a live arena, which is no younger than its owner. -/
def Slot.OwnedIn (live : List Arena) (x : Slot Func) : Prop :=
  x.used = true → Owned live x.val.owner x.val.body.gen

theorem Slot.ownedIn_free {live : List Arena} (x : Slot Func) (h : x.used = false) :
    x.OwnedIn live := by
  intro hx
  rw [h] at hx
  exact absurd hx Bool.false_ne_true

def TableOk (live : List Arena) (t : FuncTable) : Prop := ∀ k, (t.slots k).OwnedIn live

/-- No body of the table dangles, nor one that is called. -/
def Event.Sound : Event → Prop
  | .memory t live calls =>
    (∀ k, (t.slots k).used = true → (t.slots k).val.body.gen ∈ gens live) ∧
      ∀ g ∈ calls, g ∈ gens live
  | _ => True

structure Inv (s : St W) : Prop where
  sound : ∀ e ∈ s.hist, e.Sound
  table : TableOk s.mem.live s.funcs
  cur : s.mem.curArena = s.mem.live.head?.map Arena.addr
  prog : ∀ p, s.mem.prog = some p → p.gen ∈ gens s.mem.live
  calls : ∀ g ∈ s.mem.calls, g ∈ gens s.mem.live

/-- The arena of the parse `g` is live. -/
def Live (g : ℕ) (m : Mem) : Prop := g ∈ gens m.live

theorem sound_memory {s : St W} (ht : TableOk s.mem.live s.funcs)
    (hc : ∀ g ∈ s.mem.calls, g ∈ gens s.mem.live) :
    (Event.memory s.funcs s.mem.live s.mem.calls).Sound :=
  ⟨fun k hk => (ht k hk).mem, hc⟩

theorem forall_snoc {P : Event → Prop} {tr : List Event} {e : Event} (h : ∀ x ∈ tr, P x)
    (he : P e) : ∀ x ∈ tr ++ [e], P x := by
  intro x hx
  obtain hx | hx := List.mem_append.mp hx
  · exact h x hx
  · exact List.mem_singleton.mp hx ▸ he

/-! ### Runs that keep what they found -/

variable {P R : Mem → Prop} {fds : List ℤ} {s₀ s s' : St W} {m : Sh W α} {f : α → Sh W β}
  {Q : β → St W → Prop} {C : St W → Prop} {H : Host W}

/-- `s` comes after `s₀` with the same arenas, and with the descriptors `fds` open since. -/
structure Since (P : Mem → Prop) (fds : List ℤ) (s₀ s : St W) : Prop where
  mem : s.mem = s₀.mem
  ledger : ∃ tr, s.hist = s₀.hist ++ tr ∧ Ledger fds tr
  inv : P s₀.mem → Inv s₀ → Inv s

/-- What is known of a run that is cut off. -/
def Cut (P : Mem → Prop) (s₀ s : St W) : Prop := P s₀.mem → Inv s₀ → ∀ e ∈ s.hist, e.Sound

/-- When the arenas satisfy `P`, the run keeps what it found. -/
def Keeps (P : Mem → Prop) (m : Sh W α) : Prop :=
  ∀ s, Ends m s (fun _ s' => s'.io = s.io ∧ Since P [] s s') (Cut P s)

theorem Since.refl (P : Mem → Prop) (s : St W) : Since P [] s s :=
  ⟨rfl, ⟨[], by simp, Ledger.nil⟩, fun _ h => h⟩

theorem Since.trans (h : Since P fds s₀ s) (h' : Since R [] s s')
    (hP : P s₀.mem → Inv s₀ → R s₀.mem) : Since P fds s₀ s' := by
  obtain ⟨tr, htr, hl⟩ := h.ledger
  obtain ⟨tr', htr', hl'⟩ := h'.ledger
  refine ⟨h'.mem.trans h.mem, ⟨tr ++ tr', ?_, hl.append hl'⟩, fun hp hi => ?_⟩
  · rw [htr', htr, List.append_assoc]
  · exact h'.inv (h.mem ▸ hP hp hi) (h.inv hp hi)

theorem Since.cut (h : Since P fds s₀ s) (h' : Cut R s s')
    (hP : P s₀.mem → Inv s₀ → R s₀.mem) : Cut P s₀ s' :=
  fun hp hi => h' (h.mem ▸ hP hp hi) (h.inv hp hi)

/-- A step that changes neither the arenas nor the table nor any descriptor. -/
theorem Since.same (h : Since P fds s₀ s) (hm : s'.mem = s.mem) (hf : s'.funcs = s.funcs)
    (hh : s'.hist = s.hist) : Since P fds s₀ s' := by
  refine ⟨hm.trans h.mem, hh ▸ h.ledger, fun hp hi => ?_⟩
  have hs := h.inv hp hi
  exact ⟨hh ▸ hs.sound, hm ▸ hf ▸ hs.table, hm ▸ hs.cur, hm ▸ hs.prog, hm ▸ hs.calls⟩

theorem Since.perm {fds' : List ℤ} (h : Since P fds s₀ s) (hp : fds.Perm fds') :
    Since P fds' s₀ s := by
  obtain ⟨tr, htr, hl⟩ := h.ledger
  exact ⟨h.mem, ⟨tr, htr, hl.perm hp⟩, h.inv⟩

/-- A step of the descriptors. -/
theorem Since.event {fds' : List ℤ} {e : Event} (h : Since P fds s₀ s) (hm : s'.mem = s.mem)
    (hf : s'.funcs = s.funcs) (hh : s'.hist = s.hist ++ [e]) (he : e.Sound)
    (hl : ∀ tr, Ledger fds tr → Ledger fds' (tr ++ [e])) : Since P fds' s₀ s' := by
  refine ⟨hm.trans h.mem, ?_, fun hp hi => ?_⟩
  · obtain ⟨tr, htr, hled⟩ := h.ledger
    exact ⟨tr ++ [e], by rw [hh, htr, List.append_assoc], hl tr hled⟩
  · have hs := h.inv hp hi
    exact ⟨hh ▸ forall_snoc hs.sound he, hm ▸ hf ▸ hs.table, hm ▸ hs.cur, hm ▸ hs.prog,
      hm ▸ hs.calls⟩

/-! ### How runs are put together -/

/-- A part that keeps what it found, in the middle of a run. -/
theorem Keeps.andThen (h : Keeps R m) (hs : Since P fds s₀ s)
    (hP : P s₀.mem → Inv s₀ → R s₀.mem)
    (hf : ∀ a s', s'.io = s.io → Since P fds s₀ s' → Ends (f a) s' Q (Cut P s₀)) :
    Ends (m >>= f) s Q (Cut P s₀) := by
  apply Ends.bind (Q := fun _ s' => s'.io = s.io ∧ Since P fds s₀ s')
  · apply (h s).mono
    · intro a s' hs'
      exact ⟨hs'.1, hs.trans hs'.2 hP⟩
    · intro s' hs'
      exact hs.cut hs' hP
  · intro a s' hs'
    exact hf a s' hs'.1 hs'.2

/-- A part that keeps what it found, in the end. -/
theorem Keeps.last (h : Keeps R m) (hs : Since P [] s₀ s) (hio : s.io = s₀.io)
    (hP : P s₀.mem → Inv s₀ → R s₀.mem) :
    Ends m s (fun _ s' => s'.io = s₀.io ∧ Since P [] s₀ s') (Cut P s₀) := by
  apply (h s).mono
  · intro a s' hs'
    exact ⟨hs'.1.trans hio, hs.trans hs'.2 hP⟩
  · intro s' hs'
    exact hs.cut hs' hP

theorem Keeps.mono (h : Keeps P m) (hP : ∀ x, R x → P x) : Keeps R m :=
  fun s => h.last (Since.refl R s) rfl fun hp _ => hP _ hp

theorem Keeps.pure (a : α) : Keeps P (pure a : Sh W α) := fun s => ⟨rfl, Since.refl P s⟩

theorem Keeps.bind (h : Keeps P m) (hf : ∀ a, Keeps P (f a)) : Keeps P (m >>= f) := by
  intro s
  apply h.andThen (Since.refl P s) fun hp _ => hp
  intro a s' hio hs
  exact (hf a).last hs hio fun hp _ => hp

theorem Keeps.cutoff : Keeps P (Prg.cutoff : Sh W α) := fun _ _ hi => hi.sound

theorem Keeps.ite {c : Prop} [Decidable c] {m m' : Sh W α} (h : Keeps P m) (h' : Keeps P m') :
    Keeps P (if c then m else m') := by
  split
  · exact h
  · exact h'

theorem Keeps.when {c : Prop} [Decidable c] {m : Sh W Unit} (h : Keeps P m) :
    Keeps P (Prg.when c m) :=
  h.ite (Keeps.pure ())

/-- A run that touches neither the descriptors and counters nor the arenas and the table. -/
def Quiet (m : Sh W α) : Prop :=
  ∀ s, Ends m s (fun _ s' => s'.io = s.io ∧ s'.mem = s.mem ∧ s'.funcs = s.funcs ∧ s'.hist = s.hist)
    fun _ => False

theorem Quiet.keeps (h : Quiet m) : Keeps P m := by
  intro s
  apply (h s).mono
  · intro a s' ⟨hio, hm, hf, hh⟩
    exact ⟨hio, (Since.refl P s).same hm hf hh⟩
  · intro s' hs
    exact hs.elim

theorem Quiet.pure (a : α) : Quiet (pure a : Sh W α) := fun _ => ⟨rfl, rfl, rfl, rfl⟩

theorem Quiet.read (g : St W → α) : Quiet (Prg.read g : Sh W α) := fun _ => ⟨rfl, rfl, rfl, rfl⟩

theorem Quiet.bind (h : Quiet m) (hf : ∀ a, Quiet (f a)) : Quiet (m >>= f) := by
  intro s
  apply (h s).bind
  intro a s' ⟨hio, hm, hfu, hh⟩
  apply (hf a s').mono
  · intro b s'' ⟨hio', hm', hfu', hh'⟩
    exact ⟨hio'.trans hio, hm'.trans hm, hfu'.trans hfu, hh'.trans hh⟩
  · exact fun _ hs => hs

theorem Quiet.ite {c : Prop} [Decidable c] {m m' : Sh W α} (h : Quiet m) (h' : Quiet m') :
    Quiet (if c then m else m') := by
  split
  · exact h
  · exact h'

theorem Quiet.when {c : Prop} [Decidable c] {m : Sh W Unit} (h : Quiet m) :
    Quiet (Prg.when c m) :=
  h.ite (Quiet.pure ())

theorem quiet_getIo : Quiet (getIo : Sh W Io) := Quiet.read _

theorem quiet_getStatus : Quiet (getStatus : Sh W ℤ) := Quiet.read _

theorem quiet_getFlow : Quiet (getFlow : Sh W Flow) := Quiet.read _

theorem quiet_setStatus (v : ℤ) : Quiet (setStatus v : Sh W Unit) := fun _ => ⟨rfl, rfl, rfl, rfl⟩

theorem quiet_setFlow (v : Flow) : Quiet (setFlow v : Sh W Unit) := fun _ => ⟨rfl, rfl, rfl, rfl⟩

theorem quiet_setFlowN (v : ℤ) : Quiet (setFlowN v : Sh W Unit) := fun _ => ⟨rfl, rfl, rfl, rfl⟩

theorem quiet_setBatEcho (v : Bool) : Quiet (setBatEcho v : Sh W Unit) :=
  fun _ => ⟨rfl, rfl, rfl, rfl⟩

theorem quiet_onWorld (g : W → W) : Quiet (onWorld g : Sh W Unit) := fun _ => ⟨rfl, rfl, rfl, rfl⟩

theorem quiet_ask (g : W → α × W) : Quiet (ask g : Sh W α) := fun _ => ⟨rfl, rfl, rfl, rfl⟩

/-! ### Steps of the descriptors and counters -/

theorem getIo_andThen {f : Io → Sh W β} : Ends (getIo >>= f) s Q C ↔ Ends (f s.io) s Q C := Iff.rfl

theorem setIo_andThen {g : Io → Io} {f : Unit → Sh W β} (hs : Since P fds s₀ s)
    (hf : ∀ s', s'.io = g s.io → Since P fds s₀ s' → Ends (f ()) s' Q C) :
    Ends (setIo g >>= f) s Q C :=
  hf _ rfl (hs.same rfl rfl rfl)

theorem hostOpen_andThen {path : Text} {mode : ℕ} {f : ℤ → Sh W β} (hs : Since P fds s₀ s)
    (hf : ∀ fd s', s'.io = s.io → Since P (if fd < 0 then fds else fd :: fds) s₀ s' →
      Ends (f fd) s' Q C) : Ends (hostOpen H path mode >>= f) s Q C := by
  apply hf
  · rfl
  · by_cases hfd : (H.xsHostOpen path mode s.world).1 < 0
    · rw [if_pos hfd]
      exact hs.same rfl rfl (if_pos hfd)
    · rw [if_neg hfd]
      exact hs.event rfl rfl (if_neg hfd) trivial fun tr h => h.opened _

theorem redirOpen_andThen {path : Text} {mode no : ℕ} {f : ℤ → Sh W β} (hs : Since P fds s₀ s)
    (hf : ∀ fd s', s'.io = s.io →
      Since P (if fd < 0 then fds else if no < 8 then fd :: fds else fds) s₀ s' →
      Ends (f fd) s' Q C) : Ends (redirOpen H path mode no >>= f) s Q C := by
  apply hf
  · rfl
  · by_cases hfd : (H.xsHostOpen path mode s.world).1 < 0
    · rw [if_pos hfd]
      exact hs.same rfl rfl (if_pos hfd)
    · rw [if_neg hfd]
      exact hs.event rfl rfl (if_neg hfd) trivial fun tr h => h.redirected _ _

theorem hostClose_andThen {fd : ℤ} {f : Unit → Sh W β} (hs : Since P fds s₀ s) (hfd : fd ∈ fds)
    (hf : ∀ s', s'.io = s.io → Since P (fds.erase fd) s₀ s' → Ends (f ()) s' Q C) :
    Ends (hostClose H fd >>= f) s Q C :=
  hf { s with world := H.xsHostClose fd s.world, hist := s.hist ++ [.closed fd] } rfl
    (hs.event rfl rfl rfl trivial fun _ h => h.closed hfd)

end Xeneva.Shell
