import Xeneva.Shell.Keeps

/-!
# Texts are run in arenas of their own
-/

namespace Xeneva.Shell

open Xeneva.Base Xeneva.Base.Prg Function

variable {W α β : Type} {P : Mem → Prop} {H : Host W} {run : Tree → Sh W ℤ} {s₀ s s' : St W}

/-- The nodes of a live tree keep what they find. -/
def RunKeeps (run : Tree → Sh W ℤ) : Prop := ∀ t, Keeps (Live t.gen) (run t)

theorem keeps_execList (hrun : RunKeeps run) (gen : ℕ) (l : List Node) :
    Keeps (Live gen) (execList H run gen l) := by
  induction l with
  | nil => exact quiet_getStatus.keeps
  | cons n next ih =>
    unfold execList
    apply (quiet_ask _).keeps.bind
    intro stop
    apply Keeps.ite
    · exact ((quiet_setFlow _).bind fun _ => quiet_getStatus).keeps
    · apply (hrun ⟨gen, n :: next⟩).bind
      intro _
      exact quiet_getFlow.keeps.bind fun _ => quiet_getStatus.keeps.ite ih

/-! ### Arenas -/

theorem TableOk.push {live : List Arena} {t : FuncTable} (h : TableOk live t) (ar : Arena) :
    TableOk (ar :: live) t :=
  fun k hk => Or.inr (h k hk)

/-- A new entry is owned by the arena that is run, which no live one is younger than. -/
theorem TableOk.set {live : List Arena} {t : FuncTable} (h : TableOk live t) (name : Text)
    {body : Tree} {o : Option ℕ} (ho : Owned live o body.gen) :
    TableOk live (funcSet t name body o) := by
  unfold funcSet
  split
  · exact h
  · split
    · exact update_forall (P := Slot.OwnedIn live) h _ fun _ => ho
    · split
      · exact h
      · exact update_forall (P := Slot.OwnedIn live) h _ fun _ => ho

/-- The purge of the youngest arena leaves what is owned by the others. -/
theorem TableOk.purge {live : List Arena} {ar : Arena} {t : FuncTable}
    (h : TableOk (ar :: live) t) : TableOk live (funcPurge t (some ar.addr)) := by
  unfold funcPurge
  split
  · rename_i h0
    intro k hk
    have hcount : usedCount t.slots = 0 := by rw [← t.count, h0]
    have hk0 := Finset.sum_eq_zero_iff.mp hcount k (Finset.mem_univ k)
    simp [hk] at hk0
  · intro k hk
    have hfuel : usedCount t.slots + (128 - 0) ≤ 256 := by
      have := t.lt
      omega
    have hclean : ¬ ((purged t (some ar.addr)).1 k).val.owner = some ar.addr := by
      apply of_decide_eq_false
      exact purgeFrom_clean 256 (t.slots, t.nfuncs) 0 t.lt hfuel
        (fun j hj => absurd hj (Nat.not_lt_zero _)) k hk
    have hold : Slot.OwnedIn (ar :: live) ((purged t (some ar.addr)).1 k) :=
      purgeFrom_forall Slot.ownedIn_free 256 (t.slots, t.nfuncs) 0 h k
    obtain ⟨ho, _⟩ | ho := hold hk
    · exact absurd ho hclean
    · exact ho

/-- `s` comes after `s₀` with one more arena, which is still live. -/
structure Within (ar : Arena) (s₀ s : St W) : Prop where
  live : s.mem.live = ar :: s₀.mem.live
  calls : s.mem.calls = s₀.mem.calls
  ledger : ∃ tr, s.hist = s₀.hist ++ tr ∧ Ledger [] tr
  sound : Inv s₀ → ∀ e ∈ s.hist, e.Sound
  table : Inv s₀ → TableOk s.mem.live s.funcs

/-- A note of the table and the arenas, in a state where neither dangles. -/
theorem sound_noted {s : St W} (hh : ∀ e ∈ s.hist, e.Sound) (ht : TableOk s.mem.live s.funcs)
    (hc : ∀ g ∈ s.mem.calls, g ∈ gens s.mem.live) : ∀ e ∈ (noted s).hist, e.Sound :=
  forall_snoc hh (sound_memory ht hc)

theorem ledger_noted {hist : List Event} (h : ∃ tr, s.hist = hist ++ tr ∧ Ledger [] tr) :
    ∃ tr, (noted s).hist = hist ++ tr ∧ Ledger [] tr := by
  obtain ⟨tr, htr, hl⟩ := h
  refine ⟨tr ++ [.memory s.funcs s.mem.live s.mem.calls], ?_, hl.memory _ _ _⟩
  simp [noted, htr]

theorem Inv.calls_push (h : Inv s) (ar : Arena) : ∀ g ∈ s.mem.calls, g ∈ gens (ar :: s.mem.live) :=
  fun g hg => List.mem_cons_of_mem _ (h.calls g hg)

theorem arenaNew_andThen {f : Arena → Sh W β} {Q : β → St W → Prop} {C : St W → Prop}
    (hf : ∀ ar s', s'.io = s.io → s'.mem = { s.mem with live := ar :: s.mem.live } →
      s'.funcs = s.funcs → Within ar s s' → Ends (f ar) s' Q C) :
    Ends (arenaNew H >>= f) s Q C := by
  apply hf ⟨H.arenaAddr s.mem.live, s.nextGen⟩ (noted
    { s with mem := { s.mem with live := _ :: s.mem.live }, nextGen := s.nextGen + 1 }) rfl rfl rfl
  refine ⟨rfl, rfl, ledger_noted ⟨[], by simp, Ledger.nil⟩, fun hi => ?_, fun hi => ?_⟩
  · exact sound_noted hi.sound (hi.table.push _) (hi.calls_push _)
  · exact hi.table.push _

theorem Within.same {ar : Arena} (h : Within ar s₀ s) (hl : s'.mem.live = s.mem.live)
    (hc : s'.mem.calls = s.mem.calls) (hf : s'.funcs = s.funcs) (hh : s'.hist = s.hist) :
    Within ar s₀ s' :=
  ⟨hl.trans h.live, hc.trans h.calls, hh ▸ h.ledger, fun hi => hh ▸ h.sound hi,
    fun hi => hl ▸ hf ▸ h.table hi⟩

/-- Runs the tree of the youngest arena. -/
theorem Within.runs {ar : Arena} {m : Sh W α} (h : Within ar s₀ s) (hm : Keeps (Live ar.gen) m)
    (hcur : s.mem.curArena = some ar.addr)
    (hprog : Inv s₀ → ∀ p, s.mem.prog = some p → p.gen ∈ gens s.mem.live) :
    Ends m s (fun _ s' => s'.io = s.io ∧ s'.mem = s.mem ∧ Within ar s₀ s')
      (Cut (fun _ => True) s₀) := by
  have hlive : Live ar.gen s.mem := by
    unfold Live
    rw [h.live]
    exact List.mem_cons_self
  have hinv : Inv s₀ → Inv s := by
    intro hi
    refine ⟨h.sound hi, h.table hi, ?_, hprog hi, ?_⟩
    · rw [hcur, h.live]
      rfl
    · rw [h.live, h.calls]
      exact hi.calls_push ar
  apply (hm s).mono
  · intro a s' hs
    obtain ⟨tr, htr, hl⟩ := h.ledger
    obtain ⟨tr', htr', hl'⟩ := hs.2.ledger
    refine ⟨hs.1, hs.2.mem, hs.2.mem ▸ h.live, hs.2.mem ▸ h.calls, ?_, fun hi => ?_, fun hi => ?_⟩
    · exact ⟨tr ++ tr', by rw [htr', htr, List.append_assoc], hl.append hl'⟩
    · exact (hs.2.inv hlive (hinv hi)).sound
    · exact (hs.2.inv hlive (hinv hi)).table
  · intro s' hs _ hi
    exact hs hlive (hinv hi)

/-- The functions of the youngest arena are dropped. -/
theorem Within.purge {ar : Arena} (h : Within ar s₀ s) :
    Within ar s₀ (noted { s with funcs := funcPurge s.funcs (some ar.addr) }) := by
  have ht : Inv s₀ → TableOk s.mem.live (funcPurge s.funcs (some ar.addr)) := by
    intro hi
    have hpurge := TableOk.purge (h.live ▸ h.table hi)
    rw [h.live]
    exact hpurge.push ar
  refine ⟨h.live, h.calls, ledger_noted h.ledger, fun hi => ?_, ht⟩
  have hc : ∀ g ∈ s.mem.calls, g ∈ gens s.mem.live := by
    rw [h.live, h.calls]
    exact hi.calls_push ar
  exact sound_noted (s := { s with funcs := funcPurge s.funcs (some ar.addr) }) (h.sound hi) (ht hi)
    hc

/-- The youngest arena is freed once the table does not need it. -/
theorem Within.free {ar : Arena} (h : Within ar s₀ s)
    (hm : s.mem = { s₀.mem with live := ar :: s₀.mem.live })
    (ht : Inv s₀ → TableOk s₀.mem.live s.funcs) :
    Since (fun _ => True) [] s₀
      (noted { s with mem := { s.mem with live := s.mem.live.erase ar } }) := by
  have hmem : { s.mem with live := s.mem.live.erase ar } = s₀.mem := by
    rw [hm]
    simp
  rw [hmem]
  refine ⟨rfl, ledger_noted h.ledger, fun _ hi => ⟨?_, ht hi, hi.cur, hi.prog, hi.calls⟩⟩
  exact sound_noted (s := { s with mem := s₀.mem }) (h.sound hi) (ht hi) hi.calls

theorem update_andThen {g : St W → St W} {f : Unit → Sh W β} {Q : β → St W → Prop}
    {C : St W → Prop} (h : Ends (f ()) (g s) Q C) : Ends (Prg.update g >>= f) s Q C := h

theorem read_andThen {g : St W → α} {f : α → Sh W β} {Q : β → St W → Prop}
    {C : St W → Prop} (h : Ends (f (g s)) s Q C) : Ends (Prg.read g >>= f) s Q C := h

theorem quiet_dropFlow (propagate : Bool) : Quiet (dropFlow H propagate) := by
  unfold dropFlow
  apply quiet_getFlow.bind
  intro flow
  apply (Quiet.when (quiet_setFlow _)).bind
  intro _
  apply quiet_getFlow.bind
  intro flow'
  exact ((quiet_ask _).bind fun _ => Quiet.when (quiet_setFlow _)).ite (Quiet.pure _)

/-- A text that does not parse: its arena is freed again. -/
theorem keeps_badText (a : α) :
    Keeps (fun _ => True) (do
      let ar ← arenaNew H
      arenaFree ar
      pure a) := by
  intro s
  apply arenaNew_andThen
  intro ar s₁ hio hmem hfuncs hw
  apply update_andThen
  exact ⟨hio, hw.free hmem fun hi => hfuncs ▸ hi.table⟩

theorem keeps_execString (hrun : RunKeeps run) (text : Text) (propagate : Bool) :
    Keeps (fun _ => True) (execString H run text propagate) := by
  unfold execString
  split
  · exact Keeps.pure 1
  · exact keeps_badText 1
  · rename_i l _ _ _
    intro s
    apply arenaNew_andThen
    intro ar s₁ hio₁ hmem₁ _ hw₁
    apply read_andThen
    apply update_andThen
    refine Ends.bind (Within.runs ?_ (keeps_execList hrun ar.gen l) ?_ ?_) ?_
    · exact hw₁.same rfl rfl rfl rfl
    · rfl
    · intro hi p hp
      change p.gen ∈ gens s₁.mem.live
      change s₁.mem.prog = some p at hp
      rw [hmem₁] at hp ⊢
      exact List.mem_cons_of_mem _ (hi.prog p hp)
    intro _ s₂ ⟨hio₂, hmem₂, hw₂⟩
    apply read_andThen
    apply update_andThen
    apply update_andThen
    apply ((quiet_dropFlow propagate _).mono (fun _ _ h => h) fun _ h => h.elim).bind
    intro _ s₃ ⟨hio₃, hmem₃, hfuncs₃, hhist₃⟩
    apply update_andThen
    have hlive₂ : s₂.mem.live = ar :: s.mem.live := hw₂.live
    refine ⟨(hio₃.trans hio₂).trans hio₁, Within.free (hw₂.purge.same ?_ ?_ hfuncs₃ hhist₃) ?_ ?_⟩
    · rw [hmem₃]
    · rw [hmem₃]
    · rw [hmem₃]
      change ({ s₂.mem with curArena := s₁.mem.curArena } : Mem) = _
      rw [hmem₂, hmem₁]
    · intro hi
      rw [hfuncs₃]
      exact TableOk.purge (hlive₂ ▸ hw₂.table hi)

end Xeneva.Shell

/-!
# Scripts and expansions keep what they found
-/

namespace Xeneva.Shell

open Xeneva.Base Xeneva.Base.Prg Function

variable {W α β : Type} {P : Mem → Prop} {H : Host W} {run : Tree → Sh W ℤ} {s₀ s s' : St W}

/-! ### Scripts -/

theorem keeps_runProg (hrun : RunKeeps run) (p : Prog) (steps : ℕ) :
    ∀ i, Keeps (Live p.gen) (runProg H run p steps i) := by
  induction steps with
  | zero => exact fun i => Keeps.cutoff
  | succ steps ih =>
    intro i
    unfold runProg
    apply quiet_getStatus.keeps.ite
    apply (quiet_ask _).keeps.bind
    intro stop
    apply Keeps.ite
    · exact ((quiet_setFlow _).bind fun _ => quiet_getStatus).keeps
    · apply (hrun ⟨p.gen, p.st[i]?.toList⟩).bind
      intro _
      apply quiet_getFlow.keeps.bind
      intro flow
      apply Keeps.ite
      · apply (Quiet.read _).keeps.bind
        intro n
        exact (quiet_setFlow _).keeps.bind fun _ => ih n.toNat
      · exact quiet_getFlow.keeps.bind fun _ => quiet_getStatus.keeps.ite (ih (i + 1))

theorem keeps_runBody (hrun : RunKeeps run) (steps : ℕ) (bat : Bool) (p : Prog)
    (root : List Node) : Keeps (Live p.gen) (runBody H run steps bat p root) :=
  (keeps_runProg hrun p steps 0).ite (keeps_execList hrun p.gen root)

theorem quiet_endInterrupt : Quiet (endInterrupt H) := by
  unfold endInterrupt
  apply quiet_getIo.bind
  intro io
  exact ((quiet_ask _).bind fun _ => Quiet.when (quiet_onWorld _)).ite (Quiet.pure _)

/-- Where a text is entered, its arena and its statements are those that are run. -/
theorem enterText_ends (ar : Arena) (prog : Prog) (bat : Bool) (argv : List Text) (s : St W) :
    Ends (enterText H ar prog bat argv) s
      (fun sv s' => sv.prog = s.mem.prog ∧ sv.arena = s.mem.curArena ∧ sv.io = s.io ∧
        s'.io = { s.io with loopdepth := 0, fp := s.io.fp + 1, scriptdepth := s.io.scriptdepth + 1 } ∧
        s'.mem = { s.mem with prog := some prog, curArena := some ar.addr } ∧
        s'.funcs = s.funcs ∧ s'.hist = s.hist)
      fun _ => False :=
  ⟨rfl, rfl, rfl, rfl, rfl, rfl, rfl⟩

/-- Where a text is left, the functions of its arena are dropped and the rest is restored. -/
theorem leaveText_ends {ar : Arena} (h : Within ar s₀ s) (sv : Saved) :
    Ends (leaveText H ar sv) s
      (fun _ s' =>
        s'.io = { s.io with
          scriptdepth := s.io.scriptdepth - 1, fp := s.io.fp - 1, fdIn := sv.io.fdIn,
          fdOut := sv.io.fdOut, fdErr := sv.io.fdErr, loopdepth := sv.io.loopdepth } ∧
        s'.mem = { s.mem with prog := sv.prog, curArena := sv.arena } ∧
        s'.funcs = funcPurge s.funcs (some ar.addr) ∧ Within ar s₀ s')
      fun _ => False :=
  ⟨rfl, rfl, rfl, h.purge.same rfl rfl rfl rfl⟩

theorem keeps_runTextEx (hrun : RunKeeps run) (steps : ℕ) (text : Text) (bat : Bool)
    (argv : List Text) : Keeps (fun _ => True) (runTextEx H run steps text bat argv) := by
  unfold runTextEx
  apply quiet_getIo.keeps.bind
  intro io
  apply (Keeps.pure 1).ite
  split
  · exact Keeps.pure 1
  · exact keeps_badText 2
  · rename_i root st label _
    intro s
    apply arenaNew_andThen
    intro ar s₁ hio₁ hmem₁ hfuncs₁ hw₁
    rw [getIo_andThen]
    split
    · -- no frame is left: the arena is freed and nothing is run
      apply update_andThen
      exact ⟨hio₁, hw₁.free hmem₁ fun hi => hfuncs₁ ▸ hi.table⟩
    · apply ((enterText_ends ar ⟨ar.gen, st, label⟩ bat argv s₁).mono (fun _ _ h => h)
        fun _ h => h.elim).bind
      intro sv s₂ ⟨hprog, harena, hsvio, hio₂, hmem₂, hfuncs₂, hhist₂⟩
      have hw₂ : Within ar s s₂ :=
        hw₁.same (by rw [hmem₂]) (by rw [hmem₂]) hfuncs₂ hhist₂
      apply (hw₂.runs (keeps_runBody hrun steps bat ⟨ar.gen, st, label⟩ root) (by rw [hmem₂])
        ?_).bind
      · intro _ s₃ ⟨hio₃, hmem₃, hw₃⟩
        apply ((leaveText_ends hw₃ sv).mono (fun _ _ h => h) fun _ h => h.elim).bind
        intro res s₄ ⟨hio₄, hmem₄, hfuncs₄, hw₄⟩
        have hmem : s₄.mem = { s.mem with live := ar :: s.mem.live } := by
          rw [hmem₄, hmem₃, hmem₂, hprog, harena, hmem₁]
        have hio : s₄.io = s.io := by
          rw [hio₄, hio₃, hio₂, hsvio, hio₁]
          simp
        apply update_andThen
        have hfree := hw₄.free hmem fun hi => by
          rw [hfuncs₄]
          exact TableOk.purge (hw₃.live ▸ hw₃.table hi)
        have hend : Keeps (fun _ => True) (endInterrupt H) := quiet_endInterrupt.keeps
        apply hend.andThen hfree fun _ _ => trivial
        intro _ s₅ hio₅ hs₅
        exact ⟨hio₅.trans hio, hs₅⟩
      · intro hi p hp
        rw [hmem₂] at hp
        have hgen : p.gen = ar.gen := congrArg Prog.gen (Option.some.inj hp).symm
        rw [hgen, hw₂.live]
        exact List.mem_cons_self

/-! ### Expansions -/

theorem keeps_readBack (name : Text) : Keeps P (readBack H name) := by
  apply (quiet_ask _).keeps.bind
  intro room
  apply (Keeps.pure none).ite
  intro s
  apply hostOpen_andThen (Since.refl P s)
  intro r s₁ hio₁ hs₁
  split
  · rename_i hr
    rw [if_pos hr] at hs₁
    exact ((quiet_onWorld _).bind fun _ => Quiet.pure _).keeps.last hs₁ hio₁ fun hp _ => hp
  · rename_i hr
    rw [if_neg hr] at hs₁
    apply (quiet_ask _).keeps.andThen (R := P) hs₁ fun hp _ => hp
    intro out s₂ hio₂ hs₂
    apply hostClose_andThen hs₂ List.mem_cons_self
    rw [List.erase_cons_head]
    intro s₃ hio₃ hs₃
    have hio : s₃.io = s.io := (hio₃.trans hio₂).trans hio₁
    exact ((Quiet.when (quiet_onWorld _)).bind fun _ => Quiet.pure out).keeps.last hs₃ hio
      fun hp _ => hp

theorem keeps_cmdSubst (hrun : RunKeeps run) (cmd : Text) : Keeps P (cmdSubst H run cmd) := by
  intro s
  unfold cmdSubst
  rw [getIo_andThen]
  split
  · exact ⟨rfl, Since.refl _ s⟩
  rw [getIo_andThen]
  apply setIo_andThen (Since.refl _ s)
  intro s₁ hio₁ hs₁
  apply hostOpen_andThen hs₁
  intro w s₂ hio₂ hs₂
  split
  · rename_i hw
    rw [if_pos hw] at hs₂
    apply setIo_andThen hs₂
    intro s₃ hio₃ hs₃
    refine ⟨?_, hs₃⟩
    rw [hio₃, hio₂, hio₁]
    simp
  · rename_i hw
    rw [if_neg hw] at hs₂
    rw [getIo_andThen]
    apply setIo_andThen hs₂
    intro s₃ hio₃ hs₃
    apply setIo_andThen hs₃
    intro s₄ hio₄ hs₄
    apply (keeps_execString hrun cmd false).andThen hs₄ fun _ _ => trivial
    intro st s₅ hio₅ hs₅
    apply setIo_andThen hs₅
    intro s₆ hio₆ hs₆
    apply setIo_andThen hs₆
    intro s₇ hio₇ hs₇
    apply hostClose_andThen hs₇ List.mem_cons_self
    rw [List.erase_cons_head]
    intro s₈ hio₈ hs₈
    apply setIo_andThen hs₈
    intro s₉ hio₉ hs₉
    have hio : s₉.io = s.io := by
      rw [hio₉, hio₈, hio₇, hio₆, hio₅, hio₄, hio₃, hio₂, hio₁]
      simp
    apply (quiet_setStatus st).keeps.andThen (R := P) hs₉ fun hp _ => hp
    intro _ s₁₀ hio₁₀ hs₁₀
    exact (keeps_readBack _).last hs₁₀ (hio₁₀.trans hio) fun hp _ => hp

/-- An expansion keeps what it found, through every command substitution. -/
theorem keeps_expand (hrun : RunKeeps run) (e : Ex W α) : Keeps P (expand H run e) := by
  induction e with
  | done a w => exact ((quiet_onWorld _).bind fun _ => Quiet.pure a).keeps
  | cmdSubst cmd w k ih =>
    unfold expand
    apply (quiet_onWorld _).keeps.bind
    intro _
    apply (keeps_cmdSubst hrun cmd).bind
    intro out
    apply quiet_getStatus.keeps.bind
    intro st
    exact (Quiet.read _).keeps.bind fun w' => ih out st w'

theorem keeps_expandString (hrun : RunKeeps run) (text : Text) :
    Keeps P (expandString H run text) :=
  quiet_getStatus.keeps.bind fun _ => (Quiet.read _).keeps.bind fun _ => keeps_expand hrun _

theorem keeps_expandPattern (hrun : RunKeeps run) (text : Text) :
    Keeps P (expandPattern H run text) :=
  quiet_getStatus.keeps.bind fun _ => (Quiet.read _).keeps.bind fun _ => keeps_expand hrun _

theorem keeps_expandWord (hrun : RunKeeps run) (text : Text) :
    Keeps P (expandWord H run text) :=
  quiet_getStatus.keeps.bind fun _ => (Quiet.read _).keeps.bind fun _ => keeps_expand hrun _

theorem keeps_expandWords (hrun : RunKeeps run) (words : List Text) :
    ∀ av, Keeps P (expandWords H run words av) := by
  induction words with
  | nil => exact fun av => Keeps.pure _
  | cons w rest ih =>
    intro av
    unfold expandWords
    apply (keeps_expandWord hrun w).bind
    intro fields
    cases fields with
    | none => exact Keeps.pure none
    | some fields => exact ih (av ++ fields)

end Xeneva.Shell
