import Xeneva.Shell.KeepsArenas

/-!
# Every node keeps what it found
-/

namespace Xeneva.Shell

open Xeneva.Base Xeneva.Base.Prg Function

variable {W α β : Type} {P : Mem → Prop} {H : Host W} {run : Tree → Sh W ℤ} {s₀ s s' : St W}

/-! ### Redirections -/

/-- The saved standard descriptors, in place of those of `io`. -/
def IoSave.std (sv : IoSave) (io : Io) : Io :=
  { io with fdIn := sv.fdIn, fdOut := sv.fdOut, fdErr := sv.fdErr }

theorem IoSave.std_store (sv : IoSave) (r : Redir) (fd : ℤ) (io : Io) :
    sv.std (r.store fd io) = sv.std io := by
  unfold Redir.store
  split
  · rfl
  · split <;> rfl

theorem closeAll_andThen {fds : List ℤ} {f : Unit → Sh W β} {Q : β → St W → Prop}
    {C : St W → Prop} (opened : List ℤ) :
    ∀ {s : St W}, Since P (opened ++ fds) s₀ s →
      (∀ s', s'.io = s.io → Since P fds s₀ s' → Ends (f ()) s' Q C) →
      Ends (closeAll H opened >>= f) s Q C := by
  induction opened with
  | nil => exact fun hs hf => hf _ rfl hs
  | cons fd rest ih =>
    intro s hs hf
    have hassoc : Ends (hostClose H fd >>= fun _ => closeAll H rest >>= f) s Q C := by
      apply hostClose_andThen hs List.mem_cons_self
      intro s₁ hio₁ hs₁
      rw [List.cons_append, List.erase_cons_head] at hs₁
      apply ih hs₁
      intro s₂ hio₂ hs₂
      exact hf s₂ (hio₂.trans hio₁) hs₂
    exact hassoc

theorem restoreIo_andThen {sv : IoSave} {f : Unit → Sh W β} {Q : β → St W → Prop}
    {C : St W → Prop} (hs : Since P sv.opened s₀ s)
    (hf : ∀ s', s'.io = sv.std s.io → Since P [] s₀ s' → Ends (f ()) s' Q C) :
    Ends (restoreIo H sv >>= f) s Q C := by
  unfold restoreIo
  rw [bind_bind]
  have hs' : Since P (sv.opened ++ []) s₀ s := by rwa [List.append_nil]
  apply closeAll_andThen sv.opened hs'
  intro s₁ hio₁ hs₁
  apply setIo_andThen hs₁
  intro s₂ hio₂ hs₂
  exact hf s₂ (by rw [hio₂, hio₁]; rfl) hs₂

theorem keeps_redirPath (hrun : RunKeeps run) (r : Redir) : Keeps P (redirPath H run r) :=
  (Keeps.pure _).ite (keeps_expandString hrun r.target)

/-- Redirections that are applied change the standard descriptors only, and what they opened is in
the `IoSave`. Those that fail restore what was saved. -/
def Applied (P : Mem → Prop) (s₀ : St W) (sv : IoSave) (io : Io) : Option IoSave → St W → Prop
  | none, s => s.io = sv.std io ∧ Since P [] s₀ s
  | some sv', s =>
    (∀ io, sv'.std io = sv.std io) ∧ sv.std s.io = sv.std io ∧ Since P sv'.opened s₀ s

theorem Applied.of {sv sv₁ : IoSave} {io io₁ : Io} {res : Option IoSave}
    (h : Applied P s₀ sv₁ io₁ res s) (hsv : ∀ io, sv₁.std io = sv.std io)
    (hio : sv.std io₁ = sv.std io) : Applied P s₀ sv io res s := by
  cases res with
  | none => exact ⟨h.1.trans ((hsv io₁).trans hio), h.2⟩
  | some sv' =>
    refine ⟨fun io => (h.1 io).trans (hsv io), ?_, h.2.2⟩
    rw [← hsv s.io, h.2.1, hsv, hio]

theorem applyRedirsFrom_ends (hrun : RunKeeps run) (rs : List Redir) :
    ∀ {s : St W} (sv : IoSave), Since P sv.opened s₀ s →
      Ends (applyRedirsFrom H run rs sv) s (Applied P s₀ sv s.io) (Cut P s₀) := by
  induction rs with
  | nil => exact fun _ hs => ⟨fun _ => rfl, rfl, hs⟩
  | cons r next ih =>
    intro s sv hs
    -- the rest of the redirections, after a step that changes only the standard descriptors
    have hrest : ∀ {sv₁ : IoSave} {s₁ : St W}, Since P sv₁.opened s₀ s₁ →
        (∀ io, sv₁.std io = sv.std io) → sv.std s₁.io = sv.std s.io →
        Ends (applyRedirsFrom H run next sv₁) s₁ (Applied P s₀ sv s.io) (Cut P s₀) :=
      fun hs₁ hsv hio => (ih _ hs₁).mono (fun _ _ h => h.of hsv hio) fun _ h => h
    unfold applyRedirsFrom
    apply (keeps_redirPath hrun r).andThen (R := P) hs fun hp _ => hp
    intro path s₁ hio₁ hs₁
    split
    · apply setIo_andThen hs₁
      intro s₂ hio₂ hs₂
      apply hrest hs₂ fun _ => rfl
      rw [hio₂, ← hio₁]
      split <;> rfl
    · split
      · apply setIo_andThen hs₁
        intro s₂ hio₂ hs₂
        apply hrest hs₂ fun _ => rfl
        rw [hio₂, IoSave.std_store, hio₁]
      · apply redirOpen_andThen hs₁
        intro fd s₂ hio₂ hs₂
        split
        · rename_i hfd
          rw [if_pos hfd] at hs₂
          apply restoreIo_andThen hs₂
          intro s₃ hio₃ hs₃
          exact ⟨by rw [hio₃, hio₂, hio₁], hs₃⟩
        · rename_i hfd
          rw [if_neg hfd] at hs₂
          apply setIo_andThen hs₂
          intro s₃ hio₃ hs₃
          have hstd : sv.std s₃.io = sv.std s.io := by
            rw [hio₃, IoSave.std_store, hio₂, hio₁]
          split
          · rename_i hno
            rw [if_pos hno] at hs₃
            exact hrest (hs₃.perm (List.perm_append_singleton fd sv.opened).symm) (fun _ => rfl)
              hstd
          · rename_i hno
            rw [if_neg hno] at hs₃
            exact hrest hs₃ (fun _ => rfl) hstd

/-- A command with redirections: they are undone after it, or where one fails. -/
theorem applyRedirs_andThen {rs : List Redir} {f : Option IoSave → Sh W β} {Q : β → St W → Prop}
    (hrun : RunKeeps run) (hs : Since P [] s₀ s)
    (hfail : ∀ s', s'.io = s.io → Since P [] s₀ s' → Ends (f none) s' Q (Cut P s₀))
    (hf : ∀ sv s', sv.std s'.io = s.io → Since P sv.opened s₀ s' →
      Ends (f (some sv)) s' Q (Cut P s₀)) :
    Ends (applyRedirs H run rs >>= f) s Q (Cut P s₀) := by
  unfold applyRedirs
  rw [bind_bind, getIo_andThen]
  apply (applyRedirsFrom_ends hrun rs ⟨s.io.fdIn, s.io.fdOut, s.io.fdErr, []⟩ hs).bind
  intro res s' h
  cases res with
  | none => exact hfail s' h.1 h.2
  | some sv =>
    refine hf sv s' ?_ h.2.2
    rw [h.1, h.2.1]
    rfl

/-! ### Functions and commands -/

/-- While a body is called its arena is live, as the bodies that are called already are. -/
theorem keeps_callBody (hrun : RunKeeps run) (body : Tree) :
    Keeps (Live body.gen) (callBody H run body) := by
  intro s
  apply update_andThen
  have hin : Live body.gen s.mem → Inv s → Inv (noted
      { s with mem := { s.mem with calls := body.gen :: s.mem.calls } }) := by
    intro hlive hi
    have hcalls : ∀ g ∈ body.gen :: s.mem.calls, g ∈ gens s.mem.live :=
      List.forall_mem_cons.mpr ⟨hlive, hi.calls⟩
    refine ⟨?_, hi.table, hi.cur, hi.prog, hcalls⟩
    exact sound_noted (s := { s with mem := { s.mem with calls := body.gen :: s.mem.calls } })
      hi.sound hi.table hcalls
  apply ((keeps_execList hrun body.gen body.chain _).mono (fun _ _ h => h)
    fun s' hcut hlive hi => hcut hlive (hin hlive hi)).bind
  intro st s₂ ⟨hio₂, hs₂⟩
  apply update_andThen
  have hmem : { s₂.mem with calls := s₂.mem.calls.tail } = s.mem := by
    rw [hs₂.mem]
    rfl
  refine ⟨hio₂, ?_⟩
  change Since _ [] s (noted { s₂ with mem := { s₂.mem with calls := s₂.mem.calls.tail } })
  rw [hmem]
  refine ⟨rfl, ledger_noted ?_, fun hlive hi => ?_⟩
  · obtain ⟨tr, htr, hl⟩ := hs₂.ledger
    have hcall := Ledger.nil.memory s.funcs s.mem.live (body.gen :: s.mem.calls)
    refine ⟨_, ?_, hcall.append hl⟩
    rw [List.nil_append, ← List.append_assoc]
    exact htr
  · have hi₂ := hs₂.inv hlive (hin hlive hi)
    have htable : TableOk s.mem.live s₂.funcs := by
      have ht := hi₂.table
      rw [hs₂.mem] at ht
      exact ht
    refine ⟨?_, htable, hi.cur, hi.prog, hi.calls⟩
    exact sound_noted (s := { s₂ with mem := s.mem }) hi₂.sound htable hi.calls

theorem keeps_callFunc (hrun : RunKeeps run) (f : Func) (argv : List Text) :
    Keeps (Live f.body.gen) (callFunc H run f argv) := by
  intro s
  unfold callFunc
  rw [getIo_andThen]
  split
  · exact ((quiet_setFlow _).bind fun _ => Quiet.pure _).keeps s
  · apply setIo_andThen (Since.refl (Live f.body.gen) s)
    intro s₁ hio₁ hs₁
    apply (quiet_onWorld _).keeps.andThen hs₁ fun hp _ => hp
    intro _ s₂ hio₂ hs₂
    rw [getIo_andThen]
    apply setIo_andThen hs₂
    intro s₃ hio₃ hs₃
    apply (keeps_callBody hrun f.body).andThen hs₃ fun hp _ => hp
    intro _ s₄ hio₄ hs₄
    apply setIo_andThen hs₄
    intro s₅ hio₅ hs₅
    apply quiet_getFlow.keeps.andThen hs₅ fun hp _ => hp
    intro flow s₆ hio₆ hs₆
    apply (Quiet.when (quiet_setFlow _)).keeps.andThen hs₆ fun hp _ => hp
    intro _ s₇ hio₇ hs₇
    apply (quiet_onWorld _).keeps.andThen hs₇ fun hp _ => hp
    intro _ s₈ hio₈ hs₈
    apply setIo_andThen hs₈
    intro s₉ hio₉ hs₉
    refine ⟨?_, hs₉⟩
    rw [hio₉, hio₈, hio₇, hio₆, hio₅, hio₄, hio₃, hio₂, hio₁]
    simp

theorem keeps_xsRunFileInternal (hrun : RunKeeps run) (steps : ℕ) (path : Text)
    (argv : List Text) : Keeps P (xsRunFileInternal H run steps path argv) := by
  intro s
  unfold xsRunFileInternal
  apply read_andThen
  apply hostOpen_andThen (Since.refl P s)
  intro fd s₁ hio₁ hs₁
  split
  · rename_i hfd
    rw [if_pos hfd] at hs₁
    exact ⟨hio₁, hs₁⟩
  · rename_i hfd
    rw [if_neg hfd] at hs₁
    apply (quiet_ask _).keeps.andThen (R := P) hs₁ fun hp _ => hp
    intro data s₂ hio₂ hs₂
    apply hostClose_andThen hs₂ List.mem_cons_self
    rw [List.erase_cons_head]
    intro s₃ hio₃ hs₃
    have hio : s₃.io = s.io := (hio₃.trans hio₂).trans hio₁
    cases data with
    | none => exact ⟨hio, hs₃⟩
    | some text =>
      exact (keeps_runTextEx hrun steps text _ (argv)).last hs₃ hio fun _ _ => trivial

theorem quiet_codeOr (arg : Option Text) : Quiet (codeOr H arg) := by
  cases arg with
  | none => exact quiet_getStatus
  | some a => exact Quiet.pure _

theorem quiet_leaveLoops (flow : Flow) (argv : List Text) : Quiet (leaveLoops H flow argv) := by
  apply quiet_getIo.bind
  intro io
  apply (Quiet.pure 0).ite
  exact (quiet_setFlow _).bind fun _ => (quiet_setFlowN _).bind fun _ => Quiet.pure 0

theorem keeps_builtinFn (hrun : RunKeeps run) (steps : ℕ) (b : Builtin) (argv : List Text) :
    Keeps P (builtinFn H run steps b argv) := by
  cases b with
  | source =>
    unfold builtinFn
    dsimp only
    split
    · exact keeps_xsRunFileInternal hrun steps _ _
    · exact Keeps.pure 2
  | eval => exact (keeps_execString hrun _ true).mono fun _ _ => trivial
  | exit =>
    exact ((quiet_codeOr _).bind fun _ => (quiet_setFlow _).bind fun _ => Quiet.pure _).keeps
  | ret =>
    exact ((quiet_codeOr _).bind fun _ => (quiet_setFlow _).bind fun _ => Quiet.pure _).keeps
  | brk => exact (quiet_leaveLoops .brk argv).keeps
  | cont => exact (quiet_leaveLoops .cont argv).keeps
  | plain =>
    exact (quiet_getIo.bind fun _ => quiet_getStatus.bind fun _ => quiet_ask _).keeps

/-- The descriptors that a `nullSink` opened. -/
def sunk (tmp : ℤ) : List ℤ := if 0 ≤ tmp then [tmp] else []

theorem nullSink_andThen {fds : List ℤ} {fd : ℤ} {f : ℤ × ℤ → Sh W β} {Q : β → St W → Prop}
    {C : St W → Prop} (hs : Since P fds s₀ s)
    (hf : ∀ x s', s'.io = s.io → Since P (sunk x.2 ++ fds) s₀ s' → Ends (f x) s' Q C) :
    Ends (nullSink H fd >>= f) s Q C := by
  unfold nullSink
  split
  · rw [bind_bind]
    apply hostOpen_andThen hs
    intro tmp s₁ hio₁ hs₁
    apply hf (tmp, tmp) s₁ hio₁
    unfold sunk
    split at hs₁
    · rw [if_neg (by omega)]
      exact hs₁
    · rw [if_pos (by omega)]
      exact hs₁
  · exact hf (fd, -1) s rfl hs

theorem closeTmp_andThen {fds fds' : List ℤ} {tmp : ℤ} {f : Unit → Sh W β}
    {Q : β → St W → Prop} {C : St W → Prop} (hs : Since P fds s₀ s)
    (hp : fds.Perm (sunk tmp ++ fds'))
    (hf : ∀ s', s'.io = s.io → Since P fds' s₀ s' → Ends (f ()) s' Q C) :
    Ends (closeTmp H tmp >>= f) s Q C := by
  have hs' := hs.perm hp
  unfold closeTmp
  unfold sunk at hs'
  split at hs'
  · rename_i htmp
    rw [if_pos htmp]
    apply hostClose_andThen hs' List.mem_cons_self
    rw [List.singleton_append, List.erase_cons_head]
    exact hf
  · rename_i htmp
    rw [if_neg htmp]
    exact hf s rfl hs'

theorem keeps_hostRun (argv : List Text) : Keeps P (hostRun H argv) := by
  intro s
  unfold hostRun
  rw [getIo_andThen]
  apply nullSink_andThen (Since.refl P s)
  intro out s₁ hio₁ hs₁
  apply nullSink_andThen hs₁
  intro err s₂ hio₂ hs₂
  apply nullSink_andThen hs₂
  intro inp s₃ hio₃ hs₃
  apply (quiet_ask _).keeps.andThen (R := P) hs₃ fun hp _ => hp
  intro st s₄ hio₄ hs₄
  -- they were opened in the order in which they are closed
  have hswap : (sunk inp.2 ++ (sunk err.2 ++ (sunk out.2 ++ []))).Perm
      (sunk out.2 ++ (sunk err.2 ++ (sunk inp.2 ++ []))) := by
    simp only [List.append_nil]
    rw [← List.append_assoc]
    exact List.perm_append_comm.trans (List.perm_append_comm.append_left _)
  apply closeTmp_andThen hs₄ hswap
  intro s₅ hio₅ hs₅
  apply closeTmp_andThen hs₅ (List.Perm.refl _)
  intro s₆ hio₆ hs₆
  apply closeTmp_andThen hs₆ (List.Perm.refl _)
  intro s₇ hio₇ hs₇
  refine ⟨?_, hs₇⟩
  rw [hio₇, hio₆, hio₅, hio₄, hio₃, hio₂, hio₁]

/-- A name that is a function is called in the arena of its body, which is live as it is in the
table. -/
theorem keeps_runArgs (hrun : RunKeeps run) (steps : ℕ) (argv : List Text) (hostOnly : Bool) :
    Keeps P (runArgs H run steps argv hostOnly) := by
  unfold runArgs
  cases argv with
  | nil => exact Keeps.pure 0
  | cons name rest =>
    apply (keeps_hostRun _).ite
    intro s
    apply read_andThen
    split
    · rename_i k hk
      apply (keeps_callFunc hrun _ _).last (Since.refl P s) rfl
      intro _ hi
      exact (hi.table k (funcFind_used hk)).mem
    · split
      · exact keeps_builtinFn hrun steps _ _ s
      · exact keeps_hostRun _ s

theorem keeps_assigns (hrun : RunKeeps run) (words : List Text) :
    Keeps P (assigns H run words) := by
  induction words with
  | nil => exact Keeps.pure []
  | cons w rest ih =>
    unfold assigns
    split
    · exact Keeps.pure _
    · exact (keeps_expandString hrun _).bind fun _ => (quiet_onWorld _).keeps.bind fun _ => ih

theorem keeps_runFields (hrun : RunKeeps run) (steps : ℕ) (av : Option (List Text)) :
    Keeps P (runFields H run steps av) := by
  unfold runFields
  split
  · exact (quiet_setStatus 1).keeps
  · exact (quiet_setStatus 0).keeps
  · exact (keeps_runArgs hrun steps _ false).bind fun _ => (quiet_setStatus _).keeps

theorem keeps_execSimple (hrun : RunKeeps run) (steps : ℕ) (n : Node) :
    Keeps P (execSimple H run steps n) := by
  apply (keeps_assigns hrun n.w).bind
  intro words
  apply (keeps_expandWords hrun words []).bind
  intro av
  exact (keeps_runFields hrun steps av).bind fun _ => quiet_getStatus.keeps

/-! ### Loops -/

theorem quiet_loopFlow : Quiet (loopFlow : Sh W Bool) := by
  apply (Quiet.read _).bind
  intro n
  apply quiet_getFlow.bind
  intro flow
  apply Quiet.ite
  · apply (quiet_setFlowN _).bind
    intro _
    exact (Quiet.when (quiet_setFlow _)).bind fun _ => Quiet.pure true
  · apply quiet_getFlow.bind
    intro flow'
    apply Quiet.ite
    · apply (quiet_setFlowN _).bind
      intro _
      exact ((quiet_setFlow _).bind fun _ => Quiet.pure false).ite (Quiet.pure true)
    · exact quiet_getFlow.bind fun _ => Quiet.pure _

theorem quiet_interruptCheck :
    Quiet (do
      if ← ask H.interrupted then
        setFlow .exit
        pure true
      else pure false) := by
  apply (quiet_ask _).bind
  intro stop
  exact ((quiet_setFlow _).bind fun _ => Quiet.pure true).ite (Quiet.pure false)

theorem quiet_loopLeft : Quiet (loopLeft H) := by
  apply quiet_getFlow.bind
  intro flow
  apply Quiet.ite
  · apply quiet_loopFlow.bind
    intro left
    exact (Quiet.pure true).ite quiet_interruptCheck
  · exact quiet_interruptCheck

theorem quiet_batLeft : Quiet (batLeft H) :=
  quiet_getFlow.bind fun _ => (Quiet.pure true).ite quiet_interruptCheck

theorem keeps_whileFrom (hrun : RunKeeps run) (gen : ℕ) (n : Node) (steps : ℕ) :
    ∀ st, Keeps (Live gen) (whileFrom H run gen n steps st) := by
  induction steps with
  | zero => exact fun st => Keeps.cutoff
  | succ steps ih =>
    intro st
    unfold whileFrom
    apply (keeps_execList hrun gen n.a).bind
    intro _
    apply quiet_getFlow.keeps.bind
    intro flow
    apply (Keeps.pure st).ite
    apply quiet_getStatus.keeps.bind
    intro status
    apply (Keeps.pure st).ite
    apply (keeps_execList hrun gen n.b).bind
    intro st'
    exact quiet_loopLeft.keeps.bind fun _ => (Keeps.pure st').ite (ih st')

theorem keeps_forFrom (hrun : RunKeeps run) (gen : ℕ) (n : Node) (items : List Text) :
    ∀ st, Keeps (Live gen) (forFrom H run gen n items st) := by
  induction items with
  | nil => exact fun st => Keeps.pure st
  | cons v rest ih =>
    intro st
    unfold forFrom
    apply (quiet_onWorld _).keeps.bind
    intro _
    apply (keeps_execList hrun gen n.b).bind
    intro st'
    exact quiet_loopLeft.keeps.bind fun _ => (Keeps.pure st').ite (ih st')

theorem keeps_selectFrom (hrun : RunKeeps run) (gen : ℕ) (n : Node) (av : List Text)
    (steps : ℕ) : ∀ st, Keeps (Live gen) (selectFrom H run gen n av steps st) := by
  induction steps with
  | zero => exact fun st => Keeps.cutoff
  | succ steps ih =>
    intro st
    unfold selectFrom
    apply quiet_getIo.keeps.bind
    intro io
    apply (quiet_ask _).keeps.bind
    intro line
    cases line with
    | none => exact Keeps.pure st
    | some line =>
      apply (quiet_onWorld _).keeps.bind
      intro _
      apply (ih st).ite
      apply (quiet_onWorld _).keeps.bind
      intro _
      apply (keeps_execList hrun gen n.b).bind
      intro st'
      exact quiet_loopLeft.keeps.bind fun _ => (Keeps.pure st').ite (ih st')

theorem keeps_batForItems (hrun : RunKeeps run) (gen : ℕ) (n : Node) (items : List Text) :
    ∀ st, Keeps (Live gen) (batForItems H run gen n items st) := by
  induction items with
  | nil => exact fun st => Keeps.pure st
  | cons v rest ih =>
    intro st
    unfold batForItems
    apply (quiet_onWorld _).keeps.bind
    intro _
    apply (keeps_execList hrun gen n.b).bind
    intro st'
    exact quiet_batLeft.keeps.bind fun _ => (Keeps.pure st').ite (ih st')

theorem keeps_batForRange (hrun : RunKeeps run) (gen : ℕ) (n : Node) (step last : ℤ)
    (steps : ℕ) : ∀ i st, Keeps (Live gen) (batForRange H run gen n step last steps i st) := by
  induction steps with
  | zero => exact fun i st => Keeps.cutoff
  | succ steps ih =>
    intro i st
    unfold batForRange
    apply Keeps.ite
    · apply (quiet_onWorld _).keeps.bind
      intro _
      apply (keeps_execList hrun gen n.b).bind
      intro st'
      exact quiet_batLeft.keeps.bind fun _ => (Keeps.pure st').ite (ih _ st')
    · exact Keeps.pure st

/-- The counter of the loops is raised for the length of a loop. -/
theorem keeps_loop {m : Sh W ℤ} (h : Keeps P m) :
    Keeps P (do
      loopStart
      let st ← m
      loopEnd st) := by
  intro s
  apply setIo_andThen (Since.refl P s)
  intro s₁ hio₁ hs₁
  apply h.andThen hs₁ fun hp _ => hp
  intro st s₂ hio₂ hs₂
  apply setIo_andThen hs₂
  intro s₃ hio₃ hs₃
  have hio : s₃.io = s.io := by
    rw [hio₃, hio₂, hio₁]
    simp
  exact (quiet_getFlow.bind fun _ => (Quiet.when (quiet_setStatus st)).bind fun _ =>
    quiet_getStatus).keeps.last hs₃ hio fun hp _ => hp

theorem keeps_buildLoopList (hrun : RunKeeps run) (n : Node) :
    Keeps P (buildLoopList H run n) :=
  (Quiet.read _).keeps.ite (keeps_expandWords hrun n.w [])

theorem keeps_execWhile (hrun : RunKeeps run) (steps gen : ℕ) (n : Node) :
    Keeps (Live gen) (execWhile H run steps gen n) :=
  keeps_loop (keeps_whileFrom hrun gen n steps 0)

theorem keeps_execFor (hrun : RunKeeps run) (gen : ℕ) (n : Node) :
    Keeps (Live gen) (execFor H run gen n) := by
  apply (keeps_buildLoopList hrun n).bind
  intro av
  cases av with
  | none => exact ((quiet_setStatus 1).bind fun _ => Quiet.pure 1).keeps
  | some av => exact keeps_loop (keeps_forFrom hrun gen n av 0)

theorem keeps_execSelect (hrun : RunKeeps run) (steps gen : ℕ) (n : Node) :
    Keeps (Live gen) (execSelect H run steps gen n) := by
  apply (keeps_buildLoopList hrun n).bind
  intro av
  cases av with
  | none => exact ((quiet_setStatus 1).bind fun _ => Quiet.pure 1).keeps
  | some av => exact keeps_loop (keeps_selectFrom hrun gen n av steps 0)

theorem keeps_execBFor (hrun : RunKeeps run) (steps gen : ℕ) (n : Node) :
    Keeps (Live gen) (execBFor H run steps gen n) := by
  apply quiet_getStatus.keeps.bind
  intro status
  apply (Quiet.read _).keeps.bind
  intro w
  apply Keeps.ite
  · apply (Keeps.pure 1).ite
    exact keeps_loop (keeps_batForRange hrun gen n _ _ steps _ 0)
  · exact keeps_loop (keeps_batForItems hrun gen n _ 0)

theorem keeps_hits (hrun : RunKeeps run) (word : Text) (pats : List Text) :
    Keeps P (hits H run word pats) := by
  induction pats with
  | nil => exact Keeps.pure false
  | cons p rest ih =>
    exact (keeps_expandPattern hrun p).bind fun _ => (Keeps.pure true).ite ih

theorem keeps_caseFrom (hrun : RunKeeps run) (gen : ℕ) (word : Text)
    (items : List (List Text × List Node)) : Keeps (Live gen) (caseFrom H run gen word items) := by
  induction items with
  | nil => exact ((quiet_setStatus 0).bind fun _ => Quiet.pure 0).keeps
  | cons item rest ih =>
    exact (keeps_hits hrun word item.1).bind fun _ => (keeps_execList hrun gen item.2).ite ih

theorem keeps_execCase (hrun : RunKeeps run) (gen : ℕ) (n : Node) :
    Keeps (Live gen) (execCase H run gen n) :=
  (keeps_expandString hrun n.s).bind fun word => keeps_caseFrom hrun gen word n.items

/-! ### Pipelines -/

theorem keeps_pipeRead (hrun : RunKeeps run) (t : Tree) (name : Text) :
    Keeps (Live t.gen) (pipeRead H run t name) := by
  intro s
  apply hostOpen_andThen (Since.refl (Live t.gen) s)
  intro r s₁ hio₁ hs₁
  split
  · rename_i hr
    rw [if_neg (by omega)] at hs₁
    rw [getIo_andThen]
    apply setIo_andThen hs₁
    intro s₂ hio₂ hs₂
    apply (hrun t).andThen hs₂ fun hp _ => hp
    intro _ s₃ hio₃ hs₃
    apply setIo_andThen hs₃
    intro s₄ hio₄ hs₄
    have hio : s₄.io = s.io := by
      rw [hio₄, hio₃, hio₂, hio₁]
    have hclosed : Since (Live t.gen) ([r].erase r) s
        { s₄ with world := H.xsHostClose r s₄.world, hist := s₄.hist ++ [.closed r] } :=
      hs₄.event rfl rfl rfl trivial fun _ h => h.closed List.mem_cons_self
    rw [List.erase_cons_head] at hclosed
    exact ⟨hio, hclosed⟩
  · rename_i hr
    rw [if_pos (by omega)] at hs₁
    exact ⟨hio₁, hs₁⟩

theorem keeps_execPipe (hrun : RunKeeps run) (gen : ℕ) (n : Node) :
    Keeps (Live gen) (execPipe H run gen n) := by
  intro s
  unfold execPipe
  rw [getIo_andThen]
  split
  · exact ((quiet_setStatus 1).bind fun _ => Quiet.pure 1).keeps s
  rw [getIo_andThen]
  apply setIo_andThen (Since.refl (Live gen) s)
  intro s₁ hio₁ hs₁
  apply hostOpen_andThen hs₁
  intro w s₂ hio₂ hs₂
  split
  · rename_i hw
    rw [if_pos hw] at hs₂
    apply setIo_andThen hs₂
    intro s₃ hio₃ hs₃
    have hio : s₃.io = s.io := by
      rw [hio₃, hio₂, hio₁]
      simp
    exact ((quiet_setStatus 1).bind fun _ => Quiet.pure 1).keeps.last hs₃ hio fun hp _ => hp
  · rename_i hw
    rw [if_neg hw] at hs₂
    rw [getIo_andThen]
    apply setIo_andThen hs₂
    intro s₃ hio₃ hs₃
    apply (hrun ⟨gen, n.a⟩).andThen hs₃ fun hp _ => hp
    intro _ s₄ hio₄ hs₄
    apply setIo_andThen hs₄
    intro s₅ hio₅ hs₅
    apply hostClose_andThen hs₅ List.mem_cons_self
    rw [List.erase_cons_head]
    intro s₆ hio₆ hs₆
    apply quiet_getFlow.keeps.andThen hs₆ fun hp _ => hp
    intro flow s₇ hio₇ hs₇
    apply (Keeps.when (keeps_pipeRead hrun ⟨gen, n.b⟩ _)).andThen hs₇ fun hp _ => hp
    intro _ s₈ hio₈ hs₈
    apply (quiet_onWorld _).keeps.andThen hs₈ fun hp _ => hp
    intro _ s₉ hio₉ hs₉
    apply setIo_andThen hs₉
    intro s₁₀ hio₁₀ hs₁₀
    have hio : s₁₀.io = s.io := by
      rw [hio₁₀, hio₉, hio₈, hio₇, hio₆, hio₅, hio₄, hio₃, hio₂, hio₁]
      simp
    exact quiet_getStatus.keeps.last hs₁₀ hio fun hp _ => hp

/-! ### Batch files -/

theorem keeps_execBIf (hrun : RunKeeps run) (gen : ℕ) (n : Node) :
    Keeps (Live gen) (execBIf H run gen n) := by
  apply quiet_getStatus.keeps.bind
  intro st
  apply (quiet_ask _).keeps.bind
  intro holds
  apply Keeps.ite
  · exact (keeps_execList hrun gen n.b).bind fun _ => quiet_getStatus.keeps
  · exact (keeps_execList hrun gen n.c).bind fun _ => quiet_getStatus.keeps

/-- The statements from a label on: they are in the arena of the batch file that is run. -/
theorem keeps_batLabel (hrun : RunKeeps run) (steps : ℕ) (p : Prog) (i : ℕ) (argv : List Text) :
    Keeps (Live p.gen) (batLabel H run steps p i argv) := by
  intro s
  unfold batLabel
  rw [getIo_andThen]
  split
  · exact ⟨rfl, Since.refl _ s⟩
  · apply setIo_andThen (Since.refl (Live p.gen) s)
    intro s₁ hio₁ hs₁
    apply (quiet_onWorld _).keeps.andThen hs₁ fun hp _ => hp
    intro _ s₂ hio₂ hs₂
    apply (keeps_runProg hrun p steps i).andThen hs₂ fun hp _ => hp
    intro _ s₃ hio₃ hs₃
    apply quiet_getFlow.keeps.andThen hs₃ fun hp _ => hp
    intro flow s₄ hio₄ hs₄
    apply (Quiet.when (quiet_setFlow _)).keeps.andThen hs₄ fun hp _ => hp
    intro _ s₅ hio₅ hs₅
    apply (quiet_onWorld _).keeps.andThen hs₅ fun hp _ => hp
    intro _ s₆ hio₆ hs₆
    apply setIo_andThen hs₆
    intro s₇ hio₇ hs₇
    have hio : s₇.io = s.io := by
      rw [hio₇, hio₆, hio₅, hio₄, hio₃, hio₂, hio₁]
      simp
    exact quiet_getStatus.keeps.last hs₇ hio fun hp _ => hp

theorem keeps_runNamed (hrun : RunKeeps run) (steps : ℕ) (argv : List Text) :
    Keeps P (runNamed H run steps argv) := by
  unfold runNamed
  cases argv with
  | nil => exact Keeps.pure 0
  | cons name rest =>
    exact (keeps_xsRunFileInternal hrun steps name _).ite (keeps_runArgs hrun steps _ true)

theorem keeps_batCall (hrun : RunKeeps run) (steps : ℕ) (argv : List Text) :
    Keeps P (batCall H run steps argv) := by
  unfold batCall
  split
  · intro s
    apply read_andThen
    split
    · exact ⟨rfl, Since.refl _ s⟩
    · rename_i p hp
      dsimp only
      split
      · exact ⟨rfl, Since.refl _ s⟩
      · apply (keeps_batLabel hrun steps p _ _).last (Since.refl P s) rfl
        intro _ hi
        exact hi.prog p hp
  · exact keeps_runNamed hrun steps argv

theorem keeps_batDispatch (hrun : RunKeeps run) (steps : ℕ) (line : Text) :
    Keeps P (batDispatch H run steps line) := by
  apply (Quiet.read _).keeps.bind
  intro w
  split
  · exact (quiet_getStatus.bind fun _ => quiet_ask _).keeps
  · exact ((quiet_setBatEcho _).bind fun _ => Quiet.pure 0).keeps
  · exact keeps_batCall hrun steps _
  · exact ((quiet_codeOr _).bind fun _ => (quiet_setFlow _).bind fun _ => Quiet.pure _).keeps
  · exact keeps_runNamed hrun steps _

theorem keeps_execBCmd (hrun : RunKeeps run) (steps : ℕ) (n : Node) :
    Keeps P (execBCmd H run steps n) := by
  apply quiet_getStatus.keeps.bind
  intro status
  apply (Quiet.read _).keeps.bind
  intro w
  apply Keeps.ite
  · apply (keeps_batDispatch hrun steps _).bind
    intro st
    exact ((quiet_setStatus st).bind fun _ => quiet_getStatus).keeps
  · intro s
    apply applyRedirs_andThen hrun (Since.refl P s)
    · intro s₁ hio₁ hs₁
      exact ((quiet_setStatus 1).bind fun _ => Quiet.pure 1).keeps.last hs₁ hio₁ fun hp _ => hp
    · intro sv s₁ hio₁ hs₁
      apply (keeps_batDispatch hrun steps _).andThen (R := P) hs₁ fun hp _ => hp
      intro st s₂ hio₂ hs₂
      apply (quiet_setStatus st).keeps.andThen (R := P) hs₂ fun hp _ => hp
      intro _ s₃ hio₃ hs₃
      apply restoreIo_andThen hs₃
      intro s₄ hio₄ hs₄
      have hio : s₄.io = s.io := by rw [hio₄, hio₃, hio₂, hio₁]
      exact quiet_getStatus.keeps.last hs₄ hio fun hp _ => hp

theorem quiet_execGoto (n : Node) : Quiet (execGoto n : Sh W Unit) := by
  apply Quiet.ite
  · exact quiet_setFlow _
  · apply (Quiet.read _).bind
    intro p
    apply Quiet.ite
    · exact (quiet_setFlow _).bind fun _ => quiet_setStatus 1
    · exact (quiet_setFlow _).bind fun _ => quiet_setFlowN _

/-! ### The dispatcher -/

/-- A definition adds a body of the arena that is run to the table, owned by the youngest one. -/
theorem keeps_define (gen : ℕ) (n : Node) :
    Keeps (Live gen) (do
      let ar ← curArena
      setFuncs fun t => funcSet t n.s ⟨gen, n.b⟩ ar
      setStatus 0 : Sh W Unit) := by
  intro s
  apply read_andThen
  apply update_andThen
  refine ⟨rfl, rfl, ?_, fun hlive hi => ?_⟩
  · exact ledger_noted (s := { s with funcs := funcSet s.funcs n.s ⟨gen, n.b⟩ s.mem.curArena })
      ⟨[], by simp, Ledger.nil⟩
  · have howned : Owned s.mem.live s.mem.curArena gen := by
      rw [hi.cur]
      unfold Live at hlive
      cases hl : s.mem.live with
      | nil =>
        rw [hl] at hlive
        exact absurd hlive List.not_mem_nil
      | cons ar live => exact Or.inl ⟨rfl, hl ▸ hlive⟩
    have htable : TableOk s.mem.live (funcSet s.funcs n.s ⟨gen, n.b⟩ s.mem.curArena) :=
      hi.table.set n.s howned
    refine ⟨?_, htable, hi.cur, hi.prog, hi.calls⟩
    exact sound_noted (s := { s with funcs := funcSet s.funcs n.s ⟨gen, n.b⟩ s.mem.curArena })
      hi.sound htable hi.calls

theorem Keeps.ignore {m : Sh W α} (h : Keeps P m) : Keeps P (do let _ ← m) :=
  h.bind fun _ => Keeps.pure ()

theorem keeps_execKind (hrun : RunKeeps run) (steps gen : ℕ) (n : Node) :
    Keeps (Live gen) (execKind H run steps gen n) := by
  have hstep : ∀ c, Keeps (Live gen) (run ⟨gen, c⟩) := fun c => hrun ⟨gen, c⟩
  have hlist : ∀ l, Keeps (Live gen) (execList H run gen l) := keeps_execList hrun gen
  unfold execKind
  cases n.type with
  | cmd => exact (keeps_execSimple hrun steps n).ignore
  | and =>
    apply (hstep n.a).bind
    intro _
    apply quiet_getFlow.keeps.bind
    intro flow
    apply quiet_getStatus.keeps.bind
    intro st
    exact (hstep n.b).ignore.ite (Keeps.pure ())
  | or =>
    apply (hstep n.a).bind
    intro _
    apply quiet_getFlow.keeps.bind
    intro flow
    apply quiet_getStatus.keeps.bind
    intro st
    exact (hstep n.b).ignore.ite (Keeps.pure ())
  | pipe => exact (keeps_execPipe hrun gen n).ignore
  | not =>
    apply (hstep n.a).bind
    intro _
    apply quiet_getFlow.keeps.bind
    intro flow
    exact (quiet_getStatus.bind fun _ => quiet_setStatus _).keeps.ite (Keeps.pure ())
  | ifThen =>
    apply (hlist n.a).bind
    intro _
    apply quiet_getFlow.keeps.bind
    intro flow
    apply Keeps.ite _ (Keeps.pure ())
    apply quiet_getStatus.keeps.bind
    intro st
    exact (hlist n.b).ignore.ite ((hlist n.c).ignore.ite (quiet_setStatus 0).keeps)
  | whileDo => exact (keeps_execWhile hrun steps gen n).ignore
  | forIn => exact (keeps_execFor hrun gen n).ignore
  | caseOf => exact (keeps_execCase hrun gen n).ignore
  | func => exact keeps_define gen n
  | group => exact (hlist n.b).ignore
  | batCmd => exact (keeps_execBCmd hrun steps n).ignore
  | batIf => exact (keeps_execBIf hrun gen n).ignore
  | batFor => exact (keeps_execBFor hrun steps gen n).ignore
  | goto => exact (quiet_execGoto n).keeps
  | select => exact (keeps_execSelect hrun steps gen n).ignore

theorem keeps_execBody (hrun : RunKeeps run) (steps : ℕ) (t : Tree) :
    Keeps (Live t.gen) (execBody H run steps t) := by
  unfold execBody
  split
  · exact quiet_getStatus.keeps
  · rename_i n next _
    intro s
    rw [getIo_andThen]
    split
    · exact ((quiet_setFlow _).bind fun _ => (quiet_setStatus 1).bind fun _ =>
        Quiet.pure 1).keeps s
    apply setIo_andThen (Since.refl (Live t.gen) s)
    intro s₁ hio₁ hs₁
    split
    · apply (keeps_execKind hrun steps t.gen n).andThen hs₁ fun hp _ => hp
      intro _ s₂ hio₂ hs₂
      apply setIo_andThen hs₂
      intro s₃ hio₃ hs₃
      have hio : s₃.io = s.io := by
        rw [hio₃, hio₂, hio₁]
        simp
      exact quiet_getStatus.keeps.last hs₃ hio fun hp _ => hp
    · apply applyRedirs_andThen hrun hs₁
      · intro s₂ hio₂ hs₂
        apply (quiet_setStatus 1).keeps.andThen hs₂ fun hp _ => hp
        intro _ s₃ hio₃ hs₃
        apply setIo_andThen hs₃
        intro s₄ hio₄ hs₄
        refine ⟨?_, hs₄⟩
        rw [hio₄, hio₃, hio₂, hio₁]
        simp
      · intro sv s₂ hio₂ hs₂
        apply (keeps_execKind hrun steps t.gen n).andThen hs₂ fun hp _ => hp
        intro _ s₃ hio₃ hs₃
        apply restoreIo_andThen hs₃
        intro s₄ hio₄ hs₄
        apply setIo_andThen hs₄
        intro s₅ hio₅ hs₅
        have hio : s₅.io = s.io := by
          rw [hio₅, hio₄, hio₃, hio₂, hio₁]
          simp
        exact quiet_getStatus.keeps.last hs₅ hio fun hp _ => hp

/-- `ExecNode` keeps what it found, by induction on the steps it is given. -/
theorem keeps_execNode (H : Host W) (steps : ℕ) : RunKeeps (execNode H steps) := by
  induction steps with
  | zero => exact fun t => Keeps.cutoff
  | succ steps ih => exact fun t => keeps_execBody ih steps t

end Xeneva.Shell
