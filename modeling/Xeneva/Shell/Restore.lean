import Xeneva.Shell.KeepsNode

/-!
# What a node leaves behind

`IoSave` has room for eight files. A ninth that a command opens for its redirections is never closed;
apart from that, every node gives back what it found.
-/

namespace Xeneva.Shell

open Xeneva.Base

variable {W : Type} {s s' : St W} {tr : List Event}

/-- What happened between two states of a run. -/
def since (s s' : St W) : List Event := s'.hist.drop s.hist.length

/-- Every descriptor is closed as often as it was opened, and never before it was. -/
def ClosedOnce (tr : List Event) : Prop :=
  Solvent Event.pays tr ∧ ∀ fd, net Event.pays fd tr = 0

/-- The standard descriptors and the counters are as they were, and nothing is left open. -/
def Restored (s s' : St W) : Prop := s'.io = s.io ∧ ClosedOnce (since s s')

/-- No redirection's file was opened when eight were open for the command. -/
def Roomy (tr : List Event) : Prop := ∀ no fd, Event.redirected no fd ∈ tr → no < 8

theorem roomy_iff : Roomy tr ↔ ∀ fd, net Event.spills fd tr = 0 := by
  have hzero : ∀ fd, net Event.spills fd tr = 0 ↔ ∀ e ∈ tr, e.spills fd = 0 :=
    fun fd => net_eq_zero_iff fun e _ => e.spills_nonneg fd
  constructor
  · intro h fd
    rw [hzero]
    intro e he
    cases e with
    | redirected no x =>
      have hno := h no x he
      simp only [Event.spills]
      rw [if_neg (by omega)]
    | _ => rfl
  · intro h no fd he
    have hspill := (hzero fd).mp (h fd) _ he
    simp only [Event.spills] at hspill
    by_contra hno
    rw [if_pos ⟨by omega, trivial⟩] at hspill
    exact one_ne_zero hspill

theorem Since.since {P : Mem → Prop} {fds : List ℤ} (h : Since P fds s s') :
    Ledger fds (since s s') := by
  obtain ⟨tr, htr, hl⟩ := h.ledger
  unfold Shell.since
  rw [htr, List.drop_left]
  exact hl

/-- `ExecNode` restores the interpreter exactly when no command opens a ninth file. -/
theorem execNode_restores (H : Host W) (steps : ℕ) (t : Tree) (v : ℤ)
    (h : execNode H steps t s = .done v s') : Restored s s' ↔ Roomy (since s s') := by
  obtain ⟨hio, hs⟩ := (keeps_execNode H steps t s).done h
  have hl := hs.since
  have hnet : ∀ fd, net Event.pays fd (since s s') = net Event.spills fd (since s s') := by
    intro fd
    rw [hl.2 fd, List.count_nil]
    simp
  rw [roomy_iff]
  constructor
  · intro hr fd
    rw [← hnet]
    exact hr.2.2 fd
  · intro hr
    refine ⟨hio, hl.1, fun fd => ?_⟩
    rw [hnet]
    exact hr fd

/-- A host whose descriptors are counted off, and that runs no scripts. -/
def countingHost : Host ℕ where
  interrupted w := (false, w)
  clearInterrupted w := w
  xsHostOpen _ _ w := (w, w + 1)
  xsHostClose _ w := w
  xsHostRemove _ w := w
  xsHostRun _ _ _ _ w := (0, w)
  captureRoom w := (true, w)
  readCapture _ w := (some [], w)
  readScript _ w := (some [], w)
  fullPath path _ := path
  arenaAddr live := live.length
  parse _ _ := .bad
  expandString text _ w := .done text w
  expandPattern text _ w := .done text w
  expandWord text _ w := .done (some [text]) w
  globMatch pat word := pat = word
  parseI64 _ := (0, false)
  varSet _ _ w := w
  posArgs _ := some []
  pushFrame _ w := w
  popFrame w := w
  readLineIn _ w := (none, w)
  builtin _ _ _ _ w := (0, w)
  batExpand text _ _ := text
  batTest _ _ w := (false, w)
  batRange _ := (0, 1, 0)
  batItems _ := []
  batRedirs line := (line, [])
  batCommand _ _ := .plain
  batPlain _ _ w := (0, w)

/-- The interpreter before it runs anything. -/
def boot (w : W) : St W where
  io := ⟨-1, -1, -1, 0, -1, 0, 0, 0, 0, 0⟩
  mem := ⟨none, none, [], []⟩
  status := 0
  flow := .none
  flowN := 0
  batMode := false
  batEcho := true
  funcs := noFuncs
  nextGen := 0
  world := w
  hist := []

/-- The command `: > o > o …` with `n` redirections. -/
def manyRedirs (n : ℕ) : Tree :=
  ⟨0, [.mk .cmd 0 [] [] [] [[':']] (List.replicate n ⟨1, .output, ['o'], false⟩) [] []]⟩

theorem execNode_restores_two :
    Restored (boot 3) (execNode countingHost 2 (manyRedirs 2) (boot 3)).state ↔
      Roomy (since (boot 3) (execNode countingHost 2 (manyRedirs 2) (boot 3)).state) :=
  execNode_restores countingHost 2 (manyRedirs 2) 0 (Ending.done_of_value (by decide +kernel))

/-- Nine redirections on one command leave a descriptor open. -/
theorem not_execNode_restores :
    ¬ ∀ (H : Host ℕ) (steps : ℕ) (t : Tree) (s s' : St ℕ) (v : ℤ),
      execNode H steps t s = .done v s' → Restored s s' := by
  intro h
  have hrun := h countingHost 2 (manyRedirs 9) (boot 3)
    (execNode countingHost 2 (manyRedirs 9) (boot 3)).state 0
    (Ending.done_of_value (by decide +kernel))
  exact absurd (hrun.2.2 11) (by decide +kernel)

end Xeneva.Shell

/-!
# Bodies of functions

The shell runs one text or script after another. Each change of the function table, of the arenas and
of the calls in progress is noted, so that what holds of every note holds at every moment, in runs
that are cut off as well.
-/

namespace Xeneva.Shell

open Xeneva.Base Xeneva.Base.Prg

variable {W : Type} {H : Host W} {s : St W}

/-- What the shell is asked to run, by `XsRunText` and `XsRunFile`. -/
inductive Top where
  | text (text : Text) (bat : Bool) (argv : List Text)
  | file (path : Text) (argv : List Text)

def xsRun (H : Host W) (steps : ℕ) : Top → Sh W ℤ
  | .text text bat argv => runTextEx H (execNode H steps) steps text bat argv
  | .file path argv => xsRunFileInternal H (execNode H steps) steps path argv

/-- One run after another, each with the steps it is given. -/
def session (H : Host W) : List (ℕ × Top) → Sh W Unit
  | [] => pure ()
  | (steps, top) :: rest => do
    let _ ← xsRun H steps top
    session H rest

/-- At every moment, every body in the function table and every body that is called is in an arena
that is not freed. -/
def NeverDangles (s : St W) : Prop := ∀ e ∈ s.hist, e.Sound

theorem boot_inv (w : W) : Inv (boot w) where
  sound _ he := absurd he List.not_mem_nil
  table _ hk := absurd hk Bool.false_ne_true
  cur := rfl
  prog _ hp := nomatch hp
  calls _ hg := absurd hg List.not_mem_nil

theorem keeps_xsRun (H : Host W) (steps : ℕ) (top : Top) :
    Keeps (fun _ => True) (xsRun H steps top) := by
  cases top with
  | text text bat argv => exact keeps_runTextEx (keeps_execNode H steps) steps text bat argv
  | file path argv => exact keeps_xsRunFileInternal (keeps_execNode H steps) steps path argv

theorem keeps_session (H : Host W) (tops : List (ℕ × Top)) :
    Keeps (fun _ => True) (session H tops) := by
  induction tops with
  | nil => exact Keeps.pure ()
  | cons top rest ih => exact (keeps_xsRun H top.1 top.2).bind fun _ => ih

/-- The bodies of functions never dangle, in any session from the start of the shell. -/
theorem session_neverDangles (H : Host W) (tops : List (ℕ × Top)) (w : W) :
    NeverDangles (session H tops (boot w)).state := by
  apply Ends.state
  apply (keeps_session H tops (boot w)).mono
  · intro _ s hs
    exact (hs.2.inv trivial (boot_inv w)).sound
  · intro s hs
    exact hs trivial (boot_inv w)

end Xeneva.Shell
