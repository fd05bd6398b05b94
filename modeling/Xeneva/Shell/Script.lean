import Xeneva.Base.Cutoff
import Xeneva.Shell.HashTable

/-!
# The script interpreter

Syntax trees live in arenas, one for each text that is parsed, and the function table points into
them. A tree is a pointer: the arena, by the number of the parse that made it, and a chain of nodes.
How texts are parsed and expanded and what the host answers is left open.
-/

namespace Xeneva.Shell

open Xeneva.Base Function

/-- Bytes of a script. -/
abbrev Text := List Char

inductive RedirOp where
  | input | output | append | dup
  deriving DecidableEq

structure Redir where
  fd : ℤ
  op : RedirOp
  target : Text
  raw : Bool

inductive NodeType where
  | cmd | and | or | pipe | not | ifThen | whileDo | forIn | caseOf | func | group | batCmd | batIf
  | batFor | goto | select
  deriving DecidableEq

/-- A node of the tree. A chain of nodes is what `next` links. -/
inductive Node where
  | mk (type : NodeType) (flag : ℕ) (a b c : List Node) (w : List Text) (redir : List Redir)
    (s : Text) (items : List (List Text × List Node))

namespace Node

def type : Node → NodeType | mk t _ _ _ _ _ _ _ _ => t
def flag : Node → ℕ | mk _ f _ _ _ _ _ _ _ => f
def a : Node → List Node | mk _ _ a _ _ _ _ _ _ => a
def b : Node → List Node | mk _ _ _ b _ _ _ _ _ => b
def c : Node → List Node | mk _ _ _ _ c _ _ _ _ => c
def w : Node → List Text | mk _ _ _ _ _ w _ _ _ => w
def redir : Node → List Redir | mk _ _ _ _ _ _ r _ _ => r
def s : Node → Text | mk _ _ _ _ _ _ _ s _ => s
def items : Node → List (List Text × List Node) | mk _ _ _ _ _ _ _ _ i => i

end Node

/-- A pointer to the first node of a chain, in the arena of the parse `gen`. -/
structure Tree where
  gen : ℕ
  chain : List Node

/-- The statements and labels of a batch file, in the arena of the parse `gen`. -/
structure Prog where
  gen : ℕ
  st : List Node
  label : Text → ℤ

/-- An arena: the address of its `XsArena`, and the parse it was made for. -/
structure Arena where
  addr : ℕ
  gen : ℕ
  deriving DecidableEq

/-- The parses whose arenas are live. -/
def gens (live : List Arena) : List ℕ := live.map Arena.gen

/-! ### The function table -/

structure Func where
  name : Text
  body : Tree
  owner : Option ℕ

/-- `g_funcs` and `g_nfuncs`. -/
structure FuncTable where
  slots : Slots 128 Func
  nfuncs : ℕ
  count : nfuncs = usedCount slots
  le : nfuncs ≤ 96

def fnv (s : Text) : UInt32 :=
  s.foldl (fun h c => (h ^^^ UInt32.ofNat (c.toNat % 256)) * 16777619) 2166136261

def noFuncs : FuncTable where
  slots := fun _ => ⟨0, false, ⟨[], ⟨0, []⟩, none⟩⟩
  nfuncs := 0
  count := by simp [usedCount]
  le := by decide

theorem FuncTable.lt (t : FuncTable) : usedCount t.slots < 128 := by
  have hc := t.count
  have hl := t.le
  omega

def funcFind (t : FuncTable) (name : Text) : Option (Fin 128) :=
  if t.nfuncs = 0 || 32 ≤ name.length then none
  else probe (fun f => f.name = name) (fnv name) 128 t.slots (home 128 (fnv name))

theorem funcFind_used {t : FuncTable} {name : Text} {k : Fin 128} (h : funcFind t name = some k) :
    (t.slots k).used = true := by
  unfold funcFind at h
  split at h
  · simp at h
  · exact probe_used 128 _ h

/-- Overwriting a used slot does not change how many are used. -/
theorem usedCount_overwrite {t : Slots 128 Func} {k : Fin 128} {x : Slot Func}
    (hk : (t k).used = true) (hx : x.used = true) : usedCount (update t k x) = usedCount t := by
  have h := usedCount_update t k x
  simp only [hk, hx, if_true] at h
  omega

/-- Filling a free slot makes one more used. -/
theorem usedCount_fill {t : Slots 128 Func} {k : Fin 128} {x : Slot Func}
    (hk : (t k).used = false) (hx : x.used = true) : usedCount (update t k x) = usedCount t + 1 := by
  have h := usedCount_update t k x
  simp only [hk, hx, if_true, Bool.false_eq_true, if_false] at h
  omega

def funcSet (t : FuncTable) (name : Text) (body : Tree) (owner : Option ℕ) : FuncTable :=
  if 32 ≤ name.length then t
  else match hf : funcFind t name with
    | some k =>
      { slots := update t.slots k ⟨(t.slots k).h, (t.slots k).used, (t.slots k).val.name, body, owner⟩
        nfuncs := t.nfuncs
        count := by
          rw [usedCount_overwrite (funcFind_used hf) (by exact funcFind_used hf)]
          exact t.count
        le := t.le }
    | none =>
      if hn : 96 ≤ t.nfuncs then t
      else
        { slots := update t.slots (firstFree 128 t.slots (home 128 (fnv name)))
            ⟨fnv name, true, ⟨name, body, owner⟩⟩
          nfuncs := t.nfuncs + 1
          count := by
            rw [usedCount_fill (firstFree_free t.lt _) rfl]
            exact congrArg (· + 1) t.count
          le := by omega }

/-- The slots and the count after the loop of `FuncPurge`. -/
def purged (t : FuncTable) (owner : Option ℕ) : Slots 128 Func × ℕ :=
  purgeFrom (fun f => f.owner = owner) 256 (t.slots, t.nfuncs) 0

theorem purged_count (t : FuncTable) (owner : Option ℕ) :
    (purged t owner).2 = usedCount (purged t owner).1 ∧ (purged t owner).2 ≤ t.nfuncs := by
  unfold purged
  generalize 256 = n
  exact purgeFrom_count n (t.slots, t.nfuncs) 0 t.count

def funcPurge (t : FuncTable) (owner : Option ℕ) : FuncTable :=
  if t.nfuncs = 0 then t
  else
    { slots := (purged t owner).1
      nfuncs := (purged t owner).2
      count := (purged_count t owner).1
      le := le_trans (purged_count t owner).2 t.le }

/-! ### The interpreter's state -/

inductive Flow where
  | none | brk | cont | ret | exit | goto
  deriving DecidableEq

/-- The standard descriptors and the counters. -/
structure Io where
  fdIn : ℤ
  fdOut : ℤ
  fdErr : ℤ
  depth : ℤ
  fp : ℤ
  loopdepth : ℤ
  scriptdepth : ℤ
  substdepth : ℤ
  capdepth : ℤ
  pipedepth : ℤ
  deriving DecidableEq

/-- The arenas: the one that is run, those that are not freed, the bodies that are called. -/
structure Mem where
  curArena : Option ℕ
  prog : Option Prog
  live : List Arena
  calls : List ℕ

/-- What happens to the host's descriptors, and to the function table and the arenas. -/
inductive Event where
  | opened (fd : ℤ)
  | redirected (no : ℕ) (fd : ℤ)
  | closed (fd : ℤ)
  | memory (funcs : FuncTable) (live : List Arena) (calls : List ℕ)

structure St (W : Type) where
  io : Io
  mem : Mem
  status : ℤ
  flow : Flow
  flowN : ℤ
  batMode : Bool
  batEcho : Bool
  funcs : FuncTable
  nextGen : ℕ
  world : W
  hist : List Event

/-- What parsing a text comes to. A batch file has statements and labels, a shell script a chain. -/
inductive Parsed where
  | noMemory
  | bad
  | ok (root : List Node) (st : List Node) (label : Text → ℤ)

/-- An expansion: it runs command substitutions, and goes on with what they print. -/
inductive Ex (W α : Type) where
  | done (a : α) (w : W)
  | cmdSubst (cmd : Text) (w : W) (k : Option Text → ℤ → W → Ex W α)

/-- A command line of a batch file, by its first word. -/
inductive BatCommand where
  | plain
  | echoIs (enabled : Bool)
  | call (argv : List Text)
  | exit (b : Bool) (code : Option Text)
  | run (argv : List Text)

/-- The host, and the interpreter's treatment of texts. The world holds the variables, the
positional parameters and whatever else the host keeps. -/
structure Host (W : Type) where
  interrupted : W → Bool × W
  clearInterrupted : W → W
  xsHostOpen : Text → ℕ → W → ℤ × W
  xsHostClose : ℤ → W → W
  xsHostRemove : Text → W → W
  xsHostRun : List Text → ℤ → ℤ → ℤ → W → ℤ × W
  captureRoom : W → Bool × W
  readCapture : ℤ → W → Option Text × W
  readScript : ℤ → W → Option Text × W
  fullPath : Text → W → Text
  arenaAddr : List Arena → ℕ
  parse : Bool → Text → Parsed
  expandString : Text → ℤ → W → Ex W Text
  expandPattern : Text → ℤ → W → Ex W Text
  expandWord : Text → ℤ → W → Ex W (Option (List Text))
  globMatch : Text → Text → Bool
  parseI64 : Text → ℤ × Bool
  varSet : Text → Text → W → W
  posArgs : W → Option (List Text)
  pushFrame : List Text → W → W
  popFrame : W → W
  readLineIn : ℤ → W → Option Text × W
  builtin : Text → List Text → ℤ → ℤ → W → ℤ × W
  batExpand : Text → ℤ → W → Text
  batTest : Node → ℤ → W → Bool × W
  batRange : Text → ℤ × ℤ × ℤ
  batItems : Text → List Text
  batRedirs : Text → Text × List Redir
  batCommand : Text → W → BatCommand
  batPlain : Text → ℤ → W → ℤ × W

abbrev Sh (W α : Type) := Prg (St W) α

section

variable {W α : Type}

def getIo : Sh W Io := .read St.io
def getStatus : Sh W ℤ := .read St.status
def getFlow : Sh W Flow := .read St.flow
def setIo (f : Io → Io) : Sh W Unit := .update fun s => { s with io := f s.io }
def setStatus (v : ℤ) : Sh W Unit := .update fun s => { s with status := v }
def setFlow (v : Flow) : Sh W Unit := .update fun s => { s with flow := v }
def setFlowN (v : ℤ) : Sh W Unit := .update fun s => { s with flowN := v }
def setBatEcho (v : Bool) : Sh W Unit := .update fun s => { s with batEcho := v }
def setBatMode (v : Bool) : Sh W Unit := .update fun s => { s with batMode := v }
def onWorld (f : W → W) : Sh W Unit := .update fun s => { s with world := f s.world }

/-- An answer of the world, which may change with it. -/
def ask (f : W → α × W) : Sh W α := fun s =>
  .done (f s.world).1 { s with world := (f s.world).2 }

/-! ### Arenas -/

def curArena : Sh W (Option ℕ) := .read fun s => s.mem.curArena

def curProg : Sh W (Option Prog) := .read fun s => s.mem.prog

def setCurArena (a : Option ℕ) : Sh W Unit :=
  .update fun s => { s with mem := { s.mem with curArena := a } }

def setProg (p : Option Prog) : Sh W Unit :=
  .update fun s => { s with mem := { s.mem with prog := p } }

def noted (s : St W) : St W :=
  { s with hist := s.hist ++ [.memory s.funcs s.mem.live s.mem.calls] }

def setFuncs (f : FuncTable → FuncTable) : Sh W Unit :=
  .update fun s => noted { s with funcs := f s.funcs }

def setCalls (f : List ℕ → List ℕ) : Sh W Unit :=
  .update fun s => noted { s with mem := { s.mem with calls := f s.mem.calls } }

/-- A fresh arena, which a parse fills. -/
def arenaNew (H : Host W) : Sh W Arena := fun s =>
  let ar : Arena := ⟨H.arenaAddr s.mem.live, s.nextGen⟩
  .done ar (noted
    { s with mem := { s.mem with live := ar :: s.mem.live }, nextGen := s.nextGen + 1 })

def arenaFree (ar : Arena) : Sh W Unit :=
  .update fun s => noted { s with mem := { s.mem with live := s.mem.live.erase ar } }

/-! ### Descriptors -/

variable (H : Host W)

def hostOpen (path : Text) (mode : ℕ) : Sh W ℤ := fun s =>
  let (fd, w) := H.xsHostOpen path mode s.world
  .done fd { s with world := w, hist := if fd < 0 then s.hist else s.hist ++ [.opened fd] }

/-- The opening of a redirection's file, when `no` are already open for the command. -/
def redirOpen (path : Text) (mode no : ℕ) : Sh W ℤ := fun s =>
  let (fd, w) := H.xsHostOpen path mode s.world
  .done fd { s with world := w, hist := if fd < 0 then s.hist else s.hist ++ [.redirected no fd] }

def hostClose (fd : ℤ) : Sh W Unit :=
  .update fun s => { s with world := H.xsHostClose fd s.world, hist := s.hist ++ [.closed fd] }

/-- `XS_FD_NULL`. -/
def fdNull : ℤ := -2

structure IoSave where
  fdIn : ℤ
  fdOut : ℤ
  fdErr : ℤ
  opened : List ℤ

def closeAll : List ℤ → Sh W Unit
  | [] => pure ()
  | fd :: rest => do
    hostClose H fd
    closeAll rest

def restoreIo (sv : IoSave) : Sh W Unit := do
  closeAll H sv.opened
  setIo fun io => { io with fdIn := sv.fdIn, fdOut := sv.fdOut, fdErr := sv.fdErr }

/-! ### Texts that are run

The functions that follow run the nodes of a tree by `run`, which is `ExecNode` with fewer steps
left. -/

variable (run : Tree → Sh W ℤ)

def execList (gen : ℕ) : List Node → Sh W ℤ
  | [] => getStatus
  | n :: next => do
    if ← ask H.interrupted then
      setFlow .exit
      getStatus
    else
      let _ ← run ⟨gen, n :: next⟩
      if (← getFlow) ≠ .none then getStatus else execList gen next

/-- What is left of the flow after a text: without `propagate`, only an interrupted exit. -/
def dropFlow (propagate : Bool) : Sh W Unit := do
  let flow ← getFlow
  Prg.when (!propagate && flow ≠ .none && flow ≠ .exit) (setFlow .none)
  let flow ← getFlow
  if !propagate && flow = .exit then
    let stop ← ask H.interrupted
    Prg.when (!stop) (setFlow .none)
  else pure ()

def execString (text : Text) (propagate : Bool) : Sh W ℤ :=
  match H.parse false text with
  | .noMemory => pure 1
  | .bad => do
    let ar ← arenaNew H
    arenaFree ar
    pure 1
  | .ok l _ _ => do
    let ar ← arenaNew H
    let sa ← curArena
    setCurArena (some ar.addr)
    let _ ← execList H run ar.gen l
    let st ← getStatus
    setFuncs fun t => funcPurge t (some ar.addr)
    setCurArena sa
    dropFlow H propagate
    arenaFree ar
    pure st

def captureName (id : ℤ) : Text :=
  ['/', 'x', 's', 'c', 'a', 'p', Char.ofNat (48 + id.toNat), '.', 't', 'm', 'p']

/-- Reads what was captured. -/
def readBack (name : Text) : Sh W (Option Text) := do
  if !(← ask H.captureRoom) then pure none
  else
    let r ← hostOpen H name 0
    if r < 0 then
      onWorld (H.xsHostRemove name)
      pure (some [])
    else
      let out ← ask (H.readCapture r)
      hostClose H r
      Prg.when out.isSome (onWorld (H.xsHostRemove name))
      pure out

def cmdSubst (cmd : Text) : Sh W (Option Text) := do
  if 6 ≤ (← getIo).substdepth then pure none
  else
    let name := captureName (← getIo).capdepth
    setIo fun io => { io with capdepth := io.capdepth + 1 }
    let w ← hostOpen H name 1
    if w < 0 then
      setIo fun io => { io with capdepth := io.capdepth - 1 }
      pure none
    else
      let so := (← getIo).fdOut
      setIo fun io => { io with fdOut := w }
      setIo fun io => { io with substdepth := io.substdepth + 1 }
      let st ← execString H run cmd false
      setIo fun io => { io with substdepth := io.substdepth - 1 }
      setIo fun io => { io with fdOut := so }
      hostClose H w
      setIo fun io => { io with capdepth := io.capdepth - 1 }
      setStatus st
      readBack H name

/-- Carries an expansion out. -/
def expand : Ex W α → Sh W α
  | .done a w => do
    onWorld fun _ => w
    pure a
  | .cmdSubst cmd w k => do
    onWorld fun _ => w
    let out ← cmdSubst H run cmd
    let st ← getStatus
    let w' ← .read St.world
    expand (k out st w')

def expandString (text : Text) : Sh W Text := do
  let st ← getStatus
  let w ← .read St.world
  expand H run (H.expandString text st w)

def expandPattern (text : Text) : Sh W Text := do
  let st ← getStatus
  let w ← .read St.world
  expand H run (H.expandPattern text st w)

def expandWord (text : Text) : Sh W (Option (List Text)) := do
  let st ← getStatus
  let w ← .read St.world
  expand H run (H.expandWord text st w)

/-- The fields of some words, none if they are too large. -/
def expandWords : List Text → List Text → Sh W (Option (List Text))
  | [], av => pure (some av)
  | w :: rest, av => do
    match ← expandWord H run w with
    | none => pure none
    | some fields => expandWords rest (av ++ fields)

/-! ### Redirections -/

def eqCI (a b : Text) : Bool := a.map Char.toLower = b.map Char.toLower

def devNull : Text := ['/', 'd', 'e', 'v', '/', 'n', 'u', 'l', 'l']

/-- Where a redirection's descriptor goes. -/
def Redir.store (r : Redir) (fd : ℤ) (io : Io) : Io :=
  if r.op = .input then { io with fdIn := fd }
  else if r.fd = 2 then { io with fdErr := fd }
  else { io with fdOut := fd }

/-- What `>&` names by its first character. -/
def dupOf (path : Text) (io : Io) : ℤ :=
  if path.head? = some '2' then io.fdErr
  else if path.head? = some '1' then io.fdOut
  else io.fdIn

def redirMode : RedirOp → ℕ
  | .input => 0
  | .append => 2
  | _ => 1

def redirPath (r : Redir) : Sh W Text :=
  if r.raw then pure (r.target.take 1023) else expandString H run r.target

/-- The loop of `ApplyRedirs`. Without an answer, a file was not opened and all is restored. -/
def applyRedirsFrom : List Redir → IoSave → Sh W (Option IoSave)
  | [], sv => pure (some sv)
  | r :: next, sv => do
    let path ← redirPath H run r
    if r.op = .dup then
      setIo fun io =>
        if r.fd = 2 then { io with fdErr := dupOf path io } else { io with fdOut := dupOf path io }
      applyRedirsFrom next sv
    else if path = devNull || (r.raw && eqCI path ['n', 'u', 'l']) then
      setIo (r.store fdNull)
      applyRedirsFrom next sv
    else
      let fd ← redirOpen H path (redirMode r.op) sv.opened.length
      if fd < 0 then
        restoreIo H sv
        pure none
      else
        setIo (r.store fd)
        applyRedirsFrom next
          (if sv.opened.length < 8 then { sv with opened := sv.opened ++ [fd] } else sv)

def applyRedirs (r : List Redir) : Sh W (Option IoSave) := do
  let io ← getIo
  applyRedirsFrom H run r ⟨io.fdIn, io.fdOut, io.fdErr, []⟩

/-! ### Functions, scripts and commands -/

/-- The body of a function, noted while it is called. -/
def callBody (body : Tree) : Sh W ℤ := do
  setCalls (body.gen :: ·)
  let st ← execList H run body.gen body.chain
  setCalls List.tail
  pure st

def callFunc (f : Func) (argv : List Text) : Sh W ℤ := do
  if 32 ≤ (← getIo).fp + 1 then
    setFlow .exit
    pure 1
  else
    setIo fun io => { io with fp := io.fp + 1 }
    onWorld (H.pushFrame argv)
    let sl := (← getIo).loopdepth
    setIo fun io => { io with loopdepth := 0 }
    let _ ← callBody H run f.body
    setIo fun io => { io with loopdepth := sl }
    let flow ← getFlow
    Prg.when (flow = .ret) (setFlow .none)
    onWorld H.popFrame
    setIo fun io => { io with fp := io.fp - 1 }
    getStatus

/-- The steps of a batch file from statement `i` on, as far as `steps` go. -/
def runProg (p : Prog) : ℕ → ℕ → Sh W ℤ
  | 0, _ => Prg.cutoff
  | steps + 1, i => do
    if p.st.length ≤ i then getStatus
    else if ← ask H.interrupted then
      setFlow .exit
      getStatus
    else
      let _ ← run ⟨p.gen, p.st[i]?.toList⟩
      if (← getFlow) = .goto then
        let n ← .read St.flowN
        setFlow .none
        runProg p steps n.toNat
      else if (← getFlow) ≠ .none then getStatus
      else runProg p steps (i + 1)

/-- The statements of a batch file, or the list of a script. -/
def runBody (steps : ℕ) (bat : Bool) (p : Prog) (root : List Node) : Sh W ℤ :=
  if bat then runProg H run p steps 0 else execList H run p.gen root

def stripBom : Text → Text
  | a :: b :: c :: rest =>
    if a.toNat = 0xEF && b.toNat = 0xBB && c.toNat = 0xBF then rest else a :: b :: c :: rest
  | text => text

/-- The outermost script answers an interrupt. -/
def endInterrupt : Sh W Unit := do
  if (← getIo).scriptdepth = 0 then
    let stop ← ask H.interrupted
    Prg.when stop (onWorld H.clearInterrupted)
  else pure ()

/-- What `RunTextEx` saves. -/
structure Saved where
  prog : Option Prog
  arena : Option ℕ
  bat : Bool
  echo : Bool
  io : Io

/-- The part of `RunTextEx` before the text is run. -/
def enterText (ar : Arena) (prog : Prog) (bat : Bool) (argv : List Text) : Sh W Saved := do
  let sprog ← curProg
  let sar ← curArena
  let sbat ← .read St.batMode
  let secho ← .read St.batEcho
  let sio ← getIo
  setProg (some prog)
  setCurArena (some ar.addr)
  setBatMode bat
  setBatEcho true
  setIo fun io => { io with loopdepth := 0 }
  setFlow .none
  setIo fun io => { io with fp := io.fp + 1 }
  onWorld (H.pushFrame argv)
  setIo fun io => { io with scriptdepth := io.scriptdepth + 1 }
  pure ⟨sprog, sar, sbat, secho, sio⟩

/-- The part of `RunTextEx` after the text is run, up to where its arena is freed. -/
def leaveText (ar : Arena) (sv : Saved) : Sh W ℤ := do
  setIo fun io => { io with scriptdepth := io.scriptdepth - 1 }
  let res ← getStatus
  setFlow .none
  onWorld H.popFrame
  setIo fun io => { io with fp := io.fp - 1 }
  setFuncs fun t => funcPurge t (some ar.addr)
  setProg sv.prog
  setCurArena sv.arena
  setBatMode sv.bat
  setBatEcho sv.echo
  setIo fun io => { io with fdIn := sv.io.fdIn, fdOut := sv.io.fdOut, fdErr := sv.io.fdErr }
  setIo fun io => { io with loopdepth := sv.io.loopdepth }
  pure res

def runTextEx (steps : ℕ) (text : Text) (bat : Bool) (argv : List Text) : Sh W ℤ := do
  if 8 ≤ (← getIo).scriptdepth then pure 1
  else match H.parse bat (stripBom text) with
    | .noMemory => pure 1
    | .bad => do
      let ar ← arenaNew H
      arenaFree ar
      pure 2
    | .ok root st label => do
      let ar ← arenaNew H
      if 32 ≤ (← getIo).fp + 1 then
        arenaFree ar
        pure 1
      else
        let prog : Prog := ⟨ar.gen, st, label⟩
        let sv ← enterText H ar prog bat argv
        let _ ← runBody H run steps bat prog root
        let res ← leaveText H ar sv
        arenaFree ar
        endInterrupt H
        pure res

/-- The kind of a script by the end of its name: whether it is a batch file. -/
def xsScriptKind (name : Text) : Option Bool :=
  let ends (n : ℕ) (ext : Text) := n ≤ name.length && eqCI (name.drop (name.length - n)) ext
  if ends 3 ['.', 's', 'h'] then some false
  else if ends 4 ['.', 'b', 'a', 't'] || ends 4 ['.', 'c', 'm', 'd'] then some true
  else none

def xsRunFileInternal (steps : ℕ) (path : Text) (argv : List Text) : Sh W ℤ := do
  let w ← .read St.world
  let fd ← hostOpen H (H.fullPath path w) 0
  if fd < 0 then pure 127
  else
    let data ← ask (H.readScript fd)
    hostClose H fd
    match data with
    | none => pure 1
    | some text => runTextEx H run steps text (xsScriptKind path = some true) argv

/-- The entries of `g_builtins`, by what they do to the run. -/
inductive Builtin where
  | source | eval | exit | ret | brk | cont | plain
  deriving DecidableEq

def gBuiltins : List (Text × Builtin) :=
  [(['.'], .source), ([':'], .plain), (['['], .plain), (['b', 'r', 'e', 'a', 'k'], .brk),
   (['c', 'l', 'e', 'a', 'r'], .plain), (['c', 'o', 'n', 't', 'i', 'n', 'u', 'e'], .cont),
   (['e', 'c', 'h', 'o'], .plain), (['e', 'v', 'a', 'l'], .eval), (['e', 'x', 'i', 't'], .exit),
   (['e', 'x', 'p', 'o', 'r', 't'], .plain), (['e', 'x', 'p', 'r'], .plain),
   (['f', 'a', 'l', 's', 'e'], .plain), (['l', 'e', 't'], .plain),
   (['l', 'o', 'c', 'a', 'l'], .plain), (['p', 'r', 'i', 'n', 't', 'f'], .plain),
   (['p', 'w', 'd'], .plain), (['r', 'e', 'a', 'd'], .plain),
   (['r', 'e', 't', 'u', 'r', 'n'], .ret), (['s', 'e', 't'], .plain),
   (['s', 'h', 'i', 'f', 't'], .plain), (['s', 'l', 'e', 'e', 'p'], .plain),
   (['s', 'o', 'u', 'r', 'c', 'e'], .source), (['t', 'e', 's', 't'], .plain),
   (['t', 'p', 'u', 't'], .plain), (['t', 'r', 'a', 'p'], .plain), (['t', 'r', 'u', 'e'], .plain),
   (['u', 'n', 's', 'e', 't'], .plain)]

/-- The arguments of `eval`, joined in its buffer. -/
def evalText : List Text → Text → Text
  | [], buf => buf
  | [a], buf => buf ++ a.take (1022 - buf.length)
  | a :: rest, buf => evalText rest (buf ++ a.take (1022 - buf.length) ++ [' '])

/-- The status an `exit` or a `return` is given. -/
def codeOr (arg : Option Text) : Sh W ℤ :=
  match arg with
  | some a => pure (H.parseI64 a).1
  | none => getStatus

def leaveLoops (flow : Flow) (argv : List Text) : Sh W ℤ := do
  if (← getIo).loopdepth = 0 then pure 0
  else
    let n := ((argv[1]?).map fun a => (H.parseI64 a).1).getD 1
    setFlow flow
    setFlowN (if n < 1 then 1 else n)
    pure 0

def builtinFn (steps : ℕ) (b : Builtin) (argv : List Text) : Sh W ℤ :=
  match b with
  | .source =>
    match argv with
    | _ :: path :: rest => xsRunFileInternal H run steps path (path :: rest)
    | _ => pure 2
  | .eval => execString H run (evalText argv.tail []) true
  | .exit => do
    let code ← codeOr H argv[1]?
    setFlow .exit
    pure code
  | .ret => do
    let code ← codeOr H argv[1]?
    setFlow .ret
    pure code
  | .brk => leaveLoops H .brk argv
  | .cont => leaveLoops H .cont argv
  | .plain => do
    let io ← getIo
    let st ← getStatus
    ask (H.builtin (argv.headD []) argv io.fdIn st)

/-- A descriptor for the host: a file to sink into stands for the null one. -/
def nullSink (fd : ℤ) : Sh W (ℤ × ℤ) :=
  if fd = fdNull then do
    let tmp ← hostOpen H ['/', 'x', 's', 'n', 'u', 'l', 'l', '.', 't', 'm', 'p'] 1
    pure (tmp, tmp)
  else pure (fd, -1)

def closeTmp (tmp : ℤ) : Sh W Unit := if 0 ≤ tmp then hostClose H tmp else pure ()

def hostRun (argv : List Text) : Sh W ℤ := do
  let io ← getIo
  let (fo, tmpOut) ← nullSink H io.fdOut
  let (fe, tmpErr) ← nullSink H io.fdErr
  let (fi, tmpIn) ← nullSink H io.fdIn
  let st ← ask (H.xsHostRun argv fi fo fe)
  closeTmp H tmpOut
  closeTmp H tmpErr
  closeTmp H tmpIn
  pure st

def runArgs (steps : ℕ) (argv : List Text) (hostOnly : Bool) : Sh W ℤ :=
  match argv with
  | [] => pure 0
  | name :: _ =>
    if hostOnly then hostRun H argv
    else do
      let t ← .read St.funcs
      match funcFind t name with
      | some k => callFunc H run (t.slots k).val argv
      | none =>
        match gBuiltins.lookup name with
        | some b => builtinFn H run steps b argv
        | none => hostRun H argv

def isIdS (c : Char) : Bool := c.isAlpha || c = '_'
def isIdC (c : Char) : Bool := isIdS c || c.isDigit

/-- A leading `NAME=value`. -/
def assignment (w : Text) : Option (Text × Text) :=
  let name := w.takeWhile isIdC
  match w.drop name.length with
  | '=' :: value =>
    if (w.head?.map isIdS).getD false && name.length < 32 then some (name, value) else none
  | _ => none

/-- The leading assignments of a command, and the words that are left. -/
def assigns : List Text → Sh W (List Text)
  | [] => pure []
  | w :: rest =>
    match assignment w with
    | none => pure (w :: rest)
    | some (name, value) => do
      let val ← expandString H run value
      onWorld (H.varSet name val)
      assigns rest

/-- Runs the fields of a command, if they were not too large. -/
def runFields (steps : ℕ) : Option (List Text) → Sh W Unit
  | none => setStatus 1
  | some [] => setStatus 0
  | some argv => do
    let st ← runArgs H run steps argv false
    setStatus st

def execSimple (steps : ℕ) (n : Node) : Sh W ℤ := do
  let words ← assigns H run n.w
  let av ← expandWords H run words []
  runFields H run steps av
  getStatus

/-! ### Loops -/

/-- `LoopFlow`: whether the loop is left. -/
def loopFlow : Sh W Bool := do
  let n ← .read St.flowN
  if (← getFlow) = .brk then
    setFlowN (n - 1)
    Prg.when (n - 1 ≤ 0) (setFlow .none)
    pure true
  else if (← getFlow) = .cont then
    setFlowN (n - 1)
    if n - 1 ≤ 0 then
      setFlow .none
      pure false
    else pure true
  else
    let flow ← getFlow
    pure (flow ≠ .none)

/-- What follows the body of a loop: whether the loop is left. -/
def loopLeft : Sh W Bool := do
  if (← getFlow) ≠ .none then
    if ← loopFlow then pure true
    else if ← ask H.interrupted then
      setFlow .exit
      pure true
    else pure false
  else if ← ask H.interrupted then
    setFlow .exit
    pure true
  else pure false

def whileFrom (gen : ℕ) (n : Node) : ℕ → ℤ → Sh W ℤ
  | 0, _ => Prg.cutoff
  | steps + 1, st => do
    let _ ← execList H run gen n.a
    if (← getFlow) ≠ .none then pure st
    else
      let status ← getStatus
      if decide (status = 0) = decide (n.flag ≠ 0) then pure st
      else
        let st ← execList H run gen n.b
        if ← loopLeft H then pure st else whileFrom gen n steps st

/-- The end of a loop: its status, unless it is left early. -/
def loopEnd (st : ℤ) : Sh W ℤ := do
  setIo fun io => { io with loopdepth := io.loopdepth - 1 }
  let flow ← getFlow
  Prg.when (flow = .none) (setStatus st)
  getStatus

def loopStart : Sh W Unit := setIo fun io => { io with loopdepth := io.loopdepth + 1 }

def execWhile (steps gen : ℕ) (n : Node) : Sh W ℤ := do
  loopStart
  let st ← whileFrom H run gen n steps 0
  loopEnd st

def buildLoopList (n : Node) : Sh W (Option (List Text)) :=
  if n.flag ≠ 0 then .read fun s => H.posArgs s.world else expandWords H run n.w []

def forFrom (gen : ℕ) (n : Node) : List Text → ℤ → Sh W ℤ
  | [], st => pure st
  | v :: rest, _ => do
    onWorld (H.varSet n.s v)
    let st ← execList H run gen n.b
    if ← loopLeft H then pure st else forFrom gen n rest st

def execFor (gen : ℕ) (n : Node) : Sh W ℤ := do
  match ← buildLoopList H run n with
  | none =>
    setStatus 1
    pure 1
  | some av =>
    loopStart
    let st ← forFrom H run gen n av 0
    loopEnd st

def reply : Text := ['R', 'E', 'P', 'L', 'Y']

/-- The item a `select` is answered with. -/
def picked (av : List Text) (line : Text) : Text :=
  let (v, ok) := H.parseI64 line
  if ok && 1 ≤ v then av[(v - 1).toNat]?.getD [] else []

def selectFrom (gen : ℕ) (n : Node) (av : List Text) : ℕ → ℤ → Sh W ℤ
  | 0, _ => Prg.cutoff
  | steps + 1, st => do
    let io ← getIo
    match ← ask (H.readLineIn io.fdIn) with
    | none => pure st
    | some line =>
      onWorld (H.varSet reply line)
      if line = [] then selectFrom gen n av steps st
      else
        onWorld (H.varSet n.s (picked H av line))
        let st ← execList H run gen n.b
        if ← loopLeft H then pure st else selectFrom gen n av steps st

def execSelect (steps gen : ℕ) (n : Node) : Sh W ℤ := do
  match ← buildLoopList H run n with
  | none =>
    setStatus 1
    pure 1
  | some av =>
    loopStart
    let st ← selectFrom H run gen n av steps 0
    loopEnd st

def hits (word : Text) : List Text → Sh W Bool
  | [] => pure false
  | p :: rest => do
    let pat ← expandPattern H run p
    if H.globMatch pat word then pure true else hits word rest

def caseFrom (gen : ℕ) (word : Text) : List (List Text × List Node) → Sh W ℤ
  | [] => do
    setStatus 0
    pure 0
  | (pats, body) :: rest => do
    if ← hits H run word pats then execList H run gen body else caseFrom gen word rest

def execCase (gen : ℕ) (n : Node) : Sh W ℤ := do
  let word ← expandString H run n.s
  caseFrom H run gen word n.items

/-! ### Pipelines -/

def pipeName (id : ℤ) : Text :=
  ['/', 'x', 's', 'p', 'i', 'p', 'e', Char.ofNat (48 + id.toNat), '.', 't', 'm', 'p']

/-- The reading side of a pipeline. -/
def pipeRead (t : Tree) (name : Text) : Sh W Unit := do
  let r ← hostOpen H name 0
  if 0 ≤ r then
    let si := (← getIo).fdIn
    setIo fun io => { io with fdIn := r }
    let _ ← run t
    setIo fun io => { io with fdIn := si }
    hostClose H r

def execPipe (gen : ℕ) (n : Node) : Sh W ℤ := do
  if 8 ≤ (← getIo).pipedepth then
    setStatus 1
    pure 1
  else
    let name := pipeName (← getIo).pipedepth
    setIo fun io => { io with pipedepth := io.pipedepth + 1 }
    let w ← hostOpen H name 1
    if w < 0 then
      setIo fun io => { io with pipedepth := io.pipedepth - 1 }
      setStatus 1
      pure 1
    else
      let so := (← getIo).fdOut
      setIo fun io => { io with fdOut := w }
      let _ ← run ⟨gen, n.a⟩
      setIo fun io => { io with fdOut := so }
      hostClose H w
      let flow ← getFlow
      Prg.when (flow = .none) (pipeRead H run ⟨gen, n.b⟩ name)
      onWorld (H.xsHostRemove name)
      setIo fun io => { io with pipedepth := io.pipedepth - 1 }
      getStatus

/-! ### Batch files -/

def execBIf (gen : ℕ) (n : Node) : Sh W ℤ := do
  let st ← getStatus
  if ← ask (H.batTest n st) then
    let _ ← execList H run gen n.b
    getStatus
  else
    let _ ← execList H run gen n.c
    getStatus

/-- What follows the body of a batch loop: whether the loop is left. -/
def batLeft : Sh W Bool := do
  if (← getFlow) ≠ .none then pure true
  else if ← ask H.interrupted then
    setFlow .exit
    pure true
  else pure false

def batForItems (gen : ℕ) (n : Node) : List Text → ℤ → Sh W ℤ
  | [], st => pure st
  | v :: rest, _ => do
    onWorld (H.varSet n.s v)
    let st ← execList H run gen n.b
    if ← batLeft H then pure st else batForItems gen n rest st

def fmtI64 (v : ℤ) : Text := (toString v).toList

def batForRange (gen : ℕ) (n : Node) (step last : ℤ) : ℕ → ℤ → ℤ → Sh W ℤ
  | 0, _, _ => Prg.cutoff
  | steps + 1, i, st => do
    let more := if 0 < step then i ≤ last else last ≤ i
    if more then
      onWorld (H.varSet n.s (fmtI64 i))
      let st ← execList H run gen n.b
      if ← batLeft H then pure st else batForRange gen n step last steps (i + step) st
    else pure st

def execBFor (steps gen : ℕ) (n : Node) : Sh W ℤ := do
  let status ← getStatus
  let w ← .read St.world
  let items := H.batExpand (n.w.headD []) status w
  if n.flag ≠ 0 then
    let (first, step, last) := H.batRange items
    if step = 0 then pure 1
    else
      loopStart
      let st ← batForRange H run gen n step last steps first 0
      loopEnd st
  else
    loopStart
    let st ← batForItems H run gen n (H.batItems items) 0
    loopEnd st

def progLabel (p : Option Prog) (name : Text) : ℤ :=
  match p with
  | none => -1
  | some p => p.label name

/-- Runs the batch file from statement `i` on, as a call. -/
def batLabel (steps : ℕ) (p : Prog) (i : ℕ) (argv : List Text) : Sh W ℤ := do
  if 32 ≤ (← getIo).fp + 1 then pure 1
  else
    setIo fun io => { io with fp := io.fp + 1 }
    onWorld (H.pushFrame argv)
    let _ ← runProg H run p steps i
    let flow ← getFlow
    Prg.when (flow = .ret) (setFlow .none)
    onWorld H.popFrame
    setIo fun io => { io with fp := io.fp - 1 }
    getStatus

/-- A script by its name, or a program of the host. -/
def runNamed (steps : ℕ) (argv : List Text) : Sh W ℤ :=
  match argv with
  | [] => pure 0
  | name :: _ =>
    if (xsScriptKind name).isSome then xsRunFileInternal H run steps name argv
    else runArgs H run steps argv true

def batCall (steps : ℕ) (argv : List Text) : Sh W ℤ :=
  match argv with
  | (':' :: name) :: _ => do
    match ← curProg with
    | none => pure 1
    | some p =>
      let idx := p.label ((name.take 31).map Char.toUpper)
      if idx < 0 then pure 1 else batLabel H run steps p idx.toNat argv
  | argv => runNamed H run steps argv

def batDispatch (steps : ℕ) (line : Text) : Sh W ℤ := do
  let w ← .read St.world
  match H.batCommand line w with
  | .plain => do
    let st ← getStatus
    ask (H.batPlain line st)
  | .echoIs enabled => do
    setBatEcho enabled
    pure 0
  | .call argv => batCall H run steps argv
  | .exit b arg => do
    let code ← codeOr H arg
    setFlow (if b then .ret else .exit)
    pure code
  | .run argv => runNamed H run steps argv

def execBCmd (steps : ℕ) (n : Node) : Sh W ℤ := do
  let status ← getStatus
  let w ← .read St.world
  let (line, rd) := H.batRedirs (H.batExpand n.s status w)
  if rd = [] then
    let st ← batDispatch H run steps line
    setStatus st
    getStatus
  else
    match ← applyRedirs H run rd with
    | none =>
      setStatus 1
      pure 1
    | some sv =>
      let st ← batDispatch H run steps line
      setStatus st
      restoreIo H sv
      getStatus

def execGoto (n : Node) : Sh W Unit := do
  if n.s = ['E', 'O', 'F'] || n.s = [] then setFlow .ret
  else
    let idx := progLabel (← curProg) n.s
    if idx < 0 then
      setFlow .exit
      setStatus 1
    else
      setFlow .goto
      setFlowN idx

/-! ### The dispatcher -/

/-- The switch of `ExecNode`. -/
def execKind (steps gen : ℕ) (n : Node) : Sh W Unit :=
  match n.type with
  | .cmd => do let _ ← execSimple H run steps n
  | .and => do
    let _ ← run ⟨gen, n.a⟩
    if (← getFlow) = .none && (← getStatus) = 0 then let _ ← run ⟨gen, n.b⟩
  | .or => do
    let _ ← run ⟨gen, n.a⟩
    if (← getFlow) = .none && (← getStatus) ≠ 0 then let _ ← run ⟨gen, n.b⟩
  | .not => do
    let _ ← run ⟨gen, n.a⟩
    if (← getFlow) = .none then
      let st ← getStatus
      setStatus (if st = 0 then 1 else 0)
  | .pipe => do let _ ← execPipe H run gen n
  | .ifThen => do
    let _ ← execList H run gen n.a
    if (← getFlow) = .none then
      if (← getStatus) = 0 then let _ ← execList H run gen n.b
      else if n.c ≠ [] then let _ ← execList H run gen n.c
      else setStatus 0
  | .whileDo => do let _ ← execWhile H run steps gen n
  | .forIn => do let _ ← execFor H run gen n
  | .select => do let _ ← execSelect H run steps gen n
  | .caseOf => do let _ ← execCase H run gen n
  | .group => do let _ ← execList H run gen n.b
  | .func => do
    let ar ← curArena
    setFuncs fun t => funcSet t n.s ⟨gen, n.b⟩ ar
    setStatus 0
  | .batCmd => do let _ ← execBCmd H run steps n
  | .batIf => do let _ ← execBIf H run gen n
  | .batFor => do let _ ← execBFor H run steps gen n
  | .goto => execGoto n

def execBody (steps : ℕ) (t : Tree) : Sh W ℤ :=
  match t.chain with
  | [] => getStatus
  | n :: _ => do
    if 64 ≤ (← getIo).depth then
      setFlow .exit
      setStatus 1
      pure 1
    else
      setIo fun io => { io with depth := io.depth + 1 }
      if n.redir = [] then
        execKind H run steps t.gen n
        setIo fun io => { io with depth := io.depth - 1 }
        getStatus
      else
        match ← applyRedirs H run n.redir with
        | none =>
          setStatus 1
          setIo fun io => { io with depth := io.depth - 1 }
          pure 1
        | some sv =>
          execKind H run steps t.gen n
          restoreIo H sv
          setIo fun io => { io with depth := io.depth - 1 }
          getStatus

end

/-- `ExecNode`, as far as `steps` go. -/
def execNode {W : Type} (H : Host W) : ℕ → Tree → Sh W ℤ
  | 0 => fun _ => Prg.cutoff
  | steps + 1 => execBody H (execNode H steps) steps

end Xeneva.Shell
