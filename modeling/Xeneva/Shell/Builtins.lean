import Xeneva.Shell.Arith
import Xeneva.Shell.Trim

/-!
# Built-ins of the shell

Those that put a list of arguments into fixed buffers, and the positional parameters, with every
place of a buffer that is written and every place of `argv` that is read.
-/

namespace Xeneva.Shell.Builtins

open Arith (parseI64 hexVal arithEval Vars)
open Glob (isDig atoi)

/-- A place in an object of some room. -/
structure Access where
  room : ℤ
  place : ℤ
  deriving DecidableEq

abbrev Log := List Access

/-- The first `n` places. -/
def places (room : ℤ) (n : ℕ) : Log := (List.range n).map fun i : ℕ => ⟨room, i⟩

def XS_FIELD_MAX : ℤ := 1024

/-- A number as an `int`. -/
def toInt (n : ℤ) : ℤ := (n + 2 ^ 31) % 2 ^ 32 - 2 ^ 31

/-- The loop that writes digits, the last one first. -/
def digitLoop (dg : Text) (base : ℕ) : ℕ → ℕ → Text
  | 0, _ => []
  | fuel + 1, v =>
    dg.getD (v % base) '0' :: if v / base = 0 then [] else digitLoop dg base fuel (v / base)

def lowerDigits : Text :=
  ['0', '1', '2', '3', '4', '5', '6', '7', '8', '9', 'a', 'b', 'c', 'd', 'e', 'f']

def upperDigits : Text :=
  ['0', '1', '2', '3', '4', '5', '6', '7', '8', '9', 'A', 'B', 'C', 'D', 'E', 'F']

/-- `FmtI64` into an array of some room, by way of one of 24 bytes. -/
def fmtI64 (v : Int64) (room : ℤ) : Text × Log :=
  let tmp := digitLoop lowerDigits 10 64 v.toInt.natAbs
  let out := (if v < 0 then ['-'] else []) ++ tmp.reverse
  (out, places 24 tmp.length ++ places room (out.length + 1))

/-- The buffer of the console, which takes 255 bytes at a time. -/
def consoleLoop : ℕ → ℕ → Log
  | 0, _ => []
  | fuel + 1, n =>
    if n = 0 then [] else places 256 (min n 255 + 1) ++ consoleLoop fuel (n - min n 255)

def xsWrite (fd : ℤ) (n : ℕ) : Log := if fd = fdNull ∨ 0 ≤ fd then [] else consoleLoop n n

structure Ob where
  fd : ℤ
  b : Text
  out : Text
  log : Log

def Ob.flush (o : Ob) : Ob :=
  { o with b := [], out := o.out ++ o.b, log := o.log ++ xsWrite o.fd o.b.length }

def Ob.put (o : Ob) (c : Char) : Ob :=
  let o := if o.b.length = 256 then o.flush else o
  { o with b := o.b ++ [c], log := o.log ++ [⟨256, o.b.length⟩] }

def Ob.puts (o : Ob) (s : Text) : Ob := s.foldl Ob.put o

def padOut (o : Ob) (s : Text) (len width : ℤ) (left : Bool) : Ob :=
  let pad := List.replicate (if len < width then width - len else 0).toNat ' '
  o.puts ((if left then [] else pad) ++ s.take len.toNat ++ if left then pad else [])

/-! ## printf -/

/-- The value of an escape, and what follows it. -/
def escSeq : Text → ℕ × Text
  | [] => (0, [])
  | c :: r =>
    if c = 'n' then (10, r)
    else if c = 't' then (9, r)
    else if c = 'r' then (13, r)
    else if c = 'e' ∨ c = 'E' then (27, r)
    else if c = 'a' then (7, r)
    else if c = 'b' then (8, r)
    else if c = 'f' then (12, r)
    else if c = 'v' then (11, r)
    else if c = 'x' then
      let ds := (r.takeWhile fun d => (hexVal d).isSome).take 2
      if ds = [] then ('x'.toNat, r)
      else (ds.foldl (fun v d => v * 16 + (hexVal d).getD 0) 0, r.drop ds.length)
    else if '0' ≤ c ∧ c ≤ '7' then
      let ds := (r.takeWhile fun d => '0' ≤ d ∧ d ≤ '7').take (if c = '0' then 3 else 2)
      (ds.foldl (fun v d => v * 8 + (d.toNat - '0'.toNat)) (c.toNat - '0'.toNat) % 256,
        r.drop ds.length)
    else (c.toNat % 256, r)

/-- The loop of `%b`, which fills an array up to its last byte. -/
def unescape : ℕ → Text → Text → Text
  | 0, _, tmp => tmp
  | _, [], tmp => tmp
  | fuel + 1, c :: r, tmp =>
    if XS_FIELD_MAX - 1 ≤ tmp.length then tmp
    else if c = '\\' ∧ r ≠ [] then
      let (ch, r) := escSeq r
      unescape fuel r (if ch = 0 then tmp else tmp ++ [Char.ofNat ch])
    else unescape fuel r (tmp ++ [c])

structure Printf where
  ob : Ob
  ai : ℕ
  used : Bool

/-- A conversion that takes an argument. -/
def Printf.take (p : Printf) (s : Text) (len width : ℤ) (left : Bool) (log : Log) : Printf where
  ob := padOut { p.ob with log := p.ob.log ++ log } s len width left
  ai := p.ai + 1
  used := true

/-- The conversion `c`. -/
def convert (argv : List Text) (width : ℤ) (left : Bool) (c : Char) (p : Printf) : Printf :=
  let a := argv.getD p.ai []
  if c = '%' then { p with ob := p.ob.put '%' }
  else if c = 's' then p.take a (toInt a.length) width left []
  else if c = 'b' then
    let tmp := unescape a.length a []
    p.take tmp tmp.length width left (places XS_FIELD_MAX tmp.length)
  else if c = 'd' ∨ c = 'i' ∨ c = 'u' then
    let (b, log) := fmtI64 (parseI64 a).1 64
    p.take b b.length width left log
  else if c = 'c' then p.take a (if a = [] then 0 else 1) width left []
  else if c = 'x' ∨ c = 'X' ∨ c = 'o' then
    let t := digitLoop (if c = 'X' then upperDigits else lowerDigits) (if c = 'o' then 8 else 16) 64
      (parseI64 a).1.toUInt64.toNat
    p.take t.reverse t.length width left (places 24 t.length ++ places 64 t.length)
  else p

/-- One pass over the format. -/
def pass (argv : List Text) : ℕ → Text → Printf → Printf
  | 0, _, p => p
  | _, [], p => p
  | fuel + 1, c :: s, p =>
    if c = '\\' ∧ s ≠ [] then
      let (ch, s) := escSeq s
      pass argv fuel s (if ch = 0 then p else { p with ob := p.ob.put (Char.ofNat ch) })
    else if c = '%' ∧ s ≠ [] then
      let isFlag (d : Char) : Bool := d = '-' ∨ d = '0' ∨ d = '+' ∨ d = ' '
      let left := '-' ∈ s.takeWhile isFlag
      let s := s.dropWhile isFlag
      let width := (s.takeWhile isDig).foldl
        (fun v d => toInt (v * 10 + (d.toNat - '0'.toNat : ℕ))) 0
      let s := s.dropWhile isDig
      let s := if s.head? = some '.' then (s.drop 1).dropWhile isDig else s
      match s with
      | [] => p
      | d :: s => pass argv fuel s (convert argv width left d p)
    else pass argv fuel s { p with ob := p.ob.put c }

/-- The loop that uses the format again while there are arguments. -/
def printfLoop (argv : List Text) (fmt : Text) : ℕ → Printf → Printf
  | 0, p => p
  | fuel + 1, p =>
    let p := pass argv fmt.length fmt { p with used := false }
    if p.used ∧ p.ai < argv.length then printfLoop argv fmt fuel p else p

/-- `printf`, with what it prints, where it writes and its status. -/
def bPrintf (fd : ℤ) (argv : List Text) : Text × Log × ℤ :=
  match argv with
  | _ :: fmt :: _ =>
    let ob := (printfLoop argv fmt argv.length ⟨⟨fd, [], [], []⟩, 2, false⟩).ob.flush
    (ob.out, ob.log, 0)
  | _ => ([], [], 1)

/-- The loop over the arguments of `expr`, with a space after each. -/
def exprText : List Text → Text → Text
  | [], buf => buf
  | a :: rest, buf => exprText rest (buf ++ a.take (1022 - buf.length) ++ [' '])

def bExpr (vars : Vars) (fd : ℤ) (argv : List Text) : Text × Log × ℤ :=
  let buf := exprText argv.tail []
  let log := places XS_FIELD_MAX (buf.length + 1)
  match arithEval buf vars with
  | none => ([], log, 2)
  | some (v, ar) =>
    if ar.err then ([], log, 2)
    else
      let (b, fmt) := fmtI64 v 24
      (b ++ ['\n'], log ++ fmt ++ xsWrite fd b.length ++ xsWrite fd 1, if v = 0 then 1 else 0)

/-- `eval`, with the text that it executes. -/
def bEval (argv : List Text) : Text × Log :=
  let buf := evalText argv.tail []
  (buf, places XS_FIELD_MAX (buf.length + 1))

/-- An argument vector, with the count an `int`. -/
abbrev Args : Type := { argv : List Text // argv.length < 2 ^ 31 }

structure Frame where
  args : Args
  shift : ℤ

def Frame.argc (f : Frame) : ℤ := f.args.1.length

/-- The frames, the innermost one first. -/
abbrev Frames := List Frame

/-- What `PosArg` reads of `argv`. -/
def posArg (fs : Frames) (n : ℤ) : Log :=
  match fs with
  | [] => []
  | f :: _ =>
    if n = 0 then (if 0 < f.argc then [⟨f.argc, 0⟩] else [])
    else
      let idx := toInt (n + f.shift)
      if idx < f.argc then [⟨f.argc, idx⟩] else []

def posCount (fs : Frames) : ℤ :=
  match fs with
  | [] => 0
  | f :: _ =>
    let n := toInt (f.argc - 1 - f.shift)
    if n < 0 then 0 else n

/-- `$@` and the other loops over all parameters. -/
def posAll (fs : Frames) : Log :=
  (List.range (posCount fs).toNat).flatMap fun i : ℕ => posArg fs (i + 1)

/-- The number that `shift` is given. -/
def shiftCount (argv : List Text) : ℤ :=
  match argv[1]? with
  | some a => toInt (parseI64 a).1.toInt
  | none => 1

def bShift (argv : List Text) (fs : Frames) : Frames :=
  match fs with
  | [] => []
  | f :: rest =>
    if posCount (f :: rest) < shiftCount argv then f :: rest
    else { f with shift := toInt (f.shift + shiftCount argv) } :: rest

/-- `shift` in a batch file. -/
def batShift (fs : Frames) : Frames :=
  match fs with
  | [] => []
  | f :: rest => if f.shift < f.argc - 1 then { f with shift := f.shift + 1 } :: rest else f :: rest

/-- `set --` with new parameters, when there is memory for them. -/
def bSet (argv : Args) (room : Bool) (fs : Frames) : Frames × Log :=
  match argv, fs with
  | ⟨s :: d :: new, h⟩, f :: rest =>
    if d = ['-', '-'] ∧ room then
      (⟨⟨f.args.1.headD [] :: new, by simp only [List.length_cons] at h ⊢; omega⟩, 0⟩ :: rest,
        if 0 < f.argc then [⟨f.argc, 0⟩] else [])
    else (f :: rest, [])
  | _, fs => (fs, [])

inductive Act
  | enter (argv : Args)
  | leave
  | shift (argv : Args)
  | batShift
  | set (argv : Args) (room : Bool)
  | expr (vars : Vars) (fd : ℤ) (argv : Args)
  | eval (argv : Args)
  | printf (fd : ℤ) (argv : Args)
  /-- `$0` to `$9` -/
  | digit (d : Fin 10)
  /-- A number in braces. -/
  | brace (name : Text)
  | all

def step (fs : Frames) : Act → Frames × Log
  | .enter argv => (if 32 ≤ fs.length then fs else ⟨argv, 0⟩ :: fs, [])
  | .leave => (fs.tail, [])
  | .shift argv => (bShift argv.1 fs, [])
  | .batShift => (batShift fs, [])
  | .set argv room => bSet argv room fs
  | .expr vars fd argv => (fs, (bExpr vars fd argv.1).2.1)
  | .eval argv => (fs, (bEval argv.1).2)
  | .printf fd argv => (fs, (bPrintf fd argv.1).2.1)
  | .digit d => (fs, posArg fs d)
  | .brace name => (fs, posArg fs (atoi name).toInt)
  | .all => (fs, posAll fs)

/-- What a run leaves, and all that it writes and reads. -/
def run (fs : Frames) : List Act → Frames × Log
  | [] => (fs, [])
  | a :: as =>
    let (fs, log) := step fs a
    let (fs, later) := run fs as
    (fs, log ++ later)

end Xeneva.Shell.Builtins
