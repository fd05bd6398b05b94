import Xeneva.Base.CExpr
import Xeneva.Shell.Script

/-!
# Arithmetic of the shell

The evaluator of `$(( ))`, which computes while it reads, and the grammar of the texts that it is
meant for. The table of the variables is a map with a limit; division is the one of the processor,
which wraps.
-/

namespace Xeneva.Shell.Arith

open Base.CExpr Function

def isSp (c : Char) : Bool := c = ' ' ∨ c = '\t' ∨ c = '\r'

def isBlank (c : Char) : Bool := isSp c || c = '\n'

def uc (c : Char) : Char := if 'a' ≤ c ∧ c ≤ 'z' then Char.ofNat (c.toNat - 32) else c

def hexVal (c : Char) : Option ℕ :=
  if c.isDigit then some (c.toNat - '0'.toNat)
  else if 'a' ≤ c ∧ c ≤ 'f' then some (c.toNat - 'a'.toNat + 10)
  else if 'A' ≤ c ∧ c ≤ 'F' then some (c.toNat - 'A'.toNat + 10)
  else none

def isHex : Text → Bool
  | c :: x :: _ => c = '0' ∧ (x = 'x' ∨ x = 'X')
  | _ => false

/-- The base of a number, its digits, and what follows. -/
def scanNum (s : Text) : ℕ × Text × Text :=
  if isHex s then
    (16, (s.drop 2).takeWhile fun c => (hexVal c).isSome, (s.drop 2).dropWhile fun c =>
      (hexVal c).isSome)
  else (10, s.takeWhile Char.isDigit, s.dropWhile Char.isDigit)

/-- The loops over the digits. -/
def readNum (b : ℕ) (ds : Text) : Int64 :=
  ds.foldl (fun v c => v * Int64.ofNat b + Int64.ofNat ((hexVal c).getD 0)) 0

def parseI64 (s : Text) : Int64 × Bool :=
  let s := s.dropWhile isBlank
  let neg : Bool := s.head? = some '-'
  let s := if s.head? = some '-' ∨ s.head? = some '+' then s.drop 1 else s
  let (b, ds, r) := scanNum s
  (if neg then -readNum b ds else readNum b ds, !ds.isEmpty && (r.dropWhile isBlank).isEmpty)

/-- A name that fits into its array. -/
def Name : Type := { n : Text // n ≠ [] ∧ n.length ≤ 31 }

structure Vars where
  bat_mode : Bool
  cwd : Text
  val : Text → Option Text
  nvars : ℕ

def normName (s : Vars) (n : Name) : Text := if s.bat_mode then n.val.map uc else n.val

def varGet (s : Vars) (n : Name) : Option Text :=
  match s.val (normName s n) with
  | some v => some v
  | none => if n.val = ['P', 'W', 'D'] then some s.cwd else none

/-- Whether there is a slot, or one can be made. -/
def varSlot (s : Vars) (n : Name) : Bool := (s.val (normName s n)).isSome || s.nvars < 256 * 3 / 4

def varPut (s : Vars) (n : Name) (v : Text) : Vars :=
  { s with
    val := update s.val (normName s n) (some v)
    nvars := if (s.val (normName s n)).isSome then s.nvars else s.nvars + 1 }

def varSet (s : Vars) (n : Name) (v : Text) : Vars := if varSlot s n then varPut s n v else s

def arVal (s : Vars) (n : Name) : Int64 :=
  match varGet s n with
  | none => 0
  | some [] => 0
  | some v => (parseI64 v).1

/-! ## The evaluator -/

/-- The end of a text is a zero. -/
def chr (p : Text) (i : ℕ) : Char := p.getD i (Char.ofNat 0)

def ws (p : Text) : Text := p.dropWhile isBlank

/-- `wrong` is not the code's: it says whether, before an error, an assignment was lost, or one was
made or an error found on a side that C does not evaluate. -/
structure Ar where
  p : Text
  err : Bool
  vars : Vars
  wrong : Bool

def Ar.mark (a : Ar) (bad : Bool) : Ar := { a with wrong := a.wrong || (!a.err && bad) }

def arSet (a : Ar) (n : Name) (v : Int64) (live : Bool) : Ar :=
  { a.mark (!live || !varSlot a.vars n) with vars := varSet a.vars n (fmtI64 v.toInt) }

/-- A divisor is zero. -/
def arZero (a : Ar) (live : Bool) : Ar := { a.mark (!live) with err := true }

def unOp (c : Char) : Option UnOp :=
  if c = '-' then some .neg
  else if c = '+' then some .plus
  else if c = '!' then some .not
  else if c = '~' then some .compl
  else none

def arName (c : Char) (p : Text) : Name :=
  ⟨(c :: p.takeWhile isIdC).take 31, by simp, by simp⟩

/-- What follows a name. -/
inductive Form
  | step (up : Bool)
  | assign (op : Option BinOp)
  | use

def Form.len : Form → ℕ
  | step _ => 2
  | assign none => 1
  | assign (some _) => 2
  | use => 0

def assignOp (c : Char) : Option BinOp :=
  if c = '+' then some .add
  else if c = '-' then some .sub
  else if c = '*' then some .mul
  else if c = '/' then some .div
  else if c = '%' then some .mod
  else none

def idForm (p : Text) : Form :=
  if chr p 0 = '+' ∧ chr p 1 = '+' then .step true
  else if chr p 0 = '-' ∧ chr p 1 = '-' then .step false
  else if chr p 0 = '=' ∧ chr p 1 ≠ '=' then .assign none
  else if (assignOp (chr p 0)).isSome ∧ chr p 1 = '=' then .assign (assignOp (chr p 0))
  else .use

/-- The precedence of the operator, and its length. -/
def arPrec (p : Text) : ℕ × ℕ :=
  if chr p 0 = '|' ∧ chr p 1 = '|' then (1, 2)
  else if chr p 0 = '&' ∧ chr p 1 = '&' then (2, 2)
  else if chr p 0 = '=' ∧ chr p 1 = '=' then (6, 2)
  else if chr p 0 = '!' ∧ chr p 1 = '=' then (6, 2)
  else if chr p 0 = '<' ∧ chr p 1 = '=' then (7, 2)
  else if chr p 0 = '>' ∧ chr p 1 = '=' then (7, 2)
  else if chr p 0 = '<' ∧ chr p 1 = '<' then (8, 2)
  else if chr p 0 = '>' ∧ chr p 1 = '>' then (8, 2)
  else if chr p 0 = '|' then (3, 1)
  else if chr p 0 = '^' then (4, 1)
  else if chr p 0 = '&' then (5, 1)
  else if chr p 0 = '<' ∨ chr p 0 = '>' then (7, 1)
  else if chr p 0 = '+' ∨ chr p 0 = '-' then (9, 1)
  else if chr p 0 = '*' ∨ chr p 0 = '/' ∨ chr p 0 = '%' then (10, 1)
  else (0, 1)

/-- The `switch` over the precedence; there is no value for a divisor of zero. -/
def arOp (pr : ℕ) (o0 o1 : Char) (l r : Int64) : Option Int64 :=
  match pr with
  | 1 => some (ofBool (l ≠ 0 ∨ r ≠ 0))
  | 2 => some (ofBool (l ≠ 0 ∧ r ≠ 0))
  | 3 => some (l ||| r)
  | 4 => some (l ^^^ r)
  | 5 => some (l &&& r)
  | 6 => some (if o0 = '=' then ofBool (l = r) else ofBool (l ≠ r))
  | 7 =>
    if o0 = '<' then some (if o1 ≠ Char.ofNat 0 then ofBool (l ≤ r) else ofBool (l < r))
    else some (if o1 ≠ Char.ofNat 0 then ofBool (r ≤ l) else ofBool (r < l))
  | 8 => some (if o0 = '<' then l <<< r else l >>> r)
  | 9 => some (if o0 = '+' then l + r else l - r)
  | 10 =>
    if o0 = '*' then some (l * r)
    else if r = 0 then none
    else some (if o0 = '/' then l / r else l % r)
  | _ => some l

/-- C evaluates the right side of an operator. -/
def evaluates (pr : ℕ) (l : Int64) : Bool := !(pr = 1 && l ≠ 0) && !(pr = 2 && l = 0)

mutual

/-- The first number bounds the depth of the calls, and `live` says that C evaluates what is read;
the code has neither. -/
def arUnary : ℕ → Bool → Ar → Option (Int64 × Ar)
  | 0, _, _ => none
  | f + 1, live, a =>
    match ws a.p with
    | [] => some (0, { a with p := [], err := true })
    | c :: p =>
      match unOp c with
      | some op => (arUnary f live { a with p := p }).map fun r => (op.apply r.1, r.2)
      | none =>
        if c = '(' then
          (arExpr f live 0 { a with p := p }).map fun r =>
            match ws r.2.p with
            | ')' :: p => (r.1, { r.2 with p := p })
            | p => (r.1, { r.2 with p := p, err := true })
        else if c.isDigit then
          let (b, ds, q) := scanNum (c :: p)
          some (readNum b ds, { a with p := q })
        else if isIdS c then
          let name := arName c p
          let p := ws (p.dropWhile isIdC)
          let a := { a with p := p.drop (idForm p).len }
          match idForm p with
          | .step up =>
            some (arVal a.vars name, arSet a name (stepped up (arVal a.vars name)) live)
          | .assign op =>
            (arExpr f live 0 a).map fun r =>
              match assigned op (arVal r.2.vars name) r.1 with
              | none => (0, arZero r.2 live)
              | some v => (v, arSet r.2 name v live)
          | .use => some (arVal a.vars name, a)
        else some (0, { a with p := c :: p, err := true })

def arExpr : ℕ → Bool → ℕ → Ar → Option (Int64 × Ar)
  | 0, _, _, _ => none
  | f + 1, live, minp, a =>
    match arUnary f live a with
    | none => none
    | some (l, a) => arLoop f live minp l a

/-- The loop of `ArExpr`. -/
def arLoop : ℕ → Bool → ℕ → Int64 → Ar → Option (Int64 × Ar)
  | 0, _, _, _, _ => none
  | f + 1, live, minp, l, a =>
    let p := ws a.p
    let (pr, len) := arPrec p
    if pr = 0 ∨ pr < minp then some (l, { a with p := p })
    else if len = 1 ∧ chr p 1 = '=' ∧ chr p 0 ≠ '<' ∧ chr p 0 ≠ '>' then
      some (l, { a with p := p })
    else
      match arExpr f (live && evaluates pr l) (pr + 1) { a with p := p.drop len } with
      | none => none
      | some (r, a) =>
        match arOp pr (chr p 0) (if len = 2 then chr p 1 else Char.ofNat 0) l r with
        | none => some (0, arZero a live)
        | some l => arLoop f live minp l a

end

/-- No text needs more than this many nested calls. -/
def depth (s : Text) : ℕ := 3 * s.length + 3

def arithEval (s : Text) (vars : Vars) : Option (Int64 × Ar) :=
  (arExpr (depth s) true 0 ⟨s, false, vars, false⟩).map fun r =>
    (r.1, { r.2 with p := ws r.2.p, err := r.2.err || ws r.2.p ≠ [] })

/-- The operator that a text begins with. One that is followed by `=` belongs to a name. -/
def opAt (p : Text) : Option BinOp :=
  if chr p 0 = '|' then
    if chr p 1 = '|' then some .lor else if chr p 1 = '=' then none else some .bor
  else if chr p 0 = '&' then
    if chr p 1 = '&' then some .land else if chr p 1 = '=' then none else some .band
  else if chr p 0 = '^' then if chr p 1 = '=' then none else some .bxor
  else if chr p 0 = '=' then if chr p 1 = '=' then some .eq else none
  else if chr p 0 = '!' then if chr p 1 = '=' then some .ne else none
  else if chr p 0 = '<' then
    if chr p 1 = '=' then some .le else if chr p 1 = '<' then some .shl else some .lt
  else if chr p 0 = '>' then
    if chr p 1 = '=' then some .ge else if chr p 1 = '>' then some .shr else some .gt
  else if chr p 0 = '+' then if chr p 1 = '=' then none else some .add
  else if chr p 0 = '-' then if chr p 1 = '=' then none else some .sub
  else if chr p 0 = '*' then if chr p 1 = '=' then none else some .mul
  else if chr p 0 = '/' then if chr p 1 = '=' then none else some .div
  else if chr p 0 = '%' then if chr p 1 = '=' then none else some .mod
  else none

def opLen : BinOp → ℕ
  | .lor | .land | .eq | .ne | .le | .ge | .shl | .shr => 2
  | _ => 1

/-- The number that digits stand for. -/
def numeral (b : ℕ) (ds : Text) : ℕ := ds.foldl (fun n c => n * b + (hexVal c).getD 0) 0

/-- At this level a text begins with this expression, and the last text is left. Level 11 is the
operands; operators associate to the left. An expression is closed unless it ends in an
assignment, which takes all that follows. -/
inductive Derives : ℕ → Text → Expr Name → Bool → Text → Prop
  | num {s c p} : ws s = c :: p → c.isDigit → Derives 11 s
      (.num (numeral (scanNum (c :: p)).1 (scanNum (c :: p)).2.1)) true (scanNum (c :: p)).2.2
  | var {s c p q} : ws s = c :: p → isIdS c → q = ws (p.dropWhile isIdC) → idForm q = .use →
      Derives 11 s (.var (arName c p)) true q
  | step {s c p q up} : ws s = c :: p → isIdS c → q = ws (p.dropWhile isIdC) →
      idForm q = .step up → Derives 11 s (.step (arName c p) up) true (q.drop 2)
  | assign {s c p q op e k t} : ws s = c :: p → isIdS c → q = ws (p.dropWhile isIdC) →
      idForm q = .assign op → Derives 0 (q.drop (Form.assign op).len) e k t →
      Derives 11 s (.assign (arName c p) op e) false (ws t)
  | un {s c p op e k t} : ws s = c :: p → unOp c = some op → Derives 11 p e k t →
      Derives 11 s (.un op e) k t
  | paren {s p e k t u} : ws s = '(' :: p → Derives 0 p e k t → ws t = ')' :: u →
      Derives 11 s e true u
  | up {n s e k t} : n < 11 → Derives (n + 1) s e k t → Derives n s e k t
  | bin {op s l t r k u} : Derives op.prec s l true t → opAt (ws t) = some op →
      Derives (op.prec + 1) ((ws t).drop (opLen op)) r k u →
      Derives op.prec s (.bin op l r) k (ws u)

/-- The texts of the grammar. -/
def Parses (s : Text) (e : Expr Name) : Prop := ∃ k t, Derives 0 s e k t ∧ ws t = []

end Xeneva.Shell.Arith
