import Mathlib

/-!
# Expressions of C that assign

Arithmetic on 64 bits in two's complement over any store. `eval` leaves the right side of `&&` and
of `||` where C leaves it; `strict` evaluates both sides, in a memory that may be full, and marks
whether it did what C does not do.
-/

namespace Xeneva.Base.CExpr

universe u v w

variable {σ : Type u} {τ : Type v} {ν : Type w}

inductive UnOp
  | neg | plus | not | compl

inductive BinOp
  | lor | land | bor | bxor | band | eq | ne | lt | le | gt | ge | shl | shr
  | add | sub | mul | div | mod

/-- Operators of a greater number bind tighter. -/
def BinOp.prec : BinOp → ℕ
  | lor => 1
  | land => 2
  | bor => 3
  | bxor => 4
  | band => 5
  | eq | ne => 6
  | lt | le | gt | ge => 7
  | shl | shr => 8
  | add | sub => 9
  | mul | div | mod => 10

theorem BinOp.prec_pos (op : BinOp) : 0 < op.prec := by
  cases op <;> decide

theorem BinOp.prec_le (op : BinOp) : op.prec ≤ 10 := by
  cases op <;> decide

def ofBool (b : Bool) : Int64 := if b then 1 else 0

def UnOp.apply : UnOp → Int64 → Int64
  | neg, a => -a
  | plus, a => a
  | not, a => ofBool (a = 0)
  | compl, a => ~~~a

/-- There is no value for a divisor of zero. -/
def BinOp.apply : BinOp → Int64 → Int64 → Option Int64
  | lor, a, b => some (ofBool (a ≠ 0 ∨ b ≠ 0))
  | land, a, b => some (ofBool (a ≠ 0 ∧ b ≠ 0))
  | bor, a, b => some (a ||| b)
  | bxor, a, b => some (a ^^^ b)
  | band, a, b => some (a &&& b)
  | eq, a, b => some (ofBool (a = b))
  | ne, a, b => some (ofBool (a ≠ b))
  | lt, a, b => some (ofBool (a < b))
  | le, a, b => some (ofBool (a ≤ b))
  | gt, a, b => some (ofBool (b < a))
  | ge, a, b => some (ofBool (b ≤ a))
  | shl, a, b => some (a <<< b)
  | shr, a, b => some (a >>> b)
  | add, a, b => some (a + b)
  | sub, a, b => some (a - b)
  | mul, a, b => some (a * b)
  | div, a, b => if b = 0 then none else some (a / b)
  | mod, a, b => if b = 0 then none else some (a % b)

/-- The value where the left side decides. -/
def BinOp.skips : BinOp → Int64 → Option Int64
  | lor, a => if a = 0 then none else some 1
  | land, a => if a = 0 then some 0 else none
  | _, _ => none

theorem BinOp.apply_of_skips {op : BinOp} {a v : Int64} (h : op.skips a = some v) (b : Int64) :
    op.apply a b = some v := by
  cases op <;> simp_all [skips, apply, ofBool]

/-- `step` is `x++` and `x--`. -/
inductive Expr (ν : Type w)
  | num (n : ℕ)
  | var (x : ν)
  | step (x : ν) (up : Bool)
  | assign (x : ν) (op : Option BinOp) (e : Expr ν)
  | un (op : UnOp) (e : Expr ν)
  | bin (op : BinOp) (l r : Expr ν)

structure Store (σ : Type u) (ν : Type w) where
  read : σ → ν → Int64
  write : σ → ν → Int64 → σ

def stepped (up : Bool) (v : Int64) : Int64 := if up then v + 1 else v - 1

def assigned (op : Option BinOp) (old v : Int64) : Option Int64 :=
  match op with
  | none => some v
  | some op => op.apply old v

/-- There is none if a divisor is zero that is evaluated. -/
def eval (S : Store σ ν) : Expr ν → σ → Option (Int64 × σ)
  | .num n, s => some (Int64.ofNat n, s)
  | .var x, s => some (S.read s x, s)
  | .step x up, s => some (S.read s x, S.write s x (stepped up (S.read s x)))
  | .assign x op e, s =>
    match eval S e s with
    | none => none
    | some (r, t) => (assigned op (S.read t x) r).map fun v => (v, S.write t x v)
  | .un op e, s => (eval S e s).map fun r => (op.apply r.1, r.2)
  | .bin op l r, s =>
    match eval S l s with
    | none => none
    | some (a, t) =>
      match op.skips a with
      | some v => some (v, t)
      | none =>
        match eval S r t with
        | none => none
        | some (b, u) => (op.apply a b).map fun v => (v, u)

/-- What keeps the reads and the writes keeps the values. -/
theorem eval_map {S : Store σ ν} {T : Store τ ν} (f : σ → τ)
    (hread : ∀ s x, T.read (f s) x = S.read s x)
    (hwrite : ∀ s x v, f (S.write s x v) = T.write (f s) x v) (e : Expr ν) (s : σ) :
    eval T e (f s) = (eval S e s).map fun r => (r.1, f r.2) := by
  induction e generalizing s with
  | num n => rfl
  | var x => simp only [eval, hread, Option.map_some]
  | step x up => simp only [eval, hread, hwrite, Option.map_some]
  | assign x op e ih =>
    rw [eval, eval, ih]
    cases he : eval S e s with
    | none => rfl
    | some r =>
      dsimp only [Option.map_some]
      rw [hread]
      cases assigned op (S.read r.2 x) r.1 with
      | none => rfl
      | some v => simp only [Option.map_some, hwrite]
  | un op e ih =>
    rw [eval, eval, ih]
    cases eval S e s <;> rfl
  | bin op l r ihl ihr =>
    rw [eval, eval, ihl]
    cases hl : eval S l s with
    | none => rfl
    | some a =>
      dsimp only [Option.map_some]
      cases op.skips a.1 with
      | some v => rfl
      | none =>
        dsimp only
        rw [ihr]
        cases hr : eval S r a.2 with
        | none => rfl
        | some b =>
          dsimp only [Option.map_some]
          cases op.apply a.1 b.1 <;> rfl

/-! ## Evaluating both sides -/

/-- `put` is what becomes of a write, which is one where there is room. -/
structure Memory (σ : Type u) (ν : Type w) extends Store σ ν where
  room : σ → ν → Bool
  put : σ → ν → Int64 → σ
  put_eq : ∀ s x v, room s x → put s x v = write s x v

/-- `wrong` says that something was done that C does not do, or that a write was lost. -/
inductive Outcome (σ : Type u)
  | done (v : Int64) (s : σ) (wrong : Bool)
  | fail (wrong : Bool)

def Outcome.wrong : Outcome σ → Bool
  | done _ _ w => w
  | fail w => w

/-- `live` says that C evaluates the expression. -/
def strict (M : Memory σ ν) : Expr ν → Bool → σ → Bool → Outcome σ
  | .num n, _, s, w => .done (Int64.ofNat n) s w
  | .var x, _, s, w => .done (M.read s x) s w
  | .step x up, live, s, w =>
    .done (M.read s x) (M.put s x (stepped up (M.read s x))) (w || !live || !M.room s x)
  | .assign x op e, live, s, w =>
    match strict M e live s w with
    | .fail w => .fail w
    | .done r t w =>
      match assigned op (M.read t x) r with
      | none => .fail (w || !live)
      | some v => .done v (M.put t x v) (w || !live || !M.room t x)
  | .un op e, live, s, w =>
    match strict M e live s w with
    | .fail w => .fail w
    | .done v t w => .done (op.apply v) t w
  | .bin op l r, live, s, w =>
    match strict M l live s w with
    | .fail w => .fail w
    | .done a t w =>
      match strict M r (live && (op.skips a).isNone) t w with
      | .fail w => .fail w
      | .done b u w =>
        match op.apply a b with
        | none => .fail (w || !live)
        | some v => .done v u w

/-- The value of an expression that assigns nothing, with both sides of every operator. -/
def value (S : Store σ ν) : Expr ν → σ → Int64
  | .num n, _ => Int64.ofNat n
  | .var x, s => S.read s x
  | .step x _, s => S.read s x
  | .assign _ _ e, s => value S e s
  | .un op e, s => op.apply (value S e s)
  | .bin op l r, s => (op.apply (value S l s) (value S r s)).getD 0

/-- There is no assignment in it, and no divisor of zero. -/
def Quiet (S : Store σ ν) : Expr ν → σ → Prop
  | .num _, _ => True
  | .var _, _ => True
  | .step _ _, _ => False
  | .assign _ _ _, _ => False
  | .un _ e, s => Quiet S e s
  | .bin op l r, s =>
    Quiet S l s ∧ Quiet S r s ∧ op.apply (value S l s) (value S r s) ≠ none

/-- The sides that C skips are quiet, and there is room for what it assigns. -/
def Fits (M : Memory σ ν) : Expr ν → σ → Prop
  | .num _, _ => True
  | .var _, _ => True
  | .step x _, s => M.room s x
  | .assign x op e, s =>
    Fits M e s ∧ ∀ r t, eval M.toStore e s = some (r, t) → assigned op (M.read t x) r ≠ none →
      M.room t x
  | .un _ e, s => Fits M e s
  | .bin op l r, s =>
    Fits M l s ∧ ∀ a t, eval M.toStore l s = some (a, t) →
      if op.skips a = none then Fits M r t else Quiet M.toStore r t

theorem strict_wrong (M : Memory σ ν) (e : Expr ν) (live : Bool) (s : σ) :
    (strict M e live s true).wrong = true := by
  induction e generalizing live s with
  | num n => rfl
  | var x => rfl
  | step x up => simp [strict, Outcome.wrong]
  | assign x op e ih =>
    have h := ih live s
    rw [strict]
    cases hs : strict M e live s true with
    | fail w => rwa [hs] at h
    | done r t w =>
      rw [hs] at h
      change w = true at h
      dsimp only
      cases assigned op (M.read t x) r <;> simp [Outcome.wrong, h]
  | un op e ih =>
    have h := ih live s
    rw [strict]
    cases hs : strict M e live s true with
    | fail w => rwa [hs] at h
    | done v t w => rwa [hs] at h
  | bin op l r ihl ihr =>
    have h := ihl live s
    rw [strict]
    cases hl : strict M l live s true with
    | fail w => rwa [hl] at h
    | done a t w =>
      rw [hl] at h
      change w = true at h
      subst h
      have h := ihr (live && (op.skips a).isNone) t
      dsimp only
      cases hr : strict M r (live && (op.skips a).isNone) t true with
      | fail w => rwa [hr] at h
      | done b u w =>
        rw [hr] at h
        change w = true at h
        dsimp only
        cases op.apply a b <;> simp [Outcome.wrong, h]

/-- What is quiet may be evaluated anywhere. -/
theorem strict_of_quiet {M : Memory σ ν} {e : Expr ν} {s : σ} (h : Quiet M.toStore e s)
    (live w : Bool) : strict M e live s w = .done (value M.toStore e s) s w := by
  induction e generalizing live with
  | num n => rfl
  | var x => rfl
  | step x up => exact h.elim
  | assign x op e ih => exact h.elim
  | un op e ih =>
    rw [strict, ih h]
    rfl
  | bin op l r ihl ihr =>
    obtain ⟨hl, hr, hne⟩ := h
    rw [strict, ihl hl]
    dsimp only
    rw [ihr hr]
    dsimp only [value]
    cases ho : op.apply (value M.toStore l s) (value M.toStore r s) with
    | none => exact absurd ho hne
    | some v => rfl

/-- Where C does not evaluate anything, only what is quiet goes unnoticed. -/
theorem quiet_of_strict {M : Memory σ ν} {e : Expr ν} {s : σ}
    (h : (strict M e false s false).wrong = false) : Quiet M.toStore e s := by
  induction e with
  | num n => trivial
  | var x => trivial
  | step x up => simp [strict, Outcome.wrong] at h
  | assign x op e ih =>
    rw [strict] at h
    cases hs : strict M e false s false with
    | fail w =>
      -- the assigned expression fails, which is seen as well
      rw [hs] at h ih
      have hq := strict_of_quiet (ih h) false false
      rw [hs] at hq
      cases hq
    | done r t w =>
      rw [hs] at h
      dsimp only at h
      cases ha : assigned op (M.read t x) r <;> simp [ha, Outcome.wrong] at h
  | un op e ih =>
    apply ih
    rw [strict] at h
    cases hs : strict M e false s false with
    | fail w => rwa [hs] at h
    | done v t w => rwa [hs] at h
  | bin op l r ihl ihr =>
    rw [strict] at h
    have hl : Quiet M.toStore l s := by
      apply ihl
      cases hs : strict M l false s false with
      | fail w => rwa [hs] at h
      | done a t w =>
        by_contra hw
        have hw : w = true := by simpa [Outcome.wrong] using hw
        rw [hs, hw] at h
        have hr := strict_wrong M r (false && (op.skips a).isNone) t
        dsimp only at h
        cases hb : strict M r (false && (op.skips a).isNone) t true with
        | fail w => simp_all [Outcome.wrong]
        | done b u w =>
          rw [hb] at h hr
          change w = true at hr
          cases ho : op.apply a b <;> simp [ho, Outcome.wrong, hr] at h
    rw [strict_of_quiet hl] at h
    dsimp only at h
    rw [Bool.false_and] at h
    have hr : Quiet M.toStore r s := by
      apply ihr
      cases hs : strict M r false s false with
      | fail w => rwa [hs] at h
      | done b u w =>
        rw [hs] at h
        change w = false
        dsimp only at h
        cases ho : op.apply (value M.toStore l s) b <;> simp_all [Outcome.wrong]
    refine ⟨hl, hr, fun ho => ?_⟩
    rw [strict_of_quiet hr] at h
    dsimp only at h
    rw [ho] at h
    cases h

/-- What C makes of an expression, as an outcome. -/
def meant (S : Store σ ν) (e : Expr ν) (s : σ) : Outcome σ :=
  match eval S e s with
  | none => .fail false
  | some (v, t) => .done v t false

theorem strict_of_fits {M : Memory σ ν} {e : Expr ν} {s : σ} (h : Fits M e s) :
    strict M e true s false = meant M.toStore e s := by
  induction e generalizing s with
  | num n => rfl
  | var x => rfl
  | step x up =>
    have hroom : M.room s x = true := h
    simp [strict, meant, eval, M.put_eq s x _ hroom, hroom]
  | assign x op e ih =>
    obtain ⟨he, hroom⟩ := h
    rw [strict, ih he, meant, meant, eval]
    cases hs : eval M.toStore e s with
    | none => rfl
    | some r =>
      dsimp only
      cases ha : assigned op (M.read r.2 x) r.1 with
      | none => rfl
      | some v =>
        have hr := hroom r.1 r.2 hs (by simp [ha])
        simp [hr, M.put_eq r.2 x v hr]
  | un op e ih =>
    rw [strict, ih h, meant, meant, eval]
    cases eval M.toStore e s <;> rfl
  | bin op l r ihl ihr =>
    obtain ⟨hl, hr⟩ := h
    rw [strict, ihl hl, meant, meant, eval]
    cases hs : eval M.toStore l s with
    | none => rfl
    | some a =>
      have hr := hr a.1 a.2 hs
      dsimp only
      cases hk : op.skips a.1 with
      | some v =>
        rw [if_neg (by simp [hk])] at hr
        rw [strict_of_quiet hr]
        dsimp only
        rw [BinOp.apply_of_skips hk]
      | none =>
        rw [if_pos hk] at hr
        rw [Option.isNone_none, Bool.and_self, ihr hr, meant]
        dsimp only
        cases eval M.toStore r a.2 with
        | none => rfl
        | some b =>
          dsimp only
          cases op.apply a.1 b.1 <;> rfl

/-- Both sides may be evaluated, unnoticed, exactly for the expressions that fit. -/
theorem fits_of_strict {M : Memory σ ν} {e : Expr ν} {s : σ}
    (h : (strict M e true s false).wrong = false) : Fits M e s := by
  induction e generalizing s with
  | num n => trivial
  | var x => trivial
  | step x up => simpa [strict, Outcome.wrong, Fits] using h
  | assign x op e ih =>
    rw [strict] at h
    have he : Fits M e s := by
      apply ih
      cases hs : strict M e true s false with
      | fail w => rwa [hs] at h
      | done r t w =>
        rw [hs] at h
        change w = false
        dsimp only at h
        cases ha : assigned op (M.read t x) r <;> simp_all [Outcome.wrong]
    refine ⟨he, fun r t hr ha => ?_⟩
    rw [strict_of_fits he, meant, hr] at h
    dsimp only at h
    cases hv : assigned op (M.read t x) r with
    | none => exact absurd hv ha
    | some v => simpa [hv, Outcome.wrong] using h
  | un op e ih =>
    apply ih
    rw [strict] at h
    cases hs : strict M e true s false with
    | fail w => rwa [hs] at h
    | done v t w => rwa [hs] at h
  | bin op l r ihl ihr =>
    rw [strict] at h
    have hl : Fits M l s := by
      apply ihl
      cases hs : strict M l true s false with
      | fail w => rwa [hs] at h
      | done a t w =>
        by_contra hw
        have hw : w = true := by simpa [Outcome.wrong] using hw
        rw [hs, hw] at h
        have hr := strict_wrong M r (true && (op.skips a).isNone) t
        dsimp only at h
        cases hb : strict M r (true && (op.skips a).isNone) t true with
        | fail w => simp_all [Outcome.wrong]
        | done b u w =>
          rw [hb] at h hr
          change w = true at hr
          cases ho : op.apply a b <;> simp [ho, Outcome.wrong, hr] at h
    refine ⟨hl, fun a t ha => ?_⟩
    rw [strict_of_fits hl, meant, ha] at h
    dsimp only at h
    have hr : (strict M r (true && (op.skips a).isNone) t false).wrong = false := by
      cases hs : strict M r (true && (op.skips a).isNone) t false with
      | fail w => rwa [hs] at h
      | done b u w =>
        rw [hs] at h
        change w = false
        dsimp only at h
        cases ho : op.apply a b <;> simp_all [Outcome.wrong]
    cases hk : op.skips a with
    | none =>
      rw [if_pos rfl]
      rw [hk] at hr
      exact ihr hr
    | some v =>
      rw [if_neg (by simp)]
      rw [hk] at hr
      exact quiet_of_strict hr

end Xeneva.Base.CExpr
