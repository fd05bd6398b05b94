import Xeneva.Shell.ArithParse

/-!
# The value of arithmetic

For a text of the grammar the evaluator evaluates both sides of every operator, so it does what C
does exactly when the sides that C skips do nothing.
-/

namespace Xeneva.Shell.Arith

open Base.CExpr

/-! ## Both sides -/

/-- The variables, as expressions see them. -/
def memory : Memory Vars Name where
  read := arVal
  write s x v := varPut s x (fmtI64 v.toInt)
  room := varSlot
  put s x v := varSet s x (fmtI64 v.toInt)
  put_eq s x v h := by rw [varSet, if_pos h]

/-- A call for an operand does this. -/
def UnaryDoes (o : Outcome Vars) (res : Option (Int64 × Ar)) (t : Text) : Prop :=
  match o with
  | .done v s w => res = some (v, ⟨t, false, s, w⟩)
  | .fail w => ∀ r, res = some r → r.2.err = true ∧ r.2.wrong = w

/-- A call for an expression does this, and then goes on with what follows. -/
def ExprDoes (o : Outcome Vars) (live : Bool) (minp : ℕ) (res : Option (Int64 × Ar)) (t : Text) :
    Prop :=
  match o with
  | .done v s w => ∃ g, 3 * t.length + 2 ≤ g ∧ res = arLoop g live minp v ⟨t, false, s, w⟩
  | .fail w => ∀ r, res = some r → r.2.err = true ∧ r.2.wrong = w

theorem readNum_eq (b : ℕ) (ds : Text) : readNum b ds = Int64.ofNat (numeral b ds) := by
  have hfold : ∀ n, ds.foldl (fun v c => v * Int64.ofNat b + Int64.ofNat ((hexVal c).getD 0))
      (Int64.ofNat n) = Int64.ofNat (ds.foldl (fun n c => n * b + (hexVal c).getD 0) n) := by
    induction ds with
    | nil => exact fun n => rfl
    | cons c ds ih =>
      intro n
      rw [List.foldl_cons, List.foldl_cons, ← ih, Int64.ofNat_add, Int64.ofNat_mul]
  exact hfold 0

theorem unOp_eq_none {c : Char} (h : c.isDigit ∨ isIdS c) : unOp c = none ∧ c ≠ '(' := by
  have hne : ∀ d : Char, ¬ (d.isDigit ∨ isIdS d) → c ≠ d := by
    intro d hd hcd
    exact hd (hcd ▸ h)
  refine ⟨?_, hne _ (by decide)⟩
  rw [unOp, if_neg (hne _ (by decide)), if_neg (hne _ (by decide)), if_neg (hne _ (by decide)),
    if_neg (hne _ (by decide))]

theorem not_isDigit_of_isIdS {c : Char} (h : isIdS c) : ¬ c.isDigit := by
  rw [isIdS, Bool.or_eq_true, decide_eq_true_eq] at h
  rcases h with h | h
  · simp only [Char.isAlpha, Char.isUpper, Char.isLower, Char.isDigit, Bool.or_eq_true,
      Bool.and_eq_true, decide_eq_true_eq, ge_iff_le, UInt32.le_iff_toNat_le] at h ⊢
    have h9 : '9'.val.toNat = 57 := rfl
    have hA : 'A'.val.toNat = 65 := rfl
    have ha : 'a'.val.toNat = 97 := rfl
    omega
  · rw [h]
    decide

theorem length_lt_of_derives {n : ℕ} {s t : Text} {e : Expr Name} {k : Bool}
    (h : Derives n s e k t) : t.length < s.length := by
  induction h with
  | num hw hc => exact (length_scanNum _ hc).trans_lt (length_of_ws hw)
  | var hw _ hq _ => exact hq ▸ length_form hw 0
  | step hw _ hq _ => exact hq ▸ length_form hw 2
  | @assign s c p q op e k t hw _ hq _ _ ih =>
    have hform := length_form hw (Form.assign op).len
    have hws := length_ws_le t
    rw [hq] at ih
    omega
  | un hw _ _ ih => exact ih.trans (length_of_ws hw)
  | @paren s p e k t u hw _ hu ih =>
    have h1 := length_of_ws hw
    have h2 := length_of_ws hu
    omega
  | up _ _ ih => exact ih
  | @bin op s l t r k u _ ho _ ihl ihr =>
    have h1 := length_drop_opLen ho
    have h2 := length_ws_le t
    have h3 := length_ws_le u
    omega

theorem arLoop_ends {f : ℕ} (hf : 0 < f) (live : Bool) {minp : ℕ} (l : Int64) {a : Ar} {k : Bool}
    (h : Ends minp k a.p) : arLoop f live minp l a = some (l, { a with p := ws a.p }) := by
  obtain ⟨g, rfl⟩ := Nat.exists_eq_succ_of_ne_zero hf.ne'
  rw [arLoop_eq]
  cases ho : opAt (ws a.p) with
  | none => rfl
  | some op =>
    dsimp only
    rw [if_pos (h op ho).2]

/-- What the reader does with a text that begins with an expression at a level. -/
def Does (n : ℕ) (s : Text) (e : Expr Name) (t : Text) : Prop :=
  ∀ live a, a.p = s → a.err = false →
    (n = 11 → ∀ f, 3 * s.length + 1 ≤ f →
      UnaryDoes (strict memory e live a.vars a.wrong) (arUnary f live a) t) ∧
    ∀ minp f, minp ≤ n → 3 * s.length + 3 ≤ f →
      ExprDoes (strict memory e live a.vars a.wrong) live minp (arExpr f live minp a) t

/-- An operand is an expression. -/
theorem Does.of_unary {s t : Text} {e : Expr Name} (ht : t.length < s.length)
    (h : ∀ live a g, a.p = s → a.err = false → 3 * s.length ≤ g →
      UnaryDoes (strict memory e live a.vars a.wrong) (arUnary (g + 1) live a) t) :
    Does 11 s e t := by
  intro live a ha herr
  have hu : ∀ f, 3 * s.length + 1 ≤ f →
      UnaryDoes (strict memory e live a.vars a.wrong) (arUnary f live a) t := by
    intro f hf
    obtain ⟨g, rfl⟩ := Nat.exists_eq_succ_of_ne_zero (by omega : f ≠ 0)
    exact h live a g ha herr (by omega)
  refine ⟨fun _ => hu, fun minp f _ hf => ?_⟩
  obtain ⟨g, rfl⟩ := Nat.exists_eq_succ_of_ne_zero (by omega : f ≠ 0)
  have hg := hu g (by omega)
  cases ho : strict memory e live a.vars a.wrong with
  | done v σ w =>
    rw [ho] at hg
    refine ⟨g, by omega, ?_⟩
    rw [UnaryDoes] at hg
    rw [arExpr, hg]
  | fail w =>
    rw [ho] at hg
    intro r hr
    rw [arExpr] at hr
    cases hx : arUnary g live a with
    | none =>
      rw [hx] at hr
      cases hr
    | some x =>
      rw [hx] at hr
      have hs := hg x hx
      have hk := (kept g).2.2 _ _ _ _ _ hr hs.1
      exact ⟨hk.1, hk.2.trans hs.2⟩

theorem Does.num {s p : Text} {c : Char} (hw : ws s = c :: p) (hc : c.isDigit) :
    Does 11 s (.num (numeral (scanNum (c :: p)).1 (scanNum (c :: p)).2.1))
      (scanNum (c :: p)).2.2 := by
  apply of_unary ((length_scanNum p hc).trans_lt (length_of_ws hw))
  intro live a g ha herr hg
  obtain ⟨hun, hpar⟩ := unOp_eq_none (.inl hc)
  rw [arUnary, ha, hw]
  dsimp only
  rw [hun]
  dsimp only
  rw [if_neg hpar, if_pos hc, readNum_eq, herr]
  rfl

section Names

variable {s p q t : Text} {c : Char} {e : Expr Name} (hw : ws s = c :: p) (hc : isIdS c)
  (hq : q = ws (p.dropWhile isIdC))

include hw hc hq

/-- The call for a text that begins with a name. -/
theorem arUnary_name {a : Ar} (ha : a.p = s) (live : Bool) (g : ℕ) :
    arUnary (g + 1) live a =
      match idForm q with
      | .step up => some (arVal a.vars (arName c p),
          arSet { a with p := q.drop 2 } (arName c p) (stepped up (arVal a.vars (arName c p))) live)
      | .assign op => (arExpr g live 0 { a with p := q.drop (Form.assign op).len }).map fun r =>
          match assigned op (arVal r.2.vars (arName c p)) r.1 with
          | none => (0, arZero r.2 live)
          | some v => (v, arSet r.2 (arName c p) v live)
      | .use => some (arVal a.vars (arName c p), { a with p := q }) := by
  obtain ⟨hun, hpar⟩ := unOp_eq_none (.inr hc)
  rw [arUnary, ha, hw]
  dsimp only
  rw [hun]
  dsimp only
  rw [if_neg hpar, if_neg (not_isDigit_of_isIdS hc), if_pos hc, ← hq]
  cases idForm q <;> rfl

theorem Does.var (hform : idForm q = .use) : Does 11 s (.var (arName c p)) q := by
  apply of_unary (hq ▸ length_form hw 0)
  intro live a g ha herr hg
  rw [arUnary_name hw hc hq ha, hform, herr]
  rfl

theorem Does.step {up : Bool} (hform : idForm q = .step up) :
    Does 11 s (.step (arName c p) up) (q.drop 2) := by
  apply of_unary (hq ▸ length_form hw 2)
  intro live a g ha herr hg
  rw [arUnary_name hw hc hq ha, hform, herr]
  simp only [UnaryDoes, strict, arSet, Ar.mark, Bool.not_false, Bool.true_and, Bool.or_assoc]
  rfl

/-- Nothing follows what is assigned. -/
theorem Does.assign {op : Option BinOp} (hform : idForm q = .assign op)
    (ht : t.length < (q.drop (Form.assign op).len).length) (hnone : opAt (ws t) = none)
    (ih : Does 0 (q.drop (Form.assign op).len) e t) :
    Does 11 s (.assign (arName c p) op e) (ws t) := by
  have hlen := length_form hw (Form.assign op).len
  have hwt := length_ws_le t
  rw [← hq] at hlen
  apply of_unary (by omega)
  intro live a g ha herr hg
  have hi := (ih live { a with p := q.drop (Form.assign op).len } rfl herr).2 0 g (Nat.zero_le _)
    (by omega)
  dsimp only at hi
  rw [arUnary_name hw hc hq ha, hform, strict]
  dsimp only
  cases hs : strict memory e live a.vars a.wrong with
  | fail w =>
    rw [hs] at hi
    intro r hr
    obtain ⟨x, hx, rfl⟩ := Option.map_eq_some_iff.1 hr
    have hx := hi x hx
    cases assigned op (arVal x.2.vars (arName c p)) x.1 with
    | none =>
      have hk := Kept.arZero x.2 live hx.1
      exact ⟨hk.1, hk.2.trans hx.2⟩
    | some v =>
      have hk := Kept.arSet x.2 (arName c p) v live hx.1
      exact ⟨hk.1, hk.2.trans hx.2⟩
  | done v σ w =>
    rw [hs] at hi
    obtain ⟨g', hg', hx⟩ := hi
    have hends : Ends 0 true t := by
      intro op' ho
      rw [hnone] at ho
      cases ho
    rw [arLoop_ends (by omega) live v hends] at hx
    rw [hx]
    dsimp only [Option.map_some]
    cases hv : assigned op (arVal σ (arName c p)) v with
    | none =>
      change UnaryDoes (match assigned op (arVal σ (arName c p)) v with
        | none => _
        | some v => _) _ _
      rw [hv]
      intro r hr
      cases hr
      exact ⟨rfl, rfl⟩
    | some v' =>
      change UnaryDoes (match assigned op (arVal σ (arName c p)) v with
        | none => _
        | some v => _) _ _
      rw [hv]
      simp only [UnaryDoes, arSet, Ar.mark, Bool.not_false, Bool.true_and, Bool.or_assoc]
      rfl

end Names

theorem Does.un {s p t : Text} {c : Char} {e : Expr Name} {op : UnOp} (hw : ws s = c :: p)
    (hop : unOp c = some op) (ht : t.length < p.length) (ih : Does 11 p e t) :
    Does 11 s (.un op e) t := by
  have hlen := length_of_ws hw
  apply of_unary (ht.trans hlen)
  intro live a g ha herr hg
  have hi := (ih live { a with p := p } rfl herr).1 rfl g (by omega)
  dsimp only at hi
  rw [arUnary, ha, hw]
  dsimp only
  rw [hop, strict]
  dsimp only
  cases hs : strict memory e live a.vars a.wrong with
  | fail w =>
    rw [hs] at hi
    intro r hr
    obtain ⟨x, hx, rfl⟩ := Option.map_eq_some_iff.1 hr
    exact hi x hx
  | done v σ w =>
    rw [hs] at hi
    rw [UnaryDoes] at hi
    rw [hi]
    rfl

theorem Does.paren {s p t u : Text} {e : Expr Name} (hw : ws s = '(' :: p)
    (ht : t.length < p.length) (hu : ws t = ')' :: u) (ih : Does 0 p e t) : Does 11 s e u := by
  have hlen := length_of_ws hw
  have hlen' := length_of_ws hu
  apply of_unary (by omega)
  intro live a g ha herr hg
  have hi := (ih live { a with p := p } rfl herr).2 0 g (Nat.zero_le _) (by omega)
  dsimp only at hi
  have hun : unOp '(' = none := by decide
  rw [arUnary, ha, hw]
  dsimp only
  rw [hun]
  dsimp only
  rw [if_pos rfl]
  cases hs : strict memory e live a.vars a.wrong with
  | fail w =>
    rw [hs] at hi
    intro r hr
    obtain ⟨x, hx, rfl⟩ := Option.map_eq_some_iff.1 hr
    have hx := hi x hx
    split
    · exact hx
    · exact ⟨rfl, hx.2⟩
  | done v σ w =>
    rw [hs] at hi
    obtain ⟨g', hg', hx⟩ := hi
    have hends : Ends 0 true t := by
      intro op ho
      rw [hu] at ho
      cases ho
    rw [arLoop_ends (by omega) live v hends] at hx
    rw [hx]
    dsimp only [Option.map_some]
    rw [ws_ws, hu]
    rfl

theorem Does.bin {s t u : Text} {l r : Expr Name} {op : BinOp} {k : Bool}
    (ho : opAt (ws t) = some op)
    (hu : u.length < ((ws t).drop (opLen op)).length) (hend : Ends (op.prec + 1) k u)
    (ihl : Does op.prec s l t) (ihr : Does (op.prec + 1) ((ws t).drop (opLen op)) r u) :
    Does op.prec s (.bin op l r) (ws u) := by
  have hprec := op.prec_le
  have hdrop := length_drop_opLen ho
  have hwt := length_ws_le t
  have hwu := length_ws_le u
  intro live a ha herr
  refine ⟨fun h11 => by omega, fun minp f hm hf => ?_⟩
  have hil := (ihl live a ha herr).2 minp f hm hf
  rw [strict]
  cases hsl : strict memory l live a.vars a.wrong with
  | fail w =>
    rw [hsl] at hil
    exact hil
  | done x σ w =>
    rw [hsl] at hil
    obtain ⟨g, hg, hx⟩ := hil
    obtain ⟨g, rfl⟩ := Nat.exists_eq_succ_of_ne_zero (by omega : g ≠ 0)
    rw [hx, arLoop_eq]
    dsimp only
    rw [ho]
    dsimp only
    rw [if_neg (by omega)]
    have hir := (ihr (live && (op.skips x).isNone) ⟨(ws t).drop (opLen op), false, σ, w⟩ rfl rfl).2
      (op.prec + 1) g le_rfl (by omega)
    dsimp only at hir
    cases hsr : strict memory r (live && (op.skips x).isNone) σ w with
    | fail w' =>
      rw [hsr] at hir
      intro y hy
      cases he : arExpr g (live && (op.skips x).isNone) (op.prec + 1)
          ⟨(ws t).drop (opLen op), false, σ, w⟩ with
      | none =>
        rw [he] at hy
        cases hy
      | some z =>
        rw [he] at hy
        have hz := hir z he
        dsimp only at hy
        cases hv : op.apply x z.1 with
        | none =>
          rw [hv] at hy
          cases hy
          have hk := Kept.arZero z.2 live hz.1
          exact ⟨hk.1, hk.2.trans hz.2⟩
        | some v =>
          rw [hv] at hy
          have hk := (kept g).2.2 _ _ _ _ _ hy hz.1
          exact ⟨hk.1, hk.2.trans hz.2⟩
    | done y σ' w' =>
      rw [hsr] at hir
      obtain ⟨g', hg', hy⟩ := hir
      rw [arLoop_ends (by omega) _ y hend] at hy
      rw [hy]
      dsimp only
      cases hv : op.apply x y with
      | none =>
        intro z hz
        cases hz
        exact ⟨rfl, rfl⟩
      | some v => exact ⟨g, by omega, rfl⟩

/-- The reader of a text of the grammar evaluates both sides of its operators. -/
theorem complete {n : ℕ} {s t : Text} {e : Expr Name} {k : Bool} (h : Derives n s e k t)
    (hend : Ends (n + 1) k t) : Does n s e t := by
  induction h with
  | num hw hc => exact .num hw hc
  | var hw hc hq hform => exact .var hw hc hq hform
  | step hw hc hq hform => exact .step hw hc hq hform
  | @assign s c p q op e k t hw hc hq hform hd ih =>
    have hnone : opAt (ws t) = none := by
      cases ho : opAt (ws t) with
      | none => rfl
      | some op' =>
        have hk := (hend op' (by rw [ws_ws]; exact ho)).1
        cases hk
    refine .assign hw hc hq hform (length_lt_of_derives hd) hnone (ih fun op' ho => ?_)
    rw [hnone] at ho
    cases ho
  | un hw hop hd ih => exact .un hw hop (length_lt_of_derives hd) (ih hend)
  | @paren s p e k t u hw hd hu ih =>
    refine .paren hw (length_lt_of_derives hd) hu (ih fun op ho => ?_)
    rw [hu] at ho
    cases ho
  | @up n s e k t hn hd ih =>
    intro live a ha herr
    have hi := ih (fun op ho => ⟨(hend op ho).1, (hend op ho).2.trans (Nat.lt_succ_self _)⟩) live a
      ha herr
    exact ⟨fun h11 => by omega, fun minp f hm hf => hi.2 minp f (by omega) hf⟩
  | @bin op s l t r k u hl ho hr ihl ihr =>
    have hendu : Ends (op.prec + 1) k u := by
      rw [Ends, ← ws_ws]
      exact hend
    refine .bin ho (length_lt_of_derives hr) hendu (ihl fun op' ho' => ?_)
      (ihr fun op' ho' => ⟨(hendu op' ho').1, (hendu op' ho').2.trans (Nat.lt_succ_self _)⟩)
    rw [ho] at ho'
    cases ho'
    exact ⟨rfl, Nat.lt_succ_self _⟩

/-! ## Numbers of variables -/

theorem hexVal_of_isDigit {c : Char} (h : c.isDigit) : hexVal c = some (c.toNat - '0'.toNat) :=
  if_pos h

theorem numeral_digits {n : ℕ} : numeral 10 (Nat.toDigits 10 n) = n := by
  have hfold : ∀ (ds : Text) (m : ℕ), (∀ c ∈ ds, c.isDigit) →
      ds.foldl (fun n c => n * 10 + (hexVal c).getD 0) m = Nat.ofDigitChars 10 ds m := by
    intro ds
    induction ds with
    | nil => exact fun m _ => rfl
    | cons c ds ih =>
      intro m h
      rw [List.foldl_cons, ih _ fun d hd => h d (List.mem_cons_of_mem c hd),
        hexVal_of_isDigit (h c List.mem_cons_self), Nat.ofDigitChars_cons, Option.getD_some,
        Nat.mul_comm]
  rw [numeral, hfold _ _ fun c hc => Nat.isDigit_of_mem_toDigits (by decide) (by decide) hc,
    Nat.ofDigitChars_toDigits (by decide) (by decide)]

theorem not_isHex_of_digits {ds : Text} (h : ∀ c ∈ ds, c.isDigit) : ¬ isHex ds := by
  cases ds with
  | nil => decide
  | cons c ds =>
    cases ds with
    | nil => simp [isHex]
    | cons x ds =>
      have hx := h x (List.mem_cons_of_mem c List.mem_cons_self)
      intro hh
      simp only [isHex, decide_eq_true_eq] at hh
      rcases hh.2 with hh | hh
      · rw [hh] at hx
        exact absurd hx (by decide)
      · rw [hh] at hx
        exact absurd hx (by decide)

theorem readNum_scanNum_digits (n : ℕ) :
    readNum (scanNum (Nat.toDigits 10 n)).1 (scanNum (Nat.toDigits 10 n)).2.1 = Int64.ofNat n := by
  have hd : ∀ c ∈ Nat.toDigits 10 n, c.isDigit := fun c hc =>
    Nat.isDigit_of_mem_toDigits (by decide) (by decide) hc
  rw [scanNum, if_neg (not_isHex_of_digits hd)]
  dsimp only
  rw [List.takeWhile_eq_self_iff.2 hd, readNum_eq, numeral_digits]

theorem fmtI64_ofNat (n : ℕ) : fmtI64 (Int.ofNat n) = Nat.toDigits 10 n := Nat.toList_repr

theorem fmtI64_negSucc (n : ℕ) : fmtI64 (Int.negSucc n) = '-' :: Nat.toDigits 10 (n + 1) := by
  have happ : fmtI64 (Int.negSucc n) = ("-" ++ Nat.repr (n + 1)).toList := rfl
  rw [happ, String.toList_append, Nat.toList_repr]
  rfl

theorem isDigit_ne {c d : Char} (hc : c.isDigit) (hd : ¬ d.isDigit) : c ≠ d := by
  intro h
  exact hd (h ▸ hc)

/-- What is assigned is read again. -/
theorem parseI64_fmtI64 (v : Int64) : (parseI64 (fmtI64 v.toInt)).1 = v := by
  have hdigits : ∀ n, ∃ c ds, Nat.toDigits 10 n = c :: ds ∧ c.isDigit := by
    intro n
    cases h : Nat.toDigits 10 n with
    | nil => exact absurd h Nat.toDigits_ne_nil
    | cons c ds =>
      refine ⟨c, ds, rfl, Nat.isDigit_of_mem_toDigits (b := 10) (n := n) (by decide) (by decide) ?_⟩
      rw [h]
      exact List.mem_cons_self
  cases hv : v.toInt with
  | ofNat n =>
    obtain ⟨c, ds, hds, hc⟩ := hdigits n
    have hblank : isBlank c = false := by
      simp [isBlank, isSp, isDigit_ne hc]
    have hsign : ¬ ((c :: ds).head? = some '-' ∨ (c :: ds).head? = some '+') := by
      simp [isDigit_ne hc]
    have hminus : ¬ (c :: ds).head? = some '-' := fun h => hsign (.inl h)
    have hread := readNum_scanNum_digits n
    rw [fmtI64_ofNat, parseI64]
    rw [hds] at hread ⊢
    rw [List.dropWhile_cons_of_neg (by simp [hblank])]
    dsimp only
    rw [if_neg hsign, if_neg (by simpa using hminus), hread, ← Int64.ofInt_eq_ofNat]
    exact (congrArg Int64.ofInt hv).symm.trans v.ofInt_toInt
  | negSucc n =>
    have hread := readNum_scanNum_digits (n + 1)
    have hsign (ds : Text) : ('-' :: ds).head? = some '-' ∨ ('-' :: ds).head? = some '+' :=
      .inl rfl
    rw [fmtI64_negSucc, parseI64, List.dropWhile_cons_of_neg (by decide)]
    dsimp only
    rw [if_pos (hsign _), if_pos (decide_eq_true List.head?_cons), List.drop_one, List.tail_cons,
      hread, Int64.neg_ofNat]
    exact (congrArg Int64.ofInt hv).symm.trans v.ofInt_toInt

theorem fmtI64_ne_nil (z : ℤ) : fmtI64 z ≠ [] := by
  cases z with
  | ofNat n =>
    rw [fmtI64_ofNat]
    exact Nat.toDigits_ne_nil
  | negSucc n =>
    rw [fmtI64_negSucc]
    exact List.cons_ne_nil _ _

theorem arVal_varPut (s : Vars) (x : Name) (v : Int64) (y : Name) :
    arVal (varPut s x (fmtI64 v.toInt)) y =
      if normName s y = normName s x then v else arVal s y := by
  have hname : normName (varPut s x (fmtI64 v.toInt)) y = normName s y := rfl
  rw [arVal, varGet, hname]
  by_cases h : normName s y = normName s x
  · have hval : (varPut s x (fmtI64 v.toInt)).val (normName s y) = some (fmtI64 v.toInt) := by
      rw [h]
      exact Function.update_self _ _ _
    rw [hval, if_pos h]
    dsimp only
    split
    · next hn => cases hn
    · next hn => exact absurd (Option.some.inj hn) (fmtI64_ne_nil _)
    · next u hu =>
      rw [← Option.some.inj hu]
      exact parseI64_fmtI64 v
  · have hval : (varPut s x (fmtI64 v.toInt)).val (normName s y) = s.val (normName s y) :=
      Function.update_of_ne h _ _
    rw [hval, if_neg h]
    rfl

/-! ## The whole text -/

/-- The variables as C has them, a number each. The mode says which names are one. -/
def numbers : Store (Bool × (Name → Int64)) Name where
  read s x := s.2 x
  write s x v :=
    let norm (n : Name) : Text := if s.1 then n.val.map uc else n.val
    (s.1, fun y => if norm y = norm x then v else s.2 y)

def view (s : Vars) : Bool × (Name → Int64) := (s.bat_mode, arVal s)

/-- `eval` may be used with either. -/
theorem eval_numbers (e : Expr Name) (s : Vars) :
    eval numbers e (view s) = (eval memory.toStore e s).map fun r => (r.1, view r.2) := by
  apply eval_map
  · intro s x
    rfl
  · intro s x v
    apply Prod.ext
    · rfl
    · funext y
      exact arVal_varPut s x v y

/-- The evaluator ends; it reports texts outside of the grammar; on a text of the grammar it has
the value and makes the assignments of C, or reports the zero divisor that C meets, and does
nothing else. -/
def Right (s : Text) (vars : Vars) : Prop :=
  ∃ v a, arithEval s vars = some (v, a) ∧
    ((∀ e, ¬ Parses s e) → a.err = true) ∧
    ∀ e, Parses s e → a.wrong = false ∧
      match eval numbers e (view vars) with
      | none => a.err = true
      | some (w, σ) => a.err = false ∧ v = w ∧ view a.vars = σ

theorem arithEval_total (s : Text) (vars : Vars) : ∃ v a, arithEval s vars = some (v, a) := by
  obtain ⟨r, hr, -⟩ := (total (depth s)).2.1 true 0 ⟨s, false, vars, false⟩ le_rfl
  rw [arithEval, hr]
  exact ⟨_, _, rfl⟩

theorem parses_of_arithEval {s : Text} {vars : Vars} {v : Int64} {a : Ar}
    (h : arithEval s vars = some (v, a)) (herr : a.err = false) : ∃ e, Parses s e := by
  obtain ⟨r, hr, he⟩ := Option.map_eq_some_iff.1 h
  cases he
  dsimp only at herr
  rw [Bool.or_eq_false_iff] at herr
  obtain ⟨e, k, t, hd, ht, -⟩ := (sound (depth s)).2.1 true 0 _ r (by omega) hr herr.1
  refine ⟨e, k, t, hd, ?_⟩
  have hend : ws r.2.p = [] := by simpa using herr.2
  rwa [ht, ws_ws] at hend

theorem arithEval_of_parses {s : Text} {e : Expr Name} (h : Parses s e) (vars : Vars) {v : Int64}
    {a : Ar} (ha : arithEval s vars = some (v, a)) :
    match strict memory e true vars false with
    | .done w σ b => a.err = false ∧ v = w ∧ a.vars = σ ∧ a.wrong = b
    | .fail b => a.err = true ∧ a.wrong = b := by
  obtain ⟨k, t, hd, ht⟩ := h
  have hends : ∀ n k, Ends n k t := by
    intro n k op ho
    rw [ht] at ho
    cases ho
  have hdoes := (complete hd (hends _ _) true ⟨s, false, vars, false⟩ rfl rfl).2 0 (depth s)
    (Nat.zero_le _) le_rfl
  obtain ⟨r, hr, he⟩ := Option.map_eq_some_iff.1 ha
  cases he
  dsimp only at hdoes ⊢
  cases hs : strict memory e true vars false with
  | fail b =>
    rw [hs] at hdoes
    have hb := hdoes r hr
    exact ⟨by rw [hb.1]; rfl, hb.2⟩
  | done w σ b =>
    rw [hs] at hdoes
    obtain ⟨g, hg, hx⟩ := hdoes
    rw [arLoop_ends (by omega) true w (hends 0 true), hr] at hx
    cases hx
    dsimp only
    rw [ws_ws, ht]
    exact ⟨rfl, rfl, rfl, rfl⟩

/-- The evaluator is right for the texts whose expression fits. -/
theorem arithEval_right_iff (s : Text) (vars : Vars) :
    Right s vars ↔ ∀ e, Parses s e → Fits memory e vars := by
  constructor
  · rintro ⟨v, a, ha, -, hright⟩ e he
    have hwrong := (hright e he).1
    have hdoes := arithEval_of_parses he vars ha
    apply fits_of_strict
    cases hs : strict memory e true vars false with
    | fail b =>
      rw [hs] at hdoes
      exact hdoes.2.symm.trans hwrong
    | done w σ b =>
      rw [hs] at hdoes
      exact hdoes.2.2.2.symm.trans hwrong
  · intro hfits
    obtain ⟨v, a, ha⟩ := arithEval_total s vars
    refine ⟨v, a, ha, ?_, ?_⟩
    · intro hno
      by_contra herr
      obtain ⟨e, he⟩ := parses_of_arithEval ha (by simpa using herr)
      exact hno e he
    · intro e he
      have hdoes := arithEval_of_parses he vars ha
      rw [strict_of_fits (hfits e he), meant] at hdoes
      rw [eval_numbers]
      cases hv : eval memory.toStore e vars with
      | none =>
        rw [hv] at hdoes
        exact ⟨hdoes.2, hdoes.1⟩
      | some r =>
        rw [hv] at hdoes
        exact ⟨hdoes.2.2.2, hdoes.1, hdoes.2.1, congrArg view hdoes.2.2.1⟩

/-- A shell without variables. -/
def noVars : Vars := ⟨false, [], fun _ => none, 0⟩

/-- `0&&(x=1)` assigns. -/
theorem arithEval_skipped_assignment : ¬ ∀ s vars, Right s vars := by
  intro h
  obtain ⟨v, a, ha, -, hright⟩ := h "0&&(x=1)".toList noVars
  have hrun : (arithEval "0&&(x=1)".toList noVars).map (fun r => (r.2.err, r.2.wrong)) =
      some (false, true) := by decide +kernel
  rw [ha] at hrun
  have herr := congrArg Prod.fst (Option.some.inj hrun)
  have hwrong := congrArg Prod.snd (Option.some.inj hrun)
  obtain ⟨e, he⟩ := parses_of_arithEval ha herr
  have hno := (hright e he).1
  dsimp only at hwrong
  rw [hwrong] at hno
  cases hno

end Xeneva.Shell.Arith
