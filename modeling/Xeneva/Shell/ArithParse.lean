import Xeneva.Shell.Arith

/-!
# Reading arithmetic

What the evaluator reads without an error is a text of the grammar, and for a text of the grammar
it does what evaluating both sides of every operator does.
-/

namespace Xeneva.Shell.Arith

open Base.CExpr

theorem ws_ws (p : Text) : ws (ws p) = ws p := List.dropWhile_idempotent _ _

theorem length_ws_le (p : Text) : (ws p).length ≤ p.length := List.length_dropWhile_le _ _

theorem length_of_ws {s p : Text} {c : Char} (h : ws s = c :: p) : p.length < s.length := by
  have hle := length_ws_le s
  rw [h, List.length_cons] at hle
  omega

theorem length_scanNum {c : Char} (p : Text) (hc : c.isDigit) :
    (scanNum (c :: p)).2.2.length ≤ p.length := by
  rw [scanNum]
  split_ifs with h
  · have hd := List.length_dropWhile_le (fun c => (hexVal c).isSome) ((c :: p).drop 2)
    rw [List.length_drop, List.length_cons] at hd
    dsimp only
    omega
  · dsimp only
    rw [List.dropWhile_cons_of_pos hc]
    exact List.length_dropWhile_le _ _

/-- What the precedence and the `switch` make of an operator. -/
theorem opAt_spec (p : Text) :
    match opAt p with
    | none => (arPrec p).1 = 0 ∨
      (arPrec p).2 = 1 ∧ chr p 1 = '=' ∧ chr p 0 ≠ '<' ∧ chr p 0 ≠ '>'
    | some op => arPrec p = (op.prec, opLen op) ∧
      ¬ (opLen op = 1 ∧ chr p 1 = '=' ∧ chr p 0 ≠ '<' ∧ chr p 0 ≠ '>') ∧
      ∀ l r, arOp op.prec (chr p 0) (if opLen op = 2 then chr p 1 else Char.ofNat 0) l r =
        op.apply l r := by
  unfold opAt arPrec
  generalize chr p 0 = c
  generalize chr p 1 = d
  have hc : c = '|' ∨ c = '&' ∨ c = '^' ∨ c = '=' ∨ c = '!' ∨ c = '<' ∨ c = '>' ∨ c = '+' ∨
      c = '-' ∨ c = '*' ∨ c = '/' ∨ c = '%' ∨
      (c ≠ '|' ∧ c ≠ '&' ∧ c ≠ '^' ∧ c ≠ '=' ∧ c ≠ '!' ∧ c ≠ '<' ∧ c ≠ '>' ∧ c ≠ '+' ∧
        c ≠ '-' ∧ c ≠ '*' ∧ c ≠ '/' ∧ c ≠ '%') := by
    tauto
  rcases hc with rfl | rfl | rfl | rfl | rfl | rfl | rfl | rfl | rfl | rfl | rfl | rfl | hc
  case inr.inr.inr.inr.inr.inr.inr.inr.inr.inr.inr.inr => simp [hc]
  -- a letter of an operator: the second letter decides
  all_goals
    simp only [Char.reduceEq, if_true, if_false, true_and, false_and, false_or, or_false,
      ne_eq, not_false_eq_true, not_true, and_true, and_false]
    split_ifs <;> simp_all [BinOp.prec, opLen, arOp, BinOp.apply]

theorem evaluates_eq (op : BinOp) (l : Int64) : evaluates op.prec l = (op.skips l).isNone := by
  by_cases hl : l = 0 <;> cases op <;> simp [evaluates, BinOp.prec, BinOp.skips, hl]

/-- The loop, by operators. -/
theorem arLoop_eq (f : ℕ) (live : Bool) (minp : ℕ) (l : Int64) (a : Ar) :
    arLoop (f + 1) live minp l a =
      match opAt (ws a.p) with
      | none => some (l, { a with p := ws a.p })
      | some op =>
        if op.prec < minp then some (l, { a with p := ws a.p })
        else
          match arExpr f (live && (op.skips l).isNone) (op.prec + 1)
            { a with p := (ws a.p).drop (opLen op) } with
          | none => none
          | some r =>
            match op.apply l r.1 with
            | none => some (0, arZero r.2 live)
            | some v => arLoop f live minp v r.2 := by
  have h := opAt_spec (ws a.p)
  rw [arLoop]
  cases ho : opAt (ws a.p) with
  | none =>
    rw [ho] at h
    dsimp only at h ⊢
    by_cases h1 : (arPrec (ws a.p)).1 = 0 ∨ (arPrec (ws a.p)).1 < minp
    · rw [if_pos h1]
    · rw [if_neg h1, if_pos (h.resolve_left fun h0 => h1 (.inl h0))]
  | some op =>
    rw [ho] at h
    obtain ⟨hp, hnot, happ⟩ := h
    have h0 := op.prec_pos
    dsimp only
    rw [hp]
    dsimp only
    by_cases hlt : op.prec < minp
    · rw [if_pos (.inr hlt), if_pos hlt]
    · rw [if_neg (by omega), if_neg hlt, if_neg hnot, evaluates_eq]
      cases arExpr f (live && (op.skips l).isNone) (op.prec + 1)
        { a with p := (ws a.p).drop (opLen op) } with
      | none => rfl
      | some r =>
        exact congrArg (fun o : Option Int64 => match o with
          | none => some (0, arZero r.2 live)
          | some v => arLoop f live minp v r.2) (happ l r.1)

/-! ## Calls -/

/-- What a call does to the error and the mark once there is an error. -/
def Kept (a b : Ar) : Prop := a.err = true → b.err = true ∧ b.wrong = a.wrong

theorem Kept.trans {a b c : Ar} (h : Kept a b) (h' : Kept b c) : Kept a c := by
  intro he
  have hb := h he
  have hc := h' hb.1
  exact ⟨hc.1, hc.2.trans hb.2⟩

theorem Kept.arSet (a : Ar) (n : Name) (v : Int64) (live : Bool) : Kept a (arSet a n v live) := by
  intro he
  simp [Arith.arSet, Ar.mark, he]

theorem Kept.arZero (a : Ar) (live : Bool) : Kept a (arZero a live) := by
  intro he
  simp [Arith.arZero, Ar.mark, he]

/-- How a call for an operand ends. -/
inductive UnaryStep (f : ℕ) (live : Bool) (a : Ar) : Int64 × Ar → Prop
  | fault (q : Text) : UnaryStep f live a (0, { a with p := q, err := true })
  | un {c p op r} : ws a.p = c :: p → unOp c = some op →
      arUnary f live { a with p := p } = some r → UnaryStep f live a (op.apply r.1, r.2)
  | paren {p r u} : ws a.p = '(' :: p → arExpr f live 0 { a with p := p } = some r →
      ws r.2.p = ')' :: u → UnaryStep f live a (r.1, { r.2 with p := u })
  | unclosed {p r} (q : Text) : arExpr f live 0 { a with p := p } = some r →
      UnaryStep f live a (r.1, { r.2 with p := q, err := true })
  | num {c p} : ws a.p = c :: p → c.isDigit → UnaryStep f live a
      (readNum (scanNum (c :: p)).1 (scanNum (c :: p)).2.1, { a with p := (scanNum (c :: p)).2.2 })
  | var {c p q} : ws a.p = c :: p → isIdS c → q = ws (p.dropWhile isIdC) → idForm q = .use →
      UnaryStep f live a (arVal a.vars (arName c p), { a with p := q })
  | step {c p q up} : ws a.p = c :: p → isIdS c → q = ws (p.dropWhile isIdC) →
      idForm q = .step up → UnaryStep f live a (arVal a.vars (arName c p),
        arSet { a with p := q.drop 2 } (arName c p) (stepped up (arVal a.vars (arName c p))) live)
  | zero {p r} : arExpr f live 0 { a with p := p } = some r →
      UnaryStep f live a (0, arZero r.2 live)
  | assign {c p q op r v} : ws a.p = c :: p → isIdS c → q = ws (p.dropWhile isIdC) →
      idForm q = .assign op →
      arExpr f live 0 { a with p := q.drop (Form.assign op).len } = some r →
      assigned op (arVal r.2.vars (arName c p)) r.1 = some v →
      UnaryStep f live a (v, arSet r.2 (arName c p) v live)

theorem arUnary_step {f : ℕ} {live : Bool} {a : Ar} {r : Int64 × Ar}
    (h : arUnary (f + 1) live a = some r) : UnaryStep f live a r := by
  rw [arUnary] at h
  cases hw : ws a.p with
  | nil =>
    rw [hw] at h
    cases h
    exact .fault []
  | cons c p =>
    rw [hw] at h
    dsimp only at h
    cases hop : unOp c with
    | some op =>
      rw [hop] at h
      obtain ⟨s, hs, rfl⟩ := Option.map_eq_some_iff.1 h
      exact .un hw hop hs
    | none =>
      rw [hop] at h
      dsimp only at h
      split_ifs at h with h1 h2 h3
      · obtain ⟨s, hs, rfl⟩ := Option.map_eq_some_iff.1 h
        split
        · next u hu => exact .paren (h1 ▸ hw) hs hu
        · exact .unclosed _ hs
      · cases h
        exact .num hw h2
      · cases hform : idForm (ws (p.dropWhile isIdC)) with
        | step up =>
          rw [hform] at h
          cases h
          exact .step hw h3 rfl hform
        | use =>
          rw [hform] at h
          cases h
          exact .var hw h3 rfl hform
        | assign op =>
          rw [hform] at h
          obtain ⟨s, hs, rfl⟩ := Option.map_eq_some_iff.1 h
          cases hv : assigned op (arVal s.2.vars (arName c p)) s.1 with
          | none => exact .zero hs
          | some v => exact .assign hw h3 rfl hform hs hv
      · cases h
        exact .fault _

/-- An error stays. -/
theorem kept (f : ℕ) :
    (∀ live a r, arUnary f live a = some r → Kept a r.2) ∧
    (∀ live minp a r, arExpr f live minp a = some r → Kept a r.2) ∧
    ∀ live minp l a r, arLoop f live minp l a = some r → Kept a r.2 := by
  induction f with
  | zero =>
    refine ⟨?_, ?_, ?_⟩
    · intro live a r h
      cases h
    · intro live minp a r h
      cases h
    · intro live minp l a r h
      cases h
  | succ f ih =>
    obtain ⟨ihu, ihe, ihl⟩ := ih
    refine ⟨?_, ?_, ?_⟩
    · intro live a r h
      cases arUnary_step h with
      | fault q => exact fun _ => ⟨rfl, rfl⟩
      | un _ _ hs =>
        have hk := ihu _ _ _ hs
        exact hk
      | paren _ hs _ =>
        have hk := ihe _ _ _ _ hs
        exact hk
      | unclosed q hs =>
        have hk := ihe _ _ _ _ hs
        exact fun he => ⟨rfl, (hk he).2⟩
      | num _ _ => exact fun he => ⟨he, rfl⟩
      | var _ _ _ _ => exact fun he => ⟨he, rfl⟩
      | step _ _ _ _ => exact fun he => Kept.arSet _ _ _ _ he
      | zero hs =>
        have hk := ihe _ _ _ _ hs
        exact fun he => Kept.trans hk (Kept.arZero _ _) he
      | assign _ _ _ _ hs _ =>
        have hk := ihe _ _ _ _ hs
        exact fun he => Kept.trans hk (Kept.arSet _ _ _ _) he
    · intro live minp a r h
      rw [arExpr] at h
      cases hu : arUnary f live a with
      | none =>
        rw [hu] at h
        cases h
      | some s =>
        rw [hu] at h
        exact (ihu _ _ _ hu).trans (ihl _ _ _ _ _ h)
    · intro live minp l a r h
      rw [arLoop_eq] at h
      split at h
      · cases h
        exact fun he => ⟨he, rfl⟩
      · split_ifs at h
        · cases h
          exact fun he => ⟨he, rfl⟩
        · split at h
          · cases h
          · next s hs =>
            have hk := ihe _ _ _ _ hs
            split at h
            · cases h
              exact fun he => Kept.trans hk (Kept.arZero _ _) he
            · exact fun he => Kept.trans hk (ihl _ _ _ _ _ h) he

theorem length_drop_opLen {p : Text} {op : BinOp} (h : opAt p = some op) :
    (p.drop (opLen op)).length < p.length := by
  have hlen : 0 < opLen op := by cases op <;> decide
  have hne : p ≠ [] := by
    intro hp
    rw [hp] at h
    cases h
  have hpos := List.length_pos_of_ne_nil hne
  rw [List.length_drop]
  omega

theorem length_form {c : Char} {s p : Text} (h : ws s = c :: p) (n : ℕ) :
    ((ws (p.dropWhile isIdC)).drop n).length < s.length := by
  have h1 := length_of_ws h
  have h2 := length_ws_le (p.dropWhile isIdC)
  have h3 := List.length_dropWhile_le isIdC p
  rw [List.length_drop]
  omega

/-- The calls end, for a text of this length. -/
theorem total (f : ℕ) :
    (∀ live a, 3 * a.p.length + 1 ≤ f →
      ∃ r, arUnary f live a = some r ∧ r.2.p.length ≤ a.p.length) ∧
    (∀ live minp a, 3 * a.p.length + 3 ≤ f →
      ∃ r, arExpr f live minp a = some r ∧ r.2.p.length ≤ a.p.length) ∧
    ∀ live minp l a, 3 * a.p.length + 2 ≤ f →
      ∃ r, arLoop f live minp l a = some r ∧ r.2.p.length ≤ a.p.length := by
  induction f with
  | zero => exact ⟨fun _ _ h => by omega, fun _ _ _ h => by omega, fun _ _ _ _ h => by omega⟩
  | succ f ih =>
    obtain ⟨ihu, ihe, ihl⟩ := ih
    refine ⟨?_, ?_, ?_⟩
    · intro live a hf
      rw [arUnary]
      cases hw : ws a.p with
      | nil => exact ⟨_, rfl, Nat.zero_le _⟩
      | cons c p =>
        have hp := length_of_ws hw
        dsimp only
        cases unOp c with
        | some op =>
          obtain ⟨r, hr, hlen⟩ := ihu live { a with p := p } (by dsimp only; omega)
          dsimp only at hlen ⊢
          rw [hr]
          exact ⟨_, rfl, by dsimp only; omega⟩
        | none =>
          dsimp only
          split_ifs with h1 h2 h3
          · obtain ⟨r, hr, hlen⟩ := ihe live 0 { a with p := p } (by dsimp only; omega)
            dsimp only at hlen
            have hws := length_ws_le r.2.p
            rw [hr]
            refine ⟨_, rfl, ?_⟩
            dsimp only
            split
            · next u hu =>
              rw [hu, List.length_cons] at hws
              dsimp only
              omega
            · dsimp only
              omega
          · have hq := length_scanNum p h2
            exact ⟨_, rfl, hq.trans hp.le⟩
          · have hq := length_form hw (idForm (ws (p.dropWhile isIdC))).len
            cases hform : idForm (ws (p.dropWhile isIdC)) with
            | step up =>
              rw [hform] at hq
              exact ⟨_, rfl, hq.le⟩
            | use =>
              rw [hform] at hq
              exact ⟨_, rfl, hq.le⟩
            | assign op =>
              rw [hform] at hq
              obtain ⟨r, hr, hlen⟩ := ihe live 0
                { a with p := (ws (p.dropWhile isIdC)).drop (Form.assign op).len }
                (by dsimp only; omega)
              dsimp only at hlen ⊢
              rw [hr]
              refine ⟨_, rfl, ?_⟩
              dsimp only
              split
              · change r.2.p.length ≤ a.p.length
                omega
              · change r.2.p.length ≤ a.p.length
                omega
          · exact ⟨_, rfl, by dsimp only [List.length_cons]; omega⟩
    · intro live minp a hf
      obtain ⟨r, hr, hlen⟩ := ihu live a (by omega)
      obtain ⟨r', hr', hlen'⟩ := ihl live minp r.1 r.2 (by omega)
      refine ⟨r', ?_, hlen'.trans hlen⟩
      rw [arExpr, hr]
      exact hr'
    · intro live minp l a hf
      have hws := length_ws_le a.p
      rw [arLoop_eq]
      cases ho : opAt (ws a.p) with
      | none => exact ⟨_, rfl, hws⟩
      | some op =>
        have hdrop := length_drop_opLen ho
        dsimp only
        split_ifs
        · exact ⟨_, rfl, hws⟩
        · obtain ⟨r, hr, hlen⟩ := ihe (live && (op.skips l).isNone) (op.prec + 1)
            { a with p := (ws a.p).drop (opLen op) } (by dsimp only; omega)
          dsimp only at hlen
          rw [hr]
          dsimp only
          cases op.apply l r.1 with
          | none => exact ⟨_, rfl, by change r.2.p.length ≤ _; omega⟩
          | some v =>
            obtain ⟨r', hr', hlen'⟩ := ihl live minp v r.2 (by omega)
            exact ⟨r', hr', by omega⟩

/-! ## What is read is in the grammar -/

theorem Derives.down {n m : ℕ} {s t : Text} {e : Expr Name} {k : Bool} (h : Derives n s e k t)
    (hm : m ≤ n) (hn : n ≤ 11) : Derives m s e k t := by
  obtain ⟨d, rfl⟩ := Nat.exists_eq_add_of_le hm
  induction d with
  | zero => exact h
  | succ d ih => exact ih (.up (by omega) h) (by omega) (by omega)

/-- No operator that could go on follows. -/
def Ends (n : ℕ) (k : Bool) (t : Text) : Prop :=
  ∀ op, opAt (ws t) = some op → k = true ∧ op.prec < n

theorem sound (f : ℕ) :
    (∀ live a r, arUnary f live a = some r → r.2.err = false →
      ∃ e k, Derives 11 a.p e k r.2.p ∧ Ends 11 k r.2.p) ∧
    (∀ live minp a r, minp ≤ 11 → arExpr f live minp a = some r → r.2.err = false →
      ∃ e k t, Derives minp a.p e k t ∧ r.2.p = ws t ∧ Ends minp k t) ∧
    ∀ live minp l a r n s e k, minp ≤ n → n ≤ 11 → Derives n s e k a.p → Ends (n + 1) k a.p →
      arLoop f live minp l a = some r → r.2.err = false →
      ∃ e k t, Derives minp s e k t ∧ r.2.p = ws t ∧ Ends minp k t := by
  have hfine : ∀ {a b : Ar}, Kept a b → b.err = false → a.err = false := by
    intro a b hk hb
    cases ha : a.err with
    | false => rfl
    | true =>
      rw [(hk ha).1] at hb
      cases hb
  have hopen : ∀ {t : Text}, opAt (ws t) = none → ∀ n k, Ends n k t := by
    intro t ht n k op hop
    rw [ht] at hop
    cases hop
  have hzero : ∀ {t : Text} {k}, Ends 0 k t → opAt (ws t) = none := by
    intro t k ht
    cases hop : opAt (ws t) with
    | none => rfl
    | some op => exact absurd (ht op hop).2 (Nat.not_lt_zero _)
  have hclosed : ∀ t, Ends 11 true t := by
    intro t op _
    have hle := op.prec_le
    exact ⟨rfl, by omega⟩
  induction f with
  | zero =>
    refine ⟨?_, ?_, ?_⟩
    · intro live a r h
      cases h
    · intro live minp a r _ h
      cases h
    · intro live minp l a r n s e k _ _ _ _ h
      cases h
  | succ f ih =>
    obtain ⟨ihu, ihe, ihl⟩ := ih
    refine ⟨?_, ?_, ?_⟩
    · intro live a r h herr
      cases arUnary_step h with
      | fault q => cases herr
      | un hw hop hs =>
        obtain ⟨e, k, hd, hend⟩ := ihu _ _ _ hs herr
        exact ⟨_, k, .un hw hop hd, hend⟩
      | paren hw hs hu =>
        obtain ⟨e, k, t, hd, ht, -⟩ := ihe _ 0 _ _ (by omega) hs herr
        rw [ht, ws_ws] at hu
        exact ⟨e, true, .paren hw hd hu, hclosed _⟩
      | unclosed q hs => cases herr
      | num hw hc => exact ⟨_, true, .num hw hc, hclosed _⟩
      | var hw hc hq hform => exact ⟨_, true, .var hw hc hq hform, hclosed _⟩
      | step hw hc hq hform => exact ⟨_, true, .step hw hc hq hform, hclosed _⟩
      | zero hs => cases herr
      | assign hw hc hq hform hs hv =>
        have herr' := hfine (Kept.arSet _ _ _ _) herr
        obtain ⟨e, k, t, hd, ht, hend⟩ := ihe _ 0 _ _ (by omega) hs herr'
        have hset := Derives.assign hw hc hq hform hd
        have hnone := hzero hend
        rw [← ws_ws] at hnone
        rw [← ht] at hset hnone
        exact ⟨_, false, hset, hopen hnone _ _⟩
    · intro live minp a r hm h herr
      rw [arExpr] at h
      cases hu : arUnary f live a with
      | none =>
        rw [hu] at h
        cases h
      | some s =>
        rw [hu] at h
        have herr' := hfine ((kept f).2.2 _ _ _ _ _ h) herr
        obtain ⟨e, k, hd, hend⟩ := ihu _ _ _ hu herr'
        refine ihl _ _ _ _ _ 11 a.p e k hm le_rfl hd ?_ h herr
        intro op hop
        exact ⟨(hend op hop).1, (hend op hop).2.trans (Nat.lt_succ_self _)⟩
    · intro live minp l a r n s e k hm hn hd hend h herr
      rw [arLoop_eq] at h
      cases hop : opAt (ws a.p) with
      | none =>
        rw [hop] at h
        cases h
        exact ⟨e, k, a.p, hd.down hm hn, rfl, hopen hop _ _⟩
      | some op =>
        obtain ⟨hk, hprec⟩ := hend op hop
        subst hk
        rw [hop] at h
        dsimp only at h
        split_ifs at h with hlt
        · cases h
          refine ⟨e, true, a.p, hd.down hm hn, rfl, fun op' hop' => ⟨rfl, ?_⟩⟩
          rw [hop] at hop'
          cases hop'
          exact hlt
        · split at h
          · cases h
          · next x hx =>
            split at h
            · cases h
              cases herr
            · next v hv =>
              have herr' := hfine ((kept f).2.2 _ _ _ _ _ h) herr
              have hle := op.prec_le
              obtain ⟨e', k', t, hd', ht, hend'⟩ := ihe _ _ _ _ (by omega) hx herr'
              have hbin := Derives.bin (hd.down (by omega) hn) hop hd'
              rw [← ht] at hbin
              refine ihl _ _ _ _ _ op.prec s _ k' (by omega) (by omega) hbin ?_ h herr
              rw [Ends, ht, ws_ws]
              exact hend'

end Xeneva.Shell.Arith
