import Xeneva.Bt.P256Field

/-!
# The curve

The point formulas compute the group law of a curve `y² = x³ - 3x + b`, for any `b`: it does not
occur in them. So a multiple is the multiple in the group of the curve that the point lies on.
-/

namespace Xeneva.Bt.P256
open Base WeierstrassCurve.Affine

/-- The curves with the coefficient `-3`. -/
def curve (b : ZMod P) : WeierstrassCurve.Affine (ZMod P) := ⟨0, 0, 0, -3, b⟩

variable {b x y x' y' : ZMod P} {p p' : Pt} {Q Q' : (curve b).Point}

theorem two_ne_zero_P : (2 : ZMod P) ≠ 0 := by
  intro h
  have h2 : ((2 : ℕ) : ZMod P) = 0 := by exact_mod_cast h
  rw [ZMod.natCast_eq_zero_iff] at h2
  have hle := Nat.le_of_dvd (by decide) h2
  have hP := P_bounds
  omega

theorem equation_iff_curve : (curve b).Equation x y ↔ y ^ 2 = x ^ 3 - 3 * x + b := by
  rw [WeierstrassCurve.Affine.equation_iff]
  simp only [curve]
  constructor
  · intro h
    linear_combination h
  · intro h
    linear_combination h

theorem negY_curve (x y : ZMod P) : (curve b).negY x y = -y := by
  simp [WeierstrassCurve.Affine.negY, curve]

theorem addX_curve (x x' l : ZMod P) : (curve b).addX x x' l = l * l - x - x' := by
  simp only [WeierstrassCurve.Affine.addX, curve]
  ring

theorem addY_curve (x x' y l : ZMod P) :
    (curve b).addY x x' y l = l * (x - (l * l - x - x')) - y := by
  rw [WeierstrassCurve.Affine.addY, negY_curve, WeierstrassCurve.Affine.negAddY, addX_curve]
  ring

/-- The words stand for the point. -/
def Represents (p : Pt) : (curve b).Point → Prop
  | .zero => p.inf = true
  | .some x y _ => p.inf = false ∧ p.x.val < P ∧ p.y.val < P ∧ p.x.elt = x ∧ p.y.elt = y

theorem infinity_represents : Represents infinity (0 : (curve b).Point) := rfl

theorem eq_neg_self_iff : y = -y ↔ y = 0 := by
  constructor
  · intro h
    have h2 : 2 * y = 0 := by linear_combination h
    exact (mul_eq_zero.mp h2).resolve_left two_ne_zero_P
  · intro h
    rw [h, neg_zero]

theorem feWord_elt (w : UInt32) : (feWord w).elt = (w.toNat : ZMod P) := by
  unfold Fe.elt
  rw [feWord_val]

/-- The third point of a chord or a tangent with the slope `l`, mirrored. -/
theorem chord_represents {lam ax bx ay : Fe} {l : ZMod P} (hl : lam.elt = l) (hax : ax.val < P)
    (hbx : bx.val < P) (hay : ay.val < P) (hx : ax.elt = x) (hx' : bx.elt = x') (hy : ay.elt = y)
    (h : (curve b).Nonsingular ((curve b).addX x x' l) ((curve b).addY x x' y l)) :
    Represents ⟨feSubm (feSubm (feMul lam lam) ax) bx,
      feSubm (feMul lam (feSubm ax (feSubm (feSubm (feMul lam lam) ax) bx))) ay, false⟩
      (.some _ _ h) := by
  have hx3 : (feSubm (feSubm (feMul lam lam) ax) bx).elt = l * l - x - x' := by
    rw [feSubm_elt _ hbx, feSubm_elt _ hax, feMul_elt, hl, hx, hx']
  refine ⟨rfl, feSubm_lt _ _, feSubm_lt _ _, ?_, ?_⟩
  · rw [hx3, addX_curve]
  · rw [feSubm_elt _ hay, feMul_elt, feSubm_elt _ (feSubm_lt _ _), hx3, addY_curve, hl, hx, hy]

theorem tangent_elt {px py : Fe} (hx : px.elt = x) (hy : py.elt = y) :
    (feMul (feSubm (feMul (feMul px px) (feWord 3)) (feWord 3)) (feInv (feMul (feWord 2) py))).elt =
      (3 * x ^ 2 - 3) / (2 * y) := by
  have h3 : (feWord 3).val < P := by
    rw [feWord_val]
    exact lt_trans (by decide) P_bounds.1
  have e3 : (feWord 3).elt = 3 := by
    rw [feWord_elt]
    rfl
  have e2 : (feWord 2).elt = 2 := by
    rw [feWord_elt]
    rfl
  rw [feMul_elt, feSubm_elt _ h3, feInv_elt, feMul_elt, feMul_elt, feMul_elt, e3, e2, hx, hy,
    div_eq_mul_inv]
  ring

theorem slope_tangent (h : y ≠ (curve b).negY x y) :
    (curve b).slope x x y y = (3 * x ^ 2 - 3) / (2 * y) := by
  apply (slope_of_Y_ne rfl h).trans
  rw [negY_curve]
  congr 1
  · simp only [curve]
    ring
  · ring

theorem ptDbl_represents (h : Represents p Q) : Represents (ptDbl p) (Q + Q) := by
  cases Q with
  | zero =>
    have hinf : p.inf = true := h
    unfold ptDbl
    rw [if_pos (Or.inl hinf)]
    exact infinity_represents
  | some x y hQ =>
    obtain ⟨hinf, hx, hy, hex, hey⟩ := h
    unfold ptDbl
    by_cases h0 : feIs0 p.y
    · rw [if_pos (Or.inr h0)]
      have hy0 : y = 0 := by
        rw [← hey]
        exact (Fe.elt_eq_zero_iff hy).mpr (feIs0_iff.mp h0)
      rw [Point.add_self_of_Y_eq (by rw [negY_curve]; exact eq_neg_self_iff.mpr hy0)]
      exact infinity_represents
    · have hy0 : y ≠ (curve b).negY x y := by
        rw [negY_curve]
        intro hyy
        rw [eq_neg_self_iff, ← hey, Fe.elt_eq_zero_iff hy] at hyy
        exact h0 (feIs0_iff.mpr hyy)
      rw [if_neg (by simp [hinf, h0]), Point.add_self_of_Y_ne hy0]
      exact chord_represents ((tangent_elt hex hey).trans (slope_tangent hy0).symm) hx hx hy hex hex
        hey _

theorem chord_elt {ax ay bx by' : Fe} (hax : ax.val < P) (hay : ay.val < P) (hx : ax.elt = x)
    (hy : ay.elt = y) (hx' : bx.elt = x') (hy' : by'.elt = y') :
    (feMul (feSubm by' ay) (feInv (feSubm bx ax))).elt = (y - y') / (x - x') := by
  rw [feMul_elt, feInv_elt, feSubm_elt _ hay, feSubm_elt _ hax, hx, hy, hx', hy', ← neg_sub y y',
    ← neg_sub x x', inv_neg, neg_mul_neg, div_eq_mul_inv]

theorem feCmp_eq_iff {a b : Fe} (ha : a.val < P) (hb : b.val < P) :
    feCmp a b = .eq ↔ a.elt = b.elt := by
  rw [feCmp_eq, Nat.compare_eq_eq, Fe.elt_inj ha hb]

/-- Equal points are doubled, opposite ones are infinity, and so is the sum with infinity the
other point. -/
theorem ptAdd_represents (h : Represents p Q) (h' : Represents p' Q') :
    Represents (ptAdd p p') (Q + Q') := by
  cases Q with
  | zero =>
    have hinf : p.inf = true := h
    unfold ptAdd
    rw [if_pos hinf]
    change Represents p' (0 + Q')
    rwa [zero_add]
  | some x y hQ =>
    have hp := h
    obtain ⟨hinf, hx, hy, hex, hey⟩ := h
    cases Q' with
    | zero =>
      have hinf' : p'.inf = true := h'
      unfold ptAdd
      rw [if_neg (by simp [hinf]), if_pos hinf']
      change Represents p (Point.some x y hQ + 0)
      rwa [add_zero]
    | some x' y' hQ' =>
      obtain ⟨hinf', hx', hy', hex', hey'⟩ := h'
      unfold ptAdd
      rw [if_neg (by simp [hinf]), if_neg (by simp [hinf'])]
      by_cases hxx : feCmp p.x p'.x = .eq
      · have hxe : x = x' := by
          rw [← hex, ← hex']
          exact (feCmp_eq_iff hx hx').mp hxx
        have hsum : feIs0 (feAddm p.y p'.y) ↔ y = -y' := by
          rw [feIs0_iff, ← Fe.elt_eq_zero_iff (feAddm_val p.y p'.y ▸ mod_lt_P _), feAddm_elt, hey,
            hey', add_eq_zero_iff_eq_neg]
        have hyy : feCmp p.y p'.y = .eq ↔ y = y' := by
          rw [feCmp_eq_iff hy hy', hey, hey']
        subst hxe
        rw [if_pos hxx]
        by_cases hneg : y = -y'
        · rw [if_pos (Or.inl (hsum.mpr hneg)), Point.add_of_Y_eq rfl (by rwa [negY_curve])]
          exact infinity_represents
        · have heq : y = y' := by
            apply (Y_eq_of_X_eq hQ.1 hQ'.1 rfl).resolve_right
            rwa [negY_curve]
          subst heq
          rw [if_neg]
          · exact ptDbl_represents hp
          · intro hor
            apply hor.elim
            · intro h0
              exact hneg (hsum.mp h0)
            · intro hne
              exact hne (hyy.mpr rfl)
      · have hxe : x ≠ x' := by
          rw [← hex, ← hex']
          exact fun he => hxx ((feCmp_eq_iff hx hx').mpr he)
        rw [if_neg hxx, Point.add_of_X_ne hxe]
        exact chord_represents ((chord_elt hx hy hex hey hex' hey').trans
          (slope_of_X_ne hxe).symm) hx hx' hy hex hex' hey _

/-- The multiple by the number that the bytes of the scalar say. -/
theorem ptMul_represents (h : Represents p Q) (k : Bytes32) :
    Represents (ptMul k p) (beVal k.d • Q) := by
  have hstep : ∀ (r : Pt) (n : ℕ) (bit : Bool), Represents r (n • Q) →
      Represents (if bit then ptAdd (ptDbl r) p else ptDbl r) ((2 * n + bit.toNat) • Q) := by
    intro r n bit hr
    have hdbl := ptDbl_represents hr
    rw [← two_nsmul, ← mul_nsmul'] at hdbl
    cases bit with
    | false =>
      rw [if_neg (by decide), Bool.toNat_false, add_zero]
      exact hdbl
    | true =>
      rw [if_pos rfl, Bool.toNat_true, succ_nsmul]
      exact ptAdd_represents hdbl h
  have hstart : Represents infinity (0 • Q) := by
    rw [zero_nsmul]
    exact infinity_represents
  rw [← value_scalar]
  exact Ladder.foldl_value (R := fun (r : Pt) n => Represents r (n • Q)) hstep hstart _

end Xeneva.Bt.P256

/-!
# Key agreement

The multiples of the generator and of a peer's point are those of the group of the curve. The
point of the peer is not checked: what is computed for another one is a multiple in the group of
the curve that this point lies on.
-/

namespace Xeneva.Bt.P256
open Base WeierstrassCurve.Affine

variable {k px py : Bytes32}

/-! ## The curve P-256 -/

/-- The constant of the curve; it does not occur in the code. -/
def B : ℕ := 0x5ac635d8aa3a93e7b3ebbd55769886bc651d06b0cc53b0f63bce3c3e27d2604b

/-- The remainders that decide where the generator lies and that the curve is smooth. -/
theorem constants :
    FE_GX.val < P ∧ FE_GY.val < P ∧
      (FE_GY.val ^ 2 + 3 * FE_GX.val) % P = (FE_GX.val ^ 3 + B) % P ∧
      1728 % P ≠ 432 * B ^ 2 % P ∧ 3 % P ≠ B % P := by
  decide +kernel

theorem discriminant_ne_zero : (curve B).Δ ≠ 0 := by
  have hΔ : (curve B).Δ = 1728 - ((432 * B ^ 2 : ℕ) : ZMod P) := by
    simp only [WeierstrassCurve.Δ, WeierstrassCurve.b₂, WeierstrassCurve.b₄, WeierstrassCurve.b₆,
      WeierstrassCurve.b₈, curve]
    push_cast
    ring
  rw [hΔ, sub_ne_zero]
  intro h
  have hmod : ((1728 : ℕ) : ZMod P) = ((432 * B ^ 2 : ℕ) : ZMod P) := by exact_mod_cast h
  rw [ZMod.natCast_eq_natCast_iff'] at hmod
  exact constants.2.2.2.1 hmod

theorem nonsingular_P256 {x y : ZMod P} (h : (curve B).Equation x y) : (curve B).Nonsingular x y :=
  ((curve B).equation_iff_nonsingular_of_Δ_ne_zero discriminant_ne_zero).mp h

theorem generator_equation : (curve B).Equation FE_GX.elt FE_GY.elt := by
  have h : ((FE_GY.val ^ 2 + 3 * FE_GX.val : ℕ) : ZMod P) = ((FE_GX.val ^ 3 + B : ℕ) : ZMod P) := by
    rw [ZMod.natCast_eq_natCast_iff']
    exact constants.2.2.1
  rw [equation_iff_curve]
  unfold Fe.elt
  push_cast at h
  linear_combination h

/-- The generator of the group. -/
def generator : (curve B).Point := .some _ _ (nonsingular_P256 generator_equation)

theorem generator_represents : Represents ⟨FE_GX, FE_GY, false⟩ generator :=
  ⟨rfl, constants.1, constants.2.1, rfl, rfl⟩

/-- The bytes are the affine encoding of a point of the curve, with both coordinates reduced. -/
structure ValidKey (px py : Bytes32) : Prop where
  x : beVal px.d < P
  y : beVal py.d < P
  equation : (curve B).Equation (beVal px.d : ZMod P) (beVal py.d : ZMod P)

def ValidKey.point (h : ValidKey px py) : (curve B).Point := .some _ _ (nonsingular_P256 h.equation)

theorem feFromBe_elt (b : Bytes32) : (feFromBe b).elt = (beVal b.d : ZMod P) := by
  unfold Fe.elt
  rw [feFromBe_val]

theorem ValidKey.represents (h : ValidKey px py) :
    Represents ⟨feFromBe px, feFromBe py, false⟩ h.point :=
  ⟨rfl, (feFromBe_val px).symm ▸ h.x, (feFromBe_val py).symm ▸ h.y, feFromBe_elt px,
    feFromBe_elt py⟩

/-- The bytes that a call returns for a point, which is a failure for infinity. -/
def Encodes {b : ZMod P} (r : Option (Bytes32 × Bytes32)) : (curve b).Point → Prop
  | .zero => r = none
  | .some x y _ => ∃ bx by', r = some (bx, by') ∧ beVal bx.d = x.val ∧ beVal by'.d = y.val

def EncodesX {b : ZMod P} (r : Option Bytes32) : (curve b).Point → Prop
  | .zero => r = none
  | .some x _ _ => ∃ bx, r = some bx ∧ beVal bx.d = x.val

theorem feToBe_elt {a : Fe} {x : ZMod P} (ha : a.val < P) (h : a.elt = x) :
    beVal (feToBe a).d = x.val := by
  rw [feToBe_val, ← h]
  exact (ZMod.val_natCast_of_lt ha).symm

theorem btP256MulG_encodes (k : Bytes32) : Encodes (btP256MulG k) (beVal k.d • generator) := by
  have h := ptMul_represents generator_represents k
  unfold btP256MulG
  cases hQ : beVal k.d • generator with
  | zero =>
    rw [hQ] at h
    exact if_pos h
  | some x y hxy =>
    rw [hQ] at h
    obtain ⟨hinf, hx, hy, hex, hey⟩ := h
    exact ⟨_, _, if_neg (by simp [hinf]), feToBe_elt hx hex, feToBe_elt hy hey⟩

theorem btP256Dh_encodes {b : ZMod P} {Q : (curve b).Point}
    (hQ : Represents ⟨feFromBe px, feFromBe py, false⟩ Q) (k : Bytes32) :
    EncodesX (btP256Dh k px py) (beVal k.d • Q) := by
  have h := ptMul_represents hQ k
  unfold btP256Dh
  cases hkQ : beVal k.d • Q with
  | zero =>
    rw [hkQ] at h
    exact if_pos h
  | some x y hxy =>
    rw [hkQ] at h
    obtain ⟨hinf, hx, _, hex, _⟩ := h
    exact ⟨_, if_neg (by simp [hinf]), feToBe_elt hx hex⟩

/-- The inverse of an element that is not zero. -/
theorem feInv_mul {a : Fe} (ha : a.val < P) (h : a.val ≠ 0) : a.val * (feInv a).val % P = 1 := by
  have hne : a.elt ≠ 0 := fun h0 => h ((Fe.elt_eq_zero_iff ha).mp h0)
  have hmul : ((a.val * (feInv a).val : ℕ) : ZMod P) = ((1 : ℕ) : ZMod P) := by
    rw [Nat.cast_mul, Nat.cast_one]
    change a.elt * (feInv a).elt = 1
    rw [feInv_elt, mul_inv_cancel₀ hne]
  rw [ZMod.natCast_eq_natCast_iff', Nat.mod_eq_of_lt prime_P.one_lt] at hmul
  exact hmul

/-- The field operations, fully reduced, and the multiples in the group of the curve, for every
scalar. -/
theorem p256_arithmetic (a b : Fe) (ha : a.val < P) (hb : b.val < P) (k px py : Bytes32)
    (hq : ValidKey px py) :
    ((feMul a b).val = a.val * b.val % P ∧ (feAddm a b).val = (a.val + b.val) % P ∧
      (feSubm a b).val = (a.val + P - b.val) % P ∧ (feInv a).val < P ∧
      (a.val ≠ 0 → a.val * (feInv a).val % P = 1)) ∧
    Encodes (btP256MulG k) (beVal k.d • generator) ∧
      EncodesX (btP256Dh k px py) (beVal k.d • hq.point) := by
  refine ⟨⟨feMul_val a b, feAddm_val a b, feSubm_val a hb, ?_, feInv_mul ha⟩,
    btP256MulG_encodes k, btP256Dh_encodes hq.represents k⟩
  rw [feInv_val]
  exact mod_lt_P _

theorem generatorKey : ValidKey (feToBe FE_GX) (feToBe FE_GY) := by
  constructor
  · rw [feToBe_val]
    exact constants.1
  · rw [feToBe_val]
    exact constants.2.1
  · rw [feToBe_val, feToBe_val]
    exact generator_equation

/-- At the generator, for the scalar two. -/
theorem p256_arithmetic_two :
    ((feMul FE_GX FE_GY).val = FE_GX.val * FE_GY.val % P ∧
      (feAddm FE_GX FE_GY).val = (FE_GX.val + FE_GY.val) % P ∧
      (feSubm FE_GX FE_GY).val = (FE_GX.val + P - FE_GY.val) % P ∧ (feInv FE_GX).val < P ∧
      (FE_GX.val ≠ 0 → FE_GX.val * (feInv FE_GX).val % P = 1)) ∧
    Encodes (btP256MulG (feToBe (feWord 2))) (beVal (feToBe (feWord 2)).d • generator) ∧
      EncodesX (btP256Dh (feToBe (feWord 2)) (feToBe FE_GX) (feToBe FE_GY))
        (beVal (feToBe (feWord 2)).d • generatorKey.point) :=
  p256_arithmetic FE_GX FE_GY constants.1 constants.2.1 (feToBe (feWord 2))
    (feToBe FE_GX) (feToBe FE_GY) generatorKey

/-! ## Points that are not on the curve -/

/-- The constant of the curve that a point lies on. -/
def constOf (x y : ZMod P) : ZMod P := y ^ 2 - x ^ 3 + 3 * x

theorem nonsingular_constOf {x y : ZMod P} (hy : y ≠ 0) : (curve (constOf x y)).Nonsingular x y := by
  rw [WeierstrassCurve.Affine.nonsingular_iff]
  constructor
  · rw [equation_iff_curve]
    unfold constOf
    ring
  · right
    intro h
    apply hy
    rw [← eq_neg_self_iff]
    simpa [curve] using h

/-- The point of a key, on its own curve. -/
def keyPoint (px py : Bytes32) (hy : (beVal py.d : ZMod P) ≠ 0) :
    (curve (constOf (beVal px.d) (beVal py.d))).Point :=
  .some _ _ (nonsingular_constOf hy)

theorem encodesX_none_iff {b : ZMod P} {Q : (curve b).Point} {r : Option Bytes32}
    (h : EncodesX r Q) : r = none ↔ Q = 0 := by
  cases Q with
  | zero => exact ⟨fun _ => rfl, fun _ => h⟩
  | some x y hxy =>
    obtain ⟨bx, rfl, _⟩ := h
    exact ⟨fun hn => (nomatch hn), fun h0 => absurd h0 (Point.some_ne_zero hxy)⟩

/-- A point of order two, or a singular one, is infinity when it is doubled. -/
theorem ptMul_inf_of_zero {p : Pt} (hinf : p.inf = false) (hy : p.y.val = 0) (k : Bytes32) :
    (ptMul k p).inf = true ↔ Even (beVal k.d) := by
  have hdbl : ∀ r : Pt, r.inf = true ∨ r = p → ptDbl r = infinity := by
    intro r hr
    unfold ptDbl
    rw [if_pos]
    apply hr.imp_right
    intro h
    rw [h]
    exact feIs0_iff.mpr hy
  have hadd : ptAdd infinity p = p := rfl
  have hstep : ∀ (r : Pt) (n : ℕ) (bit : Bool), (if n % 2 = 0 then r.inf = true else r = p) →
      if (2 * n + bit.toNat) % 2 = 0 then
        (if bit then ptAdd (ptDbl r) p else ptDbl r).inf = true
      else (if bit then ptAdd (ptDbl r) p else ptDbl r) = p := by
    intro r n bit hr
    have hr' : r.inf = true ∨ r = p := by
      split at hr
      · exact Or.inl hr
      · exact Or.inr hr
    rw [hdbl r hr', hadd]
    cases bit with
    | false =>
      rw [if_pos (by simp), if_neg (by decide)]
      rfl
    | true =>
      rw [if_neg (by simp), if_pos rfl]
  have hstart : if 0 % 2 = 0 then infinity.inf = true else infinity = p := by
    rw [if_pos rfl]
    rfl
  have h := Ladder.foldl_value (R := fun (r : Pt) n => if n % 2 = 0 then r.inf = true else r = p)
    hstep hstart (k.d.flatMap byteBits)
  rw [value_scalar] at h
  change if beVal k.d % 2 = 0 then (ptMul k p).inf = true else ptMul k p = p at h
  rw [Nat.even_iff]
  split at h
  next he => exact ⟨fun _ => he, fun _ => h⟩
  next ho =>
    rw [h, hinf]
    exact ⟨fun hf => absurd hf (by decide), fun he => absurd he ho⟩

theorem btP256Dh_none_iff (k px py : Bytes32) :
    btP256Dh k px py = none ↔ (ptMul k ⟨feFromBe px, feFromBe py, false⟩).inf = true := by
  unfold btP256Dh
  dsimp only
  split
  next h => exact ⟨fun _ => h, fun _ => rfl⟩
  next h => exact ⟨fun hn => (nomatch hn), fun hi => absurd hi h⟩

/-- The scalar one. -/
def scalarOne : Bytes32 := feToBe (feWord 1)

/-- The multiple by one is the key's own point, whatever it is. -/
theorem btP256Dh_one (px py : Bytes32) :
    btP256Dh scalarOne px py = some (feToBe (feFromBe px)) := by
  have hbits : scalarOne.d.flatMap byteBits = List.replicate 255 false ++ [true] := by
    decide +kernel
  have hzeros : ∀ (p : Pt) n, (List.replicate n false).foldl
      (fun acc on => if on then ptAdd (ptDbl acc) p else ptDbl acc) infinity = infinity := by
    intro p n
    induction n with
    | zero => rfl
    | succ n ih => exact ih
  unfold btP256Dh ptMul
  rw [hbits, List.foldl_append, hzeros]
  rfl

/-- A key that is no point of the curve is refused for every scalar only if there is nothing to
refuse. A scalar is refused, for a key with reduced coordinates, exactly when the multiple in the
group of the key's own curve is infinity; the multiples of a point of order two, and of a singular
point, are infinity for the even scalars. -/
theorem dh_refuses_iff (px py : Bytes32) :
    ((∀ k, ¬ValidKey px py → btP256Dh k px py = none) ↔ ValidKey px py) ∧
      ∀ k, beVal px.d < P → beVal py.d < P →
        (∀ hy : (beVal py.d : ZMod P) ≠ 0,
          btP256Dh k px py = none ↔ beVal k.d • keyPoint px py hy = 0) ∧
        (beVal py.d = 0 → (btP256Dh k px py = none ↔ Even (beVal k.d))) := by
  constructor
  · constructor
    · intro h
      by_contra hinvalid
      have hnone := h scalarOne hinvalid
      rw [btP256Dh_one] at hnone
      exact nomatch hnone
    · intro h k hinvalid
      exact absurd h hinvalid
  · intro k hx hy
    constructor
    · intro hy0
      have hrep : Represents ⟨feFromBe px, feFromBe py, false⟩ (keyPoint px py hy0) :=
        ⟨rfl, (feFromBe_val px).symm ▸ hx, (feFromBe_val py).symm ▸ hy, feFromBe_elt px,
          feFromBe_elt py⟩
      exact encodesX_none_iff (btP256Dh_encodes hrep k)
    · intro hy0
      rw [btP256Dh_none_iff]
      exact ptMul_inf_of_zero rfl ((feFromBe_val py).trans hy0) k

/-- The key with both coordinates one is no point of the curve, and its secret for the scalar one
is its own coordinate. -/
theorem not_dh_refuses :
    ¬∀ px py, ¬ValidKey px py → ∀ k, btP256Dh k px py = none := by
  intro h
  have hinvalid : ¬ValidKey scalarOne scalarOne := by
    intro hv
    have he := hv.equation
    rw [equation_iff_curve] at he
    have hval : beVal scalarOne.d = 1 := by
      unfold scalarOne
      rw [feToBe_val, feWord_val]
      rfl
    rw [hval] at he
    have hnat : ((3 : ℕ) : ZMod P) = (B : ZMod P) := by
      push_cast at he ⊢
      linear_combination he
    rw [ZMod.natCast_eq_natCast_iff'] at hnat
    exact constants.2.2.2.2 hnat
  have hnone := h scalarOne scalarOne hinvalid scalarOne
  rw [btP256Dh_one] at hnone
  exact nomatch hnone

/-! ## Agreement -/

theorem val_inj {as bs : List UInt32} (hl : as.length = bs.length)
    (h : Base.Limbs.val as = Base.Limbs.val bs) : as = bs := by
  induction as generalizing bs with
  | nil => exact (List.length_eq_zero_iff.mp hl.symm).symm
  | cons a as ih =>
    obtain ⟨b, bs, rfl⟩ := List.exists_cons_of_length_eq_add_one hl.symm
    have ha := a.toNat_lt
    have hb := b.toNat_lt
    rw [Base.Limbs.val_cons, Base.Limbs.val_cons] at h
    have hw : a = b := UInt32.toNat_inj.mp (by omega)
    rw [hw, ih (Nat.succ.inj hl) (by omega)]

theorem Fe.eq_of_val {a b : Fe} (h : a.val = b.val) : a = b := by
  obtain ⟨as, ha⟩ := a
  obtain ⟨bs, hb⟩ := b
  congr
  exact val_inj (ha.trans hb.symm) h

/-- A key that was computed is a point of the curve. -/
theorem Encodes.represents {b : ZMod P} {Q : (curve b).Point} (h : Encodes (some (px, py)) Q) :
    Represents ⟨feFromBe px, feFromBe py, false⟩ Q := by
  cases Q with
  | zero => exact nomatch h
  | some x y hxy =>
    obtain ⟨bx, by', he, hx, hy⟩ := h
    cases he
    refine ⟨rfl, ?_, ?_, ?_, ?_⟩
    · rw [feFromBe_val, hx]
      exact x.val_lt
    · rw [feFromBe_val, hy]
      exact y.val_lt
    · rw [feFromBe_elt, hx, ZMod.natCast_zmod_val]
    · rw [feFromBe_elt, hy, ZMod.natCast_zmod_val]

/-- The secret is a function of the point that the multiplication gives. -/
theorem secret_eq {b : ZMod P} {Q : (curve b).Point} (h : Represents p Q) (h' : Represents p' Q) :
    (if p.inf then none else some (feToBe p.x)) = if p'.inf then none else some (feToBe p'.x) := by
  cases Q with
  | zero => rw [if_pos (show p.inf = true from h), if_pos (show p'.inf = true from h')]
  | some x y hxy =>
    obtain ⟨hi, hx, -, he, -⟩ := h
    obtain ⟨hi', hx', -, he', -⟩ := h'
    have hval := (Fe.elt_inj hx hx').mp (he.trans he'.symm)
    rw [hi, hi', Fe.eq_of_val hval]

/-- Two devices that send each other the keys they computed get the same secret, or none. -/
theorem btP256Dh_agrees (a b : Bytes32) :
    ((btP256MulG b).bind fun k => btP256Dh a k.1 k.2) =
      (btP256MulG a).bind fun k => btP256Dh b k.1 k.2 := by
  have hsecret : ∀ a b : Bytes32, ∃ p, Represents p (beVal a.d • beVal b.d • generator) ∧
      ((btP256MulG b).bind fun k => btP256Dh a k.1 k.2) =
        if p.inf then none else some (feToBe p.x) := by
    intro a b
    have h := btP256MulG_encodes b
    cases hb : btP256MulG b with
    | none =>
      rw [hb] at h
      refine ⟨infinity, ?_, rfl⟩
      cases hQ : beVal b.d • generator with
      | zero =>
        change Represents infinity (beVal a.d • (0 : (curve B).Point))
        rw [nsmul_zero]
        exact infinity_represents
      | some x y hxy =>
        rw [hQ] at h
        obtain ⟨_, _, hn, _⟩ := h
        exact nomatch hn
    | some k => exact ⟨_, ptMul_represents (hb ▸ h).represents a, rfl⟩
  obtain ⟨p, hp, he⟩ := hsecret a b
  obtain ⟨p', hp', he'⟩ := hsecret b a
  rw [smul_comm] at hp
  exact he.trans ((secret_eq hp hp').trans he'.symm)

end Xeneva.Bt.P256
