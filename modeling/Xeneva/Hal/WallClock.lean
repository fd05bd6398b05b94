import Xeneva.Base.Run

/-!
# The wall clock

The clock counts nanoseconds from the last tick on: cycles of the counter times a factor of 32
fractional bits. Between two ticks the product must fit into 64 bits.
-/

namespace Xeneva.Hal.WallClock
open Base

structure AuClockState where
  cycle_last : ℕ
  mult : ℕ
  shift : ℕ
  wall_sec : ℤ
  wall_nsec : ℤ
  deriving DecidableEq

/-- A signed 64-bit number. -/
def int64 (x : ℤ) : ℤ := (x + 2 ^ 63) % 2 ^ 64 - 2 ^ 63

def auSetWalltime (c : AuClockState) (cnt : ℕ) (sec nsec : ℤ) : AuClockState :=
  { c with cycle_last := cnt, wall_sec := sec, wall_nsec := nsec }

/-- `cpuFrequency` counts 10 kHz, and `raw` is the boot epoch of the board: nanoseconds, or
seconds, or no date at all. -/
def auroraTimerInitialize (cpuFrequency raw cnt : ℕ) : AuClockState :=
  let c : AuClockState := {
    cycle_last := 0
    mult := 1000000000 * 2 ^ 32 / (cpuFrequency * 10000 % 2 ^ 64)
    shift := 32
    wall_sec := 0
    wall_nsec := 0 }
  if raw > 1000000000000 then auSetWalltime c cnt (raw / 1000000000) (raw % 1000000000)
  else if raw > 1577836800 then auSetWalltime c cnt raw 0
  else c

/-- The nanoseconds since the last tick. -/
def deltaNs (c : AuClockState) (now : ℕ) : ℕ :=
  let delta_cycles := (now + 2 ^ 64 - c.cycle_last) % 2 ^ 64
  delta_cycles * c.mult % 2 ^ 64 / 2 ^ c.shift

/-- Seconds and nanoseconds. -/
def auGetWalltime (c : AuClockState) (now : ℕ) : ℤ × ℤ :=
  let nsec := int64 (c.wall_nsec + deltaNs c now)
  (int64 (c.wall_sec + nsec.tdiv 1000000000), nsec.tmod 1000000000)

/-- The carry waits for ten seconds here. -/
def auWalltimeUpdate (c : AuClockState) (now : ℕ) : AuClockState :=
  let wall_nsec := int64 (c.wall_nsec + deltaNs c now)
  let c := { c with cycle_last := now }
  if wall_nsec ≥ 10000000000 then { c with
    wall_sec := int64 (c.wall_sec + wall_nsec.tdiv 1000000000)
    wall_nsec := wall_nsec.tmod 1000000000 }
  else { c with wall_nsec }

/-- Each with the counter that it reads. -/
inductive Op
  | tick (now : ℕ)
  | get (now : ℕ)

def Op.now : Op → ℕ
  | .tick now | .get now => now

def step (c : AuClockState) : Op → AuClockState × Option (ℤ × ℤ)
  | .tick now => (auWalltimeUpdate c now, none)
  | .get now => (c, some (auGetWalltime c now))

def after (c : AuClockState) (ops : List Op) : AuClockState := run (fun c op => (step c op).1) c ops

/-- The times returned, in order. -/
def reads (c : AuClockState) (ops : List Op) : List (ℤ × ℤ) := (replies step c ops).filterMap id

def ticks (ops : List Op) : ℕ := ops.countP fun op => op matches .tick _

/-- The product fits, and so do the seconds. -/
def Fits (c : AuClockState) (op : Op) : Prop :=
  (op.now - c.cycle_last) * c.mult < 2 ^ 64 ∧ -2 ^ 63 ≤ c.wall_sec ∧ c.wall_sec < 2 ^ 63 - 16

instance (c : AuClockState) (op : Op) : Decidable (Fits c op) :=
  inferInstanceAs (Decidable (_ ∧ _ ∧ _))

def NotAfter (t t' : ℤ × ℤ) : Prop := t.1 < t'.1 ∨ t.1 = t'.1 ∧ t.2 ≤ t'.2

def ns (t : ℤ × ℤ) : ℤ := t.1 * 1000000000 + t.2

/-- The nanoseconds of a cycle, as the factor has them. -/
def period (c : AuClockState) : ℚ := c.mult / 2 ^ 32

/-- The nanoseconds of a cycle, as the frequency has them. -/
def nominal (cpuFrequency : ℕ) : ℚ := 1000000000 / (cpuFrequency * 10000 % 2 ^ 64 : ℕ)

variable {c : AuClockState} {now : ℕ}

def total (c : AuClockState) : ℤ := c.wall_sec * 1000000000 + c.wall_nsec

/-- The nanoseconds since the last tick, where nothing wraps. -/
def scaled (c : AuClockState) (now : ℕ) : ℕ := (now - c.cycle_last) * c.mult / 2 ^ 32

structure Sound (c : AuClockState) : Prop where
  shift : c.shift = 32
  nonneg : 0 ≤ c.wall_nsec
  lt : c.wall_nsec < 10000000000

theorem int64_of_fits {x : ℤ} (h : -2 ^ 63 ≤ x) (h' : x < 2 ^ 63) : int64 x = x := by
  unfold int64
  omega

theorem Sound.deltaNs (h : Sound c) (hle : c.cycle_last ≤ now) (hnow : now < 2 ^ 64)
    (hfit : (now - c.cycle_last) * c.mult < 2 ^ 64) :
    deltaNs c now = scaled c now ∧ scaled c now < 2 ^ 32 := by
  have hdelta : (now + 2 ^ 64 - c.cycle_last) % 2 ^ 64 = now - c.cycle_last := by omega
  unfold WallClock.deltaNs scaled
  dsimp only
  rw [hdelta, h.shift, Nat.mod_eq_of_lt hfit]
  refine ⟨rfl, ?_⟩
  generalize (now - c.cycle_last) * c.mult = x at hfit
  omega

/-- Dividing a number of nanoseconds. -/
theorem carry {x : ℤ} (h : 0 ≤ x) :
    x.tdiv 1000000000 = x / 1000000000 ∧ x.tmod 1000000000 = x % 1000000000 :=
  ⟨Int.tdiv_eq_ediv_of_nonneg h, Int.tmod_eq_emod_of_nonneg h⟩

/-- What a reading returns. -/
theorem Sound.get (h : Sound c) (hle : c.cycle_last ≤ now) (hnow : now < 2 ^ 64)
    (hfit : Fits c (.get now)) :
    ns (auGetWalltime c now) = total c + scaled c now ∧
      0 ≤ (auGetWalltime c now).2 ∧ (auGetWalltime c now).2 < 1000000000 := by
  obtain ⟨hprod, hlo, hhi⟩ := hfit
  obtain ⟨hd, hlt⟩ := h.deltaNs hle hnow hprod
  have hn0 := h.nonneg
  have hn1 := h.lt
  unfold auGetWalltime ns total
  rw [hd]
  generalize scaled c now = y at hlt ⊢
  generalize c.wall_nsec = n at hn0 hn1 ⊢
  have hx : int64 (n + y) = n + y := int64_of_fits (by omega) (by omega)
  obtain ⟨hdiv, hmod⟩ := carry (x := n + y) (by omega)
  rw [hx]
  dsimp only
  rw [hdiv, hmod, int64_of_fits (by omega) (by omega)]
  omega

/-- What a tick does. -/
theorem Sound.tick (h : Sound c) (hle : c.cycle_last ≤ now) (hnow : now < 2 ^ 64)
    (hfit : Fits c (.tick now)) :
    Sound (auWalltimeUpdate c now) ∧ total (auWalltimeUpdate c now) = total c + scaled c now ∧
      (auWalltimeUpdate c now).cycle_last = now ∧ (auWalltimeUpdate c now).mult = c.mult := by
  obtain ⟨hprod, hlo, hhi⟩ := hfit
  obtain ⟨hd, hlt⟩ := h.deltaNs hle hnow hprod
  have hn0 := h.nonneg
  have hn1 := h.lt
  have hx : int64 (c.wall_nsec + scaled c now) = c.wall_nsec + scaled c now :=
    int64_of_fits (by omega) (by omega)
  obtain ⟨hdiv, hmod⟩ := carry (x := c.wall_nsec + scaled c now) (by omega)
  unfold auWalltimeUpdate total
  rw [hd, hx]
  dsimp only
  split_ifs with hbig
  · dsimp only
    rw [hdiv, hmod, int64_of_fits (by omega) (by omega)]
    exact ⟨⟨h.shift, by dsimp only; omega, by dsimp only; omega⟩, by omega, rfl, rfl⟩
  · exact ⟨⟨h.shift, by dsimp only; omega, by dsimp only; omega⟩, by dsimp only; omega, rfl, rfl⟩

/-! ## Runs -/

variable {ops : List Op}

/-- The counter goes on from `start`, and nothing wraps. -/
structure Steady (start : ℕ) (c : AuClockState) (ops : List Op) : Prop where
  order : (start :: ops.map Op.now).Pairwise (· ≤ ·)
  word : ∀ op ∈ ops, op.now < 2 ^ 64
  fits : Respects Fits (fun c op => (step c op).1) c ops

theorem Steady.head {start : ℕ} {op : Op} (h : Steady start c (op :: ops)) :
    start ≤ op.now ∧ op.now < 2 ^ 64 ∧ Fits c op ∧ Steady op.now (step c op).1 ops := by
  have ho := List.pairwise_cons.mp h.order
  have hlt := h.word op List.mem_cons_self
  exact ⟨ho.1 op.now List.mem_cons_self, hlt, h.fits.1, ho.2,
    fun op' h' => h.word op' (List.mem_cons_of_mem op h'), h.fits.2⟩

/-- The run before its last reading. -/
theorem Steady.init {start : ℕ} (h : Steady start c (ops ++ [Op.get now])) :
    Steady start c ops ∧ (∀ op ∈ ops, op.now ≤ now) ∧ start ≤ now ∧ now < 2 ^ 64 ∧
      Fits (after c ops) (.get now) := by
  have horder := h.order
  rw [List.map_append, ← List.cons_append, List.pairwise_append] at horder
  have hlast : ∀ x ∈ start :: ops.map Op.now, x ≤ now :=
    fun x hx => horder.2.2 x hx now List.mem_cons_self
  have hfits := respects_append.mp h.fits
  refine ⟨⟨horder.1, fun o ho => h.word o (List.mem_append_left _ ho), hfits.1⟩, ?_, ?_, ?_, ?_⟩
  · exact fun op hop => hlast _ (List.mem_cons_of_mem _ (List.mem_map_of_mem hop))
  · exact hlast _ List.mem_cons_self
  · exact h.word (.get now) (List.mem_append_right _ List.mem_cons_self)
  · exact hfits.2.1

/-- How far a clock that was set at `cnt` to `start` is behind, after `k` ticks. -/
structure Behind (cnt : ℕ) (start : ℤ) (k : ℕ) (c : AuClockState) : Prop where
  sound : Sound c
  since : cnt ≤ c.cycle_last
  low : (total c - start) * 2 ^ 32 ≤ (c.cycle_last - cnt : ℕ) * c.mult
  high : (c.cycle_last - cnt : ℕ) * c.mult ≤ (total c - start) * 2 ^ 32 + k * (2 ^ 32 - 1)

/-- Cutting off the fraction once more. -/
theorem Behind.scaled {cnt k : ℕ} {start : ℤ} (h : Behind cnt start k c)
    (hle : c.cycle_last ≤ now) :
    (total c + scaled c now - start) * 2 ^ 32 ≤ ((now - cnt : ℕ) * c.mult : ℤ) ∧
      ((now - cnt : ℕ) * c.mult : ℤ) ≤
        (total c + scaled c now - start) * 2 ^ 32 + (k + 1) * (2 ^ 32 - 1) := by
  have hsplit : (now - cnt) * c.mult =
      (c.cycle_last - cnt) * c.mult + (now - c.cycle_last) * c.mult := by
    rw [← Nat.add_mul]
    congr 1
    have := h.since
    omega
  have hlow := h.low
  have hhigh := h.high
  have hcast : ((now - cnt : ℕ) * c.mult : ℤ) =
      (c.cycle_last - cnt : ℕ) * c.mult + ((now - c.cycle_last) * c.mult : ℕ) := by
    exact_mod_cast hsplit
  rw [hcast]
  unfold WallClock.scaled
  generalize ((c.cycle_last - cnt : ℕ) : ℤ) * c.mult = x at hlow hhigh ⊢
  generalize (now - c.cycle_last) * c.mult = y
  have hy : ((y / 2 ^ 32 : ℕ) : ℤ) = (y : ℤ) / 2 ^ 32 := by norm_cast
  rw [hy]
  constructor <;> omega

theorem Behind.run {cnt k start' : ℕ} {start : ℤ} (h : Behind cnt start k c)
    (hlast : c.cycle_last ≤ start') (hs : Steady start' c ops) :
    Behind cnt start (k + ticks ops) (after c ops) ∧ (after c ops).mult = c.mult ∧
      ∀ x, start' ≤ x → (∀ op ∈ ops, op.now ≤ x) → (after c ops).cycle_last ≤ x := by
  induction ops generalizing c k start' with
  | nil => exact ⟨h, rfl, fun x hx _ => hlast.trans hx⟩
  | cons op ops ih =>
    obtain ⟨hle, hlt, hfit, hrest⟩ := hs.head
    cases op with
    | tick now =>
      dsimp only [Op.now] at hle hlt hrest
      obtain ⟨hsound, htotal, hcycle, hmult⟩ := h.sound.tick (hlast.trans hle) hlt hfit
      obtain ⟨hlow, hhigh⟩ := h.scaled (hlast.trans hle)
      have hnext : Behind cnt start (k + 1) (auWalltimeUpdate c now) := by
        refine ⟨hsound, ?_, ?_, ?_⟩
        · rw [hcycle]
          exact h.since.trans (hlast.trans hle)
        · rw [hcycle, htotal, hmult]
          exact hlow
        · rw [hcycle, htotal, hmult]
          push_cast
          exact hhigh
      obtain ⟨hend, hm, hc⟩ := ih hnext hcycle.le hrest
      have hk : k + 1 + ticks ops = k + ticks (.tick now :: ops) := by
        unfold ticks
        rw [List.countP_cons_of_pos (by rfl)]
        omega
      refine ⟨hk ▸ hend, hm.trans hmult, fun x hx hops => ?_⟩
      exact hc x (hops _ List.mem_cons_self) fun o ho => hops o (List.mem_cons_of_mem _ ho)
    | get now =>
      dsimp only [Op.now] at hle hrest
      obtain ⟨hend, hm, hc⟩ := ih h (hlast.trans hle) hrest
      have hk : k + ticks ops = k + ticks (.get now :: ops) := by
        unfold ticks
        rw [List.countP_cons_of_neg Bool.false_ne_true]
      refine ⟨hk ▸ hend, hm, fun x hx hops => ?_⟩
      exact hc x (hops _ List.mem_cons_self) fun o ho => hops o (List.mem_cons_of_mem _ ho)

theorem scaled_mono (c : AuClockState) {x y : ℕ} (h : x ≤ y) : scaled c x ≤ scaled c y := by
  unfold scaled
  apply Nat.div_le_div_right
  exact Nat.mul_le_mul_right _ (Nat.sub_le_sub_right h _)

/-- A later reading of the counter gives no earlier time. -/
theorem later {x start : ℕ} (h : Sound c) (hlast : c.cycle_last ≤ start)
    (hs : Steady start c ops) (hx : start ≤ x) (hops : ∀ op ∈ ops, op.now ≤ x) :
    total c + scaled c start ≤ total (after c ops) + scaled (after c ops) x := by
  induction ops generalizing c start with
  | nil =>
    have hmono := scaled_mono c hx
    change total c + scaled c start ≤ total c + scaled c x
    omega
  | cons op ops ih =>
    obtain ⟨hle, hlt, hfit, hrest⟩ := hs.head
    have hrest' : ∀ o ∈ ops, o.now ≤ x := fun o ho => hops o (List.mem_cons_of_mem _ ho)
    have hopx := hops op List.mem_cons_self
    have hmono := scaled_mono c hle
    cases op with
    | tick now =>
      dsimp only [Op.now] at hle hlt hrest hopx hmono
      obtain ⟨hsound, htotal, hcycle, -⟩ := h.tick (hlast.trans hle) hlt hfit
      have hend := ih hsound hcycle.le hrest hopx hrest'
      have hzero : 0 ≤ (scaled (auWalltimeUpdate c now) now : ℤ) := Int.natCast_nonneg _
      change _ ≤ total (after (auWalltimeUpdate c now) ops) +
        scaled (after (auWalltimeUpdate c now) ops) x
      change total (auWalltimeUpdate c now) + scaled (auWalltimeUpdate c now) now ≤ _ at hend
      omega
    | get now =>
      dsimp only [Op.now] at hle hrest hopx hmono
      have hend := ih h (hlast.trans hle) hrest hopx hrest'
      change _ ≤ total (after c ops) + scaled (after c ops) x
      change total c + scaled c now ≤ _ at hend
      omega

/-- Before a reading no time is returned that is after it. -/
theorem reads_notAfter {start : ℕ} (h : Sound c) (hlast : c.cycle_last ≤ start)
    (hs : Steady start c (ops ++ [Op.get now])) {t : ℤ × ℤ} (ht : t ∈ reads c ops) :
    ns t ≤ total (after c ops) + scaled (after c ops) now ∧ 0 ≤ t.2 ∧ t.2 < 1000000000 := by
  induction ops generalizing c start with
  | nil => cases ht
  | cons op ops ih =>
    rw [List.cons_append] at hs
    obtain ⟨hle, hlt, hfit, hrest⟩ := hs.head
    cases op with
    | tick now' =>
      dsimp only [Op.now] at hle hlt hrest
      obtain ⟨hsound, -, hcycle, -⟩ := h.tick (hlast.trans hle) hlt hfit
      exact ih hsound hcycle.le hrest ht
    | get now' =>
      dsimp only [Op.now] at hle hlt hrest
      have hmem : t = auGetWalltime c now' ∨ t ∈ reads c ops := List.mem_cons.mp ht
      rcases hmem with rfl | ht
      · obtain ⟨hns, hrange⟩ := h.get (hlast.trans hle) hlt hfit
        obtain ⟨hops, hall, hnow, -, -⟩ := hrest.init
        have hlater := later h (hlast.trans hle) hops hnow hall
        rw [hns]
        exact ⟨hlater, hrange⟩
      · exact ih h (hlast.trans hle) hrest ht

theorem notAfter_of_ns {t t' : ℤ × ℤ} (h : ns t ≤ ns t') (ht : 0 ≤ t.2 ∧ t.2 < 1000000000)
    (ht' : 0 ≤ t'.2 ∧ t'.2 < 1000000000) : NotAfter t t' := by
  unfold ns at h
  unfold NotAfter
  omega

/-- From whole numbers to fractions. -/
theorem near {a : ℤ} {elapsed m k : ℕ} (hlow : a * 2 ^ 32 ≤ (elapsed : ℤ) * m)
    (hhigh : (elapsed : ℤ) * m ≤ a * 2 ^ 32 + (k + 1) * (2 ^ 32 - 1)) :
    |(a : ℚ) - elapsed * (m / 2 ^ 32)| < (k : ℚ) + 1 := by
  have hlow' : (a : ℚ) * 2 ^ 32 ≤ elapsed * m := by exact_mod_cast hlow
  have hhigh' : (elapsed : ℚ) * m ≤ a * 2 ^ 32 + (k + 1) * (2 ^ 32 - 1) := by
    exact_mod_cast hhigh
  have hk : (0 : ℚ) ≤ k := Nat.cast_nonneg k
  have hle : (a : ℚ) ≤ elapsed * (m / 2 ^ 32) := by
    rw [← mul_div_assoc, le_div_iff₀ (by norm_num)]
    exact hlow'
  have hlt : (elapsed : ℚ) * (m / 2 ^ 32) < a + (k + 1) := by
    rw [← mul_div_assoc, div_lt_iff₀ (by norm_num)]
    linarith
  rw [abs_lt]
  constructor <;> linarith

theorem auroraTimerInitialize_clock (cpuFrequency raw cnt : ℕ) :
    (auroraTimerInitialize cpuFrequency raw cnt).shift = 32 ∧
      (auroraTimerInitialize cpuFrequency raw cnt).mult =
        1000000000 * 2 ^ 32 / (cpuFrequency * 10000 % 2 ^ 64) := by
  unfold auroraTimerInitialize
  dsimp only
  split_ifs <;> exact ⟨rfl, rfl⟩

/-- Where the factor is exact, the clock's period is that of the frequency. -/
theorem period_eq_nominal {cpuFrequency : ℕ} (h : c.mult =
    1000000000 * 2 ^ 32 / (cpuFrequency * 10000 % 2 ^ 64))
    (hd : cpuFrequency * 10000 % 2 ^ 64 ∣ 1000000000 * 2 ^ 32) :
    period c = nominal cpuFrequency := by
  unfold period nominal
  rw [h]
  generalize cpuFrequency * 10000 % 2 ^ 64 = hz at hd
  have hz0 : (hz : ℚ) ≠ 0 := by
    intro h0
    rw [Nat.cast_eq_zero.mp h0] at hd
    exact absurd (Nat.eq_zero_of_zero_dvd hd) (by decide)
  rw [Nat.cast_div hd hz0]
  push_cast
  field_simp
  norm_num

/-- As long as no two ticks are too far apart, a clock that was set gives times that do not go
back, with proper nanoseconds, and loses less than a nanosecond for each tick and the reading. -/
theorem exec_wallTime (cpuFrequency raw cnt' cnt : ℕ) (sec nsec : ℤ) (ops : List Op) (now : ℕ)
    (hn : 0 ≤ nsec ∧ nsec < 1000000000)
    (horder : (cnt :: (ops ++ [Op.get now]).map Op.now).Pairwise (· ≤ ·))
    (hword : ∀ op ∈ ops ++ [Op.get now], op.now < 2 ^ 64)
    (hfits : Respects Fits (fun c op => (step c op).1)
      (auSetWalltime (auroraTimerInitialize cpuFrequency raw cnt') cnt sec nsec)
      (ops ++ [Op.get now])) :
    let c := auSetWalltime (auroraTimerInitialize cpuFrequency raw cnt') cnt sec nsec
    let t := auGetWalltime (after c ops) now
    (∀ t' ∈ reads c ops, NotAfter t' t) ∧ (0 ≤ t.2 ∧ t.2 < 1000000000) ∧
      |((ns t - ns (sec, nsec) : ℤ) : ℚ) - (now - cnt : ℕ) * period c| < (ticks ops + 1 : ℚ) ∧
      (cpuFrequency * 10000 % 2 ^ 64 ∣ 1000000000 * 2 ^ 32 →
        |((ns t - ns (sec, nsec) : ℤ) : ℚ) - (now - cnt : ℕ) * nominal cpuFrequency| <
          (ticks ops + 1 : ℚ)) := by
  intro c t
  obtain ⟨hshift, hmult⟩ := auroraTimerInitialize_clock cpuFrequency raw cnt'
  have hsteady : Steady cnt c (ops ++ [Op.get now]) := ⟨horder, hword, hfits⟩
  have hstart : Behind cnt (ns (sec, nsec)) 0 c := by
    refine ⟨⟨hshift, hn.1, by change nsec < _; omega⟩, le_rfl, ?_, ?_⟩
    · change (ns (sec, nsec) - ns (sec, nsec)) * 2 ^ 32 ≤ ((cnt - cnt : ℕ) : ℤ) * c.mult
      rw [Int.sub_self, Nat.sub_self]
      simp
    · change ((cnt - cnt : ℕ) : ℤ) * c.mult ≤ (ns (sec, nsec) - ns (sec, nsec)) * 2 ^ 32 + _
      rw [Int.sub_self, Nat.sub_self]
      simp
  obtain ⟨hops, hlast, hcnt, hnow, hfit⟩ := hsteady.init
  obtain ⟨hend, hm, hcycle⟩ := hstart.run le_rfl hops
  rw [Nat.zero_add] at hend
  obtain ⟨hns, hrange⟩ := hend.sound.get (hcycle now hcnt hlast) hnow hfit
  obtain ⟨hlow, hhigh⟩ := hend.scaled (hcycle now hcnt hlast)
  rw [← hns, hm] at hlow hhigh
  have hnear : |((ns t - ns (sec, nsec) : ℤ) : ℚ) - (now - cnt : ℕ) * period c| <
      (ticks ops : ℚ) + 1 := near hlow hhigh
  refine ⟨fun t' ht' => ?_, hrange, hnear, fun hd => ?_⟩
  · obtain ⟨hle, hrange'⟩ := reads_notAfter hstart.sound le_rfl hsteady ht'
    rw [← hns] at hle
    exact notAfter_of_ns hle hrange' hrange
  · rw [← period_eq_nominal (c := c) hmult hd]
    exact hnear

/-- Set to the end of a second, with a tick and two readings. -/
theorem exec_wallTime_second :
    auGetWalltime (after (auSetWalltime (auroraTimerInitialize 10000 0 0) 50 7 999999990)
        [.get 60, .tick 70]) 80 = (8, 290) ∧
      NotAfter (8, 90) (8, 290) :=
  have h := exec_wallTime 10000 0 0 50 7 999999990 [.get 60, .tick 70] 80 (by decide) (by decide)
    (by decide) (by decide +kernel)
  have ht : auGetWalltime (after (auSetWalltime (auroraTimerInitialize 10000 0 0) 50 7 999999990)
      [.get 60, .tick 70]) 80 = (8, 290) := by decide +kernel
  ⟨ht, ht ▸ h.1 (8, 90) (by decide +kernel)⟩

/-- Nearly 4.3 seconds after the clock was set the product wraps, and the time goes back. -/
theorem not_exec_wallTime :
    ¬ ∀ (cpuFrequency raw cnt' cnt : ℕ) (sec nsec : ℤ) (ops : List Op) (now : ℕ),
      0 ≤ nsec ∧ nsec < 1000000000 →
      (cnt :: (ops ++ [Op.get now]).map Op.now).Pairwise (· ≤ ·) →
      (∀ op ∈ ops ++ [Op.get now], op.now < 2 ^ 64) →
      ∀ t ∈ reads (auSetWalltime (auroraTimerInitialize cpuFrequency raw cnt') cnt sec nsec) ops,
        NotAfter t (auGetWalltime (after
          (auSetWalltime (auroraTimerInitialize cpuFrequency raw cnt') cnt sec nsec) ops) now) := by
  intro h
  have hback := h 10000 0 0 0 0 0 [.get 429496729] 429496730 (by decide) (by decide) (by decide)
    (4, 294967290) (by decide +kernel)
  have ht : auGetWalltime (after (auSetWalltime (auroraTimerInitialize 10000 0 0) 0 0 0)
      [.get 429496729]) 429496730 = (0, 4) := by decide +kernel
  rw [ht] at hback
  unfold NotAfter at hback
  omega

end Xeneva.Hal.WallClock
