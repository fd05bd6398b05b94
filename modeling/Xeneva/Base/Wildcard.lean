import Mathlib

/-!
# Wildcard patterns

A pattern is a list of tokens: a star stands for any text, and every other token for one letter
of a kind. The scan remembers the last star only and, at a mismatch, lets that star take one
letter more.
-/

namespace Xeneva.Base

inductive Token (α : Type*)
  | star
  | one (ok : α → Bool)

variable {α : Type*}

def Token.isStar : Token α → Bool
  | .star => true
  | .one _ => false

/-- The texts that a pattern stands for. -/
def Denotes : List (Token α) → List α → Prop
  | [], s => s = []
  | .star :: p, s => ∃ k, Denotes p (s.drop k)
  | .one _ :: _, [] => False
  | .one ok :: p, c :: s => ok c = true ∧ Denotes p s

/-- What follows the last star, and the text from where that star has given up on. -/
abbrev LastStar (α : Type*) := Option (List (Token α) × List α)

/-- The last star takes one letter more. -/
def retry (scan : List (Token α) → List α → LastStar α → Option Bool) : LastStar α → Option Bool
  | none => some false
  | some (q, ss) => scan q ss.tail (some (q, ss.tail))

/-- The scan, `n` steps at most. -/
def scan : ℕ → List (Token α) → List α → LastStar α → Option Bool
  | 0, _, _, _ => none
  | _ + 1, p, [], _ => some (p.all Token.isStar)
  | n + 1, .star :: p, c :: s, _ => scan n p (c :: s) (some (p, c :: s))
  | n + 1, .one ok :: p, c :: s, star => if ok c then scan n p s star else retry (scan n) star
  | n + 1, [], _ :: _, star => retry (scan n) star

variable {p q : List (Token α)} {s ss : List α} {n l : ℕ} {c : α} {ok : α → Bool}
variable {star : LastStar α}

theorem denotes_nil : Denotes p ([] : List α) ↔ p.all Token.isStar = true := by
  induction p with
  | nil => exact ⟨fun _ => rfl, fun _ => rfl⟩
  | cons t p ih =>
    cases t with
    | star =>
      rw [Denotes, List.all_cons, Token.isStar, Bool.true_and, ← ih]
      constructor
      · rintro ⟨k, hk⟩
        rwa [List.drop_nil] at hk
      · intro h
        exact ⟨0, h⟩
    | one ok => exact ⟨False.elim, fun h => absurd h Bool.false_ne_true⟩

/-- A star takes no letter, or one and goes on. -/
theorem denotes_star : Denotes (.star :: p) s ↔ Denotes p s ∨ ∃ k, Denotes p (s.tail.drop k) := by
  constructor
  · rintro ⟨k, hk⟩
    cases k with
    | zero => exact .inl hk
    | succ k => exact .inr ⟨k, by rwa [← List.drop_one, List.drop_drop, Nat.add_comm]⟩
  · rintro (h | ⟨k, hk⟩)
    · exact ⟨0, h⟩
    · exact ⟨1 + k, by rwa [← List.drop_drop, List.drop_one]⟩

/-- Tokens of one letter each take as many letters. -/
theorem denotes_append (ts : List (α → Bool)) (h : Denotes (ts.map Token.one ++ p) s) :
    ts.length ≤ s.length ∧ Denotes p (s.drop ts.length) := by
  induction ts generalizing s with
  | nil => exact ⟨Nat.zero_le _, h⟩
  | cons t ts ih =>
    cases s with
    | nil => exact absurd h id
    | cons c s =>
      obtain ⟨h1, h2⟩ := ih h.2
      exact ⟨Nat.succ_le_succ h1, h2⟩

/-! ## The scan -/

/-- The scan between two retries: since the star, every letter was taken by a token. -/
structure Scanning (p : List (Token α)) (s : List α) (q : List (Token α)) (ss : List α) : Prop where
  tokens : ∃ ts : List (α → Bool), q = ts.map Token.one ++ p ∧ s = ss.drop ts.length ∧
    ss.length = ts.length + s.length

theorem Scanning.start (p : List (Token α)) (s : List α) : Scanning p s p s :=
  ⟨[], rfl, rfl, (Nat.zero_add _).symm⟩

theorem Scanning.step (h : Scanning (.one ok :: p) (c :: s) q ss) : Scanning p s q ss := by
  obtain ⟨ts, hq, hs, hl⟩ := h.tokens
  refine ⟨ts ++ [ok], ?_, ?_, ?_⟩
  · rw [hq, List.map_append, List.append_assoc]
    rfl
  · rw [List.length_append, ← List.drop_drop, ← hs]
    rfl
  · rw [hl, List.length_append, List.length_cons, List.length_singleton]
    omega

/-- What the scan has passed since the star, a later text has to pass as well. -/
theorem Scanning.drop (h : Scanning p s q ss) {k : ℕ} (hd : Denotes q (ss.tail.drop k)) :
    Denotes p (s.drop (1 + k)) ∧ (s = [] → ss = []) := by
  obtain ⟨ts, rfl, rfl, hl⟩ := h.tokens
  obtain ⟨hle, hp⟩ := denotes_append ts hd
  have hsame : (ss.tail.drop k).drop ts.length = (ss.drop ts.length).drop (1 + k) := by
    rw [← List.drop_one, List.drop_drop, List.drop_drop, List.drop_drop]
    congr 1
    omega
  refine ⟨hsame ▸ hp, ?_⟩
  intro he
  rw [he, List.length_nil, Nat.add_zero] at hl
  rw [List.length_drop, List.length_tail] at hle
  exact List.eq_nil_of_length_eq_zero (by omega)

/-- Whether a retry of the star can still succeed. -/
def Later (star : LastStar α) : Prop :=
  ∃ q ss, star = some (q, ss) ∧ ∃ k, Denotes q (ss.tail.drop k)

theorem later_none : ¬ Later (none : LastStar α) := by
  rintro ⟨q, ss, h, -⟩
  cases h

theorem later_some : Later (some (q, ss)) ↔ ∃ k, Denotes q (ss.tail.drop k) := by
  constructor
  · rintro ⟨q', ss', h, hk⟩
    cases h
    exact hk
  · exact fun h => ⟨q, ss, rfl, h⟩

/-- A retry, one letter further. -/
theorem later_iff : Later (some (q, ss)) ↔ Denotes q ss.tail ∨ Later (some (q, ss.tail)) := by
  rw [later_some, later_some]
  constructor
  · rintro ⟨k, hk⟩
    cases k with
    | zero => exact .inl hk
    | succ k => exact .inr ⟨k, by rwa [← List.drop_one, List.drop_drop, Nat.add_comm]⟩
  · rintro (h | ⟨k, hk⟩)
    · exact ⟨0, h⟩
    · exact ⟨1 + k, by rwa [← List.drop_drop, List.drop_one]⟩

/-- A result of the scan is right: the text from here on, or a retry. -/
theorem scan_iff {b : Bool} (hq : ∀ q ss, star = some (q, ss) → Scanning p s q ss)
    (h : scan n p s star = some b) : b = true ↔ Denotes p s ∨ Later star := by
  induction n generalizing p s star with
  | zero => cases h
  | succ n ih =>
    cases s with
    | nil =>
      rw [scan] at h
      rw [← Option.some.inj h, ← denotes_nil]
      refine ⟨.inl, fun hd => hd.elim id ?_⟩
      rintro ⟨q, ss, hstar, k, hk⟩
      have hd := ((hq q ss hstar).drop hk).1
      rwa [List.drop_nil] at hd
    | cons c s =>
      have hretry : retry (scan n) star = some b → ¬ Denotes p (c :: s) →
          (b = true ↔ Denotes p (c :: s) ∨ Later star) := by
        intro hr hp
        cases star with
        | none =>
          rw [← Option.some.inj hr]
          constructor
          · exact fun h => absurd h Bool.false_ne_true
          · exact fun h => absurd h (not_or.mpr ⟨hp, later_none⟩)
        | some qs =>
          obtain ⟨q, ss⟩ := qs
          have hnew := ih (fun q' ss' he => by cases he; exact Scanning.start q ss.tail) hr
          rw [hnew, ← later_iff]
          exact ⟨.inr, fun h => h.resolve_left hp⟩
      cases p with
      | nil => exact hretry h (List.cons_ne_nil c s)
      | cons t p =>
        cases t with
        | star =>
          have hnew := ih (fun q' ss' he => by cases he; exact Scanning.start p (c :: s)) h
          rw [hnew, later_some, denotes_star]
          refine ⟨.inl, fun hd => hd.elim id ?_⟩
          rintro ⟨q, ss, hstar, k, hk⟩
          exact denotes_star.mp (by
            obtain ⟨j, hj⟩ := ((hq q ss hstar).drop hk).1
            exact ⟨1 + k + j, by rwa [← List.drop_drop]⟩)
        | one ok =>
          rw [scan] at h
          by_cases hc : ok c = true
          · rw [if_pos hc] at h
            rw [ih (fun q ss hstar => (hq q ss hstar).step) h]
            exact or_congr_left ⟨fun hd => ⟨hc, hd⟩, And.right⟩
          · rw [if_neg hc] at h
            exact hretry h fun hd => hc hd.1

/-- The length of the text from where the star has given up on. -/
def starLength (s : List α) : LastStar α → ℕ
  | none => s.length
  | some (_, ss) => ss.length

/-- The scan ends: a retry makes the text of the star shorter, every other step the pattern. -/
theorem scan_isSome (hp : p.length ≤ l) (hq : ∀ q ss, star = some (q, ss) → q.length ≤ l)
    (hs : s.length ≤ starLength s star) (hn : starLength s star * (l + 1) + p.length < n) :
    (scan n p s star).isSome = true := by
  induction n generalizing p s star with
  | zero => exact absurd hn (Nat.not_lt_zero _)
  | succ n ih =>
    cases s with
    | nil => rfl
    | cons c s =>
      have hretry : (retry (scan n) star).isSome = true := by
        cases star with
        | none => rfl
        | some qs =>
          obtain ⟨q, ss⟩ := qs
          have hql := hq q ss rfl
          rw [starLength, List.length_cons] at hs
          have hss : ss.length = ss.tail.length + 1 := by
            rw [List.length_tail]
            omega
          apply ih hql (fun q' ss' he => by cases he; exact hql) (Nat.le_refl _)
          rw [starLength, hss, Nat.add_mul, Nat.one_mul] at hn
          rw [starLength]
          omega
      cases p with
      | nil => exact hretry
      | cons t p =>
        rw [List.length_cons] at hp hn
        cases t with
        | star =>
          apply ih (by omega) (fun q' ss' he => by cases he; omega) (Nat.le_refl _)
          have := Nat.mul_le_mul_right (l + 1) hs
          rw [starLength]
          omega
        | one ok =>
          rw [scan]
          by_cases hc : ok c = true
          · rw [if_pos hc]
            rw [List.length_cons] at hs
            apply ih (by omega) hq
            · cases star with
              | none => exact Nat.le_refl _
              | some qs => exact Nat.le_of_succ_le hs
            · cases star with
              | none =>
                rw [starLength, List.length_cons, Nat.add_mul] at hn
                rw [starLength]
                omega
              | some qs =>
                rw [starLength] at hn ⊢
                omega
          · rw [if_neg hc]
            exact hretry

end Xeneva.Base
