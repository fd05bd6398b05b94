import Xeneva.Base.Wildcard
import Xeneva.Shell.Script

/-!
# Patterns of the shell

A pattern is scanned with one pointer back to the last star. What a pattern stands for is told
apart from the scan: stars, question marks, brackets with ranges, and quoted letters.
-/

namespace Xeneva.Shell.Glob

open Base

/-- The order of `char`, which has a sign. -/
def charLe (a b : Char) : Bool := Int8.ofNat a.toNat ≤ Int8.ofNat b.toNat

/-- The inside of a bracket, where `first` is its beginning: whether it holds the letter, and what
follows its end, if it has one. -/
def bracketLoop (c : Char) : Bool → Bool → Text → Bool × Option Text
  | _, hit, [] => (hit, none)
  | first, hit, x :: y :: z :: q =>
    if x = ']' ∧ ¬ first then (hit, some (y :: z :: q))
    else if y = '-' ∧ z ≠ ']' then bracketLoop c false (hit || (charLe x c && charLe c z)) q
    else bracketLoop c false (hit || c = x) (y :: z :: q)
  | first, hit, x :: q =>
    -- fewer than two letters follow, so there is no range
    if x = ']' ∧ ¬ first then (hit, some q)
    else bracketLoop c false (hit || c = x) q

/-- The bracket behind `[`: whether the letter passes, and what follows. -/
def bracketStep (c : Char) (p : Text) : Option (Bool × Text) :=
  let neg := p.head? = some '!' ∨ p.head? = some '^'
  let q := if neg then p.tail else p
  match bracketLoop c true false q with
  | (hit, some rest) => some (hit ≠ decide neg, rest)
  | (_, none) => none

/-- The pattern behind the last star, and the text the star has come to. -/
abbrev Star := Option (Text × Text)

def globRetry (loop : Text → Text → Star → Option Bool) : Star → Option Bool
  | none => some false
  | some (q, ss) => loop q ss.tail (some (q, ss.tail))

/-- `n` rounds at most. -/
def globLoop : ℕ → Text → Text → Star → Option Bool
  | 0, _, _, _ => none
  | _ + 1, p, [], _ => some (p.dropWhile (· = '*')).isEmpty
  | n + 1, p, c :: s, star =>
    match p with
    | [] => globRetry (globLoop n) star
    | x :: p =>
      if x = '*' then globLoop n p (c :: s) (some (p, c :: s))
      else if x = '?' then globLoop n p s star
      else if x = '[' then
        match bracketStep c p with
        | some (ok, rest) => if ok then globLoop n rest s star else globRetry (globLoop n) star
        | none => if c = '[' then globLoop n p s star else globRetry (globLoop n) star
      else if x = '\\' ∧ p ≠ [] then
        if p.head? = some c then globLoop n p.tail s star else globRetry (globLoop n) star
      else if x = c then globLoop n p s star
      else globRetry (globLoop n) star

def globMatch (p s : Text) : Bool :=
  (globLoop (s.length * (p.length + 1) + p.length + 1) p s none).getD false

inductive Item
  | single (c : Char)
  | range (lo hi : Char)

def Item.has (c : Char) : Item → Bool
  | .single x => c = x
  | .range lo hi => charLe lo c ∧ charLe c hi

/-- The items of a bracket up to its end, at which `]` is an item as the first letter. -/
def items : Bool → Text → Option (List Item × Text)
  | _, [] => none
  | first, x :: y :: z :: q =>
    if x = ']' ∧ ¬ first then some ([], y :: z :: q)
    else if y = '-' ∧ z ≠ ']' then (items false q).map fun (is, r) => (.range x z :: is, r)
    else (items false (y :: z :: q)).map fun (is, r) => (.single x :: is, r)
  | first, x :: q =>
    if x = ']' ∧ ¬ first then some ([], q)
    else (items false q).map fun (is, r) => (.single x :: is, r)

structure Bracket where
  neg : Bool
  items : List Item
  rest : Text

def Bracket.accepts (b : Bracket) (c : Char) : Bool := b.items.any (Item.has c) ≠ b.neg

/-- The bracket behind `[`, if it has an end. -/
def bracket : Text → Option Bracket
  | '!' :: q => (items true q).map fun (is, r) => ⟨true, is, r⟩
  | '^' :: q => (items true q).map fun (is, r) => ⟨true, is, r⟩
  | q => (items true q).map fun (is, r) => ⟨false, is, r⟩

/-- A letter that stands for itself. -/
def Plain (c : Char) (p : Text) : Prop := c ≠ '*' ∧ c ≠ '?' ∧ c ≠ '[' ∧ (c = '\\' → p = [])

/-- The texts of a pattern. -/
inductive Matches : Text → Text → Prop
  | nil : Matches [] []
  | star {p s : Text} (k : ℕ) (h : Matches p (s.drop k)) : Matches ('*' :: p) s
  | any {p s : Text} (c : Char) (h : Matches p s) : Matches ('?' :: p) (c :: s)
  | set {p s : Text} {b : Bracket} {c : Char} (hb : bracket p = some b) (hc : b.accepts c = true)
      (h : Matches b.rest s) : Matches ('[' :: p) (c :: s)
  | unclosed {p s : Text} (hb : bracket p = none) (h : Matches p s) : Matches ('[' :: p) ('[' :: s)
  | quoted {p s : Text} (c : Char) (h : Matches p s) : Matches ('\\' :: c :: p) (c :: s)
  | plain {p s : Text} {c : Char} (hc : Plain c p) (h : Matches p s) : Matches (c :: p) (c :: s)

/-! ## Tokens -/

/-- The first token of a pattern, and what follows it. -/
def first : Text → Option (Token Char × Text)
  | [] => none
  | x :: p =>
    if x = '*' then some (.star, p)
    else if x = '?' then some (.one fun _ => true, p)
    else if x = '[' then
      match bracket p with
      | some b => some (.one b.accepts, b.rest)
      | none => some (.one fun c => c = '[', p)
    else if x = '\\' ∧ p ≠ [] then some (.one fun c => p.head? = some c, p.tail)
    else some (.one fun c => x = c, p)

variable {p q s r : Text} {c : Char} {n : ℕ} {is : List Item}

theorem items_short {b : Bool} {x : Char} (h : ∀ y z q', q = y :: z :: q' → False) :
    items b (x :: q) = if x = ']' ∧ ¬ b then some ([], q)
      else (items false q).map fun (is, r) => (.single x :: is, r) := by
  rcases q with - | ⟨y, - | ⟨z, q⟩⟩
  · rfl
  · rfl
  · exact absurd rfl (h y z q)

theorem bracketLoop_short {b hit : Bool} {x : Char} (h : ∀ y z q', q = y :: z :: q' → False) :
    bracketLoop c b hit (x :: q) = if x = ']' ∧ ¬ b then (hit, some q)
      else bracketLoop c false (hit || c = x) q := by
  rcases q with - | ⟨y, - | ⟨z, q⟩⟩
  · rfl
  · rfl
  · exact absurd rfl (h y z q)

theorem items_length {b : Bool} (h : items b q = some (is, r)) : r.length < q.length := by
  induction b, q using items.induct generalizing is with
  | case1 b => cases h
  | case2 b x y z q hend =>
    rw [items, if_pos hend] at h
    cases h
    exact Nat.lt_succ_self _
  | case3 b x y z q hend hrange ih =>
    rw [items, if_neg hend, if_pos hrange] at h
    obtain ⟨⟨is', r'⟩, h', he⟩ := Option.map_eq_some_iff.mp h
    cases he
    have := ih h'
    simp only [List.length_cons]
    omega
  | case4 b x y z q hend hrange ih =>
    rw [items, if_neg hend, if_neg hrange] at h
    obtain ⟨⟨is', r'⟩, h', he⟩ := Option.map_eq_some_iff.mp h
    cases he
    exact Nat.lt_succ_of_lt (ih h')
  | case5 b x q hshort hend =>
    rw [items_short hshort, if_pos hend] at h
    cases h
    exact Nat.lt_succ_self _
  | case6 b x q hshort hend ih =>
    rw [items_short hshort, if_neg hend] at h
    obtain ⟨⟨is', r'⟩, h', he⟩ := Option.map_eq_some_iff.mp h
    cases he
    exact Nat.lt_succ_of_lt (ih h')

/-- The scan of a bracket finds its end, and whether the letter is among its items. -/
theorem bracketLoop_eq (c : Char) (b hit : Bool) (q : Text) :
    (bracketLoop c b hit q).2 = (items b q).map Prod.snd ∧
      ∀ is r, items b q = some (is, r) →
        (bracketLoop c b hit q).1 = (hit || is.any (Item.has c)) := by
  induction b, q using items.induct generalizing hit with
  | case1 b => exact ⟨rfl, fun is r h => by cases h⟩
  | case2 b x y z q hend =>
    rw [items, if_pos hend, bracketLoop, if_pos hend]
    refine ⟨rfl, fun is r h => ?_⟩
    cases h
    exact (Bool.or_false hit).symm
  | case3 b x y z q hend hrange ih =>
    rw [items, if_neg hend, if_pos hrange, bracketLoop, if_neg hend, if_pos hrange]
    obtain ⟨h1, h2⟩ := ih (hit || (charLe x c && charLe c z))
    refine ⟨by rw [h1, Option.map_map]; rfl, fun is r h => ?_⟩
    obtain ⟨⟨is', r'⟩, h', he⟩ := Option.map_eq_some_iff.mp h
    cases he
    rw [h2 is' r h', List.any_cons, ← Bool.or_assoc]
    congr 2
    rw [Item.has, Bool.decide_and, Bool.decide_eq_true, Bool.decide_eq_true]
  | case4 b x y z q hend hrange ih =>
    rw [items, if_neg hend, if_neg hrange, bracketLoop, if_neg hend, if_neg hrange]
    obtain ⟨h1, h2⟩ := ih (hit || c = x)
    refine ⟨by rw [h1, Option.map_map]; rfl, fun is r h => ?_⟩
    obtain ⟨⟨is', r'⟩, h', he⟩ := Option.map_eq_some_iff.mp h
    cases he
    rw [h2 is' r h', List.any_cons, ← Bool.or_assoc]
    rfl
  | case5 b x q hshort hend =>
    rw [items_short hshort, if_pos hend, bracketLoop_short hshort, if_pos hend]
    refine ⟨rfl, fun is r h => ?_⟩
    cases h
    exact (Bool.or_false hit).symm
  | case6 b x q hshort hend ih =>
    rw [items_short hshort, if_neg hend, bracketLoop_short hshort, if_neg hend]
    obtain ⟨h1, h2⟩ := ih (hit || c = x)
    refine ⟨by rw [h1, Option.map_map]; rfl, fun is r h => ?_⟩
    obtain ⟨⟨is', r'⟩, h', he⟩ := Option.map_eq_some_iff.mp h
    cases he
    rw [h2 is' r h', List.any_cons, ← Bool.or_assoc]
    rfl

/-- Behind the mark of a negated bracket, if there is one. -/
theorem bracketLoop_items (c : Char) (neg : Bool) (q : Text) :
    (match bracketLoop c true false q with
      | (hit, some rest) => some (decide (hit ≠ neg), rest)
      | (_, none) => none) =
      ((items true q).map fun (is, r) => (⟨neg, is, r⟩ : Bracket)).map
        fun b => (b.accepts c, b.rest) := by
  obtain ⟨h1, h2⟩ := bracketLoop_eq c true false q
  cases hi : items true q with
  | none =>
    rw [hi] at h1
    generalize bracketLoop c true false q = l at h1
    obtain ⟨hit, rest⟩ := l
    cases h1
    rfl
  | some isr =>
    obtain ⟨is, r⟩ := isr
    have h2 := h2 is r hi
    rw [hi] at h1
    generalize bracketLoop c true false q = l at h1 h2
    obtain ⟨hit, rest⟩ := l
    cases h1
    cases h2
    rfl

theorem bracketStep_eq (c : Char) (p : Text) :
    bracketStep c p = (bracket p).map fun b => (b.accepts c, b.rest) := by
  rw [bracketStep]
  by_cases h1 : p.head? = some '!'
  · obtain ⟨q, rfl⟩ : ∃ q, p = '!' :: q := ⟨p.tail, List.eq_cons_of_mem_head? h1⟩
    exact bracketLoop_items c true q
  · by_cases h2 : p.head? = some '^'
    · obtain ⟨q, rfl⟩ : ∃ q, p = '^' :: q := ⟨p.tail, List.eq_cons_of_mem_head? h2⟩
      exact bracketLoop_items c true q
    · have hb : bracket p = (items true p).map fun (is, r) => ⟨false, is, r⟩ := by
        rw [bracket]
        · rintro q rfl
          exact h1 rfl
        · rintro q rfl
          exact h2 rfl
      have hneg : ¬ (p.head? = some '!' ∨ p.head? = some '^') := not_or.mpr ⟨h1, h2⟩
      simp only [if_neg hneg, decide_eq_false hneg, hb]
      exact bracketLoop_items c false p

theorem bracket_length {b : Bracket} (h : bracket p = some b) : b.rest.length < p.length := by
  have hitems : ∀ (neg : Bool) (q : Text), (items true q).map
      (fun (is, r) => (⟨neg, is, r⟩ : Bracket)) = some b → b.rest.length < q.length := by
    intro neg q hq
    obtain ⟨⟨is, r⟩, hi, rfl⟩ := Option.map_eq_some_iff.mp hq
    exact items_length hi
  rw [bracket.eq_def] at h
  split at h
  · exact Nat.lt_succ_of_lt (hitems _ _ h)
  · exact Nat.lt_succ_of_lt (hitems _ _ h)
  · exact hitems _ _ h

/-! ## The tokens of a pattern -/

theorem first_length {t : Token Char} (h : first p = some (t, q)) : q.length < p.length := by
  cases p with
  | nil => cases h
  | cons x p =>
    rw [first] at h
    split_ifs at h
    · cases h
      exact Nat.lt_succ_self _
    · cases h
      exact Nat.lt_succ_self _
    · cases hb : bracket p with
      | none =>
        rw [hb] at h
        cases h
        exact Nat.lt_succ_self _
      | some b =>
        rw [hb] at h
        cases h
        exact Nat.lt_succ_of_lt (bracket_length hb)
    · cases h
      rw [List.length_cons, List.length_tail]
      omega
    · cases h
      exact Nat.lt_succ_self _

def tokens (p : Text) : List (Token Char) :=
  match _h : first p with
  | none => []
  | some (t, q) => t :: tokens q
termination_by p.length
decreasing_by exact first_length _h

theorem tokens_nil : tokens [] = [] := by
  rw [tokens]
  rfl

theorem tokens_of_first {t : Token Char} (h : first p = some (t, q)) :
    tokens p = t :: tokens q := by
  rw [tokens]
  split
  · rename_i h'
    rw [h] at h'
    cases h'
  · rename_i h'
    rw [h] at h'
    cases h'
    rfl

theorem tokens_length (p : Text) : (tokens p).length ≤ p.length := by
  induction hn : p.length using Nat.strong_induction_on generalizing p with
  | _ n ih =>
    cases h : first p with
    | none =>
      rw [tokens]
      split
      · exact Nat.zero_le _
      · rename_i h'
        rw [h] at h'
        cases h'
    | some tq =>
      obtain ⟨t, q⟩ := tq
      have hlt := first_length h
      rw [tokens_of_first h, List.length_cons]
      have := ih q.length (hn ▸ hlt) q rfl
      omega

theorem first_isSome (x : Char) (p : Text) : ∃ t q, first (x :: p) = some (t, q) := by
  rw [first]
  split_ifs
  · exact ⟨_, _, rfl⟩
  · exact ⟨_, _, rfl⟩
  · cases bracket p <;> exact ⟨_, _, rfl⟩
  · exact ⟨_, _, rfl⟩
  · exact ⟨_, _, rfl⟩

/-- Only stars stand for the empty text. -/
theorem tokens_all_star (p : Text) :
    (tokens p).all Token.isStar = (p.dropWhile (· = '*')).isEmpty := by
  induction p with
  | nil =>
    rw [tokens_nil]
    rfl
  | cons x p ih =>
    by_cases hx : x = '*'
    · subst hx
      rw [tokens_of_first (t := .star) (q := p) rfl, List.all_cons, ih]
      rfl
    · have hone : ∃ ok q, first (x :: p) = some (.one ok, q) := by
        rw [first, if_neg hx]
        split_ifs
        · exact ⟨_, _, rfl⟩
        · cases bracket p <;> exact ⟨_, _, rfl⟩
        · exact ⟨_, _, rfl⟩
        · exact ⟨_, _, rfl⟩
      obtain ⟨ok, q, hf⟩ := hone
      rw [tokens_of_first hf, List.dropWhile_cons_of_neg (by simpa using hx)]
      rfl

/-- The scan of the pattern is the scan of its tokens. -/
theorem globLoop_eq (n : ℕ) (p s : Text) (star : Star) : globLoop n p s star =
    scan n (tokens p) s (star.map fun (q, ss) => (tokens q, ss)) := by
  induction n generalizing p s star with
  | zero => rw [globLoop, scan]
  | succ n ih =>
    cases s with
    | nil => rw [globLoop, scan, tokens_all_star]
    | cons c s =>
      have hretry : globRetry (globLoop n) star =
          retry (scan n) (star.map fun (q, ss) => (tokens q, ss)) := by
        cases star with
        | none => rfl
        | some qs => exact ih _ _ _
      cases p with
      | nil => rw [globLoop, tokens_nil, scan, hretry]
      | cons x p =>
        rw [globLoop]
        by_cases h1 : x = '*'
        · rw [if_pos h1, tokens_of_first (t := .star) (q := p) (by rw [first, if_pos h1]), scan, ih]
          rfl
        rw [if_neg h1]
        by_cases h2 : x = '?'
        · rw [if_pos h2, tokens_of_first (t := .one fun _ => true) (q := p)
            (by rw [first, if_neg h1, if_pos h2]), scan, ih]
          rfl
        rw [if_neg h2]
        by_cases h3 : x = '['
        · rw [if_pos h3, bracketStep_eq]
          cases hb : bracket p with
          | none =>
            rw [tokens_of_first (t := .one fun c => c = '[') (q := p)
              (by rw [first, if_neg h1, if_neg h2, if_pos h3, hb]), scan, ← ih, ← hretry]
            simp only [Option.map_none, decide_eq_true_eq]
          | some b =>
            rw [tokens_of_first (t := .one b.accepts) (q := b.rest)
              (by rw [first, if_neg h1, if_neg h2, if_pos h3, hb]), scan, ← ih, ← hretry]
            rfl
        rw [if_neg h3]
        by_cases h4 : x = '\\' ∧ p ≠ []
        · rw [if_pos h4, tokens_of_first (t := .one fun c => p.head? = some c) (q := p.tail)
            (by rw [first, if_neg h1, if_neg h2, if_neg h3, if_pos h4]), scan, ← ih, ← hretry]
          simp only [decide_eq_true_eq]
        · rw [if_neg h4, tokens_of_first (t := .one fun c => x = c) (q := p)
            (by rw [first, if_neg h1, if_neg h2, if_neg h3, if_neg h4]), scan, ← ih, ← hretry]
          simp only [decide_eq_true_eq]

/-- The rounds are enough. -/
theorem globLoop_ends (p s : Text) {n : ℕ} (hn : s.length * (p.length + 1) + p.length < n) :
    ∃ b, globLoop n p s none = some b ∧ (b = true ↔ Denotes (tokens p) s) := by
  have hlen := tokens_length p
  rw [globLoop_eq]
  have hsome : (scan n (tokens p) s none).isSome = true := by
    apply scan_isSome hlen (fun q ss h => by cases h) (Nat.le_refl _)
    rw [starLength]
    omega
  obtain ⟨b, hb⟩ := Option.isSome_iff_exists.mp hsome
  refine ⟨b, hb, ?_⟩
  rw [scan_iff (fun q ss h => by cases h) hb]
  exact or_iff_left later_none

/-! ## The result of the scan -/

/-- A text of one token and of the pattern behind it. -/
def Reads (q s : Text) : Token Char → Prop
  | .star => ∃ k, Matches q (s.drop k)
  | .one ok => ∃ c r, s = c :: r ∧ ok c = true ∧ Matches q r

/-- The first token is what the first rule of the language reads. -/
theorem matches_iff_reads {t : Token Char} (h : first p = some (t, q)) :
    Matches p s ↔ Reads q s t := by
  cases p with
  | nil => cases h
  | cons x p =>
    rw [first] at h
    by_cases h1 : x = '*'
    · rw [if_pos h1] at h
      cases h
      subst h1
      constructor
      · intro hm
        cases hm with
        | star k hk => exact ⟨k, hk⟩
        | plain hc _ => exact absurd rfl hc.1
      · rintro ⟨k, hk⟩
        exact .star k hk
    rw [if_neg h1] at h
    by_cases h2 : x = '?'
    · rw [if_pos h2] at h
      cases h
      subst h2
      constructor
      · intro hm
        cases hm with
        | any c hr => exact ⟨c, _, rfl, rfl, hr⟩
        | plain hc _ => exact absurd rfl hc.2.1
      · rintro ⟨c, r, rfl, -, hr⟩
        exact .any c hr
    rw [if_neg h2] at h
    by_cases h3 : x = '['
    · rw [if_pos h3] at h
      subst h3
      cases hb : bracket p with
      | none =>
        rw [hb] at h
        cases h
        constructor
        · intro hm
          cases hm with
          | set hb' _ _ => exact absurd (hb.symm.trans hb') (by simp)
          | unclosed _ hr => exact ⟨'[', _, rfl, rfl, hr⟩
          | plain hc _ => exact absurd rfl hc.2.2.1
        · rintro ⟨c, r, rfl, hc, hr⟩
          rw [decide_eq_true_eq] at hc
          rw [hc]
          exact .unclosed hb hr
      | some b =>
        rw [hb] at h
        cases h
        constructor
        · intro hm
          cases hm with
          | set hb' hc hr =>
            cases hb.symm.trans hb'
            exact ⟨_, _, rfl, hc, hr⟩
          | unclosed hb' _ => exact absurd (hb.symm.trans hb') (by simp)
          | plain hc _ => exact absurd rfl hc.2.2.1
        · rintro ⟨c, r, rfl, hc, hr⟩
          exact .set hb hc hr
    rw [if_neg h3] at h
    by_cases h4 : x = '\\' ∧ p ≠ []
    · rw [if_pos h4] at h
      cases h
      obtain ⟨rfl, hp⟩ := h4
      obtain ⟨y, p', rfl⟩ := List.exists_cons_of_ne_nil hp
      constructor
      · intro hm
        cases hm with
        | quoted c hr => exact ⟨_, _, rfl, by simp, hr⟩
        | plain hc _ => exact absurd (hc.2.2.2 rfl) hp
      · rintro ⟨c, r, rfl, hc, hr⟩
        have hyc : y = c := by simpa using hc
        rw [hyc]
        exact .quoted c hr
    · rw [if_neg h4] at h
      cases h
      have hplain : Plain x q := ⟨h1, h2, h3, fun hx => by_contra fun hp => h4 ⟨hx, hp⟩⟩
      constructor
      · intro hm
        cases hm with
        | star => exact absurd rfl h1
        | any => exact absurd rfl h2
        | set => exact absurd rfl h3
        | unclosed => exact absurd rfl h3
        | quoted => exact absurd ⟨rfl, List.cons_ne_nil _ _⟩ h4
        | plain _ hr => exact ⟨_, _, rfl, by simp, hr⟩
      · rintro ⟨c, r, rfl, hc, hr⟩
        rw [decide_eq_true_eq] at hc
        rw [← hc]
        exact .plain hplain hr

theorem matches_iff (p s : Text) : Matches p s ↔ Denotes (tokens p) s := by
  induction hn : p.length using Nat.strong_induction_on generalizing p s with
  | _ n ih =>
    cases p with
    | nil =>
      rw [tokens_nil]
      constructor
      · intro h
        cases h
        rfl
      · intro h
        cases h
        exact .nil
    | cons x p =>
      obtain ⟨t, q, hf⟩ := first_isSome x p
      have hq : ∀ r, Matches q r ↔ Denotes (tokens q) r :=
        fun r => ih q.length (hn ▸ first_length hf) q r rfl
      rw [matches_iff_reads hf, tokens_of_first hf]
      cases t with
      | star => exact exists_congr fun k => hq _
      | one ok =>
        simp only [Reads, hq]
        constructor
        · rintro ⟨c, r, rfl, h⟩
          exact h
        · intro h
          cases s with
          | nil => exact absurd h id
          | cons c r => exact ⟨c, r, rfl, h⟩

/-- The scan comes to an end. -/
theorem globLoop_eq_globMatch (p s : Text) {n : ℕ} (hn : s.length * (p.length + 1) + p.length < n) :
    globLoop n p s none = some (globMatch p s) := by
  obtain ⟨b, hb, hd⟩ := globLoop_ends p s hn
  obtain ⟨b', hb', hd'⟩ := globLoop_ends p s (Nat.lt_succ_self _)
  rw [hb, globMatch, hb', Option.getD_some, Bool.eq_iff_iff.mpr (hd.trans hd'.symm)]

theorem globMatch_iff (p s : Text) : globMatch p s = true ↔ Matches p s := by
  obtain ⟨b, hb, hd⟩ := globLoop_ends p s (Nat.lt_succ_self _)
  rw [matches_iff, ← hd, globMatch, hb, Option.getD_some]

end Xeneva.Shell.Glob
