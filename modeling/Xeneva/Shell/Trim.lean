import Xeneva.Shell.Glob

/-!
# Trimming of parameter values

Of the expansions in braces, those that cut a part off a value: the part is looked for at every
place of the value, in arrays of 256 bytes.
-/

namespace Xeneva.Shell.Glob

def isDig (c : Char) : Bool := '0' ≤ c ∧ c ≤ '9'

def isIdC (c : Char) : Bool := ('a' ≤ c ∧ c ≤ 'z') ∨ ('A' ≤ c ∧ c ≤ 'Z') ∨ c = '_' ∨ isDig c

def isSpecial (c : Char) : Bool := c = '?' ∨ c = '#' ∨ c = '@' ∨ c = '*' ∨ c = '$'

def atoi (s : Text) : BitVec 32 :=
  s.foldl (fun n c => 10 * n + BitVec.ofNat 32 (c.toNat - '0'.toNat)) 0

def fmtI64 (v : BitVec 64) : Text := (toString v.toInt).toList

/-- What the names of parameters stand for. -/
structure Env where
  status : BitVec 64
  posCount : BitVec 64
  posArg : BitVec 32 → Option Text
  varGet : Text → Option Text

/-- What an expansion adds to the word. -/
inductive Expansion
  | nothing
  | put (s : Text) (quoted : Bool)
  /-- The word is expanded, assigned to the variable, if there is one, and added. -/
  | word (w : Text) (set : Option Text) (quoted : Bool)

def scanName : Text → Text
  | [] => []
  | c :: p =>
    if isDig c then ((c :: p).takeWhile isDig).take 31
    else if isSpecial c then [c]
    else ((c :: p).takeWhile isIdC).take 31

def paramValue (env : Env) : Text → Option Text
  | '?' :: _ => some (fmtI64 env.status)
  | '#' :: _ => some (fmtI64 env.posCount)
  | '$' :: _ => some ['1']
  | [] => env.varGet []
  | c :: name => if isDig c then env.posArg (atoi (c :: name)) else env.varGet (c :: name)

/-- The first place from 0 to `n` that passes, from the left or from the right. -/
def search (up : Bool) (n : ℕ) (f : ℕ → Bool) : Option ℕ :=
  (if up then List.range (n + 1) else (List.range (n + 1)).reverse).find? f

def trim (op : Char) (longest : Bool) (pat val : Text) : Text :=
  if op = '%' then
    let found := (search longest val.length fun i => globMatch pat (val.drop i)).getD val.length
    let cut := val.take 255
    if found < 256 then cut.take found else cut
  else
    -- `sub` holds the first `i` bytes, which it cannot from 256 on
    let found := (search (!longest) val.length fun i =>
      i < 256 && globMatch pat (val.take i)).getD 0
    val.drop found

def exOp (val : Option Text) (name p : Text) (q : Bool) : Expansion :=
  let colon := p.head? = some ':'
  let p := if colon then p.tail else p
  let op := p.headD '\x00'
  if op = '-' ∨ op = '=' ∨ op = '+' then
    let unset := val = none ∨ (colon ∧ val = some [])
    if op = '+' then
      if unset then .nothing else .word p.tail none q
    else if unset then
      let sets := op = '=' ∧ name ≠ [] ∧ ¬ isDig (name.headD '\x00')
      .word p.tail (if sets then some name else none) q
    else .put (val.getD []) q
  else
    match val with
    | none => .nothing
    | some val =>
      if op = '%' ∨ op = '#' then
        let longest := p.tail.head? = some op
        .put (trim op longest (p.drop (if longest then 2 else 1)) val) q
      else .put val q

def exBrace (env : Env) (text : Text) (q : Bool) : Expansion :=
  let inner := text.take 1023
  let lenOp := inner.head? = some '#' ∧ inner.tail ≠ []
  let p := if lenOp then inner.tail else inner
  let name := scanName p
  let rest := p.drop name.length
  let val := paramValue env name
  if lenOp then .put (fmtI64 (BitVec.ofNat 64 ((val.map List.length).getD 0))) true
  else if rest = [] then (val.map fun v => Expansion.put v q).getD .nothing
  else exOp val name rest q

/-- The end of the value that is cut off. -/
inductive Side
  | front
  | back

def Side.op : Side → Char
  | .front => '#'
  | .back => '%'

/-- A value is the part `r` at one end of it, and what is left. -/
def Side.Splits (val r out : Text) : Side → Prop
  | .front => val = r ++ out
  | .back => val = out ++ r

/-- The value without its longest or shortest part that passes, or as it is when none does. -/
def Without (ok : Text → Prop) (side : Side) (longest : Bool) (val out : Text) : Prop :=
  (∃ r, side.Splits val r out ∧ ok r ∧ ∀ r' out', side.Splits val r' out' → ok r' →
    if longest then r'.length ≤ r.length else r.length ≤ r'.length) ∨
  (out = val ∧ ∀ r out', side.Splits val r out' → ¬ ok r)

/-- The value without the part that the pattern stands for. -/
def Trimmed (p : Text) : Side → Bool → Text → Text → Prop := Without (Matches p)

/-- The length of what an array of 256 bytes has to hold. -/
def Side.held (val out : Text) : Side → ℕ
  | .front => val.length - out.length
  | .back => out.length

/-- What arrays of 256 bytes make of it. -/
def TrimmedHeld (p : Text) : Side → Bool → Text → Text → Prop
  | .front, longest, val, out =>
    Without (fun r => r.length < 256 ∧ Matches p r) .front longest val out
  | .back, longest, val, out => ∃ out', Trimmed p .back longest val out' ∧ out = out'.take 255

variable {p val out out' : Text} {side : Side} {longest : Bool} {ok : Text → Prop} {f : ℕ → Bool}
variable {env : Env} {name : Text} {q : Bool} {n d : ℕ}

/-! ## Searching for the place -/

theorem search_spec (up : Bool) (n d : ℕ) (f : ℕ → Bool) :
    (f ((search up n f).getD d) = true ∧ (search up n f).getD d ≤ n ∧ ∀ j ≤ n, f j = true →
      if up then (search up n f).getD d ≤ j else j ≤ (search up n f).getD d) ∨
    ((search up n f).getD d = d ∧ ∀ j ≤ n, ¬ f j = true) := by
  cases hs : search up n f with
  | none =>
    right
    refine ⟨rfl, fun j hj => ?_⟩
    rw [search, List.find?_eq_none] at hs
    apply hs j
    cases up with
    | true => exact List.mem_range.mpr (Nat.lt_succ_of_le hj)
    | false => exact List.mem_reverse.mpr (List.mem_range.mpr (Nat.lt_succ_of_le hj))
  | some i =>
    left
    rw [Option.getD_some]
    cases up with
    | true =>
      obtain ⟨hf, hi, hlt⟩ := List.find?_range_eq_some.mp hs
      refine ⟨hf, Nat.le_of_lt_succ (List.mem_range.mp hi), fun j _ hj => ?_⟩
      by_contra hji
      have := hlt j (Nat.lt_of_not_le hji)
      rw [hj] at this
      cases this
    | false =>
      obtain ⟨hf, as, bs, hab, hno⟩ := List.find?_eq_some_iff_append.mp hs
      have hsplit : List.range (n + 1) = bs.reverse ++ i :: as.reverse := by
        rw [← List.reverse_reverse (List.range (n + 1))]
        simp only [Bool.false_eq_true, if_false] at hab
        rw [hab, List.reverse_append, List.reverse_cons, List.append_assoc]
        rfl
      have hsorted : (bs.reverse ++ i :: as.reverse).Pairwise (· < ·) :=
        hsplit ▸ List.pairwise_lt_range
      have hmem : ∀ j ≤ n, j ∈ bs.reverse ++ i :: as.reverse := fun j hj =>
        hsplit ▸ List.mem_range.mpr (Nat.lt_succ_of_le hj)
      refine ⟨hf, ?_, fun j hjn hj => ?_⟩
      · have : i ∈ List.range (n + 1) := by
          rw [hsplit]
          simp
        exact Nat.le_of_lt_succ (List.mem_range.mp this)
      · have hin := hmem j hjn
        rw [List.mem_append, List.mem_cons] at hin
        rcases hin with hb | rfl | ha
        · exact Nat.le_of_lt ((List.pairwise_append.mp hsorted).2.2 j hb i List.mem_cons_self)
        · exact Nat.le_refl _
        · have := hno j (List.mem_reverse.mp ha)
          rw [hj] at this
          cases this

/-- The right value from the place that is found first. -/
theorem without_front (hf : ∀ i ≤ val.length, f i = true ↔ ok (val.take i)) :
    Without ok .front longest val (val.drop ((search (!longest) val.length f).getD 0)) := by
  have hsplits : ∀ r out', Side.front.Splits val r out' → r.length ≤ val.length ∧
      val.take r.length = r := by
    rintro r out' (h : val = r ++ out')
    rw [h, List.length_append]
    exact ⟨Nat.le_add_right _ _, List.take_left⟩
  rcases search_spec (!longest) val.length 0 f with ⟨h1, h2, h3⟩ | ⟨h1, h2⟩
  · left
    refine ⟨_, (List.take_append_drop _ val).symm, (hf _ h2).mp h1, fun r' out' hs hr' => ?_⟩
    obtain ⟨hle, htake⟩ := hsplits r' out' hs
    have := h3 r'.length hle ((hf _ hle).mpr (htake.symm ▸ hr'))
    rw [List.length_take, Nat.min_eq_left h2]
    cases longest
    · exact this
    · exact this
  · right
    refine ⟨by rw [h1, List.drop_zero], fun r out' hs hr => ?_⟩
    obtain ⟨hle, htake⟩ := hsplits r out' hs
    exact h2 r.length hle ((hf _ hle).mpr (htake.symm ▸ hr))

theorem without_back (hf : ∀ i ≤ val.length, f i = true ↔ ok (val.drop i)) :
    Without ok .back longest val (val.take ((search longest val.length f).getD val.length)) := by
  have hsplits : ∀ r out', Side.back.Splits val r out' →
      val.length = out'.length + r.length ∧ val.drop out'.length = r := by
    rintro r out' (h : val = out' ++ r)
    rw [h, List.length_append]
    exact ⟨rfl, List.drop_left⟩
  rcases search_spec longest val.length val.length f with ⟨h1, h2, h3⟩ | ⟨h1, h2⟩
  · left
    refine ⟨_, (List.take_append_drop _ val).symm, (hf _ h2).mp h1, fun r' out' hs hr' => ?_⟩
    obtain ⟨hlen, hdrop⟩ := hsplits r' out' hs
    have hle : out'.length ≤ val.length := by omega
    have := h3 out'.length hle ((hf _ hle).mpr (hdrop.symm ▸ hr'))
    rw [List.length_drop]
    cases longest
    · simp only [Bool.false_eq_true, if_false] at this ⊢
      omega
    · simp only [if_true] at this ⊢
      omega
  · right
    refine ⟨by rw [h1, List.take_length], fun r out' hs hr => ?_⟩
    obtain ⟨hlen, hdrop⟩ := hsplits r out' hs
    have hle : out'.length ≤ val.length := by omega
    exact h2 out'.length hle ((hf _ hle).mpr (hdrop.symm ▸ hr))

theorem Side.Splits.eq_of_length {r r' : Text} (h : side.Splits val r out)
    (h' : side.Splits val r' out') (hl : r.length = r'.length) : out = out' := by
  cases side with
  | front => exact (List.append_inj ((Eq.symm h).trans h') hl).2
  | back =>
    have hlen := congrArg List.length ((Eq.symm h).trans h')
    rw [List.length_append, List.length_append] at hlen
    exact (List.append_inj ((Eq.symm h).trans h') (by omega)).1

/-- There is one such value. -/
theorem Without.unique (h : Without ok side longest val out)
    (h' : Without ok side longest val out') : out = out' := by
  rcases h with ⟨r, hs, hr, hbest⟩ | ⟨rfl, hno⟩
  · rcases h' with ⟨r', hs', hr', hbest'⟩ | ⟨rfl, hno⟩
    · apply hs.eq_of_length hs'
      have h1 := hbest r' out' hs' hr'
      have h2 := hbest' r out hs hr
      cases longest
      · exact Nat.le_antisymm h1 h2
      · exact Nat.le_antisymm h2 h1
    · exact absurd hr (hno r out hs)
  · rcases h' with ⟨r', hs', hr', -⟩ | ⟨rfl, -⟩
    · exact absurd hr' (hno r' out' hs')
    · rfl

theorem trimmed_exists (p : Text) (side : Side) (longest : Bool) (val : Text) :
    ∃ out, Trimmed p side longest val out := by
  cases side with
  | front =>
    exact ⟨_, without_front (f := fun i => globMatch p (val.take i)) fun i _ => globMatch_iff p _⟩
  | back =>
    exact ⟨_, without_back (f := fun i => globMatch p (val.drop i)) fun i _ => globMatch_iff p _⟩

theorem trim_front (longest : Bool) (p val : Text) :
    Without (fun r => r.length < 256 ∧ Matches p r) .front longest val
      (trim '#' longest p val) := by
  apply without_front
  intro i hi
  rw [Bool.and_eq_true, decide_eq_true_eq, globMatch_iff, List.length_take, Nat.min_eq_left hi]

theorem trim_back (h : Trimmed p .back longest val out) :
    trim '%' longest p val = out.take 255 := by
  have hout : out = _ := Without.unique h
    (without_back (f := fun i => globMatch p (val.drop i)) fun i _ => globMatch_iff p _)
  rw [trim, if_pos rfl, hout]
  simp only
  split_ifs with hlt
  · rw [List.take_take, List.take_take, Nat.min_comm]
  · rw [List.take_take, Nat.min_eq_left (by omega)]

theorem trim_iff (side : Side) (longest : Bool) (p val out : Text) :
    trim side.op longest p val = out ↔ TrimmedHeld p side longest val out := by
  cases side with
  | front =>
    constructor
    · rintro rfl
      exact trim_front longest p val
    · exact fun h => (trim_front longest p val).unique h
  | back =>
    obtain ⟨out', h⟩ := trimmed_exists p .back longest val
    rw [Side.op, trim_back h]
    constructor
    · rintro rfl
      exact ⟨out', h, rfl⟩
    · rintro ⟨out'', h', rfl⟩
      rw [Without.unique h h']

/-- The right value is found when the arrays hold what they have to. -/
theorem trimmedHeld_iff (h : Trimmed p side longest val out) :
    TrimmedHeld p side longest val out ↔ side.held val out < 256 := by
  cases side with
  | front =>
    have hlen : ∀ r, Side.front.Splits val r out → Side.front.held val out = r.length := by
      rintro r (hs : val = r ++ out)
      rw [Side.held, hs, List.length_append, Nat.add_sub_cancel]
    constructor
    · rintro (⟨r, hs, ⟨hr, -⟩, -⟩ | ⟨rfl, -⟩)
      · rwa [hlen r hs]
      · rw [Side.held, Nat.sub_self]
        decide
    · intro hlt
      rcases h with ⟨r, hs, hr, hbest⟩ | ⟨rfl, hno⟩
      · exact .inl ⟨r, hs, ⟨hlen r hs ▸ hlt, hr⟩, fun r' out' hs' hr' => hbest r' out' hs' hr'.2⟩
      · exact .inr ⟨rfl, fun r out' hs hr => hno r out' hs hr.2⟩
  | back =>
    rw [Side.held]
    constructor
    · rintro ⟨out', h', he⟩
      rw [he, List.length_take]
      omega
    · intro hlt
      exact ⟨out, h, (List.take_of_length_le (by omega)).symm⟩

/-! ## The braces -/

/-- A parameter: digits, a name, or a special letter that no other expansion begins with. -/
inductive IsParam : Text → Prop
  | digits {name : Text} (h : ∀ c ∈ name, isDig c = true) : IsParam name
  | ident {name : Text} (hd : ∀ c ∈ name.head?, isDig c = false ∧ isSpecial c = false)
      (h : ∀ c ∈ name, isIdC c = true) : IsParam name
  | special {c : Char} (hd : isDig c = false) (h : isSpecial c = true) (hc : c ≠ '#') : IsParam [c]

/-- The text of an expansion that trims. -/
def Side.text (side : Side) (longest : Bool) (name p : Text) : Text :=
  name ++ (if longest then [side.op, side.op] else [side.op]) ++ p

theorem takeWhile_take {f : Char → Bool} {c : Char} {rest : Text} (h : ∀ c ∈ name, f c = true)
    (hc : f c = false) (hl : name.length ≤ 31) :
    ((name ++ c :: rest).takeWhile f).take 31 = name := by
  rw [List.takeWhile_append_of_pos h, List.takeWhile_cons_of_neg (by rw [hc]; simp),
    List.append_nil, List.take_of_length_le hl]

theorem isDig_op (side : Side) : isDig side.op = false ∧ isIdC side.op = false := by
  cases side <;> decide

theorem scanName_param (side : Side) (rest : Text) (hname : IsParam name) (hne : name ≠ [])
    (hl : name.length ≤ 31) : scanName (name ++ side.op :: rest) = name := by
  obtain ⟨hdig, hid⟩ := isDig_op side
  obtain ⟨c, cs, rfl⟩ := List.exists_cons_of_ne_nil hne
  rw [List.cons_append, scanName]
  cases hname with
  | digits h =>
    rw [if_pos (h c List.mem_cons_self)]
    exact takeWhile_take h hdig hl
  | ident hd h =>
    obtain ⟨h1, h2⟩ := hd c rfl
    rw [if_neg (by rw [h1]; simp), if_neg (by rw [h2]; simp)]
    exact takeWhile_take h hid hl
  | special hd h _ => rw [if_neg (by rw [hd]; simp), if_pos h]

theorem head_ne {rest : Text} (hname : IsParam name) (hne : name ≠ []) :
    (name ++ rest).head? ≠ some '#' := by
  obtain ⟨c, cs, rfl⟩ := List.exists_cons_of_ne_nil hne
  intro hc
  rw [List.cons_append, List.head?_cons] at hc
  cases hname with
  | digits h =>
    have := h c List.mem_cons_self
    rw [Option.some.inj hc] at this
    exact absurd this (by decide)
  | ident hd _ =>
    have := (hd c rfl).2
    rw [Option.some.inj hc] at this
    exact absurd this (by decide)
  | special _ _ h => exact h (Option.some.inj hc)

theorem exOp_trim (side : Side) (longest : Bool) (hp : longest = true ∨ p.head? ≠ some side.op)
    (val name : Text) (q : Bool) :
    exOp (some val) name ((if longest then [side.op, side.op] else [side.op]) ++ p) q =
      .put (trim side.op longest p val) q := by
  have hop : side.op ≠ ':' ∧ side.op ≠ '-' ∧ side.op ≠ '=' ∧ side.op ≠ '+' ∧
      (side.op = '%' ∨ side.op = '#') := by
    cases side <;> decide
  obtain ⟨h1, h2, h3, h4, h5⟩ := hop
  cases longest with
  | true => simp [exOp, h1, h2, h3, h4, h5]
  | false =>
    have hp := hp.resolve_left Bool.false_ne_true
    simp [exOp, h1, h2, h3, h4, h5, hp]

/-- What the braces add, for a pattern that is cut where the array `inner` ends. -/
theorem exBrace_trim (hname : IsParam name) (hne : name ≠ []) (hl : name.length ≤ 31)
    (hp : longest = true ∨ p.head? ≠ some side.op) (hval : paramValue env name = some val) :
    exBrace env (side.text longest name p) q = .put
      (trim side.op longest (p.take (1023 - (side.text longest name []).length)) val) q := by
  generalize hop : (if longest then [side.op, side.op] else [side.op]) = op
  have hinner : (side.text longest name p).take 1023 =
      name ++ (op ++ p.take (1023 - (side.text longest name []).length)) := by
    have hshort : (name ++ op).length ≤ 1023 := by
      rw [← hop, List.length_append]
      split_ifs
      · rw [List.length_cons, List.length_singleton]
        omega
      · rw [List.length_singleton]
        omega
    rw [Side.text, Side.text, hop, List.append_nil, List.take_append, List.take_of_length_le hshort,
      List.append_assoc]
  have hhead : op.head? = some side.op := by
    rw [← hop]
    split_ifs <;> rfl
  obtain ⟨rest, hrest⟩ : ∃ rest, op = side.op :: rest :=
    ⟨op.tail, List.eq_cons_of_mem_head? hhead⟩
  rw [exBrace]
  simp only [hinner, head_ne hname hne, false_and, if_false]
  have hscan := scanName_param side (rest ++ p.take (1023 - (side.text longest name []).length))
    hname hne hl
  rw [← List.cons_append, ← hrest] at hscan
  rw [hscan, List.drop_left, if_neg (by rw [hrest]; simp), hval, ← hop]
  apply exOp_trim
  rcases hp with hp | hp
  · exact .inl hp
  · right
    intro hh
    apply hp
    rw [List.head?_take] at hh
    split_ifs at hh
    exact hh

/-- A pattern matches the texts it denotes, the scan ends, and the braces give the trimmed value
exactly when the arrays hold what they have to: what is left by `%`, what is cut off by `#`. Of a
text of more than 1023 bytes they see a shorter pattern. -/
theorem globMatch_exBrace_iff (env : Env) {name p val : Text} {side : Side} {longest : Bool}
    (q : Bool) (hname : IsParam name) (hne : name ≠ []) (hl : name.length ≤ 31)
    (hp : longest = true ∨ p.head? ≠ some side.op) (hval : paramValue env name = some val) :
    (∀ p s, globMatch p s = true ↔ Matches p s) ∧
    (∀ p s n, s.length * (p.length + 1) + p.length < n →
      globLoop n p s none = some (globMatch p s)) ∧
    ∃ out, Trimmed p side longest val out ∧
      ((side.text longest name p).length < 1024 →
        (exBrace env (side.text longest name p) q = .put out q ↔ side.held val out < 256)) ∧
      (exBrace env (side.text longest name p) q = .put out q ↔
        TrimmedHeld (p.take (1023 - (side.text longest name []).length)) side longest val
          out) := by
  refine ⟨globMatch_iff, fun p s n => globLoop_eq_globMatch p s, ?_⟩
  obtain ⟨out, hout⟩ := trimmed_exists p side longest val
  have hput : ∀ p', Expansion.put (trim side.op longest p' val) q = .put out q ↔
      TrimmedHeld p' side longest val out := by
    intro p'
    rw [← trim_iff, Expansion.put.injEq]
    exact and_iff_left rfl
  rw [exBrace_trim hname hne hl hp hval]
  refine ⟨out, hout, fun hlen => ?_, hput _⟩
  have hfits : p.length ≤ 1023 - (side.text longest name []).length := by
    have : (side.text longest name p).length = (side.text longest name []).length + p.length := by
      rw [Side.text, Side.text, List.append_nil, List.length_append]
    omega
  rw [List.take_of_length_le hfits, hput]
  exact trimmedHeld_iff hout

/-- A frame with one argument. -/
def oneArg (val : Text) : Env where
  status := 0
  posCount := 1
  posArg := fun n => if n = 1 then some val else none
  varGet := fun _ => none

theorem isParam_one : IsParam ['1'] := by
  apply IsParam.digits
  intro c hc
  rw [List.mem_singleton.mp hc]
  rfl

/-- The argument `ab` without the suffix `b`. -/
theorem globMatch_exBrace_iff_one : ∃ out, Trimmed ['b'] .back false ['a', 'b'] out ∧
    ((Side.back.text false ['1'] ['b']).length < 1024 →
      (exBrace (oneArg ['a', 'b']) (Side.back.text false ['1'] ['b']) true = .put out true ↔
        Side.back.held ['a', 'b'] out < 256)) ∧
    (exBrace (oneArg ['a', 'b']) (Side.back.text false ['1'] ['b']) true = .put out true ↔
      TrimmedHeld (['b'].take (1023 - (Side.back.text false ['1'] []).length)) .back false
        ['a', 'b'] out) :=
  (globMatch_exBrace_iff (oneArg ['a', 'b']) true isParam_one (by decide) (by decide)
    (.inr (by decide)) rfl).2.2

/-- Of an argument of 256 bytes that does not match, the last byte is lost. -/
theorem exBrace_long_value : ¬ ∀ (env : Env) (name p val out : Text) (side : Side)
    (longest q : Bool), IsParam name → name ≠ [] → name.length ≤ 31 →
    (longest = true ∨ p.head? ≠ some side.op) →
    paramValue env name = some val → Trimmed p side longest val out →
    exBrace env (side.text longest name p) q = .put out q := by
  intro h
  let val := List.replicate 256 'a'
  have hout : Trimmed ['b'] .back false val val := by
    right
    refine ⟨rfl, fun r out' (hs : val = out' ++ r) hr => ?_⟩
    have hfirst : first ['b'] = some (.one fun c => 'b' = c, []) := rfl
    rw [matches_iff_reads hfirst] at hr
    obtain ⟨c, r', rfl, hc, -⟩ := hr
    have hmem : c ∈ val := hs ▸ List.mem_append_right out' List.mem_cons_self
    rw [List.eq_of_mem_replicate hmem] at hc
    exact absurd hc (by decide)
  have hput := h (oneArg val) ['1'] ['b'] val val .back false true isParam_one (by decide)
    (by decide) (.inr (by decide)) rfl hout
  rw [exBrace_trim isParam_one (by decide) (by decide) (.inr (by decide)) rfl] at hput
  rw [Expansion.put.injEq] at hput
  have hlen := congrArg List.length hput.1
  rw [List.take_of_length_le (by decide), Side.op, trim_back hout, List.length_take,
    List.length_replicate] at hlen
  exact absurd hlen (by decide)

end Xeneva.Shell.Glob
