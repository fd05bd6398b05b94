import Xeneva.Shell.Builtins

/-!
# Where the built-ins write, and what of `argv` is read
-/

namespace Xeneva.Shell.Builtins

open Arith (parseI64 hexVal arithEval Vars)
open Glob (isDig atoi)

def Access.Inside (a : Access) : Prop := 0 ≤ a.place ∧ a.place < a.room

def Inside (l : Log) : Prop := ∀ a ∈ l, a.Inside

@[simp] theorem inside_nil : Inside [] := by
  intro a h
  cases h

@[simp] theorem inside_append (l m : Log) : Inside (l ++ m) ↔ Inside l ∧ Inside m :=
  List.forall_mem_append

theorem inside_places {room : ℤ} (hroom : 0 ≤ room) (n : ℕ) :
    Inside (places room n) ↔ n ≤ room := by
  unfold Inside places
  rw [List.forall_mem_map]
  constructor
  · intro h
    cases n with
    | zero => exact hroom
    | succ n =>
      have hlast := (h n (List.mem_range.2 (Nat.lt_succ_self n))).2
      dsimp only at hlast
      omega
  · intro h i hi
    rw [List.mem_range] at hi
    constructor <;> dsimp only <;> omega

theorem digitLoop_length (dg : Text) {base : ℕ} (hb : 2 ≤ base) (fuel k v : ℕ)
    (h : v < base ^ (k + 1)) : (digitLoop dg base fuel v).length ≤ k + 1 := by
  induction fuel generalizing k v with
  | zero => exact Nat.zero_le _
  | succ fuel ih =>
    rw [digitLoop, List.length_cons]
    split <;> rename_i hv
    · exact Nat.succ_le_succ (Nat.zero_le k)
    · apply Nat.succ_le_succ
      cases k with
      | zero =>
        rw [zero_add, pow_one] at h
        exact absurd (Nat.div_eq_of_lt h) hv
      | succ k =>
        apply ih
        rw [Nat.div_lt_iff_lt_mul (by omega), ← pow_succ]
        exact h

theorem fmtI64_length (v : Int64) (room : ℤ) : (fmtI64 v room).1.length ≤ 20 := by
  have hle := v.le_toInt
  have hlt := v.toInt_lt
  have hdigits := digitLoop_length lowerDigits (by decide : 2 ≤ 10) 64 18 v.toInt.natAbs (by omega)
  unfold fmtI64
  rw [List.length_append, List.length_reverse]
  split <;> simp only [List.length_nil, List.length_singleton] <;> omega

theorem fmtI64_inside (v : Int64) {room : ℤ} (h : 21 ≤ room) : Inside (fmtI64 v room).2 := by
  have hlen := fmtI64_length v room
  have hle := v.le_toInt
  have hlt := v.toInt_lt
  have hdigits := digitLoop_length lowerDigits (by decide : 2 ≤ 10) 64 18 v.toInt.natAbs (by omega)
  unfold fmtI64 at hlen ⊢
  rw [inside_append, inside_places (by decide), inside_places (by omega)]
  constructor
  · omega
  · dsimp only at hlen
    omega

theorem consoleLoop_inside (fuel n : ℕ) : Inside (consoleLoop fuel n) := by
  induction fuel generalizing n with
  | zero => exact inside_nil
  | succ fuel ih =>
    rw [consoleLoop]
    split
    · exact inside_nil
    · rw [inside_append, inside_places (by decide)]
      exact ⟨by omega, ih _⟩

theorem xsWrite_inside (fd : ℤ) (n : ℕ) : Inside (xsWrite fd n) := by
  unfold xsWrite
  split
  · exact inside_nil
  · exact consoleLoop_inside n n

/-- The buffer is at most full, and nothing was written past it. -/
structure Ob.Ok (o : Ob) : Prop where
  short : o.b.length ≤ 256
  log : Inside o.log

theorem Ob.Ok.flush {o : Ob} (h : o.Ok) : o.flush.Ok where
  short := Nat.zero_le _
  log := (inside_append _ _).2 ⟨h.log, xsWrite_inside _ _⟩

theorem Ob.Ok.put {o : Ob} (h : o.Ok) (c : Char) : (o.put c).Ok := by
  have hshort := h.short
  have hroom (o : Ob) (ho : o.Ok) (hlt : o.b.length < 256) :
      Ob.Ok { o with b := o.b ++ [c], log := o.log ++ [⟨256, o.b.length⟩] } := by
    constructor
    · rw [List.length_append, List.length_singleton]
      exact hlt
    · rw [inside_append]
      refine ⟨ho.log, ?_⟩
      intro a ha
      rw [List.mem_singleton.1 ha]
      constructor <;> dsimp only <;> omega
  unfold Ob.put
  split <;> rename_i hfull
  · exact hroom _ h.flush (Nat.zero_lt_succ 255)
  · exact hroom _ h (by omega)

theorem Ob.Ok.puts {o : Ob} (h : o.Ok) (s : Text) : (o.puts s).Ok := by
  induction s generalizing o with
  | nil => exact h
  | cons c s ih => exact ih (h.put c)

theorem Ob.Ok.padOut {o : Ob} (h : o.Ok) (s : Text) (len width : ℤ) (left : Bool) :
    (padOut o s len width left).Ok := h.puts _

/-! ## printf -/

theorem Ob.Ok.take {p : Printf} (h : p.ob.Ok) (s : Text) (len width : ℤ) (left : Bool) {log : Log}
    (hlog : Inside log) : (p.take s len width left log).ob.Ok := by
  apply Ob.Ok.padOut
  constructor
  · exact h.short
  · exact (inside_append _ _).2 ⟨h.log, hlog⟩

theorem unescape_length (fuel : ℕ) (a tmp : Text) (h : tmp.length ≤ 1023) :
    (unescape fuel a tmp).length ≤ 1023 := by
  induction fuel generalizing a tmp with
  | zero => exact h
  | succ fuel ih =>
    cases a with
    | nil => exact h
    | cons c r =>
      rw [unescape]
      split <;> rename_i hroom
      · exact h
      · have hput (c : Char) : (tmp ++ [c]).length ≤ 1023 := by
          rw [List.length_append, List.length_singleton]
          unfold XS_FIELD_MAX at hroom
          omega
        split
        · dsimp only
          generalize escSeq r = e
          apply ih
          split
          · exact h
          · exact hput _
        · exact ih _ _ (hput c)

theorem Ob.Ok.convert {p : Printf} (h : p.ob.Ok) (argv : List Text) (width : ℤ) (left : Bool)
    (c : Char) : (convert argv width left c p).ob.Ok := by
  unfold Builtins.convert
  split
  · exact h.put '%'
  split
  · exact h.take _ _ _ _ inside_nil
  split
  · have hlen := unescape_length (argv.getD p.ai []).length (argv.getD p.ai []) [] (Nat.zero_le _)
    apply h.take
    rw [inside_places (by decide)]
    unfold XS_FIELD_MAX
    omega
  split
  · exact h.take _ _ _ _ (fmtI64_inside _ (by decide))
  split
  · exact h.take _ _ _ _ inside_nil
  split
  · apply h.take
    have hv := (parseI64 (argv.getD p.ai [])).1.toUInt64.toNat_lt
    have hlen := digitLoop_length (if c = 'X' then upperDigits else lowerDigits)
      (by split <;> decide : 2 ≤ if c = 'o' then 8 else 16) 64 21
      (parseI64 (argv.getD p.ai [])).1.toUInt64.toNat (by split <;> omega)
    rw [inside_append, inside_places (by decide), inside_places (by decide)]
    constructor <;> omega
  · exact h

theorem Ob.Ok.pass {p : Printf} (h : p.ob.Ok) (argv : List Text) (fuel : ℕ) (s : Text) :
    (pass argv fuel s p).ob.Ok := by
  induction fuel generalizing s p with
  | zero => exact h
  | succ fuel ih =>
    cases s with
    | nil => exact h
    | cons c s =>
      rw [Builtins.pass]
      split
      · dsimp only
        generalize escSeq s = e
        apply ih
        split
        · exact h
        · exact h.put _
      split
      · dsimp only
        split
        · exact h
        · exact ih (h.convert ..) _
      · exact ih (h.put c) _

theorem Ob.Ok.printfLoop {p : Printf} (h : p.ob.Ok) (argv : List Text) (fmt : Text) (fuel : ℕ) :
    (printfLoop argv fmt fuel p).ob.Ok := by
  induction fuel generalizing p with
  | zero => exact h
  | succ fuel ih =>
    have hpass : (Builtins.pass argv fmt.length fmt { p with used := false }).ob.Ok :=
      Ob.Ok.pass (p := { p with used := false }) h argv fmt.length fmt
    rw [Builtins.printfLoop]
    split
    · exact ih hpass
    · exact hpass

theorem bPrintf_inside (fd : ℤ) (argv : List Text) : Inside (bPrintf fd argv).2.1 := by
  unfold bPrintf
  split
  · exact (Ob.Ok.printfLoop ⟨Nat.zero_le _, inside_nil⟩ ..).flush.log
  · exact inside_nil

/-! ### The loops end -/

/-- The room that arguments take with a space after each. -/
def total (args : List Text) : ℕ := (args.map fun a => a.length + 1).sum

theorem total_cons (a : Text) (args : List Text) :
    total (a :: args) = a.length + 1 + total args := by
  simp [total]

theorem added_length (a buf : Text) :
    (buf ++ a.take (1022 - buf.length) ++ [' ']).length =
      buf.length + min (1022 - buf.length) a.length + 1 := by
  simp [Nat.add_assoc]

/-- The buffer of `expr` keeps room for its end when all but the last argument fit. -/
theorem exprText_length (args : List Text) (buf : Text) (hargs : args ≠ []) :
    (exprText args buf).length ≤ 1023 ↔ buf.length + total args.dropLast ≤ 1022 := by
  induction args generalizing buf with
  | nil => exact absurd rfl hargs
  | cons a rest ih =>
    rw [exprText]
    have hadded := added_length a buf
    cases rest with
    | nil =>
      rw [exprText, hadded, List.dropLast_singleton, total, List.map_nil, List.sum_nil]
      omega
    | cons b rest =>
      rw [ih _ (List.cons_ne_nil b rest), hadded, List.dropLast_cons_cons, total_cons]
      omega

/-- The one of `eval` needs less, as no space is put after the last argument. -/
theorem evalText_length (args : List Text) (buf : Text) (hargs : 2 ≤ args.length) :
    (evalText args buf).length ≤ 1023 ↔ buf.length + total args.dropLast.dropLast ≤ 1022 := by
  induction args generalizing buf with
  | nil => exact absurd hargs (by decide)
  | cons a rest ih =>
    have hadded := added_length a buf
    cases rest with
    | nil => exact absurd hargs (by simp)
    | cons b rest =>
      rw [evalText]
      · cases rest with
        | nil =>
          rw [evalText, List.length_append, List.length_take, hadded]
          simp only [List.dropLast_cons_cons, List.dropLast_singleton, total, List.map_nil,
            List.sum_nil]
          omega
        | cons c rest =>
          have hlast : (a :: b :: c :: rest).dropLast.dropLast =
              a :: (b :: c :: rest).dropLast.dropLast := rfl
          rw [ih _ (by simp), hadded, hlast, total_cons]
          omega
      · simp

theorem bExpr_inside_iff (vars : Vars) (fd : ℤ) (argv : List Text) :
    Inside (bExpr vars fd argv).2.1 ↔ total argv.tail.dropLast ≤ 1022 := by
  have hlength : (exprText argv.tail []).length ≤ 1023 ↔ total argv.tail.dropLast ≤ 1022 := by
    cases hargs : argv.tail with
    | nil => simp [exprText, total]
    | cons a rest => simpa using exprText_length (a :: rest) [] (List.cons_ne_nil a rest)
  have hplaces : Inside (places XS_FIELD_MAX ((exprText argv.tail []).length + 1)) ↔
      total argv.tail.dropLast ≤ 1022 := by
    rw [inside_places (by decide), ← hlength]
    unfold XS_FIELD_MAX
    omega
  unfold bExpr
  dsimp only
  split
  · exact hplaces
  · split
    · exact hplaces
    · simp only [inside_append, hplaces, fmtI64_inside _ (le_of_lt (by decide : (21 : ℤ) < 24)),
        xsWrite_inside, and_true]

theorem bEval_inside_iff (argv : List Text) :
    Inside (bEval argv).2 ↔ total argv.tail.dropLast.dropLast ≤ 1022 := by
  have hlength : (evalText argv.tail []).length ≤ 1023 ↔
      total argv.tail.dropLast.dropLast ≤ 1022 := by
    match argv.tail with
    | [] => simp [evalText, total]
    | [a] => simp [evalText, total]
    | a :: b :: rest => simpa using evalText_length (a :: b :: rest) [] (by simp)
  unfold bEval
  rw [inside_places (by decide), ← hlength]
  unfold XS_FIELD_MAX
  omega

/-- At most `$0` can be had as `$1`, and no more is shifted than there is. -/
def Frame.Ok (f : Frame) : Prop := -1 ≤ f.shift ∧ f.shift ≤ max 0 (f.argc - 1)

theorem Frame.argc_lt (f : Frame) : 0 ≤ f.argc ∧ f.argc < 2 ^ 31 := by
  have h := f.args.2
  unfold Frame.argc
  omega

theorem posArg_inside {fs : Frames} (h : ∀ f ∈ fs.head?, f.Ok) {n : ℤ} (h0 : 0 ≤ n)
    (hn : ∀ f ∈ fs.head?, n + f.shift < 2 ^ 31) : Inside (posArg fs n) := by
  cases fs with
  | nil => exact inside_nil
  | cons f rest =>
    have hok := h f rfl
    have hlt := hn f rfl
    have hargc := f.argc_lt
    have hone (a : Access) (ha : a.Inside) : Inside [a] := by
      intro b hb
      rwa [List.mem_singleton.1 hb]
    unfold posArg
    dsimp only
    split
    · split <;> rename_i hpos
      · exact hone _ ⟨le_rfl, hpos⟩
      · exact inside_nil
    · have hidx : toInt (n + f.shift) = n + f.shift := by
        have h1 := hok.1
        unfold toInt
        omega
      split <;> rename_i hlt
      · apply hone
        have h1 := hok.1
        constructor
        · dsimp only
          omega
        · exact hlt
      · exact inside_nil

theorem posCount_le {fs : Frames} (h : ∀ f ∈ fs.head?, f.Ok) :
    ∀ f ∈ fs.head?, 0 ≤ posCount fs ∧ (0 < posCount fs → posCount fs + f.shift ≤ f.argc - 1) := by
  cases fs with
  | nil => simp
  | cons f rest =>
    intro g hg
    obtain rfl : f = g := by simpa using hg
    have hok := h f rfl
    have hargc := f.argc_lt
    unfold Frame.Ok at hok
    unfold posCount toInt
    dsimp only
    split <;> omega

theorem posAll_inside {fs : Frames} (h : ∀ f ∈ fs.head?, f.Ok) : Inside (posAll fs) := by
  unfold posAll Inside
  rw [List.forall_mem_flatMap]
  intro i hi
  rw [List.mem_range] at hi
  apply posArg_inside h (by omega)
  intro f hf
  have hcount := posCount_le h f hf
  have hargc := f.argc_lt
  omega

/-! ## Runs -/

/-- No shift goes below -1, the text of `expr` and `eval` leaves room for a space, and the number of
a parameter is one. -/
def Fits (fs : Frames) : Act → Prop
  | .shift argv => ∀ f ∈ fs.head?, -1 ≤ f.shift + shiftCount argv.1
  | .expr _ _ argv => total argv.1.tail.dropLast ≤ 1022
  | .eval argv => total argv.1.tail.dropLast.dropLast ≤ 1022
  | .digit d => ∀ f ∈ fs.head?, d + f.shift < 2 ^ 31
  | .brace name => 0 ≤ (atoi name).toInt ∧ ∀ f ∈ fs.head?, (atoi name).toInt + f.shift < 2 ^ 31
  | _ => True

def RunFits : Frames → List Act → Prop
  | _, [] => True
  | fs, a :: as => Fits fs a ∧ RunFits (step fs a).1 as

theorem ok_head {fs : Frames} (h : ∀ f ∈ fs, f.Ok) : ∀ f ∈ fs.head?, f.Ok :=
  fun f hf => h f (List.mem_of_mem_head? hf)

theorem bShift_ok {fs : Frames} (h : ∀ f ∈ fs, f.Ok) {argv : List Text}
    (hfits : ∀ f ∈ fs.head?, -1 ≤ f.shift + shiftCount argv) : ∀ f ∈ bShift argv fs, f.Ok := by
  cases fs with
  | nil => exact h
  | cons f rest =>
    have hok := h f List.mem_cons_self
    have hlow := hfits f rfl
    have hcount := posCount_le (ok_head h) f rfl
    have hargc := f.argc_lt
    unfold bShift
    dsimp only
    split <;> rename_i hle
    · exact h
    · rw [List.forall_mem_cons] at h ⊢
      refine ⟨?_, h.2⟩
      have hsum : toInt (f.shift + shiftCount argv) = f.shift + shiftCount argv := by
        unfold Frame.Ok at hok
        unfold toInt
        omega
      unfold Frame.Ok at hok ⊢
      change -1 ≤ toInt (f.shift + shiftCount argv) ∧
        toInt (f.shift + shiftCount argv) ≤ max 0 (f.argc - 1)
      omega

theorem batShift_ok {fs : Frames} (h : ∀ f ∈ fs, f.Ok) : ∀ f ∈ batShift fs, f.Ok := by
  cases fs with
  | nil => exact h
  | cons f rest =>
    have hok := h f List.mem_cons_self
    unfold batShift
    dsimp only
    split <;> rename_i hlt
    · rw [List.forall_mem_cons] at h ⊢
      refine ⟨?_, h.2⟩
      unfold Frame.Ok at hok ⊢
      change -1 ≤ f.shift + 1 ∧ f.shift + 1 ≤ max 0 (f.argc - 1)
      omega
    · exact h

theorem fresh_ok (args : Args) : Frame.Ok ⟨args, 0⟩ :=
  ⟨(by decide : (-1 : ℤ) ≤ 0), le_max_left 0 _⟩

theorem bSet_ok {fs : Frames} (h : ∀ f ∈ fs, f.Ok) (argv : Args) (room : Bool) :
    (∀ f ∈ (bSet argv room fs).1, f.Ok) ∧ Inside (bSet argv room fs).2 := by
  unfold bSet
  split
  · rw [List.forall_mem_cons] at h
    split
    · constructor
      · rw [List.forall_mem_cons]
        exact ⟨fresh_ok _, h.2⟩
      · split <;> rename_i hpos
        · intro a ha
          rw [List.mem_singleton.1 ha]
          exact ⟨le_rfl, hpos⟩
        · exact inside_nil
    · exact ⟨List.forall_mem_cons.2 h, inside_nil⟩
  · exact ⟨h, inside_nil⟩

theorem step_ok {fs : Frames} (h : ∀ f ∈ fs, f.Ok) {a : Act} (hfits : Fits fs a) :
    (∀ f ∈ (step fs a).1, f.Ok) ∧ Inside (step fs a).2 := by
  cases a with
  | enter argv =>
    refine ⟨?_, inside_nil⟩
    unfold step
    dsimp only
    split
    · exact h
    · exact List.forall_mem_cons.2 ⟨fresh_ok argv, h⟩
  | leave => exact ⟨fun f hf => h f (List.mem_of_mem_tail hf), inside_nil⟩
  | shift argv => exact ⟨bShift_ok h hfits, inside_nil⟩
  | batShift => exact ⟨batShift_ok h, inside_nil⟩
  | set argv room => exact bSet_ok h argv room
  | expr vars fd argv => exact ⟨h, (bExpr_inside_iff vars fd argv.1).2 hfits⟩
  | eval argv => exact ⟨h, (bEval_inside_iff argv.1).2 hfits⟩
  | printf fd argv => exact ⟨h, bPrintf_inside fd argv.1⟩
  | digit d => exact ⟨h, posArg_inside (ok_head h) (Int.natCast_nonneg d) hfits⟩
  | brace name => exact ⟨h, posArg_inside (ok_head h) hfits.1 hfits.2⟩
  | all => exact ⟨h, posAll_inside (ok_head h)⟩

theorem run_inside {fs : Frames} (h : ∀ f ∈ fs, f.Ok) {as : List Act} (hfits : RunFits fs as) :
    Inside (run fs as).2 := by
  induction as generalizing fs with
  | nil => exact inside_nil
  | cons a as ih =>
    have hstep := step_ok h hfits.1
    exact (inside_append _ _).2 ⟨hstep.2, ih hstep.1 hfits.2⟩

/-- A run stays inside all buffers and argument vectors when no shift goes below -1, no number of a
parameter is beyond an `int`, and the text of `expr` and `eval` leaves room for their spaces, which
is just when these two stay inside their buffers. `printf` always does. -/
theorem builtins_inside (as : List Act) (vars : Vars) (fd : ℤ) (argv : List Text) :
    (RunFits [] as → Inside (run [] as).2) ∧
    (Inside (bExpr vars fd argv).2.1 ↔ total argv.tail.dropLast ≤ 1022) ∧
    (Inside (bEval argv).2 ↔ total argv.tail.dropLast.dropLast ≤ 1022) ∧
    Inside (bPrintf fd argv).2.1 := by
  refine ⟨?_, bExpr_inside_iff vars fd argv, bEval_inside_iff argv, bPrintf_inside fd argv⟩
  intro hfits
  exact run_inside (by simp) hfits

/-- A function is called with one parameter, shifts it back and forth and reads what it has. -/
theorem builtins_inside_shifts :
    Inside (run [] [.enter ⟨[['f'], ['a']], by decide⟩, .shift ⟨[['s'], ['1']], by decide⟩,
      .shift ⟨[['s'], ['-', '1']], by decide⟩, .digit 1, .all]).2 := by
  apply (builtins_inside _ ⟨false, [], fun _ => none, 0⟩ 0 []).1
  simp only [RunFits, Fits]
  decide +kernel

/-- After `shift -5`, `$1` is read four places before the argument vector. -/
theorem shift_negative :
    ¬ ∀ as, Inside (run [] as).2 := by
  intro h
  have hread := h [.enter ⟨[['f'], ['a']], by decide⟩,
    .shift ⟨[['s', 'h', 'i', 'f', 't'], ['-', '5']], by decide⟩, .digit 1] ⟨2, -4⟩
    (by decide +kernel)
  exact absurd hread.1 (by decide)

end Xeneva.Shell.Builtins
