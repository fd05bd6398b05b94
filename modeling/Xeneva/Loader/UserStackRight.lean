import Xeneva.Loader.UserStack

/-!
# What the initial stack holds
-/

namespace Xeneva.Loader

open Base Base.PushDown

/-- A count and a vector of so many strings, of which some may be `NULL`, or `NULL` for a vector of
empty strings. -/
structure Args where
  argc : ℕ
  short : argc < 2 ^ 31
  argv : Option (List (Option CStr))
  count : ∀ l ∈ argv, l.length = argc

def Args.strings (a : Args) : List CStr :=
  match a.argv with
  | none => List.replicate a.argc empty
  | some l => kargv l

theorem Args.length_strings (a : Args) : a.strings.length = a.argc := by
  unfold Args.strings
  split <;> rename_i h
  · exact List.length_replicate
  · rw [kargv, List.length_map]
    exact a.count _ h

/-- The room that strings take with their terminators. -/
def total (strs : List CStr) : ℤ := ((strs.map text).map List.length).sum

theorem map_getD_range (l : List CStr) :
    (List.range l.length).map (fun i => l.getD i empty) = l := by
  apply List.ext_getElem
  · simp
  · intro i h _
    rw [List.length_map, List.length_range] at h
    rw [List.getElem_map, List.getElem_range, List.getD_eq_getElem _ _ h]

/-- The first thread finds the strings that the loader copied. -/
theorem readArgs_eq (a : Args) (argvs : Option (List CStr))
    (h : argvs = if a.argc = 0 then none else a.argv.map kargv) :
    readArgs argvs a.argc = a.strings := by
  have hlen := a.length_strings
  unfold readArgs
  rcases Nat.eq_zero_or_pos a.argc with h0 | hpos
  · rw [h0] at hlen ⊢
    exact (List.length_eq_zero_iff.1 hlen).symm
  · rw [h, if_neg hpos.ne']
    unfold Args.strings at hlen ⊢
    cases hargv : a.argv with
    | none => simp
    | some l =>
      rw [hargv] at hlen
      have hread := map_getD_range (kargv l)
      rwa [hlen] at hread

/-! ## The stack of an ELF program -/

theorem length_wordBytes (w : UInt64) : (wordBytes w).length = 8 := by
  simp [wordBytes]

theorem length_flatMap_wordBytes (ws : List UInt64) :
    (ws.flatMap wordBytes).length = 8 * ws.length := by
  induction ws with
  | nil => rfl
  | cons w ws ih =>
    rw [List.flatMap_cons, List.length_append, length_wordBytes, ih, List.length_cons]
    omega

theorem alignDown_le {n : ℤ} (hn : 0 < n) (a : ℤ) : alignDown n a ≤ a := by
  have h := Int.emod_nonneg a hn.ne'
  unfold alignDown
  omega

theorem alignDown_mod (a : ℤ) : alignDown 16 a % 16 = 0 := by
  unfold alignDown
  omega

/-- What the words are: the count, the pointers and two zeros, pairs and a pair of zeros. -/
def startWords (argc : UInt64) (ptrs : List UInt64) (aux : List (UInt64 × UInt64)) : List UInt64 :=
  argc :: ptrs ++ [0, 0] ++ pairWords aux ++ [0, 0]

/-- What `AuLinuxBuildUserStack` leaves, wherever the stack is. -/
structure Built (u : UserEntry) (argc : ℤ) (strs : List CStr) (s : PushDown UInt8) (r : Linux) :
    Prop where
  sp : r.stack.sp =
    alignDown 16 (alignDown 16 (s.sp - total strs - 27) - 8 * (strs.length + 31))
  below : s.Extends r.stack
  last : (r.stack.sp, 8 * (strs.length + 31)) ∈ r.stack.wrote
  strings : List.Forall₂ (fun p x => (r.stack.sp ≤ p ∧ p ≤ s.sp) ∧ Holds r.stack.mem p (text x))
    r.argv_user strs
  words : r.words.length = strs.length + 31
  layout : ∃ random execfn, r.words =
    startWords (UInt64.ofInt argc) (r.argv_user.map UInt64.ofInt) (auxv u random execfn)
  put : Holds r.stack.mem r.stack.sp (r.words.flatMap wordBytes)

theorem linux_built (u : UserEntry) (s : PushDown UInt8) :
    Built u (linuxArgc u) (readArgs u.argvs (linuxArgc u).toNat) (s.lower (alignDown 16 u.rsp))
      (linuxBuildUserStack u s) := by
  unfold linuxBuildUserStack
  dsimp only
  generalize readArgs u.argvs (linuxArgc u).toNat = strs
  generalize s.lower (alignDown 16 u.rsp) = s
  have hsp := putAll_sp (fun (l : List UInt8) s => put_sp s l) (strs.map text) s
  have hbelow := extends_putAll (fun l s => extends_put s l) (strs.map text) s
  have hstrs := putAll_holds (fun l s => extends_put s l) (fun l s => put_holds s l)
    (strs.map text) s
  rw [List.forall₂_map_right_iff] at hstrs
  generalize putAll put (strs.map text) s = q at hsp hbelow hstrs ⊢
  obtain ⟨s₁, ps⟩ := q
  dsimp only at hsp hbelow hstrs ⊢
  have hps : ps.length = strs.length := hstrs.length_eq
  have hexec := extends_put s₁ execfn
  generalize hrandom : wordBytes (0xA5A5A5A5A5A5A5A5 ^^^ u.entrypoint) ++
    wordBytes (0x1234567890ABCDEF ^^^ UInt64.ofInt (linuxArgc u)) = random
  have hrnd := extends_put (s₁.put execfn) random
  have hrlen : random.length = 16 := by
    rw [← hrandom, List.length_append, length_wordBytes, length_wordBytes]
  have hsp₃ : ((s₁.put execfn).put random).sp = s.sp - total strs - 27 := by
    rw [put_sp, put_sp, hsp, hrlen]
    change s.sp - total strs - 11 - 16 = _
    omega
  generalize (s₁.put execfn).put random = s₃ at hrnd hsp₃ ⊢
  generalize hwords : UInt64.ofInt (linuxArgc u) :: ps.map UInt64.ofInt ++ [0, 0] ++
    pairWords (auxv u (UInt64.ofInt s₃.sp) (UInt64.ofInt (s₁.put execfn).sp)) ++ [0, 0] = words
  have hlen : words.length = strs.length + 31 := by
    rw [← hwords]
    simp [pairWords, auxv, hps]
  have hbytes := length_flatMap_wordBytes words
  have hle₁ := alignDown_le (by decide : (0 : ℤ) < 16) s₃.sp
  have hle₂ := alignDown_le (by decide : (0 : ℤ) < 16) (alignDown 16 s₃.sp - 8 * words.length)
  have hplace := extends_place (s := s₃) (l := words.flatMap wordBytes)
    (a := alignDown 16 (alignDown 16 s₃.sp - 8 * words.length)) (by omega)
  have htail := (hexec.trans hrnd).trans hplace
  constructor
  · have hcount : (strs.length : ℤ) + 31 = words.length := by omega
    rw [← hsp₃, hcount]
    rfl
  · exact hbelow.trans htail
  · rw [← hlen, ← hbytes]
    exact mem_wrote_place ..
  · apply hstrs.imp
    intro p x h
    exact ⟨⟨htail.le.trans h.1.1, h.1.2⟩, htail.holds h.1.1 h.2⟩
  · exact hlen
  · exact ⟨_, _, hwords.symm⟩
  · exact place_holds _ _ _

/-- All writes are in the stack of the process. -/
def InStack (s : PushDown UInt8) : Prop :=
  ∀ w ∈ s.wrote, stackBase ≤ w.1 ∧ w.1 + w.2 ≤ main_stack

/-- The pointers are those of intact copies of the strings. -/
def PointTo (mem : ℤ → UInt8) (ptrs : List UInt64) (strs : List CStr) : Prop :=
  List.Forall₂ (fun p x => Holds mem p.toNat (text x)) ptrs strs

/-- The program finds the count, the pointers, `NULL`, the end of an empty environment and an
auxiliary vector that ends, and nothing was written outside the arrays and the stack. -/
structure LinuxRight (strs : List CStr) (r : Linux) : Prop where
  vector : r.words.length ≤ 48 ∧ r.argv_user.length ≤ 32
  inside : InStack r.stack
  aligned : r.stack.sp % 16 = 0
  layout : ∃ ptrs aux, PointTo r.stack.mem ptrs strs ∧ (∀ q ∈ aux, q.1 ≠ 0) ∧
    Holds r.stack.mem r.stack.sp
      ((startWords (UInt64.ofNat strs.length) ptrs aux).flatMap wordBytes)

theorem toNat_ofInt {p : ℤ} (h0 : 0 ≤ p) (h : p < 2 ^ 64) : ((UInt64.ofInt p).toNat : ℤ) = p := by
  rw [UInt64.ofInt, UInt64.toNat_ofNat']
  omega

theorem ofInt_natCast (n : ℕ) : UInt64.ofInt n = UInt64.ofNat n := by
  rw [← UInt64.toNat_inj, UInt64.ofInt, UInt64.toNat_ofNat', UInt64.toNat_ofNat']
  omega

theorem pointTo_of {mem : ℤ → UInt8} {sp top : ℤ} {ptrs : List ℤ} {strs : List CStr}
    (h : List.Forall₂ (fun p x => (sp ≤ p ∧ p ≤ top) ∧ Holds mem p (text x)) ptrs strs)
    (h0 : 0 ≤ sp) (htop : top < 2 ^ 64) : PointTo mem (ptrs.map UInt64.ofInt) strs := by
  unfold PointTo
  rw [List.forall₂_map_left_iff]
  apply h.imp
  intro p x hp
  rw [toNat_ofInt (h0.trans hp.1.1) (by omega)]
  exact hp.2

theorem auxv_ne (u : UserEntry) (random execfn : UInt64) : ∀ q ∈ auxv u random execfn, q.1 ≠ 0 := by
  simp [auxv]

/-- The room that the words, the strings and what is pushed after them take. -/
def linuxNeed (strs : List CStr) : ℤ :=
  -alignDown 16 (-(total strs + 59)) + 8 * (strs.length + 31)

/-- The room below the stack's top is what is needed, each alignment counted. -/
theorem base_le_iff (strs : List CStr) :
    stackBase ≤ alignDown 16 (alignDown 16 (main_stack - 32 - total strs - 27) -
      8 * (strs.length + 31)) ↔ linuxNeed strs ≤ PROCESS_USER_STACK_SZ := by
  unfold linuxNeed main_stack stackBase PROCESS_USER_STACK_SZ alignDown
  omega

theorem Built.right_iff {u : UserEntry} {argc : ℤ} {strs : List CStr} {s : PushDown UInt8}
    {r : Linux} (h : Built u argc strs s r) (hargc : argc = strs.length) (hlen : strs.length ≤ 17)
    (hsp : s.sp = main_stack - 32) (hwrote : s.wrote = []) :
    LinuxRight strs r ↔ linuxNeed strs ≤ PROCESS_USER_STACK_SZ := by
  have hr := h.sp
  rw [hsp] at hr
  rw [← base_le_iff, ← hr]
  constructor
  · intro hright
    exact (hright.inside _ h.last).1
  · intro hbase
    have htop : main_stack = 0xA000080000 := by decide
    have h0 : (0 : ℤ) ≤ stackBase := by decide
    constructor
    · have hwords := h.words
      have hcount := h.strings.length_eq
      omega
    · intro w hw
      have hin := h.below.inside hwrote w hw
      omega
    · rw [hr]
      exact alignDown_mod _
    · obtain ⟨random, execfn, hwords⟩ := h.layout
      refine ⟨_, _, pointTo_of h.strings (h0.trans hbase) (by omega), auxv_ne u random execfn, ?_⟩
      have hput := h.put
      rw [hwords, hargc, ofInt_natCast] at hput
      exact hput

/-- An ELF program finds what it reads just when it has at most 17 arguments, which the word vector
has room for, and the stack has room for the strings and the words. -/
theorem linuxRight_iff (a : Args) (entry phdr_va : UInt64) (phentsize phnum : UInt16)
    (m : ℤ → UInt8) :
    LinuxRight a.strings (entUserLinux (elfEntry entry phdr_va phentsize phnum a.argc a.argv) m) ↔
      a.argc ≤ 17 ∧ linuxNeed a.strings ≤ PROCESS_USER_STACK_SZ := by
  unfold entUserLinux
  generalize hu : enter (elfEntry entry phdr_va phentsize phnum a.argc a.argv) = u
  have hbuilt := linux_built u (start u m)
  have hread := readArgs_eq a u.argvs (by
    rw [← hu]
    simp [enter, elfEntry, Nat.pos_iff_ne_zero])
  have hrsp : alignDown 16 u.rsp = main_stack - 32 := by
    rw [← hu]
    rfl
  have hargc : linuxArgc u = min (a.argc : ℤ) 32 := by
    rw [← hu]
    change (if (a.argc : ℤ) < 0 then 0 else if 32 < (a.argc : ℤ) then 32 else (a.argc : ℤ)) = _
    split <;> omega
  by_cases h17 : a.argc ≤ 17
  · have hcount : linuxArgc u = a.argc := by omega
    rw [hcount, Int.toNat_natCast, hread] at hbuilt
    rw [and_iff_right h17]
    apply hbuilt.right_iff _ _ hrsp rfl
    · rw [a.length_strings]
    · rw [a.length_strings]
      exact h17
  · refine iff_of_false ?_ fun h => h17 h.1
    intro hr
    have hvector := hr.vector.1
    rw [hbuilt.words, readArgs, List.length_map, List.length_range] at hvector
    omega

/-! ## The stack of a PE program -/

theorem putPointers_stack (i : ℕ) (as : List ℤ) (p : Pe) :
    (putPointers i as p).stack = p.stack := by
  induction as generalizing i with
  | nil => rfl
  | cons a as ih => exact ih (i + 1)

theorem putPointers_page (i : ℕ) (as : List ℤ) (p : Pe) (k : ℕ) (hk : k < as.length) :
    (putPointers i as p).page (i + k) = UInt64.ofInt as[k] := by
  induction as generalizing i k with
  | nil => exact absurd hk (Nat.not_lt_zero k)
  | cons a as ih =>
    change (if i + k = i then UInt64.ofInt a else (putPointers (i + 1) as p).page (i + k)) = _
    cases k with
    | zero => exact if_pos rfl
    | succ k =>
      rw [if_neg (by omega), List.getElem_cons_succ, ← ih (i + 1) k (Nat.lt_of_succ_lt_succ hk)]
      congr 1
      omega

theorem mem_putPointers (i : ℕ) (as : List ℤ) (p : Pe) (hp : p.wrote = []) (j : ℕ) :
    j ∈ (putPointers i as p).wrote ↔ i ≤ j ∧ j < i + as.length := by
  induction as generalizing i with
  | nil =>
    rw [putPointers, hp, List.length_nil]
    simp
  | cons a as ih =>
    change j ∈ (putPointers (i + 1) as p).wrote ++ [i] ↔ _
    rw [List.mem_append, ih, List.mem_singleton, List.length_cons]
    omega

theorem pushWord_spec (w : UInt64) (s : PushDown UInt8) (h : s.sp % 8 = 0) :
    (pushWord w s).sp = s.sp - 8 ∧ s.Extends (pushWord w s) ∧
      Holds (pushWord w s).mem (pushWord w s).sp (wordBytes w) := by
  have hat : alignDown 8 (s.sp - 8) = s.sp - 8 := by
    unfold alignDown
    omega
  refine ⟨hat, extends_place ?_, place_holds _ _ _⟩
  rw [hat, length_wordBytes]
  omega

/-- What `AuProcessEntUser` leaves. -/
structure PeBuilt (u : UserEntry) (strs : List CStr) (s : PushDown UInt8) (r : Pe) : Prop where
  sp : r.stack.sp = alignDown 16 (s.sp - ((strs.map pushed).map List.length).sum) - 16
  below : s.Extends r.stack
  last : (r.stack.sp, 8) ∈ r.stack.wrote
  put : Holds r.stack.mem r.stack.sp ([UInt64.ofInt u.num_args, u.argvaddr].flatMap wordBytes)
  pointers : ∃ ps : List ℤ,
    List.Forall₂ (fun p x => (r.stack.sp ≤ p ∧ p ≤ s.sp) ∧ Holds r.stack.mem p (pushed x)) ps strs ∧
    (∀ k, ∀ h : k < ps.length, r.page k = UInt64.ofInt ps[k]) ∧
    ∀ j, j ∈ r.wrote ↔ j < ps.length

theorem pe_built (u : UserEntry) (s : PushDown UInt8) {r : Pe} (h : peUserStack u s = some r) :
    PeBuilt u (readArgs u.argvs u.num_args.toNat) s r := by
  unfold peUserStack at h
  split at h
  · cases h
  · generalize readArgs u.argvs u.num_args.toNat = strs at h ⊢
    have hsp := putAll_sp (fun (l : List UInt8) s => putEach_sp s l) (strs.map pushed) s
    have hbelow := extends_putAll (fun l s => extends_putEach s l) (strs.map pushed) s
    have hstrs := putAll_holds (fun l s => extends_putEach s l) (fun l s => putEach_holds s l)
      (strs.map pushed) s
    rw [List.forall₂_map_right_iff] at hstrs
    generalize putAll putEach (strs.map pushed) s = q at hsp hbelow hstrs h
    obtain ⟨s₁, ps⟩ := q
    dsimp only at hsp hbelow hstrs h
    obtain rfl := Option.some.inj h
    have hmod := alignDown_mod s₁.sp
    have halign := extends_lower (alignDown_le (by decide : (0 : ℤ) < 16) s₁.sp)
    generalize hs₂ : s₁.lower (alignDown 16 s₁.sp) = s₂ at halign
    have hsp₂ : s₂.sp = alignDown 16 s₁.sp := hs₂ ▸ rfl
    have hargv := pushWord_spec u.argvaddr s₂ (by omega)
    have hargc := pushWord_spec (UInt64.ofInt u.num_args) (pushWord u.argvaddr s₂) (by omega)
    have hlast : ((pushWord (UInt64.ofInt u.num_args) (pushWord u.argvaddr s₂)).sp, 8) ∈
        (pushWord (UInt64.ofInt u.num_args) (pushWord u.argvaddr s₂)).wrote := by
      rw [← length_wordBytes (UInt64.ofInt u.num_args)]
      exact mem_wrote_place _ _ _
    generalize pushWord u.argvaddr s₂ = s₃ at hargv hargc hlast
    generalize pushWord (UInt64.ofInt u.num_args) s₃ = s₄ at hargc hlast
    have hsp₄ : alignDown 16 s₄.sp = s₄.sp := by
      unfold alignDown
      omega
    rw [hsp₄]
    have htail := (halign.trans hargv.2.1).trans hargc.2.1
    have hstack := putPointers_stack 0 ps ⟨s₄.lower s₄.sp, fun _ => 0, []⟩
    constructor
    · rw [hstack]
      change s₄.sp = _
      rw [hargc.1, hargv.1, hsp₂, hsp]
      omega
    · rw [hstack]
      exact hbelow.trans htail
    · rw [hstack]
      exact hlast
    · rw [hstack]
      apply hargc.2.2.append
      have hat : s₄.sp + (wordBytes (UInt64.ofInt u.num_args)).length = s₃.sp := by
        rw [length_wordBytes, hargc.1]
        omega
      rw [hat]
      have hold := hargc.2.1.holds le_rfl hargv.2.2
      rwa [← List.append_nil (wordBytes u.argvaddr)] at hold
    · refine ⟨ps, ?_, ?_, ?_⟩
      · rw [hstack]
        apply hstrs.imp
        intro p x hp
        exact ⟨⟨htail.le.trans hp.1.1, hp.1.2⟩, htail.holds hp.1.1 hp.2⟩
      · intro k hk
        have hpage := putPointers_page 0 ps ⟨s₄.lower s₄.sp, fun _ => 0, []⟩ k hk
        rwa [Nat.zero_add] at hpage
      · intro j
        rw [mem_putPointers 0 ps _ rfl]
        omega

/-- The program finds the count and a page of pointers to the strings, and nothing was written
outside the page, which has room for 512 of them, and the stack. -/
structure PeRight (strs : List CStr) (mapped : Bool) (r : Pe) : Prop where
  page : ∀ i ∈ r.wrote, mapped ∧ i < 512
  inside : InStack r.stack
  aligned : r.stack.sp % 16 = 0
  layout : ∃ argv, Holds r.stack.mem r.stack.sp
      ([UInt64.ofNat strs.length, argv].flatMap wordBytes) ∧ (strs ≠ [] → argv = 0x40000000000)
  pointers : ∃ ptrs, PointTo r.stack.mem ptrs strs ∧ ∀ k, ∀ h : k < ptrs.length, r.page k = ptrs[k]

theorem length_le_total {strs : List CStr} {x : CStr} (h : x ∈ strs) :
    (x.1.length : ℤ) + 1 ≤ total strs := by
  unfold total
  have hmem : (text x).length ∈ (strs.map text).map List.length :=
    List.mem_map_of_mem (List.mem_map_of_mem h)
  have hle := List.single_le_sum (fun _ _ => Nat.zero_le _) _ hmem
  rw [text, List.length_append, List.length_singleton] at hle
  omega

/-- A string of fewer characters than an `int` can count is pushed whole. -/
theorem pushed_eq {x : CStr} (h : x.1.length < 2 ^ 31) : pushed x = text x := by
  rw [pushed, text, List.take_of_length_le]
  omega

/-- Where an intact copy is found, the whole string was pushed. -/
theorem pushed_eq_of_holds {mem : ℤ → UInt8} {p : ℤ} {x : CStr} (hp : Holds mem p (pushed x))
    (ht : Holds mem p (text x)) : pushed x = text x := by
  unfold pushed text at *
  generalize ((((x.1.length : ℤ) + 2 ^ 31) % 2 ^ 32 - 2 ^ 31).toNat) = n at hp ⊢
  rcases Nat.lt_or_ge n x.1.length with hlt | hge
  · have hlen : (x.1.take n).length = n := List.length_take_of_le hlt.le
    have hzero := hp n (by rw [List.length_append, hlen]; exact Nat.lt_succ_self n)
    have hchar := ht n (by rw [List.length_append]; omega)
    rw [List.getElem_append_right (by omega)] at hzero
    rw [List.getElem_append_left hlt, hzero, List.getElem_singleton] at hchar
    have hmem := List.getElem_mem hlt
    rw [← hchar] at hmem
    exact absurd hmem x.2
  · rw [List.take_of_length_le hge]

theorem PeBuilt.right_iff {u : UserEntry} {strs : List CStr} {s : PushDown UInt8} {r : Pe}
    (h : PeBuilt u strs s r) (mapped : Bool) (hargs : u.num_args = strs.length)
    (hargv : u.argvaddr = if strs ≠ [] ∧ mapped then 0x40000000000 else 0)
    (hsp : s.sp = main_stack - 32) (hwrote : s.wrote = []) :
    PeRight strs mapped r ↔ (strs = [] ∨ mapped ∧ strs.length ≤ 512) ∧
      total strs + 48 ≤ PROCESS_USER_STACK_SZ := by
  obtain ⟨ps, hps, hpage, hwrites⟩ := h.pointers
  have hcount := hps.length_eq
  have htop : main_stack = 0xA000080000 := by decide
  have hbottom : stackBase = 0xA000000000 := rfl
  have hr := h.sp
  have hle := h.below.le
  have hroom (hsum : strs.map pushed = strs.map text) :
      stackBase ≤ r.stack.sp ↔ total strs + 48 ≤ PROCESS_USER_STACK_SZ := by
    rw [hr, hsum, hsp]
    change stackBase ≤ alignDown 16 (main_stack - 32 - total strs) - 16 ↔ _
    unfold main_stack stackBase PROCESS_USER_STACK_SZ alignDown
    omega
  constructor
  · intro hright
    have hbase := (hright.inside _ h.last).1
    obtain ⟨ptrs, hptrs, hpk⟩ := hright.pointers
    have hsum : strs.map pushed = strs.map text := by
      apply List.map_congr_left
      intro x hx
      obtain ⟨k, hk, rfl⟩ := List.getElem_of_mem hx
      have hp := hps.get (by omega) hk
      have ht := hptrs.get (hptrs.length_eq ▸ hk) hk
      have heq := (hpk k (hptrs.length_eq ▸ hk)).symm.trans (hpage k (by omega))
      simp only [List.get_eq_getElem] at hp ht
      rw [heq, toNat_ofInt (by omega) (by omega)] at ht
      exact pushed_eq_of_holds hp.2 ht
    refine ⟨?_, (hroom hsum).1 hbase⟩
    rcases Nat.eq_zero_or_pos strs.length with h0 | hpos
    · exact Or.inl (List.length_eq_zero_iff.1 h0)
    · right
      have hlast := hright.page (strs.length - 1) ((hwrites _).2 (by omega))
      exact ⟨hlast.1, by omega⟩
  · rintro ⟨hfit, hneed⟩
    have hsum : strs.map pushed = strs.map text := by
      apply List.map_congr_left
      intro x hx
      have hx' := length_le_total hx
      apply pushed_eq
      unfold PROCESS_USER_STACK_SZ at hneed
      omega
    have hbase := (hroom hsum).2 hneed
    constructor
    · intro i hi
      have hlt := (hwrites i).1 hi
      rcases hfit with rfl | hfit
      · simp only [List.length_nil] at hcount
        omega
      · exact ⟨hfit.1, by omega⟩
    · intro w hw
      have hin := h.below.inside hwrote w hw
      omega
    · have hmod := alignDown_mod (s.sp - ((strs.map pushed).map List.length).sum)
      omega
    · refine ⟨u.argvaddr, ?_, ?_⟩
      · have hput := h.put
        rw [hargs, ofInt_natCast] at hput
        exact hput
      · intro hne
        rw [hargv, if_pos ⟨hne, (hfit.resolve_left hne).1⟩]
    · refine ⟨ps.map UInt64.ofInt, ?_, ?_⟩
      · have htexts := (List.forall₂_map_right_iff (R := fun p l =>
          (r.stack.sp ≤ p ∧ p ≤ s.sp) ∧ Holds r.stack.mem p l)).2 hps
        rw [hsum, List.forall₂_map_right_iff] at htexts
        exact pointTo_of htexts (by omega) (by omega)
      · intro k hk
        rw [List.length_map] at hk
        rw [hpage k hk, List.getElem_map]

/-- A PE program finds what it reads just when it has no arguments, or a vector of at most 512 for
which there is a page, and the stack has room for the strings and the two words. -/
theorem peRight_iff (a : Args) (ent : UInt64) (mapped : Bool) (m : ℤ → UInt8) :
    (∃ r, entUserPe (peEntry ent mapped a.argc a.argv) m = some r ∧
        PeRight a.strings mapped r) ↔
      (a.argc = 0 ∨ a.argv ≠ none ∧ mapped ∧ a.argc ≤ 512) ∧
        total a.strings + 48 ≤ PROCESS_USER_STACK_SZ := by
  have hlen := a.length_strings
  have hnil : a.strings = [] ↔ a.argc = 0 := by rw [← hlen, List.length_eq_zero_iff]
  unfold entUserPe
  generalize hu : enter (peEntry ent mapped a.argc a.argv) = u
  have hargs : u.num_args = a.argc := by rw [← hu]; rfl
  have hargvs : u.argvs = if a.argc = 0 then none else a.argv.map kargv := by
    rw [← hu]
    simp [enter, peEntry]
  have hnone : u.argvs = none ∧ 0 < u.num_args ↔ a.argv = none ∧ a.argc ≠ 0 := by
    rw [hargvs, hargs]
    split <;> simp_all [Nat.pos_iff_ne_zero]
  by_cases hnull : a.argv = none ∧ a.argc ≠ 0
  · apply iff_of_false
    · rintro ⟨r, hr, -⟩
      rw [peUserStack, if_pos (hnone.2 hnull)] at hr
      cases hr
    · rintro ⟨h0 | hsome, -⟩
      · exact hnull.2 h0
      · exact hsome.1 hnull.1
  · obtain ⟨r, hr⟩ : ∃ r, peUserStack u (start u m) = some r := by
      rw [peUserStack, if_neg fun h => hnull (hnone.1 h)]
      exact ⟨_, rfl⟩
    have hbuilt := pe_built u (start u m) hr
    rw [hargs, Int.toNat_natCast, readArgs_eq a u.argvs hargvs] at hbuilt
    have hiff := hbuilt.right_iff mapped (by rw [hargs, hlen]) (by
      rw [← hu]
      simp only [enter, peEntry, ne_eq, Int.natCast_eq_zero, hnil]) (by rw [← hu]; rfl) rfl
    rw [hr]
    constructor
    · rintro ⟨r', hr', hright⟩
      obtain rfl := Option.some.inj hr'
      have hfit := hiff.1 hright
      rw [hnil, hlen] at hfit
      refine ⟨?_, hfit.2⟩
      by_cases h0 : a.argc = 0
      · exact Or.inl h0
      · exact Or.inr ⟨fun h => hnull ⟨h, h0⟩, hfit.1.resolve_left h0⟩
    · rintro ⟨hfit, hneed⟩
      refine ⟨r, rfl, hiff.2 ⟨?_, hneed⟩⟩
      rw [hnil, hlen]
      exact hfit.imp id fun h => h.2

/-- The two entry paths. The word vector of an ELF program has room for 17 arguments and the page of
a PE program for 512, the stack is not measured, and a `NULL` vector of empty strings is read. -/
theorem initialStack_right_iff (a : Args) (entry phdr_va ent : UInt64) (phentsize phnum : UInt16)
    (mapped : Bool) (m : ℤ → UInt8) :
    (LinuxRight a.strings
        (entUserLinux (elfEntry entry phdr_va phentsize phnum a.argc a.argv) m) ↔
      a.argc ≤ 17 ∧ linuxNeed a.strings ≤ PROCESS_USER_STACK_SZ) ∧
    ((∃ r, entUserPe (peEntry ent mapped a.argc a.argv) m = some r ∧
        PeRight a.strings mapped r) ↔
      (a.argc = 0 ∨ a.argv ≠ none ∧ mapped ∧ a.argc ≤ 512) ∧
        total a.strings + 48 ≤ PROCESS_USER_STACK_SZ) :=
  ⟨linuxRight_iff a entry phdr_va phentsize phnum m, peRight_iff a ent mapped m⟩

/-- Eighteen arguments. -/
def eighteen : Args := ⟨18, by decide, some (List.replicate 18 (some ⟨[97], by decide⟩)), by simp⟩

/-- With them the words are one more than the vector has room for. -/
theorem linuxStack_eighteen :
    ¬ LinuxRight eighteen.strings
      (entUserLinux (elfEntry 0 0 56 1 18 eighteen.argv) fun _ => 0) := by
  intro h
  have h17 := ((linuxRight_iff eighteen 0 0 56 1 fun _ => 0).1 h).1
  exact absurd h17 (by decide)

end Xeneva.Loader
