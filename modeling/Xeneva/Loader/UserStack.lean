import Xeneva.Base.PushDown

/-!
# The initial stack of a process

The arguments are copied by the loader and pushed by the first thread, for an ELF program with the
words that its startup code reads, for a PE program with a page of pointers.
-/

namespace Xeneva.Loader

open Base Base.PushDown

/-- What is before the terminator of a string. -/
abbrev CStr : Type := { l : List UInt8 // 0 ∉ l }

def empty : CStr := ⟨[], List.not_mem_nil⟩

/-- A string with its terminator. -/
def text (s : CStr) : List UInt8 := s.1 ++ [0]

def wordBytes (w : UInt64) : List UInt8 :=
  (List.range 8).map fun k => (w >>> UInt64.ofNat (8 * k)).toUInt8

def PAGE_SIZE : ℕ := 4096

/-- `USER_STACK`, where the stack of the main thread begins. -/
def stackBase : ℤ := 0xA000000000

def PROCESS_USER_STACK_SZ : ℤ := 512 * 1024

def main_stack : ℤ := stackBase + PROCESS_USER_STACK_SZ

/-- A multiple of `n` at or below an address. -/
def alignDown (n a : ℤ) : ℤ := a - a % n

structure UserEntry where
  rsp : ℤ
  entrypoint : UInt64
  num_args : ℤ
  argvaddr : UInt64
  /-- Whether `argvkernel` is the page of the argument pointers, or zero. -/
  argvkernel : Bool
  /-- `NULL`, or the strings. -/
  argvs : Option (List CStr)
  linux_phdr : UInt64
  linux_phent : UInt16
  linux_phnum : UInt16

/-- The copies of the strings, of which `NULL` ones are empty. -/
def kargv (argv : List (Option CStr)) : List CStr := argv.map fun s => s.getD empty

/-- The end of `AuLoadElfImage`. -/
def elfEntry (entry phdr_va : UInt64) (e_phentsize e_phnum : UInt16) (argc : ℤ)
    (argv : Option (List (Option CStr))) : UserEntry where
  rsp := main_stack
  entrypoint := entry
  num_args := argc
  argvaddr := 0
  argvkernel := false
  argvs := if 0 < argc then argv.map kargv else none
  linux_phdr := phdr_va
  linux_phent := e_phentsize
  linux_phnum := e_phnum

/-- The end of `AuLoadExecToProcess`, where `mapped` says that the page of the arguments is free. -/
def peEntry (ent : UInt64) (mapped : Bool) (argc : ℤ) (argv : Option (List (Option CStr))) :
    UserEntry where
  rsp := main_stack
  entrypoint := ent
  num_args := argc
  argvaddr := if argc ≠ 0 ∧ mapped then 0x40000000000 else 0
  argvkernel := argc ≠ 0 ∧ mapped
  argvs := if argc ≠ 0 then argv.map kargv else none
  linux_phdr := 0
  linux_phent := 0
  linux_phnum := 0

/-- The auxiliary vector before its end. -/
def auxv (u : UserEntry) (random_user execfn_user : UInt64) : List (UInt64 × UInt64) :=
  [(3, u.linux_phdr), (4, u.linux_phent.toUInt64), (5, u.linux_phnum.toUInt64),
    (6, UInt64.ofNat PAGE_SIZE), (9, u.entrypoint), (11, 0), (12, 0), (13, 0), (14, 0), (16, 3),
    (17, 100), (25, random_user), (31, execfn_user)]

def pairWords (l : List (UInt64 × UInt64)) : List UInt64 := l.flatMap fun p => [p.1, p.2]

/-- `"/guest.elf"` with its terminator. -/
def execfn : List UInt8 := [47, 103, 117, 101, 115, 116, 46, 101, 108, 102, 0]

/-- The stack, the addresses in `argv_user`, and the words that are put into `words`. -/
structure Linux where
  stack : PushDown UInt8
  argv_user : List ℤ
  words : List UInt64

/-- The count of arguments that is used. -/
def linuxArgc (u : UserEntry) : ℤ :=
  if u.num_args < 0 then 0 else if 32 < u.num_args then 32 else u.num_args

/-- The strings that the first `n` pointers are read as. -/
def readArgs (argvs : Option (List CStr)) (n : ℕ) : List CStr :=
  (List.range n).map fun i =>
    match argvs with
    | none => empty
    | some argvs => argvs.getD i empty

/-- `AuLinuxBuildUserStack`. -/
def linuxBuildUserStack (u : UserEntry) (s : PushDown UInt8) : Linux :=
  let argc := linuxArgc u
  let (s, argv_user) := putAll put ((readArgs u.argvs argc.toNat).map text)
    (s.lower (alignDown 16 u.rsp))
  let s := s.put execfn
  let execfn_user := s.sp
  let s := s.put (wordBytes (0xA5A5A5A5A5A5A5A5 ^^^ u.entrypoint) ++
    wordBytes (0x1234567890ABCDEF ^^^ UInt64.ofInt argc))
  let random_user := s.sp
  let sp := alignDown 16 s.sp
  let words := UInt64.ofInt argc :: argv_user.map UInt64.ofInt ++ [0, 0] ++
    pairWords (auxv u (UInt64.ofInt random_user) (UInt64.ofInt execfn_user)) ++ [0, 0]
  { stack := s.place (alignDown 16 (sp - 8 * words.length)) (words.flatMap wordBytes)
    argv_user := argv_user
    words := words }

/-- The stack, and the page of the argument pointers with the places that are written in it. -/
structure Pe where
  stack : PushDown UInt8
  page : ℕ → UInt64
  wrote : List ℕ

/-- The pointers are put into the page, the last one first. -/
def putPointers : ℕ → List ℤ → Pe → Pe
  | _, [], p => p
  | i, a :: as, p =>
    let p := putPointers (i + 1) as p
    { p with
      page := fun k => if k = i then UInt64.ofInt a else p.page k
      wrote := p.wrote ++ [i] }

/-- `PUSH` of a word. -/
def pushWord (w : UInt64) (s : PushDown UInt8) : PushDown UInt8 :=
  s.place (alignDown 8 (s.sp - 8)) (wordBytes w)

/-- What the loop over the characters of a string pushes; their number is an `int`. -/
def pushed (s : CStr) : List UInt8 :=
  s.1.take (((s.1.length : ℤ) + 2 ^ 31) % 2 ^ 32 - 2 ^ 31).toNat ++ [0]

/-- `AuProcessEntUser`, when the process is not a Linux one. There is no result when it reads the
strings of a `NULL` vector. -/
def peUserStack (u : UserEntry) (s : PushDown UInt8) : Option Pe :=
  if u.argvs = none ∧ 0 < u.num_args then none
  else
    let (s, ptrs) := putAll putEach ((readArgs u.argvs u.num_args.toNat).map pushed) s
    let s := s.lower (alignDown 16 s.sp)
    let s := pushWord u.argvaddr s
    let s := pushWord (UInt64.ofInt u.num_args) s
    some (putPointers 0 ptrs ⟨s.lower (alignDown 16 s.sp), fun _ => 0, []⟩)

/-- The pointer that `AuProcessEntUser` starts with. -/
def enter (u : UserEntry) : UserEntry := { u with rsp := alignDown 16 (u.rsp - 32) }

/-- The memory of the stack before the first thread runs. -/
def start (u : UserEntry) (m : ℤ → UInt8) : PushDown UInt8 := ⟨u.rsp, m, []⟩

def entUserLinux (u : UserEntry) (m : ℤ → UInt8) : Linux :=
  linuxBuildUserStack (enter u) (start (enter u) m)

def entUserPe (u : UserEntry) (m : ℤ → UInt8) : Option Pe :=
  peUserStack (enter u) (start (enter u) m)

end Xeneva.Loader
