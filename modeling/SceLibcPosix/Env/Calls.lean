import SceLibcPosix.Errno
import SceLibcPosix.Lib.Heap

namespace SceLibcPosix.Env

open Errno Heaps

/-- The bytes of a C string before its terminator. -/
abbrev CString := List UInt8

def equalsSign : UInt8 := 61

/-- `__strchrnul`, as an index. -/
def strchrnul (s : CString) (c : UInt8) : ℕ := s.findIdx (· = c)

/-- `strncmp` returns 0. -/
def strncmpEq (s t : CString) (n : ℕ) : Bool := s.take n = t.take n

/-- What the allocations of one call answer: the string, the new array, and the list of strings. -/
structure Answers where
  string : Bool
  array : Bool
  list : Bool
deriving DecidableEq, Repr

/-- `errno`, `environ`, the static variables of `__putenv` and `__env_rm_add`, and the two kinds of
blocks: strings, with what they hold, and arrays. `envAlloced` is the used part of `env_alloced`. -/
structure State where
  errno : ℤ
  strings : Heap
  text : Pointer → CString
  arrays : Heap
  cells : Pointer → List (Option Pointer)
  environ : Option Pointer
  oldenv : Option Pointer
  envAlloced : List (Option Pointer)

def entries : List (Option Pointer) → List Pointer
  | some e :: c => e :: entries c
  | none :: _ | [] => []

namespace State

def table (m : State) : List (Option Pointer) := m.environ.elim [] m.cells

def env (m : State) : List Pointer := entries m.table

def setTable (m : State) (c : List (Option Pointer)) : State :=
  match m.environ with
  | none => m
  | some a => { m with cells := fun p ↦ if p = a then c else m.cells p }

def fail (m : State) (errno : ℤ) : ℤ × State := (-1, { m with errno := errno })

end State

/-- The environment before the first call. `lent` are the strings that the program owns. -/
def initEnv (lent : ℕ → CString) : State where
  errno := 0
  strings := {}
  text
    | .block _ => []
    | .foreign n => lent n
  arrays := {}
  cells := fun _ ↦ []
  environ := none
  oldenv := none
  envAlloced := []

/-- The loop of `__env_rm_add`: whether it has found `old`, what is left of `new`, and the list. -/
def rmAddScan (old : Option Pointer) :
    Option Pointer → List (Option Pointer) → Bool × Option Pointer × List (Option Pointer)
  | new, [] => (false, new, [])
  | new, a :: l =>
    if a = old then (true, none, new :: l)
    else if a = none ∧ new ≠ none then
      let res := rmAddScan old none l
      (res.1, res.2.1, new :: res.2.2)
    else
      let res := rmAddScan old new l
      (res.1, res.2.1, a :: res.2.2)

def envRmAdd (m : State) (k : Answers) (old new : Option Pointer) : State :=
  let (found, left, l) := rmAddScan old new m.envAlloced
  let m := { m with envAlloced := l }
  if found then { m with strings := m.strings.free old }
  else if left = none then m
  else if !k.list then { m with errno := ENOMEM }
  else { m with envAlloced := l ++ [left] }

/-- The loop of `__putenv`: the entry that `s` replaces and the array after that. -/
def replaceEntry (same : Pointer → Bool) (s : Pointer) :
    List (Option Pointer) → Option (Pointer × List (Option Pointer))
  | some e :: c =>
    if same e then some (e, some s :: c)
    else (replaceEntry same s c).map fun r ↦ (r.1, some e :: r.2)
  | none :: _ | [] => none

/-- The allocation of `__putenv` and the cells that it copies. The array that it has made before
grows where it is; after `clearenv` there is a new one, and the old one is freed. -/
def newTable (m : State) (k : Answers) (i : ℕ) :
    Option Pointer × Heap × List (Option Pointer) :=
  if m.environ = m.oldenv then
    let res := m.arrays.realloc k.array m.oldenv
    (res.1, res.2, (m.oldenv.elim [] m.cells).take i)
  else
    let res := m.arrays.malloc k.array
    (res.1, if res.1 = none then res.2 else res.2.free m.oldenv, m.table.take i)

def putenv' (m : State) (k : Answers) (s : Pointer) (l : ℕ) (r : Option Pointer) : ℤ × State :=
  match replaceEntry (fun e ↦ strncmpEq (m.text s) (m.text e) (l + 1)) s m.table with
  | some (tmp, c) => (0, envRmAdd (m.setTable c) k (some tmp) r)
  | none =>
    let res := newTable m k m.env.length
    match res.1 with
    | none => { m with strings := m.strings.free r }.fail ENOMEM
    | some a =>
      let m := { m with
        arrays := res.2.1
        cells := fun p ↦ if p = a then res.2.2 ++ [some s, none] else m.cells p
        environ := some a
        oldenv := some a }
      (0, if r = none then m else envRmAdd m k none r)

/-- The test of the loops over the names: the entry is `name`, then `=`. -/
def named (m : State) (name : CString) (l : ℕ) (e : Pointer) : Bool :=
  strncmpEq name (m.text e) l && (m.text e)[l]? = some equalsSign

/-- The loop of `unsetenv`: the state and the entries that stay. -/
def unsetLoop (k : Answers) (name : CString) (l : ℕ) :
    State → List Pointer → List Pointer → State × List Pointer
  | m, kept, [] => (m, kept)
  | m, kept, e :: es =>
    if named m name l e then unsetLoop k name l (envRmAdd m k (some e) none) kept es
    else unsetLoop k name l m (kept ++ [e]) es

def unsetenv (m : State) (k : Answers) (name : CString) : ℤ × State :=
  let l := strchrnul name equalsSign
  if l = 0 ∨ l < name.length then m.fail EINVAL
  else
    let (m, kept) := unsetLoop k name l m [] m.env
    -- the entries that stay move to the front of the array, which is not made shorter
    let rest := m.table.drop kept.length
    (0, m.setTable (kept.map some ++
      if kept.length ≠ m.env.length then none :: rest.drop 1 else rest))

def getenv (m : State) (name : CString) : Option CString :=
  let l := strchrnul name equalsSign
  if l ≠ 0 ∧ l = name.length then
    (m.env.find? (named m name l)).map fun e ↦ (m.text e).drop (l + 1)
  else none

/-- `putenv`, given one of its caller's strings. -/
def putenv (m : State) (k : Answers) (n : ℕ) : ℤ × State :=
  let s := m.text (.foreign n)
  let l := strchrnul s equalsSign
  if l = 0 ∨ l = s.length then unsetenv m k s
  else putenv' m k (.foreign n) l none

def setenv (m : State) (k : Answers) (var : Option CString) (value : CString) (overwrite : Bool) :
    ℤ × State :=
  match var with
  | none => m.fail EINVAL
  | some var =>
    let l₁ := strchrnul var equalsSign
    if l₁ = 0 ∨ l₁ < var.length then m.fail EINVAL
    else if !overwrite ∧ (getenv m var).isSome then (0, m)
    else
      match m.strings.malloc k.string with
      | (none, _) => m.fail ENOMEM
      | (some s, strings) =>
        let m := { m with
          strings := strings
          text := fun p ↦ if p = s then var ++ equalsSign :: value else m.text p }
        putenv' m k s l₁ (some s)

def clearenv (m : State) (k : Answers) : ℤ × State :=
  (0, m.env.foldl (fun m e ↦ envRmAdd m k (some e) none) { m with environ := none })

end SceLibcPosix.Env
