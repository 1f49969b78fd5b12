import Mathlib.Algebra.Group.Nat.Defs
import Mathlib.Logic.Function.Basic
import SceLibcPosix.Errno
import SceLibcPosix.Lib.Loops

namespace SceLibcPosix.Locale

open Errno Loops Function

def NUL : Char := Char.ofNat 0

/-- A pointer into the format: the memory from it on, behind which there are null characters only,
its place, and the places that have been read. -/
structure Cursor where
  rest : List Char
  pos : ℕ := 0
  reads : List ℕ := []

namespace Cursor

def char (c : Cursor) : Char := c.rest.headD NUL

def read (c : Cursor) : Cursor := { c with reads := c.pos :: c.reads }

def next (c : Cursor) : Cursor := { c with rest := c.rest.tail, pos := c.pos + 1 }

end Cursor

/-- The memory at `s`, with the places that have been stored to. -/
structure Buffer where
  bytes : ℕ → Char
  stored : ℕ → Bool := fun _ ↦ false

namespace Buffer

def store (b : Buffer) (i : ℕ) (c : Char) : Buffer where
  bytes := update b.bytes i c
  stored := update b.stored i true

def write (b : Buffer) (i : ℕ) : List Char → Buffer
  | [] => b
  | c :: cs => (b.store i c).write (i + 1) cs

/-- What `snprintf` stores of the text `out` if it has `n` places. -/
def snprintf (b : Buffer) (s n : ℕ) (out : List Char) : Buffer :=
  if n = 0 then b else b.write s (out.take (n - 1) ++ [NUL])

end Buffer

def int (x : ℤ) : ℤ := x.bmod (2 ^ 32)

structure Flags where
  fill : Char := ' '
  nogrp : Bool := false
  negpar : Bool := false
  nosym : Bool := false
  left : Bool := false

/-- The cases of the `switch` but that of the fill character. -/
def Flags.set (f : Flags) : Char → Option Flags
  | '^' => some { f with nogrp := true }
  | '(' => some { f with negpar := true }
  | '+' => some f
  | '!' => some { f with nosym := true }
  | '-' => some { f with left := true }
  | _ => none

def flagLoop : List Char → Flags → ℕ → List ℕ → Flags × Cursor
  | [], f, pos, reads => (f, ⟨[], pos, pos :: reads⟩)
  | c :: rest, f, pos, reads =>
    if c = '=' then
      match rest with
      | [] => ({ f with fill := NUL }, ⟨[], pos + 2, (pos + 2) :: (pos + 1) :: pos :: reads⟩)
      | fill :: rest => flagLoop rest { f with fill := fill } (pos + 2) ((pos + 1) :: pos :: reads)
    else
      match f.set c with
      | some f => flagLoop rest f (pos + 1) (pos :: reads)
      | none => (f, ⟨c :: rest, pos, pos :: reads⟩)

def digitLoop : List Char → ℤ → ℕ → List ℕ → ℤ × Cursor
  | [], v, pos, reads => (v, ⟨[], pos, pos :: reads⟩)
  | c :: rest, v, pos, reads =>
    if c.isDigit then digitLoop rest (int (10 * v + (c.toNat - '0'.toNat))) (pos + 1) (pos :: reads)
    else (v, ⟨c :: rest, pos, pos :: reads⟩)

/-- A number behind its mark, if it is there. -/
def Cursor.field (c : Cursor) (mark : Char) (v : ℤ) : ℤ × Cursor :=
  if c.char = mark then digitLoop c.read.next.rest 0 c.read.next.pos c.read.next.reads
  else (v, c.read)

def width (left : Bool) (fw lp rp : ℤ) : ℤ :=
  let w := int (lp + 1 + rp)
  if !left ∧ fw > w then fw else w

/-- A directive from its flags to its letter: the arguments of `snprintf`, and the place of the
letter. -/
def Cursor.directive (c : Cursor) : ℤ × ℤ × Cursor :=
  let flags := flagLoop c.rest {} c.pos c.reads
  let fw := digitLoop flags.2.rest 0 flags.2.pos flags.2.reads
  let lp := fw.2.field '#' 0
  let rp := lp.2.field '.' 2
  (width flags.1.left fw.1 lp.1 rp.1, rp.1, rp.2)

/-- The variables of `vstrfmon_l`, with the number of arguments taken from `ap`. -/
structure State where
  fmt : Cursor
  s : ℕ
  n : ℕ
  buf : Buffer
  args : ℕ := 0
  failed : Bool := false

/-- `*s++ = *fmt++; n--;` -/
def State.literal (st : State) : State :=
  { st with
    fmt := st.fmt.read.next
    s := st.s + 1
    n := st.n - 1
    buf := st.buf.store st.s st.fmt.char }

/-- The end of a turn on a directive. `render` gives the text of a number: that of the argument with
this index, for a width and a precision. -/
def State.convert (st : State) (render : ℕ → ℤ → ℤ → List Char) : Turn State :=
  let (w, rp, fmt) := st.fmt.directive
  let out := render st.args w rp
  let st := { st with
    fmt := fmt.read.next
    args := st.args + 1
    buf := st.buf.snprintf st.s st.n out }
  if out.length ≥ st.n then .stop { st with failed := true }
  else .next { st with s := st.s + out.length, n := st.n - out.length }

def turn (render : ℕ → ℤ → ℤ → List Char) (st : State) : Turn State :=
  if st.n = 0 then .stop st
  else
    let st := { st with fmt := st.fmt.read }
    if st.fmt.char = NUL then .stop st
    else if st.fmt.char ≠ '%' then .next st.literal
    else
      let st := { st with fmt := st.fmt.next.read }
      if st.fmt.char = '%' then .next st.literal else st.convert render

/-- The result of `vstrfmon_l`, the error number if it has been set, and the last state. -/
structure Outcome where
  ret : ℤ
  errno : Option ℤ
  last : State

def State.outcome (st : State) : Outcome :=
  if st.failed then ⟨-1, some E2BIG, st⟩ else ⟨st.s, none, st⟩

def vstrfmonL (render : ℕ → ℤ → ℤ → List Char) (n : ℕ) (fmt : List Char) (bytes : ℕ → Char)
    (fuel : ℕ) : Option Outcome :=
  (run (turn render) fuel { fmt := ⟨fmt, 0, []⟩, s := 0, n := n, buf := { bytes := bytes } }).map
    State.outcome

end SceLibcPosix.Locale
