import Mathlib.Logic.Function.Basic
import SceLibcPosix.Errno
import SceLibcPosix.Net.Aton

namespace SceLibcPosix.Net

open Numerals Errno Function

inductive Family
  | AF_INET
  | AF_INET6
  | other
deriving DecidableEq, Repr

def NS_IN6ADDRSZ : ℕ := 16

def NS_INT16SZ : ℕ := 2

def NS_INADDRSZ : ℕ := 4

def xdigitsL : List Char :=
  ['0', '1', '2', '3', '4', '5', '6', '7', '8', '9', 'a', 'b', 'c', 'd', 'e', 'f']

def xdigitsU : List Char :=
  ['0', '1', '2', '3', '4', '5', '6', '7', '8', '9', 'A', 'B', 'C', 'D', 'E', 'F']

/-- `pch - xdigits`, if the character is in one of the two texts. -/
def xdigit (ch : Char) : Option ℕ := (xdigitsL.idxOf? ch).or (xdigitsU.idxOf? ch)

/-- What `inet_pton` returns, the error number if it sets it, and the memory at `dst`. -/
structure Answer where
  ret : ℤ
  errno : Option ℤ := none
  dst : ℕ → UInt8

/-- The variables of `inet_pton6`, the pointers into `tmp` as indices. -/
structure Pton where
  tmp : ℕ → UInt8 := fun _ ↦ 0
  tp : ℕ := 0
  colonp : Option ℕ := none
  curtok : List Char
  sawXdigit : Bool := false
  val : ℕ := 0

/-- `*tp++ = b;` for each of the bytes. -/
def Pton.put (a : Pton) : List UInt8 → Pton
  | [] => a
  | b :: bs => Pton.put { a with tmp := update a.tmp a.tp b, tp := a.tp + 1 } bs

def Pton.putVal (a : Pton) : Pton := a.put [UInt8.ofNat (a.val >>> 8), UInt8.ofNat a.val]

section

-- What `sceNetInetPton` returns for `AF_INET`, and the bytes that it stores if this is positive.
variable (sceNetInetPton : List Char → ℤ × InAddr)

def inetPton4 (src : List Char) : ℤ :=
  if (sceNetInetPton src).1 < 0 then -1 else (sceNetInetPton src).1

/-- The `while` loop of `inet_pton6`, unless it returns. -/
def ptonLoop : List Char → Pton → Option Pton
  | [], a => some a
  | ch :: src, a =>
    match xdigit ch with
    | some d =>
      let val := a.val <<< 4 ||| d
      if val > 0xffff then none else ptonLoop src { a with val := val, sawXdigit := true }
    | none =>
      if ch = ':' then
        if !a.sawXdigit then
          if a.colonp.isSome then none
          else ptonLoop src { a with curtok := src, colonp := some a.tp }
        else if a.tp + NS_INT16SZ > NS_IN6ADDRSZ then none
        else ptonLoop src { a.putVal with curtok := src, sawXdigit := false, val := 0 }
      else if ch = '.' ∧ a.tp + NS_INADDRSZ ≤ NS_IN6ADDRSZ ∧
          inetPton4 sceNetInetPton a.curtok > 0 then
        some { a.put (sceNetInetPton a.curtok).2.bytes with sawXdigit := false }
      else none

def Pton.close (a : Pton) : Option Pton :=
  if a.sawXdigit then
    if a.tp + NS_INT16SZ > NS_IN6ADDRSZ then none else some a.putVal
  else some a

/-- The loop that moves the `n` bytes at `c` to the end, after `i` turns. -/
def shift (tmp : ℕ → UInt8) (c n : ℕ) : ℕ → ℕ → UInt8
  | 0 => tmp
  | i + 1 =>
    let t := shift tmp c n i
    let t := update t (NS_IN6ADDRSZ - (i + 1)) (t (c + (n - (i + 1))))
    update t (c + (n - (i + 1))) 0

def Pton.expand (a : Pton) : Pton :=
  match a.colonp with
  | none => a
  | some c =>
    { a with tmp := shift a.tmp c (a.tp - c) (a.tp - c), tp := NS_IN6ADDRSZ }

/-- The text from which the loop starts: the first of two leading colons is passed over. -/
def leading (src : List Char) : Option (List Char) :=
  if src.head? = some ':' then
    if src.tail.head? ≠ some ':' then none else some src.tail
  else some src

def inetPton6 (src : List Char) (dst : ℕ → UInt8) : Answer :=
  match (leading src).bind fun src ↦
    (ptonLoop sceNetInetPton src { curtok := src }).bind Pton.close with
  | none => { ret := 0, dst := dst }
  | some a =>
    let a := a.expand
    if a.tp ≠ NS_IN6ADDRSZ then { ret := 0, dst := dst }
    else { ret := 1, dst := fun i ↦ if i < NS_IN6ADDRSZ then a.tmp i else dst i }

def inetPton (af : Family) (src : List Char) (dst : ℕ → UInt8) : Answer :=
  match af with
  | .AF_INET =>
    { ret := inetPton4 sceNetInetPton src
      dst := if (sceNetInetPton src).1 > 0 then
        fun i ↦ (sceNetInetPton src).2.bytes.getD i (dst i) else dst }
  | .AF_INET6 => inetPton6 sceNetInetPton src dst
  | .other => { ret := -1, errno := some EAFNOSUPPORT, dst := dst }

end

/-- A part of a dotted quad: a decimal number of one to three digits, 255 at most. -/
def octet (p : List Char) : Option UInt8 :=
  ((read 10 p).filter fun v ↦ p.length ≤ 3 ∧ v ≤ 255).map UInt8.ofNat

def dottedQuad (s : List Char) : Option InAddr :=
  match s.splitOn '.' with
  | [p₀, p₁, p₂, p₃] => do return ⟨← octet p₀, ← octet p₁, ← octet p₂, ← octet p₃⟩
  | _ => none

def colons (gs : List (List Char)) : List Char := [':'].intercalate gs

/-- A group of one to four hexadecimal digits. In the lax form it may have any number of digits, if
only its value has 16 bits. -/
def IsGroup (lax : Bool) (g : List Char) : Prop :=
  IsNumeral 16 g ∧ if lax then value 16 g < 2 ^ 16 else g.length ≤ 4

instance (lax : Bool) (g : List Char) : Decidable (IsGroup lax g) :=
  inferInstanceAs (Decidable (_ ∧ _))

def groupBytes (g : List Char) : List UInt8 :=
  [UInt8.ofNat (value 16 g / 256), UInt8.ofNat (value 16 g)]

/-- Groups, and the bytes that they denote. A dotted quad may stand for the last two of them. In the
lax form a colon may stand behind the last one. -/
inductive Groups (lax : Bool) : List (List Char) → List UInt8 → Prop
  | nil : Groups lax [] []
  | quad {q : List Char} {a : InAddr} (h : dottedQuad q = some a) : Groups lax [q] a.bytes
  | stray (h : lax = true) : Groups lax [[]] []
  | group {g : List Char} {gs : List (List Char)} {bs : List UInt8} (hg : IsGroup lax g)
    (h : Groups lax gs bs) : Groups lax (g :: gs) (groupBytes g ++ bs)

/-- The text form of an IPv6 address, and the bytes that it denotes: all groups are there, or two
colons stand for one or more of zeros. In the lax form they may stand for none. -/
inductive Ipv6 (lax : Bool) : List Char → List UInt8 → Prop
  | full {gs : List (List Char)} {bs : List UInt8} (h : Groups lax gs bs) (hlen : bs.length = 16) :
    Ipv6 lax (colons gs) bs
  | short {l r : List (List Char)} {bs : List UInt8} (hl : ∀ g ∈ l, IsGroup lax g)
    (h : Groups lax r bs) (hlen : 2 * l.length + bs.length ≤ if lax then 16 else 14) :
    Ipv6 lax (colons l ++ ':' :: ':' :: colons r)
      (l.flatMap groupBytes ++ List.replicate (16 - 2 * l.length - bs.length) 0 ++ bs)

/-- `sceNetInetPton` accepts the dotted quads, with the bytes that they denote. -/
def AcceptsQuads (sceNetInetPton : List Char → ℤ × InAddr) : Prop :=
  ∀ s, dottedQuad s = if (sceNetInetPton s).1 > 0 then some (sceNetInetPton s).2 else none

/-- `inet_pton` accepts the text if it has the strict form, and stores the bytes then; otherwise it
returns 0 and stores nothing. -/
def PtonExact (sceNetInetPton : List Char → ℤ × InAddr) (s : List Char) : Prop :=
  ∀ dst, ((inetPton sceNetInetPton .AF_INET6 s dst).ret = 1 ↔ ∃ bs, Ipv6 false s bs) ∧
    (∀ bs, Ipv6 false s bs →
      (List.range 16).map (inetPton sceNetInetPton .AF_INET6 s dst).dst = bs ∧
        ∀ i, 16 ≤ i → (inetPton sceNetInetPton .AF_INET6 s dst).dst i = dst i) ∧
    ((inetPton sceNetInetPton .AF_INET6 s dst).ret ≠ 1 →
      inetPton sceNetInetPton .AF_INET6 s dst = { ret := 0, dst := dst })

end SceLibcPosix.Net
