import Mathlib.Tactic.Simps.Basic
import SceLibcPosix.Errno
import SceLibcPosix.Mman.Region

namespace SceLibcPosix.Mman

open Errno

/-- The kubridge and memory-block calls that took effect. -/
inductive KuCall
  | reserve (uid : ℤ) (base len : ℕ)
  | commit (addr len : ℕ)
  | decommit (addr len : ℕ)
  | free (uid : ℤ)
deriving DecidableEq, Repr

/-- What the kernel answers during one call of the layer. `fresh` is what newly committed pages
hold. -/
structure Answers where
  reserveUid : ℤ
  reserveBase : ℕ
  commit : ℤ
  protect : ℤ
  vmUid : ℤ
  vmBaseRet : ℤ
  vmBase : ℕ
  fresh : ℕ → UInt8

/-- The static variables of the layer, the memory below them and the kernel calls made, last call
first. `regions` is the used part of `_regions`; `held` counts the holds of `_mman_mutex`. -/
structure State where
  regions : List Region
  ready : Bool
  haveKubridge : Bool
  vmUid : ℤ
  vmBase : ℕ
  held : ℕ
  calls : List KuCall
  mem : ℕ → UInt8

def PROT_WRITE : BitVec 32 := 2
def MREMAP_MAYMOVE : BitVec 32 := 1
def MREMAP_FIXED : BitVec 32 := 2
def MAP_FAILED : ℕ := 0xffffffff
def NULL : ℕ := 0

namespace State

@[simps] def lock (m : State) : State := { m with held := m.held + 1 }

@[simps] def unlock (m : State) : State := { m with held := m.held - 1 }

@[simps] def call (m : State) (c : KuCall) : State := { m with calls := c :: m.calls }

@[simps] def setRegions (m : State) (t : List Region) : State := { m with regions := t }

@[simps] def memset (m : State) (s : ℕ) (c : UInt8) (n : ℕ) : State :=
  { m with mem := fun x ↦ if s ≤ x ∧ x < s + n then c else m.mem x }

/-- `memcpy`; the sources and targets of the layer do not overlap. -/
@[simps] def memcpy (m : State) (dst src n : ℕ) : State :=
  { m with mem := fun x ↦ if dst ≤ x ∧ x < dst + n then m.mem (src + (x - dst)) else m.mem x }

/-- A successful `kuKernelMemCommit`. -/
@[simps] def commit (m : State) (k : Answers) (s n : ℕ) : State :=
  { m with
    calls := .commit s n :: m.calls
    mem := fun x ↦ if s ≤ x ∧ x < s + n then k.fresh x else m.mem x }

end State

/-- `__init_mman`, with the outcome of `_kubridge_usable`. -/
@[simps] def initMman (haveKubridge : Bool) (mem : ℕ → UInt8) : State where
  regions := []
  ready := true
  haveKubridge := haveKubridge
  vmUid := -1
  vmBase := 0
  held := 0
  calls := []
  mem := mem

def releaseReservation (m : State) (uid : ℤ) : State :=
  if uid < 0 then m
  else if uidListed m.regions uid then m
  else m.call (.free uid)

def vmPoolInit (m : State) (k : Answers) : ℤ × State :=
  if 0 ≤ m.vmUid then (0, m)
  else if k.vmUid < 0 then (k.vmUid, m)
  else if k.vmBaseRet < 0 then (k.vmBaseRet, m)
  else (0, { m with vmUid := k.vmUid, vmBase := k.vmBase })

/-- The loop of `_vm_pool_alloc`, from the candidate it has reached. -/
def vmPoolScan (len : ℕ) : ℕ → List Region → ℕ
  | cand, [] => cand
  | cand, r :: t =>
    if 0 ≤ r.uid then vmPoolScan len cand t
    else if addU cand len ≤ r.addr then cand
    else vmPoolScan len (if cand < r.stop then r.stop else cand) t

def vmPoolAlloc (m : State) (len : ℕ) : ℕ :=
  let cand := vmPoolScan len m.vmBase m.regions
  let top := addU m.vmBase poolSize
  if top < cand ∨ subU top cand < len then NULL else cand

/-- `__mman_map`: the address, or `NULL` with an error number. -/
def mmanMap (m : State) (k : Answers) (hint len : ℕ) (prot : BitVec 32) : ℕ × ℤ × State :=
  let len := pageAlign len
  if len = 0 then (NULL, EINVAL, m)
  else if !m.ready then (NULL, ENOMEM, m)
  else if hint ≠ NULL ∧ !m.haveKubridge then (NULL, ENOTSUP, m)
  else
    let m := m.lock
    if m.haveKubridge then
      let uid := k.reserveUid
      let base := k.reserveBase
      if uid < 0 then (NULL, ENOMEM, m.unlock)
      else
        let m := m.call (.reserve uid base len)
        if k.commit < 0 then (NULL, ENOMEM, (m.call (.free uid)).unlock)
        else
          let m := m.commit k base len
          match regionInsert m.regions base len uid prot with
          | none => (NULL, ENOMEM, ((m.call (.decommit base len)).call (.free uid)).unlock)
          | some t => (base, 0, (m.setRegions t).unlock)
    else
      let (ret, m) := vmPoolInit m k
      if ret < 0 then (NULL, ENOMEM, m.unlock)
      else
        let p := vmPoolAlloc m len
        if p = NULL then (NULL, ENOMEM, m.unlock)
        else
          match regionInsert m.regions p len (-1) prot with
          | none => (NULL, ENOMEM, m.unlock)
          | some t => (p, 0, (m.setRegions t).unlock)

/-- The loop of `__mman_unmap`, standing between the entries it has passed and those to come. -/
def unmapLoop (s e : ℕ) (m : State) (ret : ℤ) (passed : List Region) : List Region → ℤ × State
  | [] => (ret, m.setRegions passed)
  | r :: t =>
    let rs := r.addr
    let re := r.stop
    if re ≤ s ∨ e ≤ rs then unmapLoop s e m ret (passed ++ [r]) t
    else
      let us := if rs < s then s else rs
      let ue := if e < re then e else re
      let m := if 0 ≤ r.uid then m.call (.decommit us (subU ue us)) else m
      if us = rs ∧ ue = re then
        unmapLoop s e (releaseReservation (m.setRegions (passed ++ t)) r.uid) 0 passed t
      else if us = rs then
        unmapLoop s e m 0 (passed ++ [{ r with addr := ue, len := subU re ue }]) t
      else if ue = re then
        unmapLoop s e m 0 (passed ++ [{ r with len := subU us rs }]) t
      else
        match regionInsert (passed ++ { r with len := subU us rs } :: t)
            ue (subU re ue) r.uid r.prot with
        | none => (ret, m.setRegions (passed ++ { r with len := subU re rs } :: t))
        | some t' => (0, m.setRegions t')

def mmanUnmap (m : State) (addr len : ℕ) : ℤ × State :=
  let len := pageAlign len
  if len = 0 ∨ !m.ready then (-1, m)
  else
    let (ret, m) := unmapLoop addr (addU addr len) m.lock (-1) [] m.regions
    (ret, m.unlock)

def mmanProtOf (m : State) (addr : ℕ) : BitVec 32 :=
  if !m.ready then -1
  else match regionFind m.regions addr with
    | none => -1
    | some h => h.entry.prot

def mmanResize (m : State) (addr oldLen newLen : ℕ) : ℤ × State :=
  if !m.ready then (-1, m)
  else
    let oldLen := pageAlign oldLen
    let newLen := pageAlign newLen
    let m := m.lock
    match regionFind m.regions addr with
    | none => (-1, m.unlock)
    | some h =>
      let r := h.entry
      if r.addr ≠ addr ∨ r.len ≠ oldLen then (-1, m.unlock)
      else if newLen = oldLen then (0, m.unlock)
      else if newLen < oldLen then
        let m' := if 0 ≤ r.uid then m.call (.decommit (addU addr newLen) (oldLen - newLen)) else m
        (0, (m'.setRegions (h.put { r with len := newLen })).unlock)
      else if 0 ≤ r.uid then (-1, m.unlock)
      else
        let growS := addU addr oldLen
        let growE := addU addr newLen
        if addU m.vmBase poolSize < growE then (-1, m.unlock)
        else if h.others.any fun o ↦ o.addr < growE ∧ growS < o.stop then (-1, m.unlock)
        else
          (0, ((m.memset growS 0 (subU growE growS)).setRegions
            (h.put { r with len := newLen })).unlock)

def mmanProtect (m : State) (k : Answers) (addr len : ℕ) (prot : BitVec 32) : ℤ × State :=
  if !m.ready then (-1, m)
  else
    let len := pageAlign len
    let m := m.lock
    let e := addU addr len
    let t := m.regions.map fun r ↦ if addr ≤ r.addr ∧ r.stop ≤ e then { r with prot := prot } else r
    (if m.haveKubridge then k.protect else 0, (m.setRegions t).unlock)

/-- The loop of `__mman_mapped`. -/
def mappedFrom (t : List Region) (e p : ℕ) : Bool :=
  if p < e then
    match _h : regionFind t p with
    | none => false
    | some hit => mappedFrom t e hit.entry.stop
  else true
termination_by e - p
decreasing_by
  have := regionFind_hit _h
  omega

def mmanMapped (m : State) (addr len : ℕ) : Bool :=
  m.ready && mappedFrom m.regions (pageAlign (addU addr len)) addr

def mmanDiscard (m : State) (k : Answers) (addr len : ℕ) : ℤ × State :=
  if !m.ready then (-1, m)
  else
    let m := m.lock
    match regionFind m.regions addr with
    | none => (-1, m.unlock)
    | some h =>
      let r := h.entry
      let ds := if pageStart addr < r.addr then r.addr else pageStart addr
      let de := pageAlign (addU addr len)
      let de := if r.stop < de then r.stop else de
      if de ≤ ds then (-1, m.unlock)
      else if 0 ≤ r.uid then
        let m := m.call (.decommit ds (de - ds))
        if k.commit < 0 then (-1, m.unlock)
        else (0, ((m.commit k ds (de - ds)).memset ds 0 (de - ds)).unlock)
      else (0, (m.memset ds 0 (de - ds)).unlock)

/-- The end of `mremap`, once it has mapped `p`. -/
def moveTo (m : State) (k : Answers) (oldAddr oldLen newLen : ℕ) (prot : BitVec 32) (p : ℕ) :
    State :=
  let copy := if oldLen < newLen then oldLen else newLen
  let m := m.memcpy p oldAddr copy
  let m := if prot ||| PROT_WRITE ≠ prot then (mmanProtect m k p newLen prot).2 else m
  (mmanUnmap m oldAddr oldLen).2

/-- `mremap`: the address and `errno`. `fixedArg` is the variable argument. -/
def mremap (m : State) (k : Answers) (oldAddr oldLen newLen : ℕ) (flags : BitVec 32)
    (fixedArg : ℕ) : ℕ × ℤ × State :=
  if oldAddr % 0x1000 ≠ 0 ∨ newLen = 0 ∨ flags &&& ~~~(MREMAP_MAYMOVE ||| MREMAP_FIXED) ≠ 0 then
    (MAP_FAILED, EINVAL, m)
  else if flags &&& MREMAP_FIXED ≠ 0 ∧ flags &&& MREMAP_MAYMOVE = 0 then (MAP_FAILED, EINVAL, m)
  else if flags &&& MREMAP_FIXED ≠ 0 ∧ fixedArg % 0x1000 ≠ 0 then (MAP_FAILED, EINVAL, m)
  else
    let fixed := if flags &&& MREMAP_FIXED ≠ 0 then fixedArg else NULL
    let prot := mmanProtOf m oldAddr
    if prot.toInt < 0 ∨ !mmanMapped m oldAddr oldLen then (MAP_FAILED, EFAULT, m)
    else
      let (ret, m) := if flags &&& MREMAP_FIXED = 0 then mmanResize m oldAddr oldLen newLen
        else (-1, m)
      if ret = 0 then (oldAddr, 0, m)
      else if flags &&& MREMAP_MAYMOVE = 0 then (MAP_FAILED, ENOMEM, m)
      else
        let (p, err, m) := mmanMap m k fixed newLen (prot ||| PROT_WRITE)
        if p = NULL then (MAP_FAILED, if err ≠ 0 then err else ENOMEM, m)
        else (p, 0, moveTo m k oldAddr oldLen newLen prot p)

end SceLibcPosix.Mman
