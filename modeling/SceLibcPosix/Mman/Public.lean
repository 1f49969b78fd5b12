import SceLibcPosix.Mman.Discard
import SceLibcPosix.Mman.Mmap
import SceLibcPosix.Mman.Protect
import SceLibcPosix.Mman.RemapAtomic

namespace SceLibcPosix.Mman

open Errno Relation Spans VitaError

def munmap (m : State) (addr len : ℕ) : ℤ × ℤ × State :=
  if len = 0 ∨ addr % 0x1000 ≠ 0 then (-1, EINVAL, m)
  else
    let (ret, m) := mmanUnmap m addr len
    if ret < 0 then (-1, EINVAL, m) else (0, 0, m)

def MS_ASYNC : BitVec 32 := 1
def MS_INVALIDATE : BitVec 32 := 2
def MS_SYNC : BitVec 32 := 4

/-- `__mman_sync`, with `sync` for what `sceKernelSyncVMDomain` answers. -/
def mmanSync (m : State) (sync : ℤ) : ℤ :=
  if !m.ready then -1
  else if m.haveKubridge then 0
  else if m.vmUid < 0 then 0
  else sync

/-- `msync` changes nothing of the state. -/
def msync (net : NetErrno → ℤ) (m : State) (sync : ℤ) (len : ℕ) (flags : BitVec 32) : ℤ × ℤ :=
  if len = 0 ∨ flags &&& ~~~(MS_ASYNC ||| MS_INVALIDATE ||| MS_SYNC) ≠ 0 then (-1, EINVAL)
  else if flags &&& (MS_ASYNC ||| MS_SYNC) = MS_ASYNC ||| MS_SYNC then (-1, EINVAL)
  else if mmanSync m sync < 0 then (-1, sceErrnoToErrno net (mmanSync m sync) .GENERIC)
  else (0, 0)

def MCL_CURRENT : BitVec 32 := 1
def MCL_FUTURE : BitVec 32 := 2
def MCL_ONFAULT : BitVec 32 := 4

def mlockall (flags : BitVec 32) : ℤ × ℤ :=
  if flags &&& (MCL_CURRENT ||| MCL_FUTURE) = 0 ∨
      flags &&& ~~~(MCL_CURRENT ||| MCL_FUTURE ||| MCL_ONFAULT) ≠ 0 then (-1, EINVAL)
  else (0, 0)

def munlockall : ℤ × ℤ := (0, 0)

/-- The ways through `mmap`: what it fills lies in the range it has mapped. -/
inductive MmapOutcome (m : State) (k : Answers) (len : ℕ) (prot : BitVec 32) :
    ℕ × ℤ × State → Prop
  | refused (errno : ℤ) : MmapOutcome m k len prot (MAP_FAILED, errno, m)
  | mapFailed (err errno : ℤ) (m' : State) :
      MapOutcome m k (pageAlign len) (prot ||| PROT_WRITE) (NULL, err, m') →
      MmapOutcome m k len prot (MAP_FAILED, errno, m')
  | fillFailed (p : ℕ) (err errno : ℤ) (m' : State) (mem : ℕ → UInt8) :
      MapOutcome m k (pageAlign len) (prot ||| PROT_WRITE) (p, err, m') → p ≠ NULL →
      (∀ x, x < p ∨ p + pageAlign len ≤ x → mem x = m'.mem x) →
      MmapOutcome m k len prot (MAP_FAILED, errno, (mmanUnmap (m'.withMem mem) p len).2)
  | mapped (p : ℕ) (err : ℤ) (m' : State) (mem : ℕ → UInt8) :
      MapOutcome m k (pageAlign len) (prot ||| PROT_WRITE) (p, err, m') → p ≠ NULL →
      (∀ x, x < p ∨ p + pageAlign len ≤ x → mem x = m'.mem x) →
      MmapOutcome m k len prot (p, 0, if prot ||| PROT_WRITE ≠ prot
        then (mmanProtect (m'.withMem mem) k p len prot).2 else m'.withMem mem)

section Mmap

variable {pread : Pread} {file : List UInt8} {m m' : State} {k : Answers} {p addr len : ℕ}
  {fd off : ℤ} {prot flags : BitVec 32}

theorem readLoop_outside (hread : Serves pread file) (base n i done : ℕ) (hle : done ≤ len)
    (m : State) {x : ℕ} (hx : x < base ∨ base + len ≤ x) :
    (readLoop pread base n len i done m).2.mem x = m.mem x := by
  fun_induction readLoop pread base n len i done m with
  | case1 => rfl
  | case2 => rfl
  | case3 i done m hlt data hdata hne ih =>
    have hlen := (hread i (n + done) (len - done) data hdata).1
    rw [ih (by omega)]
    apply if_neg
    omega
  | case4 => rfl

theorem mmapFill_outside (hread : Serves pread file) (hle : len ≤ pageAlign len) (m : State)
    {x : ℕ} (hx : x < p ∨ p + pageAlign len ≤ x) :
    (mmapFill m pread p len flags off).2.mem x = m.mem x := by
  have hx' : x < p ∨ p + len ≤ x := by omega
  have hloop := readLoop_outside hread p off.toNat 0 0 len.zero_le m hx'
  obtain ⟨-, -, hok⟩ := readLoop_start m p off.toNat len hread
  unfold mmapFill
  split
  · apply if_neg
    omega
  rcases hread' : readLoop pread p off.toNat len 0 0 m with ⟨_ | done, m₁⟩
  · rw [hread'] at hloop
    exact hloop
  · rw [hread'] at hloop hok
    have hdone := (hok done rfl).1
    have hrest := subU_eq (pageAlign_lt len) (hdone.trans hle)
    dsimp only at hloop ⊢
    rw [hrest, State.memset_mem, if_neg (by omega)]
    exact hloop

theorem mmap_outcome (hm : Inv Neat m) (hs : k.Sound m (pageAlign len)) (hlen : len < 2 ^ 32)
    (hread : Serves pread file) :
    MmapOutcome m k len prot (mmap m k pread addr len prot flags fd off) := by
  unfold mmap
  split
  · exact .refused _
  have hout := mmanMap_outcome m k (if flags &&& MAP_FIXED ≠ 0 then addr else NULL) len
    (prot ||| PROT_WRITE)
  rcases hmap : mmanMap m k (if flags &&& MAP_FIXED ≠ 0 then addr else NULL) len
    (prot ||| PROT_WRITE) with ⟨p, err, m₁⟩
  rw [hmap] at hout
  dsimp only
  split
  · next hnull => exact .mapFailed err _ m₁ (hnull ▸ hout)
  next hnull =>
  obtain ⟨uid, hplaced⟩ := hout.placed keeps_neat hm hs hnull
  have hle := (le_pageAlign hlen hplaced.pos).2
  have hsame := mmapFill_same m₁ p len flags off hread
  have houtside : ∀ x, x < p ∨ p + pageAlign len ≤ x →
      (mmapFill m₁ pread p len flags off).2.mem x = m₁.mem x := fun x ↦
    mmapFill_outside hread hle m₁
  rcases hfill : mmapFill m₁ pread p len flags off with ⟨e | _, m₂⟩
  · rw [hfill] at hsame houtside
    rw [show m₂ = m₁.withMem m₂.mem from hsame]
    exact .fillFailed p err e m₁ m₂.mem hout hnull houtside
  · rw [hfill] at hsame houtside
    rw [show m₂ = m₁.withMem m₂.mem from hsame]
    exact .mapped p err m₁ m₂.mem hout hnull houtside

end Mmap

/-- The calls that change the mappings or the memory, with what the kernel and the file answer.
`mlock`, `munlock`, `msync` and `posix_madvise` change neither. -/
inductive PublicCall
  | mmap (k : Answers) (pread : Pread) (addr len : ℕ) (prot flags : BitVec 32) (fd off : ℤ)
  | munmap (addr len : ℕ)
  | mremap (k : Answers) (oldAddr oldLen newLen : ℕ) (flags : BitVec 32) (fixedArg : ℕ)
  | mprotect (net : NetErrno → ℤ) (k : Answers) (addr len : ℕ) (prot : BitVec 32)
  | madvise (k : Answers) (addr len : ℕ) (advice : Advice)
  | mincore (addr len vec : ℕ)
  | store (addr : ℕ) (byte : UInt8)

namespace PublicCall

def run (m : State) : PublicCall → State
  | mmap k pread addr len prot flags fd off => (Mman.mmap m k pread addr len prot flags fd off).2.2
  | munmap addr len => (Mman.munmap m addr len).2.2
  | mremap k oldAddr oldLen newLen flags fixedArg =>
    (Mman.mremap m k oldAddr oldLen newLen flags fixedArg).2.2
  | mprotect net k addr len prot => (Mman.mprotect net m k addr len prot).2.2
  | madvise k addr len advice => (Mman.madvise m k addr len advice).2.2
  | mincore addr len vec => (Mman.mincore m addr len vec).2.2
  | store addr byte => m.withMem (Function.update m.mem addr byte)

/-- The caller keeps its ranges below 2^32, and the kernel and the file answer as they should. -/
def Fits (m : State) : PublicCall → Prop
  | mmap k pread _ len _ _ _ _ =>
    k.Sound m (pageAlign len) ∧ len < 2 ^ 32 ∧ ∃ file, Serves pread file
  | munmap addr len => addr + roundUp len < 2 ^ 32
  | mremap k oldAddr oldLen newLen _ _ => k.Sound m (pageAlign newLen) ∧
    oldAddr + roundUp oldLen < 2 ^ 32 ∧ oldAddr + roundUp newLen < 2 ^ 32
  | mprotect _ _ addr _ _ => addr < 2 ^ 32
  | madvise _ _ _ _ | mincore _ _ _ | store _ _ => True

/-- The addresses a caller hands to the call to change. -/
def Names (x : ℕ) : PublicCall → Prop
  | mmap _ _ _ _ _ _ _ _ => False
  | munmap addr len => addr ≤ x ∧ x < addr + roundUp len
  | mremap _ oldAddr oldLen _ _ _ => oldAddr ≤ x ∧ x < oldAddr + roundUp oldLen
  | mprotect _ _ addr len _ | madvise _ addr len _ => pageStart addr ≤ x ∧ x < roundUp (addr + len)
  | mincore _ len vec => vec ≤ x ∧ x < vec + roundUp len / 0x1000
  | store addr _ => x = addr

/-- The addresses that the call returns to its caller. -/
def Grants (m : State) (x : ℕ) : PublicCall → Prop
  | mmap k pread addr len prot flags fd off =>
    let p := (Mman.mmap m k pread addr len prot flags fd off).1
    p ≠ MAP_FAILED ∧ p ≤ x ∧ x < p + roundUp len
  | mremap k oldAddr oldLen newLen flags fixedArg =>
    let p := (Mman.mremap m k oldAddr oldLen newLen flags fixedArg).1
    p ≠ MAP_FAILED ∧ p ≤ x ∧ x < p + roundUp newLen
  | munmap _ _ | mprotect _ _ _ _ _ | madvise _ _ _ _ | mincore _ _ _ | store _ _ => False

end PublicCall

inductive PublicStep (Ok : State → PublicCall → Prop) : State → State → Prop
  | call (m : State) (c : PublicCall) : c.Fits m → Ok m c → PublicStep Ok m (c.run m)

def PublicReachable (m : State) : Prop :=
  ∃ b mem, ReflTransGen (PublicStep fun _ _ ↦ True) (initMman b mem) m

section Keeps

variable {m m' : State} {k : Answers} {p addr len oldLen newLen : ℕ} {uid : ℤ} {prot : BitVec 32}

theorem pageAlign_le (x : ℕ) : pageAlign x ≤ roundUp x :=
  Nat.mul_le_mul_right _ (Nat.div_le_div_right (Nat.mod_le _ _))

theorem Placed.fitsAt (hlen : len < 2 ^ 32) (h : Placed m (pageAlign len) prot p uid m') :
    FitsAt p len ∧ pageAlign len = roundUp len := by
  have hne : ¬ (len = 0 ∨ 2 ^ 32 ≤ len + 0xfff) := fun h' ↦
    h.pos.ne' ((pageAlign_eq_zero hlen).mpr h')
  have hround : pageAlign len = roundUp len := by
    apply pageAlign_eq
    unfold roundUp
    omega
  exact ⟨⟨h.aligned, by omega, hround ▸ h.fits⟩, hround⟩

theorem Inv.unmaps (hm : Inv Neat m) (ha : addr % 0x1000 = 0) (hw : addr + roundUp len < 2 ^ 32) :
    Inv Neat (mmanUnmap m addr len).2 := by
  rcases Nat.eq_zero_or_pos len with rfl | hpos
  · rw [mmanUnmap_zero (.inl (by decide))]
    exact hm
  · have hfits : (Request.unmap addr len).Fits m poolAnswers := ⟨ha, hpos, hw⟩
    exact hm.fits hfits trivial

theorem Inv.resizes (hm : Inv Neat m) (hpos : 0 < newLen) (hw : addr + roundUp newLen < 2 ^ 32) :
    Inv Neat (mmanResize m addr oldLen newLen).2 := by
  have hle := le_roundUp newLen
  have hround : pageAlign newLen = roundUp newLen := pageAlign_eq (by omega)
  have hal := pageAlign_mod newLen
  refine hm.resize (mmanResize_outcome m addr oldLen newLen) (fun h hres ↦ ?_)
    fun h hres hlt hkub ↦ hm.resize_top hres hlt hkub (by omega)
  rcases hres.room with hle | ⟨-, -, hfree⟩
  · exact ⟨hm.table.toTidy.shorten h (hle.trans hres.len.ge) hal,
      forall_put h (by dsimp only; omega) hm.table.pos⟩
  · rw [← hres.len, ← hres.start] at hfree
    have hstart := hres.start
    exact hm.table.grow h (by omega) hal (by omega) hfree

theorem Inv.moves (hm : Inv Neat m) (ha : addr % 0x1000 = 0) (hw : addr + roundUp oldLen < 2 ^ 32) :
    Inv Neat (moveTo m k addr oldLen newLen prot p) := by
  have hcopy : Inv Neat (m.memcpy p addr (if oldLen < newLen then oldLen else newLen)) :=
    hm.same ⟨rfl, rfl, rfl, rfl⟩ rfl fun _ h ↦ h
  unfold moveTo
  dsimp only
  split
  · exact (hcopy.protect keeps_neat prot).unmaps ha hw
  · exact hcopy.unmaps ha hw

theorem mprotect_state (net : NetErrno → ℤ) (m : State) (k : Answers) (addr len : ℕ)
    (prot : BitVec 32) : (mprotect net m k addr len prot).2.2 = m ∨
      (mprotect net m k addr len prot).2.2 = (mmanProtect m k (pageStart addr)
        (subU (pageAlign (addU addr len)) (pageStart addr)) prot).2 := by
  unfold mprotect
  dsimp only
  split
  · exact .inl rfl
  · split <;> exact .inr rfl

theorem madvise_state (m : State) (k : Answers) (addr len : ℕ) (advice : Advice) :
    (madvise m k addr len advice).2.2 = m ∨
      (madvise m k addr len advice).2.2 = (mmanDiscard m k addr len).2 := by
  unfold madvise
  split
  · exact .inl rfl
  split
  · exact .inl rfl
  split
  iterate 2
    split
    · exact .inl rfl
    dsimp only
    split <;> exact .inr rfl
  · exact .inl rfl
  all_goals split <;> exact .inl rfl

theorem mincore_state (m : State) (addr len vec : ℕ) : (mincore m addr len vec).2.2 = m ∨
    (mincore m addr len vec).2.2 = m.memset vec 1 (pageAlign len / 0x1000) := by
  unfold mincore
  split_ifs
  · exact .inl rfl
  · exact .inl rfl
  · exact .inl rfl
  · exact .inr rfl

theorem munmap_state (m : State) (addr len : ℕ) : (munmap m addr len).2.2 = m ∨
    addr % 0x1000 = 0 ∧ (munmap m addr len).2.2 = (mmanUnmap m addr len).2 := by
  unfold munmap
  split
  · exact .inl rfl
  next h =>
  refine .inr ⟨by omega, ?_⟩
  dsimp only
  split <;> rfl

theorem Inv.mmap (hm : Inv Neat m) (hlen : len < 2 ^ 32) (hs : k.Sound m (pageAlign len))
    {res : ℕ × ℤ × State} (h : MmapOutcome m k len prot res) : Inv Neat res.2.2 := by
  cases h with
  | refused => exact hm
  | mapFailed err errno m' hout =>
    have hinv := hm.map keeps_neat hs (pageAlign_mod len) hout
    exact hinv
  | fillFailed p err _ m' mem hout hp =>
    obtain ⟨uid, hplaced⟩ := hout.placed keeps_neat hm hs hp
    have hfits := (hplaced.fitsAt hlen).1
    exact ((hm.map keeps_neat hs (pageAlign_mod len) hout).withMem mem).unmaps hfits.aligned
      hfits.fits
  | mapped p err m' mem hout hp =>
    have hm' := (hm.map keeps_neat hs (pageAlign_mod len) hout).withMem mem
    dsimp only
    split
    · exact hm'.protect keeps_neat prot
    · exact hm'

theorem PublicCall.Fits.inv {c : PublicCall} (hm : Inv Neat m) (hc : c.Fits m) :
    Inv Neat (c.run m) := by
  cases c with
  | mmap k pread addr len prot flags fd off =>
    obtain ⟨hs, hlen, file, hread⟩ := hc
    exact hm.mmap hlen hs (mmap_outcome hm hs hlen hread)
  | munmap addr len =>
    rcases munmap_state m addr len with h | ⟨ha, h⟩
    · simpa only [PublicCall.run, h] using hm
    · simpa only [PublicCall.run, h] using hm.unmaps ha hc
  | mremap k oldAddr oldLen newLen flags fixedArg =>
    obtain ⟨hs, hold, hnew⟩ := hc
    have hout := mremap_outcome m k oldAddr oldLen newLen flags fixedArg
    simp only [PublicCall.run]
    generalize Mman.mremap m k oldAddr oldLen newLen flags fixedArg = res at hout ⊢
    cases hout with
    | refused => exact hm
    | resized h m' hpos _ _ _ _ _ hres =>
      have hinv : Inv Neat (mmanResize m oldAddr oldLen newLen).2 :=
        hm.resizes (Nat.pos_of_ne_zero hpos) hnew
      rwa [hres] at hinv
    | mapFailed hint prot =>
      have hinv := hm.map keeps_neat hs (pageAlign_mod newLen)
        (mmanMap_outcome m k hint newLen prot)
      exact hinv
    | moved h hint p err m' hargs _ _ _ _ hmap =>
      have hout := mmanMap_outcome m k hint newLen (h.entry.prot ||| PROT_WRITE)
      rw [hmap] at hout
      exact (hm.map keeps_neat hs (pageAlign_mod newLen) hout).moves hargs.aligned hold
  | mprotect net k addr len prot =>
    rcases mprotect_state net m k addr len prot with h | h
    · simpa only [PublicCall.run, h] using hm
    · simpa only [PublicCall.run, h] using hm.protect keeps_neat prot
  | madvise k addr len advice =>
    rcases madvise_state m k addr len advice with h | h
    · simpa only [PublicCall.run, h] using hm
    · simpa only [PublicCall.run, h] using hm.discard
  | mincore addr len vec =>
    rcases mincore_state m addr len vec with h | h
    · simpa only [PublicCall.run, h] using hm
    · simp only [PublicCall.run, h]
      exact hm.withMem _
  | store addr byte => exact hm.withMem _

theorem PublicReachable.inv (h : PublicReachable m) : Inv Neat m := by
  obtain ⟨b, mem, h⟩ := h
  induction h with
  | refl => exact inv_init keeps_neat b mem
  | tail _ hstep ih =>
    cases hstep with
    | call c hc => exact hc.inv ih

end Keeps

end SceLibcPosix.Mman
