import SceLibcPosix.Mman.Backing

namespace SceLibcPosix.Mman

open Spans Errno

/-! What each call of the layer can do to its state, one case per way through the code. -/

@[simp] theorem unlock_lock (m : State) : m.lock.unlock = m := rfl

theorem vmPoolInit_pool (m : State) (k : Answers) :
    ∃ uid base, (vmPoolInit m k).2 = { m with vmUid := uid, vmBase := base } := by
  unfold vmPoolInit
  split
  · exact ⟨m.vmUid, m.vmBase, rfl⟩
  split
  · exact ⟨m.vmUid, m.vmBase, rfl⟩
  split
  · exact ⟨m.vmUid, m.vmBase, rfl⟩
  · exact ⟨k.vmUid, k.vmBase, rfl⟩

section Pool

variable (m : State) (k : Answers)

@[simp] theorem vmPoolInit_regions : (vmPoolInit m k).2.regions = m.regions := by
  obtain ⟨uid, base, h⟩ := vmPoolInit_pool m k
  rw [h]

@[simp] theorem vmPoolInit_calls : (vmPoolInit m k).2.calls = m.calls := by
  obtain ⟨uid, base, h⟩ := vmPoolInit_pool m k
  rw [h]

@[simp] theorem vmPoolInit_mem : (vmPoolInit m k).2.mem = m.mem := by
  obtain ⟨uid, base, h⟩ := vmPoolInit_pool m k
  rw [h]

@[simp] theorem vmPoolInit_held : (vmPoolInit m k).2.held = m.held := by
  obtain ⟨uid, base, h⟩ := vmPoolInit_pool m k
  rw [h]

@[simp] theorem vmPoolInit_ready : (vmPoolInit m k).2.ready = m.ready := by
  obtain ⟨uid, base, h⟩ := vmPoolInit_pool m k
  rw [h]

@[simp] theorem vmPoolInit_haveKubridge : (vmPoolInit m k).2.haveKubridge = m.haveKubridge := by
  obtain ⟨uid, base, h⟩ := vmPoolInit_pool m k
  rw [h]

end Pool

theorem vmPoolInit_lock (m : State) (k : Answers) :
    vmPoolInit m.lock k = ((vmPoolInit m k).1, (vmPoolInit m k).2.lock) := by
  simp only [vmPoolInit, State.lock_vmUid]
  split
  · rfl
  · split
    · rfl
    · split <;> rfl

inductive MapOutcome (m : State) (k : Answers) (n : ℕ) (prot : BitVec 32) : ℕ × ℤ × State → Prop
  | refused (err : ℤ) : MapOutcome m k n prot (NULL, err, m)
  | commitFailed : m.haveKubridge = true → 0 ≤ k.reserveUid → k.commit < 0 →
      MapOutcome m k n prot (NULL, ENOMEM,
        (m.call (.reserve k.reserveUid k.reserveBase n)).call (.free k.reserveUid))
  | tableFull : m.haveKubridge = true → 0 ≤ k.reserveUid → maxRegions ≤ m.regions.length →
      MapOutcome m k n prot (NULL, ENOMEM,
        (((m.call (.reserve k.reserveUid k.reserveBase n)).commit k k.reserveBase n).call
          (.decommit k.reserveBase n)).call (.free k.reserveUid))
  | mapped (t : List Region) : m.haveKubridge = true → n ≠ 0 → 0 ≤ k.reserveUid →
      regionInsert m.regions k.reserveBase n k.reserveUid prot = some t →
      MapOutcome m k n prot (k.reserveBase, 0,
        ((m.call (.reserve k.reserveUid k.reserveBase n)).commit k k.reserveBase n).setRegions t)
  | poolFailed : m.haveKubridge = false → 0 ≤ (vmPoolInit m k).1 →
      MapOutcome m k n prot (NULL, ENOMEM, (vmPoolInit m k).2)
  | poolMapped (t : List Region) : m.haveKubridge = false → n ≠ 0 → 0 ≤ (vmPoolInit m k).1 →
      vmPoolAlloc (vmPoolInit m k).2 n ≠ NULL →
      regionInsert (vmPoolInit m k).2.regions (vmPoolAlloc (vmPoolInit m k).2 n) n (-1) prot =
        some t →
      MapOutcome m k n prot (vmPoolAlloc (vmPoolInit m k).2 n, 0, (vmPoolInit m k).2.setRegions t)

theorem MapOutcome.regions_of_null {m : State} {k : Answers} {n : ℕ} {prot : BitVec 32}
    {res : ℕ × ℤ × State} (h : MapOutcome m k n prot res) (hnull : res.1 = NULL)
    (hbase : 0 ≤ k.reserveUid → k.reserveBase ≠ NULL) : res.2.2.regions = m.regions := by
  cases h with
  | refused | commitFailed | tableFull => rfl
  | mapped t hk hn hu hins => exact absurd hnull (hbase hu)
  | poolFailed hk hr => exact vmPoolInit_regions m k
  | poolMapped t hk hn hr hp hins => exact absurd hnull hp

theorem vmPoolInit_neg {m : State} {k : Answers} (h : (vmPoolInit m k).1 < 0) :
    (vmPoolInit m k).2 = m := by
  unfold vmPoolInit at h ⊢
  split at h
  · omega
  · next h₁ =>
    rw [if_neg h₁]
    split at h
    · next h₂ => rw [if_pos h₂]
    · next h₂ =>
      rw [if_neg h₂]
      split at h
      · next h₃ => rw [if_pos h₃]
      · omega

theorem mmanMap_outcome (m : State) (k : Answers) (hint len : ℕ) (prot : BitVec 32) :
    MapOutcome m k (pageAlign len) prot (mmanMap m k hint len prot) := by
  unfold mmanMap
  dsimp only
  split
  · exact .refused EINVAL
  next hn =>
  split
  · exact .refused ENOMEM
  split
  · exact .refused ENOTSUP
  split
  · next hk =>
    rw [State.lock_haveKubridge] at hk
    split
    · exact .refused ENOMEM
    next hu =>
    split
    · next hc => exact .commitFailed hk (by omega) hc
    split
    · next hi => exact .tableFull hk (by omega) (regionInsert_none.mp hi)
    · next t hi => exact .mapped t hk hn (by omega) hi
  · next hk =>
    rw [State.lock_haveKubridge, Bool.not_eq_true] at hk
    rw [vmPoolInit_lock]
    dsimp only
    split
    · next hr =>
      rw [vmPoolInit_neg hr]
      exact .refused ENOMEM
    next hr =>
    split
    · exact .poolFailed hk (by omega)
    next hp =>
    split
    · exact .poolFailed hk (by omega)
    · next t hi => exact .poolMapped t hk hn (by omega) hp hi

/-- The entry at `addr` can be resized where it is from `o` to `n` bytes. -/
structure Resizable (m : State) (addr o n : ℕ) (h : Hit m.regions) : Prop where
  found : regionFind m.regions addr = some h
  start : h.entry.addr = addr
  len : h.entry.len = o
  room : n ≤ o ∨ h.entry.uid < 0 ∧ addU addr n ≤ addU m.vmBase poolSize ∧
    ∀ x ∈ h.others, addU addr n ≤ x.addr ∨ x.stop ≤ addU addr o

inductive ResizeOutcome (m : State) (addr o n : ℕ) : ℤ × State → Prop
  | refused : (m.ready = true → ∀ h, ¬ Resizable m addr o n h) → ResizeOutcome m addr o n (-1, m)
  | same (h : Hit m.regions) : regionFind m.regions addr = some h → h.entry.addr = addr →
      h.entry.len = o → n = o → ResizeOutcome m addr o n (0, m)
  | shrunk (h : Hit m.regions) : regionFind m.regions addr = some h → h.entry.addr = addr →
      h.entry.len = o → n < o → ResizeOutcome m addr o n
        (0, (if 0 ≤ h.entry.uid then m.call (.decommit (addU addr n) (o - n)) else m).setRegions
          (h.put { h.entry with len := n }))
  | grown (h : Hit m.regions) : regionFind m.regions addr = some h → h.entry.addr = addr →
      h.entry.len = o → o < n → h.entry.uid < 0 → addU addr n ≤ addU m.vmBase poolSize →
      (∀ x ∈ h.others, addU addr n ≤ x.addr ∨ x.stop ≤ addU addr o) →
      ResizeOutcome m addr o n (0, (m.memset (addU addr o) 0
        (subU (addU addr n) (addU addr o))).setRegions (h.put { h.entry with len := n }))

theorem mmanResize_outcome (m : State) (addr oldLen newLen : ℕ) :
    ResizeOutcome m addr (pageAlign oldLen) (pageAlign newLen)
      (mmanResize m addr oldLen newLen) := by
  unfold mmanResize
  dsimp only
  split
  · next hr => exact .refused fun hr' ↦ by simp [hr'] at hr
  split
  · next hf =>
    rw [State.lock_regions] at hf
    exact .refused fun _ h hres ↦ by simp [hres.found] at hf
  next h hf =>
  have hf : regionFind m.regions addr = some h := hf
  have hno : (¬ Resizable m addr (pageAlign oldLen) (pageAlign newLen) h) →
      m.ready = true → ∀ h', ¬ Resizable m addr (pageAlign oldLen) (pageAlign newLen) h' := by
    intro hn _ h' hres
    have heq := hf.symm.trans hres.found
    cases heq
    exact hn hres
  split
  · next hr =>
    refine .refused (hno fun hres ↦ ?_)
    exact hr.elim (fun h ↦ h hres.start) fun h ↦ h hres.len
  next hr =>
  obtain ⟨ha, hl⟩ := not_or.mp hr
  rw [not_not] at ha hl
  split
  · next hn => exact .same h hf ha hl hn
  next hn =>
  split
  · next hlt =>
    have := ResizeOutcome.shrunk (m := m) h hf ha hl hlt
    split
    · next hu =>
      rw [if_pos hu] at this
      exact this
    · next hu =>
      rw [if_neg hu] at this
      exact this
  next hlt =>
  split
  · next hu =>
    refine .refused (hno fun hres ↦ ?_)
    rcases hres.room with hle | ⟨hneg, -⟩ <;> omega
  next hu =>
  split
  · next htop =>
    rw [State.lock_vmBase] at htop
    refine .refused (hno fun hres ↦ ?_)
    rcases hres.room with hle | ⟨-, hle, -⟩ <;> omega
  next he =>
  split
  · next ho =>
    refine .refused (hno fun hres ↦ ?_)
    simp only [List.any_eq_true, decide_eq_true_eq] at ho
    obtain ⟨x, hx, hlo, hhi⟩ := ho
    rcases hres.room with hle | ⟨-, -, hfree⟩
    · omega
    · have := hfree x hx
      omega
  next ho =>
  refine .grown (m := m) h hf ha hl (by omega) (by omega) (by simpa using he) ?_
  intro x hx
  simp only [List.any_eq_true, decide_eq_true_eq, not_exists, not_and, not_lt] at ho
  exact (le_or_gt (addU addr (pageAlign newLen)) x.addr).imp id (ho x hx)

/-- The part of a range that `__mman_discard` discards: what is in the entry of its first
address. -/
structure DiscardPart (m : State) (addr len : ℕ) (h : Hit m.regions) (ds de : ℕ) : Prop where
  found : regionFind m.regions addr = some h
  lo : ds = if pageStart addr < h.entry.addr then h.entry.addr else pageStart addr
  hi : de = if h.entry.stop < pageAlign (addU addr len) then h.entry.stop
    else pageAlign (addU addr len)

inductive DiscardOutcome (m : State) (k : Answers) (addr len : ℕ) : ℤ × State → Prop
  | refused : (m.ready = true → ∀ h ds de, DiscardPart m addr len h ds de → de ≤ ds) →
      DiscardOutcome m k addr len (-1, m)
  | commitFailed (h : Hit m.regions) (ds de : ℕ) : DiscardPart m addr len h ds de → ds < de →
      0 ≤ h.entry.uid → k.commit < 0 →
      DiscardOutcome m k addr len (-1, m.call (.decommit ds (de - ds)))
  | recommitted (h : Hit m.regions) (ds de : ℕ) : DiscardPart m addr len h ds de → ds < de →
      0 ≤ h.entry.uid → 0 ≤ k.commit → DiscardOutcome m k addr len
        (0, ((m.call (.decommit ds (de - ds))).commit k ds (de - ds)).memset ds 0 (de - ds))
  | cleared (h : Hit m.regions) (ds de : ℕ) : DiscardPart m addr len h ds de → ds < de →
      h.entry.uid < 0 → DiscardOutcome m k addr len (0, m.memset ds 0 (de - ds))

theorem DiscardPart.bounds {m : State} {addr len ds de : ℕ} {h : Hit m.regions}
    (hp : DiscardPart m addr len h ds de) :
    h.entry.addr ≤ ds ∧ de ≤ h.entry.stop ∧ pageStart addr ≤ ds ∧
      de ≤ pageAlign (addU addr len) := by
  rw [hp.lo, hp.hi]
  split <;> split <;> omega

theorem mmanDiscard_outcome (m : State) (k : Answers) (addr len : ℕ) :
    DiscardOutcome m k addr len (mmanDiscard m k addr len) := by
  unfold mmanDiscard
  dsimp only
  split
  · next hr => exact .refused fun hr' ↦ by simp [hr'] at hr
  split
  · next hf =>
    have hf : regionFind m.regions addr = none := hf
    refine .refused fun _ h ds de hp ↦ ?_
    rw [hp.found] at hf
    cases hf
  next h hf =>
  have hf : regionFind m.regions addr = some h := hf
  generalize hlo : (if pageStart addr < h.entry.addr then h.entry.addr else pageStart addr) = ds
  generalize hhi : (if h.entry.stop < pageAlign (addU addr len) then h.entry.stop
    else pageAlign (addU addr len)) = de
  have hpart : DiscardPart m addr len h ds de := ⟨hf, hlo.symm, hhi.symm⟩
  split
  · next hd =>
    refine .refused fun _ h' ds' de' hp ↦ ?_
    have heq := hf.symm.trans hp.found
    cases heq
    rwa [hp.lo, hp.hi, hlo, hhi]
  next hd =>
  split
  · next hu =>
    split
    · next hc => exact .commitFailed (m := m) h _ _ hpart (by omega) hu hc
    · next hc => exact .recommitted (m := m) h _ _ hpart (by omega) hu (by omega)
  · next hu => exact .cleared (m := m) h _ _ hpart (by omega) (by omega)

/-- Arguments with which `mremap` may move, and the address that it asks for. -/
structure MoveArgs (oldAddr newLen : ℕ) (flags : BitVec 32) (fixedArg hint : ℕ) : Prop where
  aligned : oldAddr % 0x1000 = 0
  pos : newLen ≠ 0
  known : flags &&& ~~~(MREMAP_MAYMOVE ||| MREMAP_FIXED) = 0
  mayMove : flags &&& MREMAP_MAYMOVE ≠ 0
  place : flags &&& MREMAP_FIXED ≠ 0 → fixedArg % 0x1000 = 0
  hint_eq : hint = if flags &&& MREMAP_FIXED ≠ 0 then fixedArg else NULL

inductive RemapOutcome (m : State) (k : Answers) (oldAddr oldLen newLen : ℕ) (flags : BitVec 32)
    (fixedArg : ℕ) : ℕ × ℤ × State → Prop
  | refused (err : ℤ) : RemapOutcome m k oldAddr oldLen newLen flags fixedArg (MAP_FAILED, err, m)
  | resized (h : Hit m.regions) (m' : State) : newLen ≠ 0 →
      flags &&& ~~~(MREMAP_MAYMOVE ||| MREMAP_FIXED) = 0 → flags &&& MREMAP_FIXED = 0 →
      regionFind m.regions oldAddr = some h → 0 ≤ h.entry.prot.toInt →
      mmanMapped m oldAddr oldLen = true →
      mmanResize m oldAddr oldLen newLen = (0, m') →
      RemapOutcome m k oldAddr oldLen newLen flags fixedArg (oldAddr, 0, m')
  | mapFailed (hint : ℕ) (prot : BitVec 32) (err : ℤ) :
      (mmanMap m k hint newLen prot).1 = NULL →
      RemapOutcome m k oldAddr oldLen newLen flags fixedArg
        (MAP_FAILED, err, (mmanMap m k hint newLen prot).2.2)
  | moved (h : Hit m.regions) (hint p : ℕ) (err : ℤ) (m' : State) : MoveArgs oldAddr newLen flags
      fixedArg hint → regionFind m.regions oldAddr = some h → 0 ≤ h.entry.prot.toInt →
      mmanMapped m oldAddr oldLen = true →
      (flags &&& MREMAP_FIXED = 0 →
        ∀ h, ¬ Resizable m oldAddr (pageAlign oldLen) (pageAlign newLen) h) →
      mmanMap m k hint newLen (h.entry.prot ||| PROT_WRITE) = (p, err, m') → p ≠ NULL →
      RemapOutcome m k oldAddr oldLen newLen flags fixedArg
        (p, 0, moveTo m' k oldAddr oldLen newLen h.entry.prot p)

theorem mmanProtOf_nonneg {m : State} {addr : ℕ} (h : 0 ≤ (mmanProtOf m addr).toInt) :
    m.ready = true ∧ ∃ hit, regionFind m.regions addr = some hit ∧
      mmanProtOf m addr = hit.entry.prot := by
  unfold mmanProtOf at h ⊢
  split at h
  · exact absurd h (by decide)
  next hr =>
  split at h
  · exact absurd h (by decide)
  · next hit hf => exact ⟨by simpa using hr, hit, hf, by simp [hr]⟩

theorem remapMove_outcome {m : State} (k : Answers) {oldAddr oldLen newLen fixedArg hint : ℕ}
    {flags : BitVec 32} {h : Hit m.regions} (hargs : MoveArgs oldAddr newLen flags fixedArg hint)
    (hfind : regionFind m.regions oldAddr = some h) (hprot : 0 ≤ h.entry.prot.toInt)
    (hmap : mmanMapped m oldAddr oldLen = true)
    (hno : flags &&& MREMAP_FIXED = 0 →
      ∀ h, ¬ Resizable m oldAddr (pageAlign oldLen) (pageAlign newLen) h) :
    RemapOutcome m k oldAddr oldLen newLen flags fixedArg
      (let res := mmanMap m k hint newLen (h.entry.prot ||| PROT_WRITE)
      if res.1 = NULL then (MAP_FAILED, if res.2.1 ≠ 0 then res.2.1 else ENOMEM, res.2.2)
      else (res.1, 0, moveTo res.2.2 k oldAddr oldLen newLen h.entry.prot res.1)) := by
  have hfail : (mmanMap m k hint newLen (h.entry.prot ||| PROT_WRITE)).1 = NULL →
      ∀ err, RemapOutcome m k oldAddr oldLen newLen flags fixedArg
        (MAP_FAILED, err, (mmanMap m k hint newLen (h.entry.prot ||| PROT_WRITE)).2.2) :=
    fun hnull err ↦ .mapFailed hint (h.entry.prot ||| PROT_WRITE) err hnull
  rcases hres : mmanMap m k hint newLen (h.entry.prot ||| PROT_WRITE) with ⟨p, err, m'⟩
  rw [hres] at hfail
  dsimp only at hfail ⊢
  split
  · next hnull => exact hfail hnull _
  · next hnull => exact .moved h hint p err m' hargs hfind hprot hmap hno hres hnull

theorem mremap_outcome (m : State) (k : Answers) (oldAddr oldLen newLen : ℕ) (flags : BitVec 32)
    (fixedArg : ℕ) : RemapOutcome m k oldAddr oldLen newLen flags fixedArg
      (mremap m k oldAddr oldLen newLen flags fixedArg) := by
  unfold mremap
  split
  · exact .refused EINVAL
  next hargs =>
  split
  · exact .refused EINVAL
  split
  · exact .refused EINVAL
  next hfixed =>
  extract_lets fixed prot
  split
  · exact .refused EFAULT
  next hprot =>
  simp only [not_or, not_lt, Bool.not_eq_true', Bool.not_eq_false, ne_eq, not_not, not_and]
    at hargs hfixed hprot
  obtain ⟨hr, h, hf, hp⟩ := mmanProtOf_nonneg hprot.1
  have hp : prot = h.entry.prot := hp
  clear_value prot
  subst hp
  have hmove : flags &&& MREMAP_MAYMOVE ≠ 0 → (flags &&& MREMAP_FIXED = 0 →
      ∀ h, ¬ Resizable m oldAddr (pageAlign oldLen) (pageAlign newLen) h) → _ := fun hmay hno ↦
    remapMove_outcome k ⟨hargs.1, hargs.2.1, hargs.2.2, hmay, hfixed, rfl⟩ hf hprot.1 hprot.2 hno
  by_cases hfix : flags &&& MREMAP_FIXED = 0
  · rw [if_pos hfix]
    have hout := mmanResize_outcome m oldAddr oldLen newLen
    rcases hres : mmanResize m oldAddr oldLen newLen with ⟨ret, m'⟩
    rw [hres] at hout
    dsimp only
    split
    · next hret =>
      subst hret
      exact .resized h m' hargs.2.1 hargs.2.2 hfix hf hprot.1 hprot.2 hres
    next hret =>
    cases hout with
    | refused hno =>
      split
      · exact .refused ENOMEM
      · next hmay => exact hmove hmay fun _ ↦ hno hr
    | same | shrunk | grown => exact absurd rfl hret
  · rw [if_neg hfix]
    dsimp only
    rw [if_neg (by decide)]
    split
    · exact .refused ENOMEM
    · next hmay => exact hmove hmay fun h ↦ absurd h hfix

end SceLibcPosix.Mman
