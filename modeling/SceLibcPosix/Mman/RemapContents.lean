import SceLibcPosix.Mman.Remap

namespace SceLibcPosix.Mman

open Spans

@[simps] def State.withMem (m : State) (mem : ℕ → UInt8) : State := { m with mem := mem }

@[simps] def Answers.withFresh (k : Answers) (fresh : ℕ → UInt8) : Answers :=
  { k with fresh := fresh }

section Independence

variable (m : State) (k : Answers) (mem fresh : ℕ → UInt8)

theorem vmPoolInit_withMem : vmPoolInit (m.withMem mem) (k.withFresh fresh) =
    ((vmPoolInit m k).1, (vmPoolInit m k).2.withMem mem) := by
  simp only [vmPoolInit, State.withMem_vmUid, Answers.withFresh_vmUid, Answers.withFresh_vmBaseRet]
  split_ifs <;> rfl

theorem mmanMap_withMem (hint len : ℕ) (prot : BitVec 32) :
    (mmanMap (m.withMem mem) (k.withFresh fresh) hint len prot).1 =
      (mmanMap m k hint len prot).1 := by
  have hlock : (m.withMem mem).lock = m.lock.withMem mem := rfl
  have halloc : ∀ (m' : State) n, vmPoolAlloc (m'.withMem mem) n = vmPoolAlloc m' n :=
    fun _ _ ↦ rfl
  unfold mmanMap
  dsimp only
  rw [hlock, vmPoolInit_withMem]
  simp only [State.withMem_ready, State.withMem_haveKubridge, Answers.withFresh_reserveUid,
    Answers.withFresh_reserveBase, Answers.withFresh_commit, halloc, State.withMem_regions,
    State.commit_regions, State.call_regions]
  split_ifs
  all_goals first | rfl | (split <;> rfl)

theorem mmanResize_cases (addr oldLen newLen : ℕ) :
    ((mmanResize m addr oldLen newLen).1 = 0 ∧
      ∃ h, Resizable m addr (pageAlign oldLen) (pageAlign newLen) h) ∨
    (mmanResize m addr oldLen newLen = (-1, m) ∧
      (m.ready = true → ∀ h, ¬ Resizable m addr (pageAlign oldLen) (pageAlign newLen) h)) := by
  have hout := mmanResize_outcome m addr oldLen newLen
  generalize mmanResize m addr oldLen newLen = res at hout ⊢
  cases hout with
  | refused hno => exact .inr ⟨rfl, hno⟩
  | same h hf ha hl hn => exact .inl ⟨rfl, h, hf, ha, hl, .inl hn.le⟩
  | shrunk h hf ha hl hlt => exact .inl ⟨rfl, h, hf, ha, hl, .inl hlt.le⟩
  | grown h hf ha hl hlt hu htop hfree => exact .inl ⟨rfl, h, hf, ha, hl, .inr ⟨hu, htop, hfree⟩⟩

theorem resizable_withMem {addr o n : ℕ} {h : Hit m.regions} :
    Resizable (m.withMem mem) addr o n h ↔ Resizable m addr o n h :=
  ⟨fun h ↦ ⟨h.1, h.2, h.3, h.4⟩, fun h ↦ ⟨h.1, h.2, h.3, h.4⟩⟩

theorem Inv.withMem {T : List Region → Prop} {m : State} (hm : Inv T m) (mem : ℕ → UInt8) :
    Inv T (m.withMem mem) :=
  hm.same ⟨rfl, rfl, rfl, rfl⟩ rfl fun _ h ↦ h

end Independence

section Moved

variable {m : State} {k : Answers} {oldAddr oldLen newLen fixedArg hint : ℕ} {flags : BitVec 32}

theorem mremap_moved (hr : m.ready = true) {h : Hit m.regions}
    (hargs : MoveArgs oldAddr newLen flags fixedArg hint)
    (hfind : regionFind m.regions oldAddr = some h) (hprot : 0 ≤ h.entry.prot.toInt)
    (hmap : mmanMapped m oldAddr oldLen = true)
    (hno : flags &&& MREMAP_FIXED = 0 →
      ∀ h, ¬ Resizable m oldAddr (pageAlign oldLen) (pageAlign newLen) h)
    (hp : (mmanMap m k hint newLen (h.entry.prot ||| PROT_WRITE)).1 ≠ NULL) :
    (mremap m k oldAddr oldLen newLen flags fixedArg).1 =
      (mmanMap m k hint newLen (h.entry.prot ||| PROT_WRITE)).1 := by
  have hof : mmanProtOf m oldAddr = h.entry.prot := by simp [mmanProtOf, hr, hfind]
  have hbad : ¬ (oldAddr % 0x1000 ≠ 0 ∨ newLen = 0 ∨
      flags &&& ~~~(MREMAP_MAYMOVE ||| MREMAP_FIXED) ≠ 0) := by
    simp [hargs.aligned, hargs.pos, hargs.known]
  have hplace : ¬ (flags &&& MREMAP_FIXED ≠ 0 ∧ fixedArg % 0x1000 ≠ 0) :=
    fun h ↦ h.2 (hargs.place h.1)
  have hres : (if flags &&& MREMAP_FIXED = 0 then mmanResize m oldAddr oldLen newLen
      else (-1, m)) = (-1, m) := by
    split
    · next hfix =>
      refine ((mmanResize_cases m oldAddr oldLen newLen).resolve_left fun h ↦ ?_).1
      obtain ⟨-, h, hres⟩ := h
      exact hno hfix h hres
    · rfl
  have hpre : ¬ (h.entry.prot.toInt < 0 ∨ (!mmanMapped m oldAddr oldLen) = true) := by
    simp [not_lt.mpr hprot, hmap]
  rw [mremap, if_neg hbad, if_neg (fun h ↦ hargs.mayMove h.2), if_neg hplace]
  simp only [hof, if_neg hpre, hres, ← hargs.hint_eq, if_neg hargs.mayMove, if_neg hp]
  rfl

theorem mremap_ok_withMem (hm : Inv InOrder m) (mem fresh : ℕ → UInt8)
    (hok : (mremap m k oldAddr oldLen newLen flags fixedArg).1 ≠ MAP_FAILED) :
    (mremap (m.withMem mem) (k.withFresh fresh) oldAddr oldLen newLen flags fixedArg).1 ≠
      MAP_FAILED := by
  have hout := mremap_outcome m k oldAddr oldLen newLen flags fixedArg
  generalize mremap m k oldAddr oldLen newLen flags fixedArg = res at hout hok
  cases hout with
  | refused => exact absurd rfl hok
  | mapFailed => exact absurd rfl hok
  | resized h m' hn hflags hfix hfind hprot hmap hres =>
    rcases mmanResize_cases m oldAddr oldLen newLen with ⟨-, g, hgres⟩ | ⟨hneg, -⟩
    · have heq := hfind.symm.trans hgres.found
      cases heq
      rwa [mremap_inPlace (hm.withMem mem) hn hflags hfix
        ((resizable_withMem m mem).mpr hgres) hprot]
    · rw [hres] at hneg
      cases hneg
  | moved h hint p err m' hargs hfind hprot hmap hno hmm hnull =>
    have hfst := mmanMap_withMem m k mem fresh hint newLen (h.entry.prot ||| PROT_WRITE)
    rw [hmm] at hfst
    have hmoved := mremap_moved (m := m.withMem mem) (k := k.withFresh fresh) hm.ready hargs hfind
      hprot hmap (fun hfix h hres ↦ hno hfix h ((resizable_withMem m mem).mp hres))
      (by rw [hfst]; exact hnull)
    rw [hmoved, hfst]
    exact hok

end Moved

section Contents

variable {m m' : State} {k : Answers} {n oldAddr oldLen newLen p fixedArg : ℕ}
  {prot flags : BitVec 32}

theorem MapOutcome.mem {err : ℤ} (h : MapOutcome m k n prot (p, err, m')) (hp : p ≠ NULL) (x : ℕ) :
    m'.mem x = m.mem x ∨ (p ≤ x ∧ x < p + n) ∧ m'.mem x = k.fresh x := by
  generalize hres : (p, err, m') = res at h
  cases h with
  | refused | commitFailed | tableFull | poolFailed => cases hres; exact absurd rfl hp
  | mapped t =>
    cases hres
    simp only [State.setRegions_mem, State.commit_mem, State.call_mem]
    split
    · next hx => exact .inr ⟨hx, rfl⟩
    · exact .inl rfl
  | poolMapped t =>
    cases hres
    exact .inl (congrFun (vmPoolInit_mem m k) x)

theorem moveTo_mem (m : State) (k : Answers) (oldAddr oldLen newLen : ℕ) (prot : BitVec 32)
    (p : ℕ) : (moveTo m k oldAddr oldLen newLen prot p).mem =
      (m.memcpy p oldAddr (if oldLen < newLen then oldLen else newLen)).mem := by
  have hunmap : ∀ m : State, (mmanUnmap m oldAddr oldLen).2.mem = m.mem := by
    intro m
    obtain ⟨t, cs, h⟩ := mmanUnmap_rewrites m oldAddr oldLen
    rw [h]
  have hprotect : ∀ m : State, (mmanProtect m k p newLen prot).2.mem = m.mem := by
    intro m
    unfold mmanProtect
    dsimp only
    split <;> rfl
  unfold moveTo
  dsimp only
  rw [hunmap]
  split
  · rw [hprotect]
  · rfl

theorem mmanMapped_covered (hm : Inv InOrder m) (hf : FitsAt oldAddr oldLen)
    (hmap : mmanMapped m oldAddr oldLen = true) {i : ℕ} (hi : i < pageAlign oldLen) :
    Covered m.regions (oldAddr + i) := by
  have hw := hf.align.2
  have hend : pageAlign (addU oldAddr oldLen) = oldAddr + pageAlign oldLen := by
    rw [← addU_pageAlign hf.aligned, addU, Nat.mod_eq_of_lt hw]
  simp only [mmanMapped, Bool.and_eq_true, hend] at hmap
  obtain ⟨r, hr, hlo, hhi⟩ := mappedFrom_covered hmap.2 (Nat.le_add_right oldAddr i) (by omega)
  rw [Region.stop_eq (hm.table.fits r hr)] at hhi
  exact ⟨r, hr, hlo, hhi⟩

/-- The pages that both lengths have keep their bytes, and pages beyond the old ones are zero. `mem`
is the memory before the call. -/
def KeepsContents (oldAddr oldLen newLen : ℕ) (mem : ℕ → UInt8) (res : ℕ × ℤ × State) : Prop :=
  (∀ i, i < pageAlign oldLen → i < pageAlign newLen →
    res.2.2.mem (res.1 + i) = mem (oldAddr + i)) ∧
  ∀ i, pageAlign oldLen ≤ i → i < pageAlign newLen → res.2.2.mem (res.1 + i) = 0

theorem keepsContents_resized (hold : FitsAt oldAddr oldLen) (hnew : FitsAt oldAddr newLen)
    {err : ℤ} (h : ResizeOutcome m oldAddr (pageAlign oldLen) (pageAlign newLen) (0, m')) :
    KeepsContents oldAddr oldLen newLen m.mem (oldAddr, err, m') := by
  have hwo := hold.align.2
  have hwn := hnew.align.2
  generalize hres : ((0 : ℤ), m') = res at h
  cases h with
  | refused => cases hres
  | same h _ _ _ hn =>
    cases hres
    exact ⟨fun i _ _ ↦ rfl, fun i hlo hhi ↦ by omega⟩
  | shrunk h _ _ _ hlt =>
    cases hres
    refine ⟨fun i _ _ ↦ ?_, fun i hlo hhi ↦ by omega⟩
    dsimp only [State.setRegions]
    split <;> rfl
  | grown h _ _ _ hlt =>
    cases hres
    simp only [KeepsContents, State.setRegions_mem, State.memset_mem, addU, Nat.mod_eq_of_lt hwo,
      Nat.mod_eq_of_lt hwn, subU_eq hwn (show oldAddr + pageAlign oldLen ≤ _ by omega)]
    refine ⟨fun i hi _ ↦ if_neg (by omega), fun i hlo hhi ↦ if_pos (by omega)⟩

/-- A move copies what is below both lengths as they were given, and nothing else. -/
theorem moved_mem (hm : Inv InOrder m) (hold : FitsAt oldAddr oldLen)
    (hmap : mmanMapped m oldAddr oldLen = true) {err uid : ℤ}
    (hout : MapOutcome m k n (prot ||| PROT_WRITE) (p, err, m')) (hp : p ≠ NULL)
    (hpl : Placed m n (prot ||| PROT_WRITE) p uid m') (i : ℕ) :
    (i < (if oldLen < newLen then oldLen else newLen) → i < pageAlign oldLen →
      (moveTo m' k oldAddr oldLen newLen prot p).mem (p + i) = m.mem (oldAddr + i)) ∧
    (¬ i < (if oldLen < newLen then oldLen else newLen) →
      (moveTo m' k oldAddr oldLen newLen prot p).mem (p + i) = m.mem (p + i) ∨
      (moveTo m' k oldAddr oldLen newLen prot p).mem (p + i) = k.fresh (p + i)) := by
  rw [moveTo_mem, State.memcpy_mem]
  refine ⟨fun hi hio ↦ ?_, fun hi ↦ ?_⟩
  · rw [if_pos ⟨Nat.le_add_right p i, Nat.add_lt_add_left hi p⟩, Nat.add_sub_cancel_left]
    refine (hout.mem hp (oldAddr + i)).resolve_right ?_
    rintro ⟨⟨hlo, hhi⟩, -⟩
    obtain ⟨r, hr, hrlo, hrhi⟩ := mmanMapped_covered hm hold hmap hio
    simp only [Span.lo, Span.hi] at hrlo hrhi
    have := hpl.apart r hr
    omega
  · rw [if_neg (by omega)]
    exact (hout.mem hp (p + i)).imp id And.right

def staleMem (t : List Region) (x : ℕ) : UInt8 := if t.any (Covers · x) then 0 else 1

theorem staleMem_covered {t : List Region} {x : ℕ} (h : Covered t x) : staleMem t x = 0 := by
  obtain ⟨r, hr, hx⟩ := h
  exact if_pos (List.any_eq_true.mpr ⟨r, hr, by simpa using hx⟩)

theorem staleMem_free {t : List Region} {x : ℕ} (h : ∀ r ∈ t, ¬ Covers r x) :
    staleMem t x = 1 := by
  refine if_neg fun hany ↦ ?_
  obtain ⟨r, hr, hx⟩ := List.any_eq_true.mp hany
  exact h r hr (by simpa using hx)

theorem moved_keeps (hm : Inv InOrder m) (hold : FitsAt oldAddr oldLen)
    (hmap : mmanMapped m oldAddr oldLen = true) {err err' uid : ℤ}
    (hout : MapOutcome m k n (prot ||| PROT_WRITE) (p, err, m')) (hp : p ≠ NULL)
    (hpl : Placed m n (prot ||| PROT_WRITE) p uid m') (hle : newLen ≤ oldLen)
    (hexact : pageAlign newLen = newLen) (hfits : newLen ≤ pageAlign oldLen) :
    KeepsContents oldAddr oldLen newLen m.mem
      (p, err', moveTo m' k oldAddr oldLen newLen prot p) := by
  refine ⟨fun i hio hin ↦ ?_, fun i hio hin ↦ by omega⟩
  refine (moved_mem hm hold hmap hout hp hpl i).1 ?_ hio
  rw [if_neg (by omega)]
  omega

theorem moved_loses (hm : Inv InOrder m) (hmem : m.mem = staleMem m.regions)
    (hfresh : k.fresh = fun _ ↦ 1) (hold : FitsAt oldAddr oldLen)
    (hmap : mmanMapped m oldAddr oldLen = true) {err err' uid : ℤ}
    (hout : MapOutcome m k (pageAlign newLen) (prot ||| PROT_WRITE) (p, err, m')) (hp : p ≠ NULL)
    (hpl : Placed m (pageAlign newLen) (prot ||| PROT_WRITE) p uid m')
    (hlt : (if oldLen < newLen then oldLen else newLen) < pageAlign newLen) :
    ¬ KeepsContents oldAddr oldLen newLen m.mem
      (p, err', moveTo m' k oldAddr oldLen newLen prot p) := by
  intro hkeep
  generalize hi : (if oldLen < newLen then oldLen else newLen) = i at hlt
  have hone : (moveTo m' k oldAddr oldLen newLen prot p).mem (p + i) = 1 := by
    have hbeyond : ¬ i < (if oldLen < newLen then oldLen else newLen) := by omega
    rcases (moved_mem hm hold hmap hout hp hpl i).2 hbeyond with heq | heq
    · rw [heq, hmem]
      refine staleMem_free fun r hr hx ↦ ?_
      have hx : r.addr ≤ p + i ∧ p + i < r.addr + r.len := hx
      have := hpl.apart r hr
      omega
    · rw [heq, hfresh]
  by_cases hio : i < pageAlign oldLen
  · have hbyte := hkeep.1 i hio hlt
    rw [hone, hmem, staleMem_covered (mmanMapped_covered hm hold hmap hio)] at hbyte
    exact absurd hbyte (by decide)
  · have hbyte := hkeep.2 i (not_lt.mp hio) hlt
    rw [hone] at hbyte
    exact absurd hbyte (by decide)

theorem RemapOutcome.keeps (hm : Inv InOrder m) (hs : k.Sound m (pageAlign newLen))
    (hold : FitsAt oldAddr oldLen) (hnew : FitsAt oldAddr newLen) {res : ℕ × ℤ × State}
    (hout : RemapOutcome m k oldAddr oldLen newLen flags fixedArg res) (hok : res.1 ≠ MAP_FAILED)
    (hc : (flags &&& MREMAP_FIXED = 0 ∧
        ∃ h, Resizable m oldAddr (pageAlign oldLen) (pageAlign newLen) h) ∨
      newLen ≤ oldLen ∧ newLen % 0x1000 = 0) :
    KeepsContents oldAddr oldLen newLen m.mem res := by
  cases hout with
  | refused | mapFailed => exact absurd rfl hok
  | resized h m' hn hflags hfix hfind hprot hmap hres =>
    have hrout := mmanResize_outcome m oldAddr oldLen newLen
    rw [hres] at hrout
    exact keepsContents_resized hold hnew hrout
  | moved h hint p err m' hargs hfind hprot hmap hno hmm hnull =>
    obtain ⟨hle, hwhole⟩ := hc.resolve_left fun h ↦ hno h.1 _ h.2.choose_spec
    have hmout := mmanMap_outcome m k hint newLen (h.entry.prot ||| PROT_WRITE)
    rw [hmm] at hmout
    obtain ⟨uid, hpl⟩ := hmout.placed keeps_inOrder hm hs hnull
    have hexact : pageAlign newLen = newLen := by
      rw [pageAlign_eq (by have := hnew.fits; omega), roundUp]
      omega
    have hfits : oldLen ≤ pageAlign oldLen := by
      rw [pageAlign_eq (by have := hold.fits; omega)]
      exact le_roundUp oldLen
    exact moved_keeps hm hold hmap hmout hnull hpl hle hexact (hle.trans hfits)

theorem RemapOutcome.keeps_only (hm : Inv InOrder m) (hmem : m.mem = staleMem m.regions)
    (hfresh : k.fresh = fun _ ↦ 1) (hs : k.Sound m (pageAlign newLen))
    (hold : FitsAt oldAddr oldLen) (hnew : FitsAt oldAddr newLen) {res : ℕ × ℤ × State}
    (hout : RemapOutcome m k oldAddr oldLen newLen flags fixedArg res) (hok : res.1 ≠ MAP_FAILED)
    (hkeep : KeepsContents oldAddr oldLen newLen m.mem res) :
    (flags &&& MREMAP_FIXED = 0 ∧
        ∃ h, Resizable m oldAddr (pageAlign oldLen) (pageAlign newLen) h) ∨
      newLen ≤ oldLen ∧ newLen % 0x1000 = 0 := by
  cases hout with
  | refused | mapFailed => exact absurd rfl hok
  | resized h m' hn hflags hfix hfind hprot hmap hres =>
    rcases mmanResize_cases m oldAddr oldLen newLen with ⟨-, hplace⟩ | ⟨hneg, -⟩
    · exact .inl ⟨hfix, hplace⟩
    · rw [hres] at hneg
      cases hneg
  | moved h hint p err m' hargs hfind hprot hmap hno hmm hnull =>
    have hmout := mmanMap_outcome m k hint newLen (h.entry.prot ||| PROT_WRITE)
    rw [hmm] at hmout
    obtain ⟨uid, hpl⟩ := hmout.placed keeps_inOrder hm hs hnull
    by_contra hc
    refine moved_loses hm hmem hfresh hold hmap hmout hnull hpl ?_ hkeep
    have hlen := (not_or.mp hc).2
    have hle := le_roundUp newLen
    rw [pageAlign_eq (by have := hnew.fits; omega)]
    split
    · omega
    · unfold roundUp at hle ⊢
      omega

/-- `mremap` keeps the contents, whatever was in memory, exactly if it resizes in place or the new
length is a page multiple not above the old length. -/
theorem mremap_contents_iff (hm : Reachable Request.Loose m) (hs : k.Sound m (pageAlign newLen))
    (hold : FitsAt oldAddr oldLen) (hnew : FitsAt oldAddr newLen)
    (hok : (mremap m k oldAddr oldLen newLen flags fixedArg).1 ≠ MAP_FAILED) :
    (∀ mem fresh, KeepsContents oldAddr oldLen newLen mem
      (mremap (m.withMem mem) (k.withFresh fresh) oldAddr oldLen newLen flags fixedArg)) ↔
    (flags &&& MREMAP_FIXED = 0 ∧
      ∃ h, Resizable m oldAddr (pageAlign oldLen) (pageAlign newLen) h) ∨
    newLen ≤ oldLen ∧ newLen % 0x1000 = 0 := by
  have hinv := hm.inOrder
  have hs' : ∀ mem fresh, (k.withFresh fresh).Sound (m.withMem mem) (pageAlign newLen) :=
    fun _ _ ↦ ⟨hs.1, hs.2, hs.3, hs.4, hs.5⟩
  have hout : ∀ mem fresh, RemapOutcome (m.withMem mem) (k.withFresh fresh) oldAddr oldLen newLen
      flags fixedArg _ := fun _ _ ↦ mremap_outcome _ _ oldAddr oldLen newLen flags fixedArg
  constructor
  · intro hall
    have hc := (hout (staleMem m.regions) fun _ ↦ 1).keeps_only (hinv.withMem _) rfl rfl (hs' _ _)
      hold hnew (mremap_ok_withMem hinv _ _ hok) (hall _ _)
    exact hc.imp (fun h ↦ ⟨h.1, h.2.imp fun _ ↦ (resizable_withMem m _).mp⟩) id
  · intro hc mem fresh
    refine (hout mem fresh).keeps (hinv.withMem mem) (hs' mem fresh) hold hnew
      (mremap_ok_withMem hinv mem fresh hok) ?_
    exact hc.imp (fun h ↦ ⟨h.1, h.2.imp fun _ ↦ (resizable_withMem m _).mpr⟩) id

end Contents

def recycled : State :=
  let s := [.map 0 0x1000 3, .map 0 0x1000 3, .map 0 0x2000 3].foldl
    (fun s q ↦ Request.run s poolAnswers q) (initMman false fun _ ↦ 0)
  Request.run (s.withMem fun x ↦ if 0x81002000 ≤ x then 1 else 0) poolAnswers
    (.unmap 0x81002000 0x2000)

theorem recycled_reachable : Reachable Request.Loose recycled := by
  refine ⟨false, fun _ ↦ 0, .tail (.tail (.tail (.tail (.single
    (.call _ poolAnswers (.map 0 0x1000 3) trivial (poolAnswers_sound _ _)))
    (.call _ poolAnswers (.map 0 0x1000 3) trivial (poolAnswers_sound _ _)))
    (.call _ poolAnswers (.map 0 0x2000 3) trivial (poolAnswers_sound _ _)))
    (.store _ fun x ↦ if 0x81002000 ≤ x then 1 else 0))
    (.call _ poolAnswers (.unmap 0x81002000 0x2000) (show 0x81002000 % 0x1000 = 0 from rfl)
      trivial)⟩

/-- The page has to move to grow, and its new page holds the data of the earlier mapping. -/
theorem mremap_keeps_stale_bytes :
    Reachable Request.Loose recycled ∧
    (mremap recycled poolAnswers 0x81000000 0x1000 0x2000 MREMAP_MAYMOVE 0).1 = 0x81002000 ∧
    ¬ KeepsContents 0x81000000 0x1000 0x2000 recycled.mem
      (mremap recycled poolAnswers 0x81000000 0x1000 0x2000 MREMAP_MAYMOVE 0) := by
  have hret : (mremap recycled poolAnswers 0x81000000 0x1000 0x2000 MREMAP_MAYMOVE 0).1 =
      0x81002000 := by
    decide +kernel
  have hbyte : (mremap recycled poolAnswers 0x81000000 0x1000 0x2000 MREMAP_MAYMOVE 0).2.2.mem
      0x81003000 = 1 := by
    decide +kernel
  refine ⟨recycled_reachable, hret, fun hkeep ↦ ?_⟩
  have hzero := hkeep.2 0x1000 (by decide) (by decide)
  rw [hret, hbyte] at hzero
  exact absurd hzero (by decide)

theorem mremap_contents_recycled :
    KeepsContents 0x81001000 0x1000 0x2000 (fun _ ↦ 5)
      (mremap (recycled.withMem fun _ ↦ 5) (poolAnswers.withFresh fun _ ↦ 9) 0x81001000 0x1000
        0x2000 0 0) := by
  have hfits : FitsAt 0x81001000 0x1000 ∧ FitsAt 0x81001000 0x2000 :=
    ⟨⟨rfl, by decide, by decide⟩, ⟨rfl, by decide, by decide⟩⟩
  have hok : (mremap recycled poolAnswers 0x81001000 0x1000 0x2000 0 0).1 ≠ MAP_FAILED := by
    decide +kernel
  have hret : (mmanResize recycled 0x81001000 0x1000 0x2000).1 ≠ -1 := by decide +kernel
  have hres := (mmanResize_cases recycled 0x81001000 0x1000 0x2000).resolve_right
    fun h ↦ hret (by rw [h.1])
  exact (mremap_contents_iff recycled_reachable (poolAnswers_sound _ _) hfits.1 hfits.2 hok).mpr
    (.inl ⟨rfl, hres.2⟩) _ _

end SceLibcPosix.Mman
