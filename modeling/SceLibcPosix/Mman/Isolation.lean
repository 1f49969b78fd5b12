import SceLibcPosix.Mman.Public

namespace SceLibcPosix.Mman

open Relation Spans

/-- Nothing has happened to the address: its page is recorded as before and its byte is the same. -/
structure Untouched (m m' : State) (x : ℕ) : Prop where
  page : pageMap m'.regions x = pageMap m.regions x
  byte : m'.mem x = m.mem x

theorem Untouched.refl (m : State) (x : ℕ) : Untouched m m x := ⟨rfl, rfl⟩

theorem Untouched.trans {m m' m'' : State} {x : ℕ} (h : Untouched m m' x)
    (h' : Untouched m' m'' x) : Untouched m m'' x :=
  ⟨h'.page.trans h.page, h'.byte.trans h.byte⟩

theorem covered_iff_pageMap {t : List Region} {x : ℕ} : Covered t x ↔ pageMap t x ≠ none := by
  simp [pageMap, tagAt, Covered]

theorem Neat.pageMap_entry {t : List Region} (ht : Neat t) {r : Region} (hr : r ∈ t) {x : ℕ}
    (hx : Covers r x) : pageMap t x = some (r.uid, r.prot) :=
  ht.ordered.tagAt_eq _ hr hx

theorem Untouched.covered {m m' : State} {x : ℕ} (h : Untouched m m' x) :
    Covered m'.regions x ↔ Covered m.regions x := by
  rw [covered_iff_pageMap, covered_iff_pageMap, h.page]

theorem Untouched.withMem {m : State} {x : ℕ} {mem : ℕ → UInt8} (h : mem x = m.mem x) :
    Untouched m (m.withMem mem) x :=
  ⟨rfl, h⟩

section Layer

variable {m m' : State} {k : Answers} {n p x addr len oldLen newLen : ℕ} {uid : ℤ}
  {prot : BitVec 32}

theorem pageMap_put {t : List Region} (h : Hit t) {r : Region} (hold : ¬ Covers h.entry x)
    (hnew : ¬ Covers r x) : pageMap (h.put r) x = pageMap t x := by
  simp only [pageMap, tagAt, Hit.put]
  conv_rhs => rw [← h.eq]
  simp [List.find?_append, hold, hnew]

theorem Placed.page (hm : Inv Neat m) (h : Placed m n prot p uid m') (hn : n % 0x1000 = 0)
    (x : ℕ) : pageMap m'.regions x =
      if p ≤ x ∧ x < p + n then some (uid, prot) else pageMap m.regions x := by
  have hneat := keeps_neat.insert hm.table h.insert h.fits ⟨h.aligned, hn⟩ h.pos h.apart
  exact congrFun (pageMap_added hm.table.ordered hneat.ordered (regionInsert_mem h.insert)) x

theorem Placed.free (h : Placed m n prot p uid m') (hx : Covered m.regions x) :
    x < p ∨ p + n ≤ x := by
  obtain ⟨r, hr, hlo, hhi⟩ := hx
  have hlo : r.addr ≤ x := hlo
  have hhi : x < r.addr + r.len := hhi
  have := h.apart r hr
  omega

theorem Answers.Sound.apart_mapped (hm : Inv Neat m) (hs : k.Sound m n)
    (hk : m.haveKubridge = true) (hu : 0 ≤ k.reserveUid) (hx : Covered m.regions x) :
    ¬ (k.reserveBase ≤ x ∧ x < k.reserveBase + n) := by
  obtain ⟨r, hr, hlo, hhi⟩ := hx
  have hlo : r.addr ≤ x := hlo
  have hhi : x < r.addr + r.len := hhi
  obtain ⟨-, ρ, hρ, -, hρlo, hρhi⟩ := hm.backed hk r hr
  have := hs.apart hu ρ hρ
  omega

theorem MapOutcome.untouched (hm : Inv Neat m) (hs : k.Sound m n) (hn : n % 0x1000 = 0)
    {res : ℕ × ℤ × State} (h : MapOutcome m k n prot res) (hx : Covered m.regions x) :
    Untouched m res.2.2 x := by
  cases h with
  | refused => exact .refl m x
  | commitFailed => exact ⟨rfl, rfl⟩
  | tableFull hk hu => exact ⟨rfl, if_neg (hs.apart_mapped hm hk hu hx)⟩
  | mapped t hk hn0 hu hi =>
    have hplaced := placed_reserve hm hs hk hn0 hu hi
    have hfree := hplaced.free hx
    refine ⟨?_, if_neg (hs.apart_mapped hm hk hu hx)⟩
    rw [hplaced.page hm hn, if_neg (by omega)]
  | poolFailed => exact ⟨by rw [vmPoolInit_regions], by rw [vmPoolInit_mem]⟩
  | poolMapped t hk hn0 hr hp hi =>
    have hplaced := placed_pool keeps_neat hm hs hk hn0 hr hp hi
    have hfree := hplaced.free hx
    refine ⟨?_, by rw [State.setRegions_mem, vmPoolInit_mem]⟩
    rw [hplaced.page hm hn, if_neg (by omega)]

theorem unmap_untouched (hm : Inv Neat m) (hw : addr + pageAlign len < 2 ^ 32)
    (hx : ¬ (addr ≤ x ∧ x < addr + pageAlign len)) :
    Untouched m (mmanUnmap m addr len).2 x := by
  by_cases hl : pageAlign len = 0
  · rw [mmanUnmap_zero (.inl hl)]
    exact .refl m x
  refine ⟨?_, ?_⟩
  · rw [mmanUnmap_regions hm.table.toTidy (fun h ↦ by simp [hm.ready] at h) hl hw]
    split
    · rfl
    · rw [pageMap_carve (by omega), without, if_neg hx]
  · obtain ⟨t, cs, h⟩ := mmanUnmap_rewrites m addr len
    rw [h]

/-- What an entry grows into is free: an address in another entry is not there. -/
theorem grow_free (hm : Inv Neat m) (h : Hit m.regions) {o n : ℕ} (hwo : addr + o < 2 ^ 32)
    (hw : addr + n < 2 ^ 32)
    (hfree : ∀ r ∈ h.others, addU addr n ≤ r.addr ∨ r.stop ≤ addU addr o)
    (hx : Covered m.regions x) (hold : ¬ Covers h.entry x) : ¬ (addr + o ≤ x ∧ x < addr + n) := by
  obtain ⟨r, hr, hrx⟩ := hx
  rcases h.mem_iff.mp hr with rfl | hother
  · exact absurd hrx hold
  have hapart := hfree r hother
  rw [covers_iff] at hrx
  rw [Region.stop_eq (hm.table.fits r hr), addU, addU, Nat.mod_eq_of_lt hw,
    Nat.mod_eq_of_lt hwo] at hapart
  omega

theorem resize_untouched (hm : Inv Neat m) (hwo : addr + pageAlign oldLen < 2 ^ 32)
    (hw : addr + pageAlign newLen < 2 ^ 32) (hx : Covered m.regions x)
    (hno : ¬ (addr ≤ x ∧ x < addr + pageAlign oldLen)) :
    Untouched m (mmanResize m addr oldLen newLen).2 x := by
  have hout := mmanResize_outcome m addr oldLen newLen
  generalize mmanResize m addr oldLen newLen = res at hout ⊢
  cases hout with
  | refused => exact .refl m x
  | same => exact .refl m x
  | shrunk h hfind hstart hlen hlt =>
    have hold : ¬ Covers h.entry x := by
      rw [covers_iff, hstart, hlen]
      exact hno
    have hnew : ¬ Covers { h.entry with len := pageAlign newLen } x := by
      rw [covers_iff] at hold ⊢
      dsimp only
      omega
    have hpage := pageMap_put h hold hnew
    dsimp only
    split
    · exact ⟨hpage, rfl⟩
    · exact ⟨hpage, rfl⟩
  | grown h hfind hstart hlen hlt hu htop hfree =>
    have hold : ¬ Covers h.entry x := by
      rw [covers_iff, hstart, hlen]
      exact hno
    have hgrown := grow_free hm h hwo hw hfree hx hold
    refine ⟨pageMap_put h hold ?_, if_neg ?_⟩
    · rw [covers_iff]
      dsimp only
      omega
    · rw [addU, addU, Nat.mod_eq_of_lt hw, Nat.mod_eq_of_lt hwo, subU_eq hw (by omega)]
      omega

theorem protect_untouched (hm : Inv Neat m) (hx : Covered m.regions x)
    (hno : ¬ (addr ≤ x ∧ x < addU addr (pageAlign len))) :
    Untouched m (mmanProtect m k addr len prot).2 x := by
  have hinv : Inv Neat (mmanProtect m k addr len prot).2 := hm.protect keeps_neat prot
  refine ⟨?_, by rw [mmanProtect_memory]⟩
  obtain ⟨r, hr, hrx⟩ := hx
  have hstop := Region.stop_eq (hm.table.fits r hr)
  have hmem : r ∈ (mmanProtect m k addr len prot).2.regions := by
    simp only [mmanProtect, hm.ready, Bool.not_true, Bool.false_eq_true, if_false]
    refine List.mem_map.mpr ⟨r, hr, if_neg fun h ↦ ?_⟩
    rw [covers_iff] at hrx
    omega
  rw [hinv.table.pageMap_entry hmem hrx, hm.table.pageMap_entry hr hrx]

theorem discard_untouched (hno : ¬ (pageStart addr ≤ x ∧ x < pageAlign (addU addr len))) :
    Untouched m (mmanDiscard m k addr len).2 x := by
  have hout := mmanDiscard_outcome m k addr len
  generalize mmanDiscard m k addr len = res at hout ⊢
  cases hout with
  | refused => exact .refl m x
  | commitFailed => exact ⟨rfl, rfl⟩
  | recommitted h ds de hpart hlt =>
    have hb := hpart.bounds
    refine ⟨rfl, ?_⟩
    rw [State.memset_mem, if_neg (by omega), State.commit_mem, if_neg (by omega)]
    rfl
  | cleared h ds de hpart hlt =>
    have hb := hpart.bounds
    exact ⟨rfl, if_neg (by omega)⟩

theorem moveTo_untouched (hm : Inv Neat m) (hle : newLen ≤ pageAlign newLen)
    (hw : addr + pageAlign oldLen < 2 ^ 32) (hfits : p + pageAlign newLen < 2 ^ 32)
    (hx : Covered m.regions x) (hnew : x < p ∨ p + pageAlign newLen ≤ x)
    (hold : ¬ (addr ≤ x ∧ x < addr + pageAlign oldLen)) :
    Untouched m (moveTo m k addr oldLen newLen prot p) x := by
  let copy := if oldLen < newLen then oldLen else newLen
  have hcopy : copy ≤ newLen := by
    dsimp only [copy]
    split <;> omega
  have hinv : Inv Neat (m.memcpy p addr copy) :=
    hm.same ⟨rfl, rfl, rfl, rfl⟩ rfl fun _ h ↦ h
  have hcopied : Untouched m (m.memcpy p addr copy) x := ⟨rfl, if_neg (by omega)⟩
  unfold moveTo
  dsimp only
  split
  · have hprot : Untouched (m.memcpy p addr copy)
        (mmanProtect (m.memcpy p addr copy) k p newLen prot).2 x := by
      refine protect_untouched hinv (hcopied.covered.mpr hx) ?_
      rw [addU, Nat.mod_eq_of_lt hfits]
      omega
    exact (hcopied.trans hprot).trans (unmap_untouched (hinv.protect keeps_neat prot) hw hold)
  · exact hcopied.trans (unmap_untouched hinv hw hold)

end Layer

section Calls

variable {m m' : State} {k : Answers} {p x addr len : ℕ} {prot : BitVec 32}

theorem MmapOutcome.untouched (hm : Inv Neat m) (hs : k.Sound m (pageAlign len))
    {res : ℕ × ℤ × State} (h : MmapOutcome m k len prot res)
    (hx : Covered m.regions x) : Untouched m res.2.2 x := by
  have hal := pageAlign_mod len
  cases h with
  | refused => exact .refl m x
  | mapFailed err errno m' hout =>
    have huntouched := hout.untouched hm hs hal hx
    exact huntouched
  | fillFailed p err errno m' mem hout hp houtside =>
    obtain ⟨uid, hplaced⟩ := hout.placed keeps_neat hm hs hp
    have hfree := hplaced.free hx
    have huntouched : Untouched m (m'.withMem mem) x :=
      (hout.untouched hm hs hal hx).trans (.withMem (houtside x hfree))
    exact huntouched.trans (unmap_untouched ((hm.map keeps_neat hs hal hout).withMem mem)
      hplaced.fits (by omega))
  | mapped p err m' mem hout hp houtside =>
    obtain ⟨uid, hplaced⟩ := hout.placed keeps_neat hm hs hp
    have hfree := hplaced.free hx
    have huntouched : Untouched m (m'.withMem mem) x :=
      (hout.untouched hm hs hal hx).trans (.withMem (houtside x hfree))
    dsimp only
    split
    · refine huntouched.trans (protect_untouched ((hm.map keeps_neat hs hal hout).withMem mem)
        (huntouched.covered.mpr hx) ?_)
      rw [addU, Nat.mod_eq_of_lt hplaced.fits]
      omega
    · exact huntouched

theorem PublicCall.Fits.untouched {c : PublicCall} (hm : Inv Neat m) (hc : c.Fits m)
    (hx : Covered m.regions x) (hno : ¬ c.Names x) : Untouched m (c.run m) x := by
  cases c with
  | mmap k pread addr len prot flags fd off =>
    obtain ⟨hs, hlen, file, hread⟩ := hc
    exact (mmap_outcome hm hs hlen hread).untouched hm hs hx
  | munmap addr len =>
    have hle := pageAlign_le len
    simp only [PublicCall.Fits, PublicCall.Names] at hc hno
    rcases munmap_state m addr len with h | ⟨-, h⟩
    · simpa only [PublicCall.run, h] using .refl m x
    · simpa only [PublicCall.run, h] using unmap_untouched hm (by omega) (by omega)
  | mremap k oldAddr oldLen newLen flags fixedArg =>
    obtain ⟨hs, hold, hnew⟩ := hc
    have hleo := pageAlign_le oldLen
    have hle := pageAlign_le newLen
    have hround := le_roundUp newLen
    have hal := pageAlign_mod newLen
    simp only [PublicCall.Names] at hno
    have hout := mremap_outcome m k oldAddr oldLen newLen flags fixedArg
    simp only [PublicCall.run]
    generalize Mman.mremap m k oldAddr oldLen newLen flags fixedArg = res at hout ⊢
    cases hout with
    | refused => exact .refl m x
    | resized h m' hpos _ _ _ _ _ hres =>
      have huntouched : Untouched m (mmanResize m oldAddr oldLen newLen).2 x :=
        resize_untouched hm (by omega) (by omega) hx (by omega)
      rwa [hres] at huntouched
    | mapFailed hint prot =>
      have huntouched := (mmanMap_outcome m k hint newLen prot).untouched hm hs hal hx
      exact huntouched
    | moved h hint p err m' hargs _ _ _ _ hmap hp =>
      have hout := mmanMap_outcome m k hint newLen (h.entry.prot ||| PROT_WRITE)
      rw [hmap] at hout
      obtain ⟨uid, hplaced⟩ := hout.placed keeps_neat hm hs hp
      have huntouched := hout.untouched hm hs hal hx
      have hle := (le_pageAlign (by omega) hplaced.pos).2
      have hwo : oldAddr + pageAlign oldLen < 2 ^ 32 := by omega
      exact huntouched.trans (moveTo_untouched (hm.map keeps_neat hs hal hout) hle hwo
        hplaced.fits (huntouched.covered.mpr hx) (hplaced.free hx) (by omega))
  | mprotect net k addr len prot =>
    have hle := pageAlign_le (addU addr len)
    have hmod : addU addr len ≤ addr + len := Nat.mod_le _ _
    have hround : roundUp (addU addr len) ≤ roundUp (addr + len) :=
      Nat.mul_le_mul_right _ (Nat.div_le_div_right (by omega))
    simp only [PublicCall.Names] at hno
    rcases mprotect_state net m k addr len prot with h | h
    · simpa only [PublicCall.run, h] using .refl m x
    · simp only [PublicCall.run, h]
      refine protect_untouched hm hx ?_
      rw [protect_end hc]
      omega
  | madvise k addr len advice =>
    have hle := pageAlign_le (addU addr len)
    have hmod : addU addr len ≤ addr + len := Nat.mod_le _ _
    have hround : roundUp (addU addr len) ≤ roundUp (addr + len) :=
      Nat.mul_le_mul_right _ (Nat.div_le_div_right (by omega))
    simp only [PublicCall.Names] at hno
    rcases madvise_state m k addr len advice with h | h
    · simpa only [PublicCall.run, h] using .refl m x
    · simp only [PublicCall.run, h]
      exact discard_untouched (by omega)
  | mincore addr len vec =>
    have hle : pageAlign len / 0x1000 ≤ roundUp len / 0x1000 :=
      Nat.div_le_div_right (pageAlign_le len)
    simp only [PublicCall.Names] at hno
    rcases mincore_state m addr len vec with h | h
    · simpa only [PublicCall.run, h] using .refl m x
    · simp only [PublicCall.run, h]
      exact ⟨rfl, if_neg (by omega)⟩
  | store addr byte => exact .withMem (Function.update_of_ne hno _ _)

theorem untouched_run (hm : Inv Neat m) (hx : Covered m.regions x)
    (hrun : ReflTransGen (PublicStep fun _ c ↦ ¬ c.Names x) m m') :
    Inv Neat m' ∧ Untouched m m' x := by
  induction hrun with
  | refl => exact ⟨hm, .refl m x⟩
  | tail _ hstep ih =>
    obtain ⟨hinv, huntouched⟩ := ih
    cases hstep with
    | call c hc hno =>
      have hx' := huntouched.covered.mpr hx
      exact ⟨hc.inv hinv, huntouched.trans (hc.untouched hinv hx' hno)⟩

/-- In every run, whatever the other calls do, a mapped address keeps its protection and its byte
until a call is handed it. -/
theorem mapping_isolated (hm : PublicReachable m) (hx : Covered m.regions x)
    (hrun : ReflTransGen (PublicStep fun _ c ↦ ¬ c.Names x) m m') :
    pageMap m'.regions x = pageMap m.regions x ∧ m'.mem x = m.mem x := by
  obtain ⟨-, hpage, hbyte⟩ := untouched_run hm.inv hx hrun
  exact ⟨hpage, hbyte⟩

end Calls

/-- Two pages of the pool, the second one unmapped and mapped again, the first one left alone. -/
theorem mapping_isolated_pool :
    let m := PublicCall.run (PublicCall.run (initMman false fun _ ↦ 0)
      (.mmap poolAnswers (slowReads [] 0) 0 0x2000 3 (MAP_PRIVATE ||| MAP_ANONYMOUS) (-1) 0))
      (.store 0x81000004 7)
    let m' := PublicCall.run (PublicCall.run m (.munmap 0x81001000 0x1000))
      (.mmap poolAnswers (slowReads [] 0) 0 0x1000 1 (MAP_PRIVATE ||| MAP_ANONYMOUS) (-1) 0)
    pageMap m'.regions 0x81000004 = some (-1, 3) ∧ m'.mem 0x81000004 = 7 := by
  intro m m'
  have hmap : ∀ (m : State) len prot, len < 2 ^ 32 → (PublicCall.mmap poolAnswers (slowReads [] 0) 0
      len prot (MAP_PRIVATE ||| MAP_ANONYMOUS) (-1) 0).Fits m := fun m len prot hlen ↦
    ⟨poolAnswers_sound m _, hlen, [], slowReads_serves [] 0⟩
  have hreach : PublicReachable m := ⟨false, _, (ReflTransGen.single (.call _ _
    (hmap _ 0x2000 3 (by decide)) trivial)).tail (.call _ _ trivial trivial)⟩
  have hno : ¬ (0x81001000 ≤ 0x81000004 ∧ 0x81000004 < 0x81001000 + roundUp 0x1000) := by decide
  have hfits : 0x81001000 + roundUp 0x1000 < 2 ^ 32 := by decide
  have hrun : ReflTransGen (PublicStep fun _ c ↦ ¬ c.Names 0x81000004) m m' :=
    (ReflTransGen.single (.call m (.munmap 0x81001000 0x1000) hfits hno)).tail
      (.call _ _ (hmap _ 0x1000 1 (by decide)) id)
  have hpage : pageMap m.regions 0x81000004 = some (-1, 3) := by decide +kernel
  have hkept := mapping_isolated hreach (covered_iff_pageMap.mpr (by rw [hpage]; simp)) hrun
  have hbyte : m.mem 0x81000004 = 7 := by decide +kernel
  rw [hpage, hbyte] at hkept
  exact hkept

end SceLibcPosix.Mman
