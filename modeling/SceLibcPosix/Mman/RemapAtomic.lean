import SceLibcPosix.Mman.RemapContents

namespace SceLibcPosix.Mman

open Spans Errno

/-- What `mremap` promises of the table: a call that fails leaves it alone; a call that moves to `p`
takes the old range out, puts the new one in with the protection of the old address and changes
nothing else. -/
structure MovesAtomically (m : State) (oldAddr oldLen newLen : ℕ) (res : ℕ × ℤ × State) : Prop where
  failed : res.1 = MAP_FAILED → res.2.2.regions = m.regions
  moved : res.1 ≠ MAP_FAILED → res.1 ≠ oldAddr → ∃ uid u prot,
    pageMap m.regions oldAddr = some (u, prot) ∧
    pageMap res.2.2.regions = fun x ↦
      if res.1 ≤ x ∧ x < res.1 + roundUp newLen then some (uid, prot)
      else without (pageMap m.regions) oldAddr (oldAddr + roundUp oldLen) x
  gone : res.1 ≠ MAP_FAILED → res.1 ≠ oldAddr → ∀ x, oldAddr ≤ x → x < oldAddr + roundUp oldLen →
    pageMap res.2.2.regions x = none

def remapHint (flags : BitVec 32) (fixedArg : ℕ) : ℕ :=
  if flags &&& MREMAP_FIXED ≠ 0 then fixedArg else NULL

/-- There is memory for the new range, and it may be where the caller wants it. -/
def Placeable (m : State) (k : Answers) (hint newLen : ℕ) : Prop :=
  if m.haveKubridge then 0 ≤ k.reserveUid ∧ 0 ≤ k.commit
  else hint = NULL ∧ vmPoolAlloc m (pageAlign newLen) ≠ NULL

/-- The moves whose unmapping must fail: out of the middle of an entry, in a table that has room for
the new entry and for no other. -/
structure Stuck (m : State) (k : Answers) (oldAddr oldLen newLen : ℕ) (flags : BitVec 32)
    (fixedArg : ℕ) : Prop where
  args : MoveArgs oldAddr newLen flags fixedArg (remapHint flags fixedArg)
  nearlyFull : m.regions.length + 1 = maxRegions
  placeable : Placeable m k (remapHint flags fixedArg) newLen
  inside : ∃ r ∈ m.regions, Inside oldAddr (oldAddr + roundUp oldLen) r ∧ 0 ≤ r.prot.toInt

section Table

variable {t u : List Region} {p n s e : ℕ} {uid : ℤ} {prot : BitVec 32}

theorem pageMap_added (ht : Ordered t) (hu : Ordered u)
    (hmem : ∀ r, r ∈ u ↔ r = ⟨p, n, uid, prot⟩ ∨ r ∈ t) :
    pageMap u = fun x ↦ if p ≤ x ∧ x < p + n then some (uid, prot) else pageMap t x := by
  funext x
  split
  · next hx =>
    apply hu.tagAt_eq_some.mpr
    exact ⟨⟨p, n, uid, prot⟩, (hmem _).mpr (.inl rfl), hx, rfl⟩
  · next hx =>
    ext v
    rw [pageMap, pageMap, hu.tagAt_eq_some, ht.tagAt_eq_some]
    constructor
    · rintro ⟨r, hr, hrx, hv⟩
      rcases (hmem r).mp hr with rfl | hr
      · exact absurd hrx hx
      · exact ⟨r, hr, hrx, hv⟩
    · rintro ⟨r, hr, h⟩
      exact ⟨r, (hmem r).mpr (.inr hr), h⟩

theorem without_added {f : ℕ → Option (ℤ × BitVec 32)} {v : Option (ℤ × BitVec 32)}
    (hapart : ∀ x, s ≤ x → x < e → ¬ (p ≤ x ∧ x < p + n)) :
    without (fun x ↦ if p ≤ x ∧ x < p + n then v else f x) s e =
      fun x ↦ if p ≤ x ∧ x < p + n then v else without f s e x := by
  funext x
  unfold without
  by_cases hx : s ≤ x ∧ x < e
  · rw [if_pos hx, if_pos hx, if_neg (hapart x hx.1 hx.2)]
  · rw [if_neg hx, if_neg hx]

theorem blocked_added (hse : s < e) (hmem : ∀ r, r ∈ u ↔ r = ⟨p, n, uid, prot⟩ ∨ r ∈ t)
    (hlen : u.length = t.length + 1) (hcount : u.length ≤ maxRegions)
    (hno : ¬ Meets s e ⟨p, n, uid, prot⟩) :
    Blocked s e u.length u ↔ t.length + 1 = maxRegions ∧ ∃ r ∈ t, Inside s e r := by
  constructor
  · rintro ⟨hfull, r, hr, hi⟩
    refine ⟨by omega, ?_⟩
    rcases (hmem r).mp hr with rfl | hr
    · exact absurd (hi.meets hse) hno
    · exact ⟨r, hr, hi⟩
  · rintro ⟨hfull, r, hr, hi⟩
    exact ⟨by omega, r, (hmem r).mpr (.inr hr), hi⟩

end Table

section Move

variable {m m' : State} {k : Answers} {oldAddr oldLen newLen p n hint : ℕ} {uid : ℤ}
  {prot : BitVec 32} {flags : BitVec 32} {fixedArg : ℕ}

theorem mmanProtect_mem (hm : Inv Neat m) (hpl : Placed m (pageAlign newLen) prot p uid m')
    (hr : m'.ready = true) (prot' : BitVec 32) (r : Region) :
    r ∈ (mmanProtect m' k p newLen prot').2.regions ↔
      r = ⟨p, pageAlign newLen, uid, prot'⟩ ∨ r ∈ m.regions := by
  have hins := hpl.protect (k := k) hr hm.table.fits hm.table.pos prot'
  exact regionInsert_mem hins r

theorem moveTo_regions (hm : Inv Neat m) (hm' : Inv Neat m')
    (hpl : Placed m (pageAlign newLen) (prot ||| PROT_WRITE) p uid m') (hl : pageAlign oldLen ≠ 0)
    (hw : oldAddr + pageAlign oldLen < 2 ^ 32) :
    ∃ u, Tidy u ∧ u.length = m.regions.length + 1 ∧
      (∀ r, r ∈ u ↔ r = ⟨p, pageAlign newLen, uid, prot⟩ ∨ r ∈ m.regions) ∧
      (moveTo m' k oldAddr oldLen newLen prot p).regions =
        if Blocked oldAddr (oldAddr + pageAlign oldLen) u.length u then u
        else u.flatMap (carve oldAddr (oldAddr + pageAlign oldLen)) := by
  have hlen : m'.regions.length = m.regions.length + 1 := by
    obtain ⟨-, t₁, t₂, h₁, h₂, -⟩ := regionInsert_some hpl.insert
    simp only [h₁, h₂, List.length_append, List.length_cons]
    omega
  have hcopy : Inv Neat (m'.memcpy p oldAddr (if oldLen < newLen then oldLen else newLen)) :=
    hm'.same ⟨rfl, rfl, rfl, rfl⟩ rfl fun _ h ↦ h
  have hplc : Placed m (pageAlign newLen) (prot ||| PROT_WRITE) p uid
      (m'.memcpy p oldAddr (if oldLen < newLen then oldLen else newLen)) :=
    ⟨hpl.insert, hpl.pos, hpl.fits, hpl.aligned, hpl.apart, hpl.inPool, hpl.sameMode⟩
  have hunmap : ∀ {m₁ : State}, Inv Neat m₁ → (mmanUnmap m₁ oldAddr oldLen).2.regions =
      if Blocked oldAddr (oldAddr + pageAlign oldLen) m₁.regions.length m₁.regions then m₁.regions
      else m₁.regions.flatMap (carve oldAddr (oldAddr + pageAlign oldLen)) := fun h ↦
    mmanUnmap_regions h.table.toTidy (fun hr ↦ by simp [h.ready] at hr) hl hw
  unfold moveTo
  dsimp only
  split
  · have hprot : Inv Neat (mmanProtect _ k p newLen prot).2 := hcopy.protect keeps_neat prot
    refine ⟨_, hprot.table.toTidy, ?_, mmanProtect_mem hm hplc hcopy.ready prot, hunmap hprot⟩
    simp [mmanProtect, hm'.ready, hlen]
  · next hsame =>
    rw [not_not] at hsame
    refine ⟨_, hcopy.table.toTidy, hlen, ?_, hunmap hcopy⟩
    intro r
    rw [← hsame]
    exact regionInsert_mem hpl.insert r

/-- While the table has room, a new range is placed exactly if there is memory for it. -/
theorem mmanMap_placed_iff (hm : Inv Neat m) (hn : pageAlign newLen ≠ 0)
    (hbase : 0 ≤ k.reserveUid → k.reserveBase ≠ NULL) (hne : m.regions ≠ [])
    (hroom : m.regions.length < maxRegions) (hint : ℕ) (prot : BitVec 32) :
    (mmanMap m k hint newLen prot).1 ≠ NULL ↔ Placeable m k hint newLen := by
  have hins : ∀ a n u, ∃ t, regionInsert m.regions a n u prot = some t := by
    intro a n u
    cases h : regionInsert m.regions a n u prot with
    | none => exact absurd (regionInsert_none.mp h) (by omega)
    | some t => exact ⟨t, rfl⟩
  unfold mmanMap Placeable
  dsimp only
  rw [if_neg hn, if_neg (by simp [hm.ready])]
  cases hk : m.haveKubridge with
  | true =>
    obtain ⟨t, ht⟩ := hins k.reserveBase (pageAlign newLen) k.reserveUid
    rw [if_neg (by simp), if_pos (by simp [hk])]
    by_cases hu : k.reserveUid < 0
    · rw [if_pos hu]
      exact iff_of_false (fun h ↦ h rfl) fun h ↦ absurd h.1 (by omega)
    · by_cases hc : k.commit < 0
      · rw [if_neg hu, if_pos hc]
        exact iff_of_false (fun h ↦ h rfl) fun h ↦ absurd h.2 (by omega)
      · rw [if_neg hu, if_neg hc]
        simp only [State.commit_regions, State.call_regions, State.lock_regions, ht]
        exact iff_of_true (hbase (by omega)) ⟨by omega, by omega⟩
  | false =>
    have hvm : 0 ≤ m.vmUid := by
      by_contra hneg
      exact hne ((hm.pool hk).empty (by omega))
    have hinit : vmPoolInit m.lock k = (0, m.lock) := if_pos hvm
    obtain ⟨t, ht⟩ := hins (vmPoolAlloc m (pageAlign newLen)) (pageAlign newLen) (-1)
    by_cases hh : hint = NULL
    · have halloc : vmPoolAlloc m.lock (pageAlign newLen) = vmPoolAlloc m (pageAlign newLen) := rfl
      rw [if_neg (by simp [hh]), if_neg (by simp [hk])]
      simp only [hinit, halloc, State.lock_regions, ht]
      by_cases hp : vmPoolAlloc m (pageAlign newLen) = NULL
      · simp [hp]
      · simp [hp, hh]
    · rw [if_pos (by simp [hh])]
      exact iff_of_false (fun h ↦ h rfl) fun h ↦ hh h.1

theorem movesAtomically_moveTo (hm : Inv Neat m) (hm' : Inv Neat m') {h : Hit m.regions}
    (hpl : Placed m (pageAlign newLen) (h.entry.prot ||| PROT_WRITE) p uid m')
    (hold : FitsAt oldAddr oldLen) (hnew : FitsAt oldAddr newLen)
    (hfind : regionFind m.regions oldAddr = some h)
    (hmap : mmanMapped m oldAddr oldLen = true) :
    MovesAtomically m oldAddr oldLen newLen
        (p, 0, moveTo m' k oldAddr oldLen newLen h.entry.prot p) ↔
      ¬ (m.regions.length + 1 = maxRegions ∧
        ∃ r ∈ m.regions, Inside oldAddr (oldAddr + roundUp oldLen) r) := by
  have hfits := hm.table.fits
  have hpos := hpl.pos
  obtain ⟨hl, hw⟩ := hold.align
  have hal : pageAlign oldLen = roundUp oldLen := pageAlign_eq (by have := hold.fits; omega)
  have hal' : pageAlign newLen = roundUp newLen := pageAlign_eq (by have := hnew.fits; omega)
  obtain ⟨u, hu, hlen, hmem, hregs⟩ := moveTo_regions (k := k) hm hm' hpl (by omega) hw
  have hend : addU oldAddr (pageAlign oldLen) = oldAddr + pageAlign oldLen := Nat.mod_eq_of_lt hw
  have hno : ¬ Meets oldAddr (oldAddr + pageAlign oldLen)
      ⟨p, pageAlign newLen, uid, h.entry.prot⟩ := by
    rw [← hend]
    exact not_meets_mapped hold.aligned hfits hfind hmap hpos hpl.apart
  have hse : oldAddr < oldAddr + pageAlign oldLen := by omega
  have hblocked := blocked_added hse hmem hlen hu.count hno
  have hpage := pageMap_added hm.table.ordered hu.ordered hmem
  obtain ⟨hlo, hhi⟩ := regionFind_hit hfind
  rw [Region.stop_eq (hfits _ h.mem)] at hhi
  have hat : pageMap m.regions oldAddr = some (h.entry.uid, h.entry.prot) :=
    hm.table.ordered.tagAt_eq _ h.mem ⟨hlo, hhi⟩
  have hapart : ∀ x, oldAddr ≤ x → x < oldAddr + pageAlign oldLen →
      ¬ (p ≤ x ∧ x < p + pageAlign newLen) := by
    intro x hxlo hxhi hx
    exact hno ⟨by dsimp only; omega, by dsimp only; omega⟩
  rw [← hal, ← hblocked]
  constructor
  · intro hatomic hb
    have hne : p ≠ oldAddr := by
      rintro rfl
      exact hapart p le_rfl hse ⟨le_rfl, by omega⟩
    have hfailed : p ≠ MAP_FAILED := by
      have := hpl.aligned
      unfold MAP_FAILED
      omega
    have hgone := hatomic.gone hfailed hne oldAddr le_rfl (by omega)
    rw [hregs, if_pos hb, hpage] at hgone
    dsimp only at hgone
    rw [if_neg (hapart oldAddr le_rfl hse), hat] at hgone
    cases hgone
  · intro hb
    have hfinal : pageMap (moveTo m' k oldAddr oldLen newLen h.entry.prot p).regions =
        fun x ↦ if p ≤ x ∧ x < p + roundUp newLen then some (uid, h.entry.prot)
          else without (pageMap m.regions) oldAddr (oldAddr + roundUp oldLen) x := by
      rw [hregs, if_neg hb, pageMap_carve hse, hpage, ← hal, ← hal', without_added hapart]
    refine ⟨fun hfail ↦ ?_, fun _ _ ↦ ⟨uid, _, _, hat, hfinal⟩, fun _ _ x hxlo hxhi ↦ ?_⟩
    · have := hpl.aligned
      have : p = MAP_FAILED := hfail
      unfold MAP_FAILED at this
      omega
    · dsimp only
      rw [hfinal]
      dsimp only
      rw [← hal', if_neg (hapart x hxlo (by omega)), without, if_pos ⟨hxlo, hxhi⟩]

theorem Stuck.moves (hm : Inv Neat m) (hs : k.Sound m (pageAlign newLen))
    (hbase : 0 ≤ k.reserveUid → k.reserveBase ≠ NULL) (hold : FitsAt oldAddr oldLen)
    (hnew : FitsAt oldAddr newLen) (h : Stuck m k oldAddr oldLen newLen flags fixedArg) :
    (mremap m k oldAddr oldLen newLen flags fixedArg).1 ≠ MAP_FAILED ∧
      (mremap m k oldAddr oldLen newLen flags fixedArg).1 ≠ oldAddr := by
  obtain ⟨r, hr, hi, hprot⟩ := h.inside
  have hfull := h.nearlyFull
  have hp := (mmanMap_placed_iff hm (by have := hnew.align; omega) hbase (List.ne_nil_of_mem hr)
    (by omega) _ (r.prot ||| PROT_WRITE)).mpr h.placeable
  have hw := hold.align.2
  have hal : pageAlign oldLen = roundUp oldLen := pageAlign_eq (by have := hold.fits; omega)
  have hrstop := Region.stop_eq (hm.table.fits r hr)
  have hcover : Covers r oldAddr := ⟨hi.1.le, (hi.meets (by have := hold.align; omega)).1⟩
  unfold Inside at hi
  cases hfind : regionFind m.regions oldAddr with
  | none => exact absurd ⟨hcover.1, hrstop.symm ▸ hcover.2⟩ (regionFind_none.mp hfind r hr)
  | some hit =>
    obtain ⟨hlo, hhi⟩ := regionFind_hit hfind
    rw [Region.stop_eq (hm.table.fits _ hit.mem)] at hhi
    obtain rfl : hit.entry = r := hm.table.ordered.unique hit.mem hr ⟨hlo, hhi⟩ hcover
    have hend : addU oldAddr (pageAlign oldLen) ≤ hit.entry.stop := by
      rw [addU, Nat.mod_eq_of_lt hw, hrstop, hal]
      exact hi.2.le
    have hmap := mmanMapped_within hm.ready hfind hold.aligned hend
    have hno : flags &&& MREMAP_FIXED = 0 →
        ∀ g, ¬ Resizable m oldAddr (pageAlign oldLen) (pageAlign newLen) g := by
      intro _ g hres
      have heq := hfind.symm.trans hres.found
      cases heq
      have := hres.start
      omega
    rw [mremap_moved hm.ready h.args hfind hprot hmap hno hp]
    have hout := mmanMap_outcome m k (remapHint flags fixedArg) newLen
      (hit.entry.prot ||| PROT_WRITE)
    rcases hres : mmanMap m k (remapHint flags fixedArg) newLen (hit.entry.prot ||| PROT_WRITE)
      with ⟨p, err, m'⟩
    rw [hres] at hout hp
    obtain ⟨uid, hpl⟩ := hout.placed keeps_neat hm hs hp
    have hpos := hpl.pos
    have hfits := hpl.fits
    have haligned := hpl.aligned
    have hapart := hpl.apart _ hr
    dsimp only
    refine ⟨?_, ?_⟩
    · unfold MAP_FAILED
      omega
    · omega

/-- In every state that a run reaches, `mremap` moves atomically unless the move is stuck. -/
theorem mremap_atomic_iff (hm : Reachable Request.Fits m) (hs : k.Sound m (pageAlign newLen))
    (hbase : 0 ≤ k.reserveUid → k.reserveBase ≠ NULL) (hold : FitsAt oldAddr oldLen)
    (hnew : FitsAt oldAddr newLen) (flags : BitVec 32) (fixedArg : ℕ) :
    MovesAtomically m oldAddr oldLen newLen (mremap m k oldAddr oldLen newLen flags fixedArg) ↔
      ¬ Stuck m k oldAddr oldLen newLen flags fixedArg := by
  have hinv : Inv Neat m := hm.inv keeps_neat Inv.fits
  have hmoves := fun h : Stuck m k oldAddr oldLen newLen flags fixedArg ↦
    h.moves hinv hs hbase hold hnew
  have hout := mremap_outcome m k oldAddr oldLen newLen flags fixedArg
  generalize mremap m k oldAddr oldLen newLen flags fixedArg = res at hout hmoves ⊢
  cases hout with
  | refused err =>
    exact iff_of_true ⟨fun _ ↦ rfl, fun h ↦ absurd rfl h, fun h ↦ absurd rfl h⟩
      fun h ↦ (hmoves h).1 rfl
  | mapFailed hint prot err hnull =>
    have hregs := (mmanMap_outcome m k hint newLen prot).regions_of_null hnull hbase
    exact iff_of_true ⟨fun _ ↦ hregs, fun h ↦ absurd rfl h, fun h ↦ absurd rfl h⟩
      fun h ↦ (hmoves h).1 rfl
  | resized h m' hn hflags hfix hfind hprot hmap hres =>
    have hne : oldAddr ≠ MAP_FAILED := by
      have := hold.aligned
      unfold MAP_FAILED
      omega
    exact iff_of_true ⟨fun h ↦ absurd h hne, fun _ h ↦ absurd rfl h, fun _ h ↦ absurd rfl h⟩
      fun h ↦ (hmoves h).2 rfl
  | moved h hint p err m' hargs hfind hprot hmap hno hmm hnull =>
    have hmout := mmanMap_outcome m k hint newLen (h.entry.prot ||| PROT_WRITE)
    rw [hmm] at hmout
    obtain ⟨uid, hpl⟩ := hmout.placed keeps_neat hinv hs hnull
    have hm' : Inv Neat m' := hinv.map keeps_neat hs (pageAlign_mod newLen) hmout
    refine (movesAtomically_moveTo hinv hm' hpl hold hnew hfind hmap).trans (not_congr ?_)
    have hhint : hint = remapHint flags fixedArg := hargs.hint_eq
    subst hhint
    constructor
    · rintro ⟨hfull, r, hr, hi⟩
      have hn : pageAlign newLen ≠ 0 := by
        have := hpl.pos
        omega
      have hplace := (mmanMap_placed_iff hinv hn hbase (List.ne_nil_of_mem hr) (by omega) _ _).mp
        (by rw [hmm]; exact hnull)
      obtain ⟨hlo, hhi⟩ := regionFind_hit hfind
      rw [Region.stop_eq (hinv.table.fits _ h.mem)] at hhi
      have hse : oldAddr < oldAddr + roundUp oldLen := by
        have := hold.pos
        have := le_roundUp oldLen
        omega
      obtain rfl : h.entry = r :=
        hinv.table.ordered.unique h.mem hr ⟨hlo, hhi⟩ ⟨hi.1.le, (hi.meets hse).1⟩
      exact ⟨hargs, hfull, hplace, _, hr, hi, hprot⟩
    · intro hstuck
      obtain ⟨r, hr, hi, -⟩ := hstuck.inside
      exact ⟨hstuck.nearlyFull, r, hr, hi⟩

end Move

theorem kuPages_fits : Reachable Request.Fits kuPages :=
  kuPages_reachable ⟨rfl, by decide, by decide⟩

/-- The second of two pages moves. -/
theorem mremap_atomic_kuPages :
    MovesAtomically kuPages 0x90001000 0x1000 0x2000
      (mremap kuPages kuSecond 0x90001000 0x1000 0x2000 1 0) := by
  have hs : kuSecond.Sound kuPages (pageAlign 0x2000) := kuSecond_sound (by decide)
  refine (mremap_atomic_iff kuPages_fits hs (fun _ ↦ by decide) ⟨rfl, by decide, by decide⟩
    ⟨rfl, by decide, by decide⟩ 1 0).mpr fun h ↦ ?_
  exact absurd h.nearlyFull (by decide)

/-- `n` entries of one page, one after the other. -/
def packed (c : ℕ) : ℕ → List Region
  | 0 => []
  | n + 1 => ⟨c, 0x1000, -1, 3⟩ :: packed (c + 0x1000) n

theorem packed_succ (c n : ℕ) :
    packed c (n + 1) = packed c n ++ [⟨c + 0x1000 * n, 0x1000, -1, 3⟩] := by
  induction n generalizing c with
  | zero => rfl
  | succ n ih =>
    rw [packed, ih, packed, List.cons_append, Nat.add_assoc, Nat.mul_succ, Nat.add_comm 0x1000]

theorem length_packed (c n : ℕ) : (packed c n).length = n := by
  induction n generalizing c with
  | zero => rfl
  | succ n ih => rw [packed, List.length_cons, ih]

theorem packed_addr {c n : ℕ} {r : Region} (hr : r ∈ packed c n) : r.addr < c + 0x1000 * n := by
  induction n generalizing c with
  | zero => cases hr
  | succ n ih =>
    rcases List.mem_cons.mp hr with rfl | hr
    · dsimp only
      omega
    · have := ih hr
      omega

theorem vmPoolScan_packed {c n : ℕ} (h : c + 0x1000 * n + 0x1000 < 2 ^ 32) :
    vmPoolScan 0x1000 c (packed c n) = c + 0x1000 * n := by
  induction n generalizing c with
  | zero => rfl
  | succ n ih =>
    have hadd : addU c 0x1000 = c + 0x1000 := Nat.mod_eq_of_lt (by omega)
    have hstop : Region.stop ⟨c, 0x1000, -1, 3⟩ = c + 0x1000 := hadd
    have huid : ¬ (0 : ℤ) ≤ -1 := by decide
    rw [packed, vmPoolScan, if_neg huid, hadd, if_neg (by dsimp only; omega), hstop,
      if_pos (by omega), ih (by omega)]
    omega

/-- A pool with three pages in one entry and `n` pages in entries of their own. -/
def crowded (n : ℕ) : State :=
  { initMman false fun _ ↦ 0 with
    regions := ⟨0x81000000, 0x3000, -1, 3⟩ :: packed 0x81003000 n
    vmUid := 1
    vmBase := 0x81000000 }

theorem crowded_step {n : ℕ} (hn : n < 255) :
    Request.run (crowded n) poolAnswers (.map 0 0x1000 3) = crowded (n + 1) := by
  have hscan : vmPoolScan 0x1000 0x81000000 (crowded n).regions = 0x81003000 + 0x1000 * n := by
    have hfirst : vmPoolScan 0x1000 0x81000000 (crowded n).regions =
        vmPoolScan 0x1000 0x81003000 (packed 0x81003000 n) := rfl
    rw [hfirst, vmPoolScan_packed (by omega)]
  have halloc : vmPoolAlloc (crowded n) 0x1000 = 0x81003000 + 0x1000 * n := by
    have hbase : (crowded n).vmBase = 0x81000000 := rfl
    have htop : addU 0x81000000 poolSize = 0x82000000 := rfl
    have hroom : ¬ (0x82000000 < 0x81003000 + 0x1000 * n ∨
        subU 0x82000000 (0x81003000 + 0x1000 * n) < 0x1000) := by
      unfold subU
      omega
    rw [vmPoolAlloc, hbase, hscan, htop]
    exact if_neg hroom
  have hinsert : regionInsert (crowded n).regions (0x81003000 + 0x1000 * n) 0x1000 (-1) 3 =
      some (crowded (n + 1)).regions := by
    have hbelow : ∀ r ∈ (crowded n).regions, r.addr ≤ 0x81003000 + 0x1000 * n := by
      intro r hr
      rcases List.mem_cons.mp hr with rfl | hr
      · dsimp only
        omega
      · exact (packed_addr hr).le
    have hins : regionInsert ((crowded n).regions ++ []) (0x81003000 + 0x1000 * n) 0x1000 (-1) 3 =
        if maxRegions ≤ ((crowded n).regions ++ []).length then none
        else some ((crowded n).regions ++ [⟨0x81003000 + 0x1000 * n, 0x1000, -1, 3⟩]) :=
      regionInsert_between hbelow (by simp)
    have hlen : ¬ maxRegions ≤ (crowded n).regions.length := by
      have : (crowded n).regions.length = n + 1 := by simp [crowded, length_packed]
      unfold maxRegions
      omega
    rw [List.append_nil, if_neg hlen] at hins
    rw [hins]
    simp only [crowded, packed_succ, List.cons_append]
  have hnull : (0x81003000 + 0x1000 * n : ℕ) ≠ NULL := by
    unfold NULL
    omega
  have halign : pageAlign 0x1000 = 0x1000 := rfl
  have hinit : vmPoolInit (crowded n).lock poolAnswers = (0, (crowded n).lock) := rfl
  have hnk : (crowded n).lock.haveKubridge = false := rfl
  have halloc' : vmPoolAlloc (crowded n).lock 0x1000 = 0x81003000 + 0x1000 * n := halloc
  have hinsert' : regionInsert (crowded n).lock.regions (0x81003000 + 0x1000 * n) 0x1000 (-1) 3 =
      some (crowded (n + 1)).regions := hinsert
  simp only [Request.run, mmanMap, halign, hinit, hnk, halloc', hinsert', if_neg hnull]
  rfl

theorem crowded_reachable {n : ℕ} (hn : n ≤ 255) : Reachable Request.Fits (crowded n) := by
  have hfits : ∀ len : ℕ, 0 < len → len ≤ 0x3000 → FitsAt 0 len := by
    intro len hpos hle
    refine ⟨rfl, hpos, ?_⟩
    unfold roundUp
    omega
  refine ⟨false, fun _ ↦ 0, ?_⟩
  induction n with
  | zero =>
    have hfirst : Request.run (initMman false fun _ ↦ 0) poolAnswers (.map 0 0x3000 3) =
        crowded 0 := by
      have hinit : vmPoolInit (initMman false fun _ ↦ 0).lock poolAnswers =
          (0, { (initMman false fun _ ↦ 0).lock with vmUid := 1, vmBase := 0x81000000 }) := rfl
      have halign : pageAlign 0x3000 = 0x3000 := rfl
      simp only [Request.run, mmanMap, hinit, halign]
      rfl
    rw [← hfirst]
    exact .single (.call _ poolAnswers (.map 0 0x3000 3) (hfits _ (by decide) (by decide))
      (poolAnswers_sound _ _))
  | succ n ih =>
    rw [← crowded_step hn]
    apply (ih (by omega)).tail
    exact .call _ poolAnswers (.map 0 0x1000 3) (hfits _ (by omega) (by omega))
      (poolAnswers_sound _ _)

theorem mremap_keeps_old_range :
    Reachable Request.Fits (crowded 254) ∧
    (mremap (crowded 254) poolAnswers 0x81001000 0x1000 0x1000 1 0).1 = 0x81101000 ∧
    ¬ MovesAtomically (crowded 254) 0x81001000 0x1000 0x1000
      (mremap (crowded 254) poolAnswers 0x81001000 0x1000 0x1000 1 0) := by
  have hret : (mremap (crowded 254) poolAnswers 0x81001000 0x1000 0x1000 1 0).1 = 0x81101000 := by
    decide +kernel
  have hmap : pageMap (mremap (crowded 254) poolAnswers 0x81001000 0x1000 0x1000 1 0).2.2.regions
      0x81001000 = some (-1, 3) := by decide +kernel
  refine ⟨crowded_reachable (by decide), hret, fun h ↦ ?_⟩
  have hgone := h.gone (by rw [hret]; decide) (by rw [hret]; decide) 0x81001000 le_rfl (by decide)
  cases hgone.symm.trans hmap

end SceLibcPosix.Mman
