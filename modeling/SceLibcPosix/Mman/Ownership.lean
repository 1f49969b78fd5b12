import Mathlib.Order.Interval.Set.Defs
import SceLibcPosix.Mman.Isolation

namespace SceLibcPosix.Mman

open Errno Relation Spans

/-- The addresses that belong to the callers after a call, by what it returns. -/
def PublicCall.owns (m : State) (S : Set ℕ) : PublicCall → Set ℕ
  | mmap k pread addr len prot flags fd off =>
    let p := (Mman.mmap m k pread addr len prot flags fd off).1
    if p = MAP_FAILED then S else S ∪ Set.Ico p (p + roundUp len)
  | munmap addr len =>
    if (Mman.munmap m addr len).1 = 0 then S \ Set.Ico addr (addr + roundUp len) else S
  | mremap k oldAddr oldLen newLen flags fixedArg =>
    let p := (Mman.mremap m k oldAddr oldLen newLen flags fixedArg).1
    if p = MAP_FAILED then S
    else S \ Set.Ico oldAddr (oldAddr + roundUp oldLen) ∪ Set.Ico p (p + roundUp newLen)
  | mprotect _ _ _ _ _ | madvise _ _ _ _ | mincore _ _ _ | store _ _ => S

/-- No memory at the null address, and no move out of the middle of an entry that leaves a table
without room for the second half. -/
def PublicCall.Roomy (m : State) : PublicCall → Prop
  | mmap k _ _ _ _ _ _ _ => 0 ≤ k.reserveUid → k.reserveBase ≠ NULL
  | mremap k oldAddr oldLen _ _ _ => (0 ≤ k.reserveUid → k.reserveBase ≠ NULL) ∧
    ¬ (m.regions.length + 1 = maxRegions ∧
      ∃ r ∈ m.regions, Inside oldAddr (oldAddr + roundUp oldLen) r)
  | munmap _ _ | mprotect _ _ _ _ _ | madvise _ _ _ _ | mincore _ _ _ | store _ _ => True

/-- A run with the account that its callers keep from the results alone. -/
inductive Ledger : State → Set ℕ → Prop
  | start (b : Bool) (mem : ℕ → UInt8) : Ledger (initMman b mem) ∅
  | call {m : State} {S : Set ℕ} (c : PublicCall) : Ledger m S → c.Fits m → c.Roomy m →
      Ledger (c.run m) (c.owns m S)

section Layer

variable {m m' : State} {k : Answers} {n p x addr len oldLen newLen : ℕ} {uid : ℤ}
  {prot : BitVec 32}

theorem addU_eq {a b : ℕ} (h : a + b < 2 ^ 32) : addU a b = a + b := Nat.mod_eq_of_lt h

theorem protect_covered (m : State) (k : Answers) (addr len : ℕ) (prot : BitVec 32) :
    Covered (mmanProtect m k addr len prot).2.regions x ↔ Covered m.regions x := by
  unfold mmanProtect
  split
  · exact Iff.rfl
  · apply covered_map
    intro r
    split <;> exact ⟨rfl, rfl⟩

theorem discard_regions (m : State) (k : Answers) (addr len : ℕ) :
    (mmanDiscard m k addr len).2.regions = m.regions := by
  have hout := mmanDiscard_outcome m k addr len
  generalize mmanDiscard m k addr len = res at hout ⊢
  cases hout with
  | refused | commitFailed | recommitted | cleared => rfl

theorem unmap_covered (hm : Inv Neat m) (hw : addr + pageAlign len < 2 ^ 32)
    (hb : pageAlign len ≠ 0 →
      ¬ Blocked addr (addr + pageAlign len) m.regions.length m.regions) :
    Covered (mmanUnmap m addr len).2.regions x ↔
      Covered m.regions x ∧ ¬ (addr ≤ x ∧ x < addr + pageAlign len) := by
  by_cases hl : pageAlign len = 0
  · rw [mmanUnmap_zero (.inl hl), hl, and_iff_left (by omega)]
  · rw [mmanUnmap_regions hm.table.toTidy (fun h ↦ by simp [hm.ready] at h) hl hw,
      if_neg (hb hl),
      covered_flatMap_carve (by omega)]

theorem unmap_failed (hm : Inv Neat m) (hw : addr + pageAlign len < 2 ^ 32)
    (hret : (mmanUnmap m addr len).1 < 0) : (mmanUnmap m addr len).2.regions = m.regions := by
  by_cases hl : pageAlign len = 0
  · rw [mmanUnmap_zero (.inl hl)]
  have hunready : m.ready = false → m.regions = [] := fun h ↦ by simp [hm.ready] at h
  rw [mmanUnmap_ret hm.table.toTidy hunready hl hw] at hret
  rw [mmanUnmap_regions hm.table.toTidy hunready hl hw]
  split at hret
  · next h =>
    rcases h with h | h
    · rw [if_pos h]
    · rw [flatMap_carve_eq_self h, ite_self]
  · cases hret

theorem unmap_succeeded (hm : Inv Neat m) (hw : addr + pageAlign len < 2 ^ 32)
    (hret : ¬ (mmanUnmap m addr len).1 < 0) :
    ¬ Blocked addr (addr + pageAlign len) m.regions.length m.regions := by
  intro hb
  by_cases hl : pageAlign len = 0
  · rw [mmanUnmap_zero (.inl hl)] at hret
    exact hret (by simp)
  · rw [mmanUnmap_ret hm.table.toTidy (fun h ↦ by simp [hm.ready] at h) hl hw,
      if_pos (.inl hb)] at hret
    exact hret (by decide)

theorem put_covered (hm : Inv Neat m) (h : Hit m.regions) (n : ℕ) :
    Covered (h.put { h.entry with len := n }) x ↔
      Covered m.regions x ∧ ¬ (h.entry.addr ≤ x ∧ x < h.entry.addr + h.entry.len) ∨
        h.entry.addr ≤ x ∧ x < h.entry.addr + n := by
  have halone := h.alone hm.table.ordered (x := x)
  rw [h.covered_put, h.covered, covers_iff, covers_iff]
  rw [covers_iff] at halone
  tauto

theorem resize_covered (hm : Inv Neat m) (hwo : addr + pageAlign oldLen < 2 ^ 32)
    (hw : addr + pageAlign newLen < 2 ^ 32) (hres : mmanResize m addr oldLen newLen = (0, m')) :
    (Covered m'.regions x ↔ Covered m.regions x ∧ ¬ (addr ≤ x ∧ x < addr + pageAlign oldLen) ∨
      addr ≤ x ∧ x < addr + pageAlign newLen) ∧
    (Covered m.regions x → addr ≤ x → x < addr + pageAlign newLen →
      x < addr + pageAlign oldLen) := by
  have hout := mmanResize_outcome m addr oldLen newLen
  rw [hres] at hout
  cases hout with
  | same h hfind hstart hlen heq =>
    rw [heq]
    refine ⟨?_, fun _ _ hhi ↦ hhi⟩
    have hcover := h.covered (x := x)
    have halone := h.alone hm.table.ordered (x := x)
    rw [covers_iff, hstart, hlen] at hcover halone
    tauto
  | shrunk h hfind hstart hlen hlt =>
    have hput := put_covered (x := x) hm h (pageAlign newLen)
    rw [hstart, hlen] at hput
    exact ⟨hput, fun _ _ hhi ↦ by omega⟩
  | grown h hfind hstart hlen hlt hu htop hfree =>
    have hput := put_covered (x := x) hm h (pageAlign newLen)
    rw [hstart, hlen] at hput
    refine ⟨hput, fun hx hlo hhi ↦ ?_⟩
    by_contra hge
    have hold : ¬ Covers h.entry x := by
      rw [covers_iff, hstart, hlen]
      omega
    exact grow_free hm h hwo hw hfree hx hold ⟨by omega, hhi⟩

theorem Placed.covered (h : Placed m n prot p uid m') :
    Covered m'.regions x ↔ (p ≤ x ∧ x < p + n) ∨ Covered m.regions x :=
  covered_insert h.insert

theorem inside_map {t : List Region} {f : Region → Region} {s e : ℕ}
    (hf : ∀ r, (f r).addr = r.addr ∧ (f r).len = r.len) :
    (∃ r ∈ t.map f, Inside s e r) ↔ ∃ r ∈ t, Inside s e r := by
  simp [Inside, hf]

theorem moveTo_before (hm' : Inv Neat m') (k : Answers) (addr oldLen newLen : ℕ)
    (prot : BitVec 32) (p : ℕ) : ∃ m₁,
      moveTo m' k addr oldLen newLen prot p = (mmanUnmap m₁ addr oldLen).2 ∧ Inv Neat m₁ ∧
      m₁.regions.length = m'.regions.length ∧
      (∀ x, Covered m₁.regions x ↔ Covered m'.regions x) ∧
      ∀ s e, (∃ r ∈ m₁.regions, Inside s e r) ↔ ∃ r ∈ m'.regions, Inside s e r := by
  let copied := m'.memcpy p addr (if oldLen < newLen then oldLen else newLen)
  have hcopy : Inv Neat copied := hm'.same ⟨rfl, rfl, rfl, rfl⟩ rfl fun _ h ↦ h
  unfold moveTo
  dsimp only
  split
  · refine ⟨(mmanProtect copied k p newLen prot).2, rfl, hcopy.protect keeps_neat prot, ?_,
      fun x ↦ protect_covered copied k p newLen prot, fun s e ↦ ?_⟩
    · simp [mmanProtect, copied, hm'.ready]
    · simp only [mmanProtect, copied, hm'.ready, State.memcpy_ready, Bool.not_true,
        Bool.false_eq_true, if_false, State.unlock_regions, State.setRegions_regions,
        State.lock_regions, State.memcpy_regions]
      apply inside_map
      intro r
      split <;> exact ⟨rfl, rfl⟩
  · exact ⟨copied, rfl, hcopy, rfl, fun _ ↦ Iff.rfl, fun _ _ ↦ Iff.rfl⟩

theorem moveTo_covered (hm : Inv Neat m) (hs : k.Sound m (pageAlign newLen)) {err : ℤ}
    (hout : MapOutcome m k (pageAlign newLen) (prot ||| PROT_WRITE) (p, err, m')) (hp : p ≠ NULL)
    {h : Hit m.regions} (ha : addr % 0x1000 = 0) (hwo : addr + roundUp oldLen < 2 ^ 32)
    (hfind : regionFind m.regions addr = some h) (hmap : mmanMapped m addr oldLen = true)
    (hroom : ¬ (m.regions.length + 1 = maxRegions ∧
      ∃ r ∈ m.regions, Inside addr (addr + roundUp oldLen) r)) :
    Covered (moveTo m' k addr oldLen newLen prot p).regions x ↔
      Covered m.regions x ∧ ¬ (addr ≤ x ∧ x < addr + roundUp oldLen) ∨
        p ≤ x ∧ x < p + pageAlign newLen := by
  have hround : pageAlign oldLen = roundUp oldLen := pageAlign_eq (by omega)
  obtain ⟨uid, hpl⟩ := hout.placed keeps_neat hm hs hp
  have hpos := hpl.pos
  have hm' : Inv Neat m' := hm.map keeps_neat hs (pageAlign_mod newLen) hout
  have hno : ¬ Meets addr (addr + pageAlign oldLen)
      ⟨p, pageAlign newLen, uid, prot ||| PROT_WRITE⟩ := by
    rw [← addU_eq (by omega)]
    exact not_meets_mapped ha hm.table.fits hfind hmap hpos hpl.apart
  obtain ⟨m₁, heq, hm₁, hlen, hcov, hins⟩ := moveTo_before hm' k addr oldLen newLen prot p
  rw [heq, unmap_covered hm₁ (by omega) ?_, hcov, hpl.covered, hround]
  · unfold Meets at hno
    dsimp only at hno
    constructor
    · rintro ⟨hx | hx, hout⟩
      · exact .inr hx
      · exact .inl ⟨hx, hout⟩
    · rintro (⟨hx, hout⟩ | hx)
      · exact ⟨.inr hx, hout⟩
      · exact ⟨.inl hx, by omega⟩
  · rintro hl ⟨hfull, hinside⟩
    obtain ⟨r, hr, hi⟩ := (hins _ _).mp hinside
    have hcount := hm'.table.count
    have hlen' : m'.regions.length = m.regions.length + 1 := by
      obtain ⟨-, t₁, t₂, h₁, h₂, -⟩ := regionInsert_some hpl.insert
      simp only [h₁, h₂, List.length_append, List.length_cons]
      omega
    rcases (regionInsert_mem hpl.insert r).mp hr with rfl | hr
    · exact hno (hi.meets (by omega))
    · exact hroom ⟨by omega, r, hr, hround ▸ hi⟩

end Layer

/-- What a call that returns a range does to the mapped addresses: it takes the old ones out, puts
the range in, and the range was free but for the old ones. -/
structure Returns (m : State) (old : Set ℕ) (len : ℕ) (res : ℕ × ℤ × State) : Prop where
  failed : res.1 = MAP_FAILED → res.2.2.regions = m.regions
  covered : res.1 ≠ MAP_FAILED → ∀ x, Covered res.2.2.regions x ↔
    Covered m.regions x ∧ x ∉ old ∨ x ∈ Set.Ico res.1 (res.1 + roundUp len)
  fresh : res.1 ≠ MAP_FAILED → ∀ x ∈ Set.Ico res.1 (res.1 + roundUp len),
    Covered m.regions x → x ∈ old

section Account

variable {m m' : State} {k : Answers} {p addr len : ℕ} {prot : BitVec 32} {S : Set ℕ}

theorem ne_mapFailed (h : p % 0x1000 = 0) : p ≠ MAP_FAILED := by
  unfold MAP_FAILED
  omega

theorem MmapOutcome.returns (hm : Inv Neat m) (hs : k.Sound m (pageAlign len)) (hlen : len < 2 ^ 32)
    (hbase : 0 ≤ k.reserveUid → k.reserveBase ≠ NULL) {res : ℕ × ℤ × State}
    (h : MmapOutcome m k len prot res) : Returns m ∅ len res := by
  cases h with
  | refused => exact ⟨fun _ ↦ rfl, fun h ↦ absurd rfl h, fun h ↦ absurd rfl h⟩
  | mapFailed err errno m' hout =>
    have hregs := hout.regions_of_null rfl hbase
    exact ⟨fun _ ↦ hregs, fun h ↦ absurd rfl h, fun h ↦ absurd rfl h⟩
  | fillFailed p err errno m' mem hout hp houtside =>
    obtain ⟨uid, hmapped⟩ := hout.mapped_of_ne_null keeps_neat hm hs hp
    have hready := (hm.map keeps_neat hs (pageAlign_mod len) hout).ready
    have hregs := (hmapped.unmap keeps_neat hm hready hm.table.pos mem).1
    exact ⟨fun _ ↦ hregs, fun h ↦ absurd rfl h, fun h ↦ absurd rfl h⟩
  | mapped p err m' mem hout hp houtside =>
    obtain ⟨uid, hplaced⟩ := hout.placed keeps_neat hm hs hp
    have hround := (hplaced.fitsAt hlen).2
    refine ⟨fun h ↦ absurd h (ne_mapFailed hplaced.aligned), fun _ x ↦ ?_, fun _ x hx hcov ↦ ?_⟩
    · have hcov := hplaced.covered (x := x)
      rw [hround] at hcov
      simp only [Set.mem_empty_iff_false, not_false_iff, and_true, Set.mem_Ico]
      rw [or_comm]
      split
      · rw [protect_covered]
        exact hcov
      · exact hcov
    · have hfree := hplaced.free hcov
      obtain ⟨hlo, hhi⟩ := hx
      dsimp only at hlo hhi
      omega

theorem RemapOutcome.returns (hm : Inv Neat m) {oldLen newLen : ℕ}
    (hs : k.Sound m (pageAlign newLen)) (hwo : addr + roundUp oldLen < 2 ^ 32)
    (hw : addr + roundUp newLen < 2 ^ 32) (hbase : 0 ≤ k.reserveUid → k.reserveBase ≠ NULL)
    (hroom : ¬ (m.regions.length + 1 = maxRegions ∧
      ∃ r ∈ m.regions, Inside addr (addr + roundUp oldLen) r))
    {flags : BitVec 32} {fixedArg : ℕ} {res : ℕ × ℤ × State}
    (h : RemapOutcome m k addr oldLen newLen flags fixedArg res) :
    Returns m (Set.Ico addr (addr + roundUp oldLen)) newLen res := by
  have hold : pageAlign oldLen = roundUp oldLen := pageAlign_eq (by omega)
  have hnew : pageAlign newLen = roundUp newLen := pageAlign_eq (by omega)
  cases h with
  | refused => exact ⟨fun _ ↦ rfl, fun h ↦ absurd rfl h, fun h ↦ absurd rfl h⟩
  | mapFailed hint prot err hnull =>
    have hregs := (mmanMap_outcome m k hint newLen prot).regions_of_null hnull hbase
    exact ⟨fun _ ↦ hregs, fun h ↦ absurd rfl h, fun h ↦ absurd rfl h⟩
  | resized h m' hn _ _ hfind _ _ hres =>
    have hle := le_roundUp newLen
    have hcov := fun x ↦ resize_covered (x := x) hm (by omega) (by omega) hres
    rw [hold, hnew] at hcov
    refine ⟨fun h ↦ ?_, fun _ x ↦ (hcov x).1, fun _ x hx hc ↦ ⟨hx.1, (hcov x).2 hc hx.1 hx.2⟩⟩
    have : addr = 0xffffffff := h
    omega
  | moved h hint p err m' hargs hfind _ hmap _ hmm hp =>
    have hout := mmanMap_outcome m k hint newLen (h.entry.prot ||| PROT_WRITE)
    rw [hmm] at hout
    obtain ⟨uid, hplaced⟩ := hout.placed keeps_neat hm hs hp
    have hcov := fun x ↦ moveTo_covered (x := x) hm hs hout hp hargs.aligned hwo hfind hmap hroom
    rw [hnew] at hcov
    refine ⟨fun h ↦ absurd h (ne_mapFailed hplaced.aligned), fun _ ↦ hcov, fun _ x hx hc ↦ ?_⟩
    have hfree := hplaced.free hc
    obtain ⟨hlo, hhi⟩ := hx
    dsimp only at hlo hhi
    omega

theorem Returns.account {old : Set ℕ} {res : ℕ × ℤ × State} (h : Returns m old len res)
    (hS : ∀ x, Covered m.regions x ↔ x ∈ S) (x : ℕ) : Covered res.2.2.regions x ↔
      x ∈ if res.1 = MAP_FAILED then S else S \ old ∪ Set.Ico res.1 (res.1 + roundUp len) := by
  split
  · next hfail => rw [h.failed hfail, hS]
  · next hok => rw [h.covered hok, hS, Set.mem_union, Set.mem_sdiff]

theorem munmap_account (hm : Inv Neat m) (hw : addr + roundUp len < 2 ^ 32)
    (hS : ∀ x, Covered m.regions x ↔ x ∈ S) (x : ℕ) : Covered (munmap m addr len).2.2.regions x ↔
      x ∈ if (munmap m addr len).1 = 0 then S \ Set.Ico addr (addr + roundUp len) else S := by
  have hround : pageAlign len = roundUp len := pageAlign_eq (by omega)
  unfold munmap
  split
  · exact hS x
  dsimp only
  split
  · next hret =>
    rw [if_neg (by simp), unmap_failed hm (by omega) hret]
    exact hS x
  · next hret =>
    have hcov := unmap_covered (x := x) hm (by omega) fun _ ↦ unmap_succeeded hm (by omega) hret
    rw [hS, hround] at hcov
    exact hcov

theorem PublicCall.Fits.owned {c : PublicCall} (hm : Inv Neat m) (hc : c.Fits m) (hr : c.Roomy m)
    (hS : ∀ x, Covered m.regions x ↔ x ∈ S) :
    (∀ x, Covered (c.run m).regions x ↔ x ∈ c.owns m S) ∧
    ∀ x, c.Grants m x → ¬ c.Names x → x ∉ S := by
  cases c with
  | mmap k pread addr len prot flags fd off =>
    obtain ⟨hs, hlen, file, hread⟩ := hc
    have hret : Returns m ∅ len (Mman.mmap m k pread addr len prot flags fd off) :=
      (mmap_outcome hm hs hlen hread).returns hm hs hlen hr
    refine ⟨fun x ↦ ?_, fun x hx _ hxS ↦ hret.fresh hx.1 x hx.2 ((hS x).mpr hxS)⟩
    have haccount := hret.account hS x
    rwa [Set.sdiff_empty] at haccount
  | munmap addr len => exact ⟨munmap_account hm hc hS, fun x hx ↦ hx.elim⟩
  | mremap k oldAddr oldLen newLen flags fixedArg =>
    obtain ⟨hs, hold, hnew⟩ := hc
    have hret := (mremap_outcome m k oldAddr oldLen newLen flags fixedArg).returns hm hs hold hnew
      hr.1 hr.2
    exact ⟨hret.account hS, fun x hx hno hxS ↦ hno (hret.fresh hx.1 x hx.2 ((hS x).mpr hxS))⟩
  | mprotect net k addr len prot =>
    refine ⟨fun x ↦ ?_, fun x hx ↦ hx.elim⟩
    rcases mprotect_state net m k addr len prot with h | h
    · simpa only [PublicCall.run, PublicCall.owns, h] using hS x
    · simp only [PublicCall.run, PublicCall.owns, h, protect_covered]
      exact hS x
  | madvise k addr len advice =>
    refine ⟨fun x ↦ ?_, fun x hx ↦ hx.elim⟩
    rcases madvise_state m k addr len advice with h | h
    · simpa only [PublicCall.run, PublicCall.owns, h] using hS x
    · simpa only [PublicCall.run, PublicCall.owns, h, discard_regions] using hS x
  | mincore addr len vec =>
    refine ⟨fun x ↦ ?_, fun x hx ↦ hx.elim⟩
    rcases mincore_state m addr len vec with h | h
    · simpa only [PublicCall.run, PublicCall.owns, h] using hS x
    · simpa only [PublicCall.run, PublicCall.owns, h, State.memset_regions] using hS x
  | store addr byte => exact ⟨hS, fun x hx ↦ hx.elim⟩

theorem Ledger.exact (h : Ledger m S) : Inv Neat m ∧ ∀ x, Covered m.regions x ↔ x ∈ S := by
  induction h with
  | start b mem => exact ⟨inv_init keeps_neat b mem, fun x ↦ by simp⟩
  | call c _ hc hr ih => exact ⟨hc.inv ih.1, (hc.owned ih.1 hr ih.2).1⟩

/-- In every run the mapped addresses are those the callers have been given and have not given
back, and no call hands out an address that a caller still has. -/
theorem mapped_exactly_owned (h : Ledger m S) : (∀ x, Covered m.regions x ↔ x ∈ S) ∧
    ∀ c : PublicCall, c.Fits m → c.Roomy m → ∀ x, c.Grants m x → ¬ c.Names x → x ∉ S := by
  obtain ⟨hm, hS⟩ := h.exact
  exact ⟨hS, fun c hc hr ↦ (hc.owned hm hr hS).2⟩

end Account

/-- A mapping of two pages: a second call does not return one of them again. -/
theorem mapped_exactly_owned_pool :
    let c := PublicCall.mmap poolAnswers (slowReads [] 0) 0 0x2000 3 (MAP_PRIVATE ||| MAP_ANONYMOUS)
      (-1) 0
    let m := c.run (initMman false fun _ ↦ 0)
    Covered m.regions 0x81001fff ∧ ¬ c.Grants m 0x81001fff := by
  intro c m
  have hfits : ∀ m, c.Fits m := fun m ↦
    ⟨poolAnswers_sound m _, by decide, [], slowReads_serves [] 0⟩
  have hroomy : ∀ m, c.Roomy m := fun m h ↦ absurd h (by decide)
  obtain ⟨hmapped, happart⟩ := mapped_exactly_owned
    (.call c (.start false fun _ ↦ 0) (hfits _) (hroomy _))
  have hcov : Covered m.regions 0x81001fff := by decide +kernel
  exact ⟨hcov, fun hgrant ↦ happart c (hfits m) (hroomy m) _ hgrant id ((hmapped _).mp hcov)⟩

end SceLibcPosix.Mman
