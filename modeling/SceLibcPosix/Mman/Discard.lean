import SceLibcPosix.Mman.Mapped

namespace SceLibcPosix.Mman

open Errno Spans

/-- The bytes from `s` to `e` are zero, the other ones as before, and so is the table. -/
structure Discarded (m m' : State) (s e : ℕ) : Prop where
  zero : ∀ x, s ≤ x → x < e → m'.mem x = 0
  outside : ∀ x, ¬ (s ≤ x ∧ x < e) → m'.mem x = m.mem x
  table : m'.regions = m.regions

/-- Nothing is left to discard behind the entry that the range begins in, or the kernel does not
commit the pages of this entry again. -/
def OneEntry (m : State) (k : Answers) (addr len : ℕ) : Prop :=
  ∀ r ∈ m.regions, Covers r addr → 0 ≤ r.uid ∧ k.commit < 0 ∨
    ∀ x, r.addr + r.len ≤ x → x < roundUp (addr + len) → m.mem x = 0

section

variable {m : State} {k : Answers} {addr len : ℕ} {advice : Advice}

theorem mmanMapped_of_covered (hm : WellFormed m) (hpos : 0 < len)
    (hcov : ∀ x, addr ≤ x → x < roundUp (addr + len) → Covered m.regions x) :
    m.ready = true ∧ roundUp (addr + len) < 2 ^ 32 ∧ mmanMapped m addr len = true := by
  have hle := le_roundUp (addr + len)
  obtain ⟨r, hr, hx⟩ := hcov (roundUp (addr + len) - 1) (by omega) (by omega)
  have hfits := hm.tidy.fits r hr
  have hend : roundUp (addr + len) < 2 ^ 32 := by
    rw [covers_iff] at hx
    omega
  have hready : m.ready = true := by
    by_contra hno
    have hnil := hm.unready (by simpa using hno)
    rw [hnil] at hr
    cases hr
  have hiff := @mmanMapped_iff m addr len hm (by omega) hpos
  exact ⟨hready, hend,
    (hiff.mpr (.inr (.inl hend))).mpr ((fullyMapped_iff hm hpos hend).mpr hcov)⟩

theorem DiscardPart.eq (hm : WellFormed m) (hal : addr % 0x1000 = 0)
    (hend : roundUp (addr + len) < 2 ^ 32) {h : Hit m.regions} {ds de : ℕ}
    (hp : DiscardPart m addr len h ds de) :
    Covers h.entry addr ∧ ds = addr ∧
      de = min (h.entry.addr + h.entry.len) (roundUp (addr + len)) := by
  have hstop := Region.stop_eq (hm.tidy.fits _ h.mem)
  have hsum : addU addr len = addr + len :=
    Nat.mod_eq_of_lt ((le_roundUp (addr + len)).trans_lt hend)
  obtain ⟨hlo, hhi⟩ := regionFind_hit hp.found
  have hstart : pageStart addr = addr := by
    unfold pageStart
    omega
  refine ⟨covers_iff.mpr ⟨hlo, hstop ▸ hhi⟩, ?_, ?_⟩
  · rw [hp.lo, hstart, if_neg (not_lt.mpr hlo)]
  · rw [hp.hi, hstop, hsum, pageAlign_eq hend]
    split <;> omega

theorem DiscardPart.only (hm : WellFormed m) (hal : addr % 0x1000 = 0)
    (hend : roundUp (addr + len) < 2 ^ 32) {h : Hit m.regions} {ds de : ℕ}
    (hp : DiscardPart m addr len h ds de) {r : Region} (hr : r ∈ m.regions) (hx : Covers r addr) :
    r = h.entry :=
  hm.tidy.ordered.unique hr h.mem hx (hp.eq hm hal hend).1

theorem DiscardPart.discarded_iff (hm : WellFormed m) (hal : addr % 0x1000 = 0)
    (hend : roundUp (addr + len) < 2 ^ 32) {h : Hit m.regions} {ds de : ℕ}
    (hp : DiscardPart m addr len h ds de) {m' : State}
    (hmem : ∀ x, m'.mem x = if ds ≤ x ∧ x < de then 0 else m.mem x)
    (htab : m'.regions = m.regions) (hk : ¬ (0 ≤ h.entry.uid ∧ k.commit < 0)) :
    Discarded m m' addr (roundUp (addr + len)) ↔ OneEntry m k addr len := by
  obtain ⟨hx, rfl, hde⟩ := hp.eq hm hal hend
  rw [covers_iff] at hx
  constructor
  · intro hd r hr hxr
    refine .inr fun x hlo hhi ↦ ?_
    obtain rfl := hp.only hm hal hend hr hxr
    have hzero := hd.zero x (by omega) hhi
    rwa [hmem, if_neg (by omega)] at hzero
  · intro hone
    have hrest := (hone h.entry h.mem (covers_iff.mpr hx)).resolve_left hk
    refine ⟨fun x hlo hhi ↦ ?_, fun x hx' ↦ ?_, htab⟩
    · rw [hmem]
      split
      · rfl
      · exact hrest x (by omega) hhi
    · rw [hmem, if_neg (by omega)]

theorem mmanDiscard_iff (hm : WellFormed m) (hal : addr % 0x1000 = 0) (hpos : 0 < len)
    (hcov : ∀ x, addr ≤ x → x < roundUp (addr + len) → Covered m.regions x) :
    (0 ≤ (mmanDiscard m k addr len).1 →
      Discarded m (mmanDiscard m k addr len).2 addr (roundUp (addr + len))) ↔
      OneEntry m k addr len := by
  obtain ⟨hready, hend, -⟩ := mmanMapped_of_covered hm hpos hcov
  have hle := le_roundUp (addr + len)
  have hout := mmanDiscard_outcome m k addr len
  generalize mmanDiscard m k addr len = res at hout ⊢
  cases hout with
  | refused hno =>
    obtain ⟨r, hr, hx⟩ := hcov addr le_rfl (by omega)
    obtain ⟨h, hfind⟩ := Option.isSome_iff_exists.mp
      ((regionFind_isSome hm.tidy.fits).mpr ⟨r, hr, hx⟩)
    have hp : DiscardPart m addr len h _ _ := ⟨hfind, rfl, rfl⟩
    have hde := hno hready h _ _ hp
    obtain ⟨hxh, hds, hdeq⟩ := hp.eq hm hal hend
    rw [covers_iff] at hxh
    omega
  | commitFailed h ds de hp hlt hu hc =>
    refine iff_of_true (fun hret ↦ by cases hret) fun r hr hx ↦ ?_
    obtain rfl := hp.only hm hal hend hr hx
    exact .inl ⟨hu, hc⟩
  | recommitted h ds de hp hlt hu hc =>
    apply (forall_prop_of_true le_rfl).trans
    refine hp.discarded_iff hm hal hend (fun x ↦ ?_) rfl fun hk ↦ by omega
    have hlen : ds + (de - ds) = de := by omega
    simp only [State.memset_mem, State.commit_mem, hlen]
    split
    · rfl
    · rfl
  | cleared h ds de hp hlt hu =>
    apply (forall_prop_of_true le_rfl).trans
    refine hp.discarded_iff hm hal hend (fun x ↦ ?_) rfl fun hk ↦ by omega
    have hlen : ds + (de - ds) = de := by omega
    simp only [State.memset_mem, hlen]

theorem madvise_discard (hadv : advice = .MADV_DONTNEED ∨ advice = .MADV_FREE)
    (hal : addr % 0x1000 = 0) (hpos : 0 < len) (hmap : mmanMapped m addr len = true) :
    ((madvise m k addr len advice).1 = 0 ↔ 0 ≤ (mmanDiscard m k addr len).1) ∧
    (madvise m k addr len advice).2.2 = (mmanDiscard m k addr len).2 := by
  have heq : madvise m k addr len advice =
      if (mmanDiscard m k addr len).1 < 0 then (-1, ENOMEM, (mmanDiscard m k addr len).2)
      else (0, 0, (mmanDiscard m k addr len).2) := by
    rcases hadv with rfl | rfl
    · simp [madvise, hal, hpos.ne', hmap]
    · simp [madvise, hal, hpos.ne', hmap]
  rw [heq]
  split
  · next h => exact ⟨iff_of_false (by simp) (not_le.mpr h), rfl⟩
  · next h => exact ⟨iff_of_true rfl (not_lt.mp h), rfl⟩

end

/-- When a successful `madvise` has discarded the whole of a mapped range. -/
theorem madvise_discards_iff {m : State} (hm : WellFormed m) (k : Answers) {addr len : ℕ}
    (hal : addr % 0x1000 = 0) (hpos : 0 < len)
    (hcov : ∀ x, addr ≤ x → x < roundUp (addr + len) → Covered m.regions x) {advice : Advice}
    (hadv : advice = .MADV_DONTNEED ∨ advice = .MADV_FREE) :
    ((madvise m k addr len advice).1 = 0 →
      Discarded m (madvise m k addr len advice).2.2 addr (roundUp (addr + len))) ↔
      OneEntry m k addr len := by
  obtain ⟨-, -, hmap⟩ := mmanMapped_of_covered hm hpos hcov
  obtain ⟨hret, hstate⟩ := madvise_discard (k := k) hadv hal hpos hmap
  rw [hret, hstate]
  exact mmanDiscard_iff hm hal hpos hcov

def adjacentPages : State :=
  { initMman false fun x ↦ if x = 0x81001000 then 1 else 0 with
    regions := [⟨0x81000000, 0x1000, -1, 3⟩, ⟨0x81001000, 0x1000, -1, 3⟩]
    vmUid := 1
    vmBase := 0x81000000 }

theorem adjacentPages_wellFormed : WellFormed adjacentPages :=
  ⟨⟨by simp [adjacentPages, Ordered, Span.hi, Span.lo], by decide, by decide, by decide⟩,
    by decide, by decide⟩

theorem adjacentPages_covered {x : ℕ} (hlo : 0x81000000 ≤ x) (hhi : x < 0x81002000) :
    Covered adjacentPages.regions x := by
  simp only [adjacentPages, covered_cons, covers_iff]
  omega

theorem madvise_discards_page :
    (madvise adjacentPages poolAnswers 0x81001000 1 .MADV_FREE).1 = 0 ∧
      Discarded adjacentPages (madvise adjacentPages poolAnswers 0x81001000 1 .MADV_FREE).2.2
        0x81001000 0x81002000 := by
  have hcov := fun x (hlo : 0x81001000 ≤ x) (hhi : x < roundUp (0x81001000 + 1)) ↦
    adjacentPages_covered (by omega) hhi
  obtain ⟨-, -, hmap⟩ := mmanMapped_of_covered adjacentPages_wellFormed (by decide) hcov
  have hret : (madvise adjacentPages poolAnswers 0x81001000 1 .MADV_FREE).1 = 0 :=
    (madvise_discard (.inr rfl) (by decide) (by decide) hmap).1.mpr (by decide)
  refine ⟨hret, ?_⟩
  refine (madvise_discards_iff adjacentPages_wellFormed poolAnswers (by decide) (by decide) hcov
    (.inr rfl)).mpr (fun r hr hx ↦ ?_) hret
  simp only [adjacentPages, List.mem_cons, List.not_mem_nil, or_false] at hr
  rw [covers_iff] at hx
  obtain rfl : r = ⟨0x81001000, 0x1000, -1, 3⟩ := by
    rcases hr with rfl | rfl
    · exact absurd hx.2 (by decide)
    · rfl
  exact .inr fun x hlo hhi ↦ absurd (hlo.trans_lt hhi) (by decide)

/-- The range is all mapped and the call succeeds, but the second page keeps its byte. -/
theorem madvise_keeps_second_page :
    (madvise adjacentPages poolAnswers 0x81000000 0x2000 .MADV_DONTNEED).1 = 0 ∧
    (madvise adjacentPages poolAnswers 0x81000000 0x2000 .MADV_DONTNEED).2.2.mem 0x81001000 = 1 ∧
    ∀ x, 0x81000000 ≤ x → x < 0x81002000 → Covered adjacentPages.regions x := by
  have hcov := fun x (hlo : 0x81000000 ≤ x) (hhi : x < roundUp (0x81000000 + 0x2000)) ↦
    adjacentPages_covered hlo hhi
  obtain ⟨-, -, hmap⟩ := mmanMapped_of_covered adjacentPages_wellFormed (by decide) hcov
  obtain ⟨hret, hstate⟩ := @madvise_discard adjacentPages poolAnswers 0x81000000 0x2000
    .MADV_DONTNEED (.inl rfl) (by decide) (by decide) hmap
  refine ⟨hret.mpr (by decide), ?_, fun x ↦ adjacentPages_covered⟩
  rw [hstate]
  decide

end SceLibcPosix.Mman
