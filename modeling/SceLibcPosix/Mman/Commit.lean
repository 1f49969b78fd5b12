import SceLibcPosix.Mman.Runs

namespace SceLibcPosix.Mman

open Spans

/-- The pages that the table lists are the pages that are committed. -/
def Agrees (m : State) : Prop := ∀ x, committed m.calls x = true ↔ Covered m.regions x

/-- `munmap` and `mremap` take page-aligned addresses only. -/
def Request.Aligned : Request → Prop
  | .unmap addr _ => addr % 0x1000 = 0
  | _ => True

/-- The steps that leave no page behind: they do not split an entry of a full table or with a range
that wraps, and they do not discard pages that the kernel does not commit again. -/
def Request.Clean (m : State) (k : Answers) : Request → Prop
  | .unmap addr len => pageAlign len ≠ 0 → ∀ r ∈ m.regions,
      Meets addr (addU addr (pageAlign len)) r → Inside addr (addU addr (pageAlign len)) r →
      addr < addU addr (pageAlign len) ∧ m.regions.length < maxRegions
  | .discard addr len => k.commit < 0 →
      regionFind m.regions addr = none ∨ pageAlign (addU addr len) ≤ pageStart addr
  | _ => True

section Table

variable {t : List Region} {x : ℕ}

theorem covered_flatMap_carve {s e : ℕ} (hse : s < e) :
    Covered (t.flatMap (carve s e)) x ↔ Covered t x ∧ ¬ (s ≤ x ∧ x < e) := by
  induction t with
  | nil => simp
  | cons r t ih =>
    rw [List.flatMap_cons, covered_append, covered_cons, ih, carve_covered hse, or_and_right]

theorem covered_insert {t' : List Region} {addr len : ℕ} {uid : ℤ} {prot : BitVec 32}
    (h : regionInsert t addr len uid prot = some t') :
    Covered t' x ↔ (addr ≤ x ∧ x < addr + len) ∨ Covered t x := by
  simp only [Covered, regionInsert_mem h, or_and_right, exists_or, exists_eq_left]
  rfl

theorem covered_map {f : Region → Region} (hf : ∀ r, (f r).addr = r.addr ∧ (f r).len = r.len) :
    Covered (t.map f) x ↔ Covered t x := by
  simp only [Covered, List.mem_map, exists_exists_and_eq_and, covers_iff, hf]

theorem Hit.covered (h : Hit t) : Covered t x ↔ Covers h.entry x ∨ Covered h.others x := by
  simp only [Covered, h.mem_iff, or_and_right, exists_or, exists_eq_left]

theorem Hit.covered_put (h : Hit t) (r : Region) :
    Covered (h.put r) x ↔ Covers r x ∨ Covered h.others x := by
  simp only [Covered, h.mem_put, or_and_right, exists_or, exists_eq_left]

theorem Hit.alone (h : Hit t) (ht : Ordered t) (hx : Covers h.entry x) :
    ¬ Covered h.others x := by
  rw [← h.eq] at ht
  obtain ⟨-, hort, hbefore⟩ := ordered_append'.mp ht
  have hafter := (ordered_cons'.mp hort).1
  rw [covers_iff] at hx
  rintro ⟨r, hr, hlo, hhi⟩
  have hr' : r.addr ≤ x ∧ x < r.addr + r.len := ⟨hlo, hhi⟩
  rcases List.mem_append.mp hr with hr | hr
  · have : r.addr + r.len ≤ h.entry.addr := hbefore r hr _ List.mem_cons_self
    omega
  · have := hafter r hr
    omega

end Table

section Step

variable {m : State} {k : Answers} {addr len : ℕ}

theorem Agrees.map (hm : Inv Tidy m) (ha : Agrees m) (hk : m.haveKubridge = true) {n : ℕ}
    {prot : BitVec 32} (hs : k.Sound m n) {res : ℕ × ℤ × State} (h : MapOutcome m k n prot res) :
    Agrees res.2.2 := by
  -- the new range is apart from all blocks in use, and so from what is committed
  have hfresh : 0 ≤ k.reserveUid → ∀ x, k.reserveBase ≤ x ∧ x < k.reserveBase + n →
      committed m.calls x = false := by
    intro hu x hx
    rw [← Bool.not_eq_true, ha x]
    rintro ⟨r, hr, hlo, hhi⟩
    simp only [Span.lo, Span.hi] at hlo hhi
    obtain ⟨-, ρ, hρ, -, hρlo, hρhi⟩ := hm.backed hk r hr
    have := hs.apart hu ρ hρ
    omega
  cases h with
  | refused => exact ha
  | commitFailed => exact ha
  | tableFull _ hu _ =>
    intro x
    refine Iff.trans ?_ (ha x)
    simp only [State.call_calls, State.commit_calls, committed, Bool.and_eq_true, Bool.or_eq_true,
      Bool.not_eq_true', decide_eq_true_eq, decide_eq_false_iff_not]
    by_cases hx : k.reserveBase ≤ x ∧ x < k.reserveBase + n
    · simp [hx, hfresh hu x hx]
    · simp [hx]
  | mapped t _ _ _ hi =>
    intro x
    rw [State.setRegions_regions, covered_insert hi, ← ha x]
    simp [committed]
  | poolFailed hk' => rw [hk] at hk'; cases hk'
  | poolMapped t hk' => rw [hk] at hk'; cases hk'

theorem Agrees.resize (hm : Inv Tidy m) (ha : Agrees m) (hk : m.haveKubridge = true) {o n : ℕ}
    {res : ℤ × State} (h : ResizeOutcome m addr o n res) : Agrees res.2 := by
  cases h with
  | refused => exact ha
  | same => exact ha
  | shrunk h hfind hstart hlen hlt =>
    have hu := (hm.backed hk _ h.mem).1
    have hf := hm.table.fits _ h.mem
    intro x
    have hx := ha x
    have halone := h.alone hm.table.ordered (x := x)
    have hadd : addU addr n = addr + n := by
      rw [addU, Nat.mod_eq_of_lt]
      omega
    rw [h.covered] at hx
    rw [if_pos hu, State.setRegions_regions, State.setRegions_calls, State.call_calls, hadd,
      h.covered_put]
    simp only [covers_iff, committed, Bool.and_eq_true, hx, Bool.not_eq_true',
      decide_eq_false_iff_not] at halone ⊢
    by_cases hc : Covered h.others x
    · have hout : ¬ (h.entry.addr ≤ x ∧ x < h.entry.addr + h.entry.len) := fun hin ↦ halone hin hc
      simp only [hc, or_true, and_true, iff_true]
      omega
    · simp only [hc, or_false]
      omega
  | grown h _ _ _ _ hu =>
    have := (hm.backed hk _ h.mem).1
    omega

theorem Agrees.discard (hm : Inv Tidy m) (ha : Agrees m) (hk : m.haveKubridge = true) :
    Agrees (mmanDiscard m k addr len).2 ↔ Request.Clean m k (.discard addr len) := by
  have hstop : ∀ h : Hit m.regions, h.entry.stop = h.entry.addr + h.entry.len :=
    fun h ↦ Region.stop_eq (hm.table.fits _ h.mem)
  have hout := mmanDiscard_outcome m k addr len
  generalize mmanDiscard m k addr len = res at hout ⊢
  cases hout with
  | refused hno =>
    refine iff_of_true ha fun _ ↦ ?_
    cases hf : regionFind m.regions addr with
    | none => exact .inl rfl
    | some h =>
      refine .inr ?_
      have hle := hno hm.ready h _ _ ⟨hf, rfl, rfl⟩
      obtain ⟨hlo, hhi⟩ := regionFind_hit hf
      have hal := (hm.table.aligned _ h.mem).1
      unfold pageStart at hle ⊢
      split at hle <;> split at hle <;> omega
  | commitFailed h ds de hp hlt hu hc =>
    obtain ⟨hlo, hhi, hslo, hshi⟩ := hp.bounds
    rw [hstop] at hhi
    refine iff_of_false (fun hag ↦ ?_) fun hclean ↦ ?_
    · have hcov : Covered m.regions ds := ⟨h.entry, h.mem, hlo, (hlt.trans_le hhi : _)⟩
      have hx := (hag ds).mpr hcov
      simp [committed] at hx
      omega
    · rcases hclean hc with hnone | hle
      · rw [hp.found] at hnone
        cases hnone
      · omega
  | recommitted h ds de hp hlt hu hc =>
    obtain ⟨hlo, hhi, -⟩ := hp.bounds
    rw [hstop] at hhi
    refine iff_of_true (fun x ↦ ?_) fun h ↦ absurd h (not_lt.mpr hc)
    have hx := ha x
    simp only [State.memset_regions, State.commit_regions, State.call_regions, State.memset_calls,
      State.commit_calls, State.call_calls, committed, Bool.or_eq_true, Bool.and_eq_true,
      Bool.not_eq_true', decide_eq_true_eq, decide_eq_false_iff_not, ← hx]
    by_cases hin : ds ≤ x ∧ x < ds + (de - ds)
    · have hcov : committed m.calls x = true :=
        hx.mpr ⟨h.entry, h.mem, hlo.trans hin.1, (by omega : x < h.entry.addr + h.entry.len)⟩
      simp [hin, hcov]
    · simp [hin]
  | cleared h ds de hp hlt hu =>
    have := (hm.backed hk _ h.mem).1
    omega

/-- A range that wraps around an entry makes the loop split it at both ends, with the end of the
range below its start. -/
theorem unmapLoop_wrapped {s e : ℕ} {t : List Region} (hse : e < s) (passed : List Region)
    (m : State) (ret : ℤ) (hf : ∀ r ∈ t, r.addr + r.len < 2 ^ 32) (hu : ∀ r ∈ t, 0 ≤ r.uid)
    (hm : ∃ r ∈ t, Meets s e r) :
    Covered (unmapLoop s e m ret passed t).2.regions s ∧
      committed (unmapLoop s e m ret passed t).2.calls s = false := by
  have hcall : ∀ {r : Region} {m : State}, 0 ≤ r.uid → r.addr + r.len < 2 ^ 32 → Inside s e r →
      Meets s e r → committed (decommitPart s e r m).calls s = false := by
    intro r m hu hf hi hm
    unfold Inside at hi
    unfold Meets at hm
    have hlo : clipLo s r = s := if_pos hi.1
    have hhi : clipHi e r = e := if_pos hi.2
    have hpos : 0 < subU e s := by
      unfold subU
      omega
    rw [decommitPart, if_pos hu, hlo, hhi, State.call_calls, committed]
    simp [hpos]
  refine unmapLoop_induction (P := fun _ _ _ t res ↦ (∀ r ∈ t, r.addr + r.len < 2 ^ 32) →
    (∀ r ∈ t, 0 ≤ r.uid) → (∃ r ∈ t, Meets s e r) →
    Covered res.2.regions s ∧ committed res.2.calls s = false) ?_ ?_ ?_ ?_ ?_ m ret hf hf hu hm
  · rintro m ret passed - - ⟨r, hr, -⟩
    cases hr
  · intro m ret passed r t res hno ih hf hu hm
    simp only [List.exists_mem_cons_iff, hno, false_or] at hm
    exact ih (List.forall_mem_cons.mp hf).2 (List.forall_mem_cons.mp hu).2 hm
  · intro m ret passed r t res hmeet hi
    unfold Meets at hmeet
    unfold Inside at hi
    omega
  · intro m ret passed r t hmeet hi _ hf hu _
    have hmem : r ∈ passed ++ r :: t := by simp
    exact ⟨⟨r, hmem, hi.1.le, hmeet.1⟩,
      hcall (hu r List.mem_cons_self) (hf r List.mem_cons_self) hi hmeet⟩
  · intro m ret passed r t t' hmeet hi hins hf hu _
    refine ⟨(covered_insert hins).mpr (.inl ⟨hse.le, ?_⟩),
      hcall (hu r List.mem_cons_self) (hf r List.mem_cons_self) hi hmeet⟩
    have := hmeet.1
    have := hi.2
    omega

/-- Unmapping a range loses the agreement exactly where it would have to split an entry and has no
room for it. -/
theorem Agrees.unmap_range (hm : Inv Tidy m) (ha : Agrees m) (hu : ∀ r ∈ m.regions, 0 ≤ r.uid)
    {e : ℕ} (hse : addr < e) :
    Agrees (unmapLoop addr e m.lock (-1) [] m.regions).2.unlock ↔
      ¬ Blocked addr e m.regions.length m.regions := by
  have hf := hm.table.fits
  have hreg := unmapLoop_regions hse [] m.lock (-1) hm.table.ordered hf
  have hcom := unmapLoop_committed hse [] m.lock (-1) hm.table.ordered hf
  have hin : ∀ x, (∃ r ∈ m.regions, 0 ≤ r.uid ∧ Covers r x ∧ addr ≤ x ∧ x < e) ↔
      Covered m.regions x ∧ addr ≤ x ∧ x < e := by
    refine fun x ↦ ⟨?_, ?_⟩
    · rintro ⟨r, hr, -, hx, h⟩
      exact ⟨⟨r, hr, hx⟩, h⟩
    · rintro ⟨⟨r, hr, hx⟩, h⟩
      exact ⟨r, hr, hu r hr, hx, h⟩
  rw [List.nil_append, List.nil_append] at hreg
  simp only [hin, State.lock_calls] at hcom
  by_cases hb : Blocked addr e m.regions.length m.regions
  · rw [if_pos hb] at hreg
    refine iff_of_false (fun hag ↦ ?_) (not_not.mpr hb)
    obtain ⟨-, r, hr, hi⟩ := hb
    have hcov : Covered m.regions addr := ⟨r, hr, hi.1.le, (hi.meets hse).1⟩
    have hx := hag addr
    rw [State.unlock_regions, State.unlock_calls, hreg, hcom addr] at hx
    exact (hx.mpr hcov).2 ⟨hcov, le_rfl, hse⟩
  · rw [if_neg hb] at hreg
    refine iff_of_true (fun x ↦ ?_) hb
    rw [State.unlock_regions, State.unlock_calls, hreg, hcom x, covered_flatMap_carve hse, ha x,
      not_and]
    exact and_congr_right fun hc ↦ ⟨fun h ↦ h hc, fun h _ ↦ h⟩

theorem Agrees.unmap_wrapped (hm : Inv Tidy m) (ha : Agrees m) (hu : ∀ r ∈ m.regions, 0 ≤ r.uid)
    {e : ℕ} (hse : e < addr) :
    Agrees (unmapLoop addr e m.lock (-1) [] m.regions).2.unlock ↔
      ¬ ∃ r ∈ m.regions, Meets addr e r := by
  have hf := hm.table.fits
  by_cases hhit : ∃ r ∈ m.regions, Meets addr e r
  · obtain ⟨hcov, hno⟩ := unmapLoop_wrapped hse [] m.lock (-1) hf hu hhit
    refine iff_of_false (fun hag ↦ ?_) (not_not.mpr hhit)
    have hx := (hag addr).mpr hcov
    rw [State.unlock_calls, hno] at hx
    cases hx
  · rw [unmapLoop_none m.lock (-1) hf fun r hr hmeet ↦ hhit ⟨r, hr, hmeet⟩]
    exact iff_of_true ha hhit

theorem Agrees.unmap (hm : Inv Tidy m) (ha : Agrees m) (hk : m.haveKubridge = true) :
    Agrees (mmanUnmap m addr len).2 ↔ Request.Clean m k (.unmap addr len) := by
  by_cases hl : pageAlign len = 0
  · rw [mmanUnmap_zero (.inl hl)]
    exact iff_of_true ha fun h ↦ absurd hl h
  have hu : ∀ r ∈ m.regions, 0 ≤ r.uid := fun r hr ↦ (hm.backed hk r hr).1
  have hlt := pageAlign_lt len
  rw [mmanUnmap_eq hl hm.ready]
  generalize he : addU addr (pageAlign len) = e
  by_cases hse : addr < e
  · refine (ha.unmap_range hm hu hse).trans ⟨fun hb _ r hr _ hi ↦ ⟨he ▸ hse, ?_⟩, ?_⟩
    · by_contra hfull
      exact hb ⟨not_lt.mp hfull, r, hr, he ▸ hi⟩
    · rintro hclean ⟨hfull, r, hr, hi⟩
      have := (hclean hl r hr (he ▸ hi.meets hse) (he ▸ hi)).2
      omega
  · have hlt' : e < addr := by
      unfold addU at he
      omega
    refine (ha.unmap_wrapped hm hu hlt').trans ⟨fun hhit _ r hr hmeet ↦ ?_, ?_⟩
    · exact absurd ⟨r, hr, he ▸ hmeet⟩ hhit
    · rintro hclean ⟨r, hr, hmeet⟩
      have hi : Inside addr e r := ⟨hmeet.2.trans hlt', hlt'.trans hmeet.1⟩
      have := (hclean hl r hr (he ▸ hmeet) (he ▸ hi)).1
      omega

theorem Agrees.step (hm : Inv Tidy m) (ha : Agrees m) (hk : m.haveKubridge = true) {q : Request}
    (hs : q.Answered m k) : Agrees (q.run m k) ↔ q.Clean m k := by
  cases q with
  | map hint len prot =>
    exact iff_of_true (ha.map hm hk hs (mmanMap_outcome m k hint len prot)) trivial
  | unmap addr len => exact ha.unmap hm hk
  | resize addr oldLen newLen =>
    exact iff_of_true (ha.resize hm hk (mmanResize_outcome m addr oldLen newLen)) trivial
  | protect addr len prot =>
    refine iff_of_true (fun x ↦ ?_) trivial
    simp only [Request.run, mmanProtect]
    split
    · exact ha x
    · refine (ha x).trans (covered_map fun r ↦ ?_).symm
      split <;> exact ⟨rfl, rfl⟩
  | discard addr len => exact ha.discard hm hk

theorem Inv.clean (hm : Inv Tidy m) (hk : m.haveKubridge = true) {q : Request}
    (hq : q.Aligned ∧ q.Clean m k) (hs : q.Answered m k) : Inv Tidy (q.run m k) := by
  cases q with
  | map hint len prot =>
    exact hm.map keeps_tidy hs (pageAlign_mod len) (mmanMap_outcome m k hint len prot)
  | unmap addr len =>
    refine hm.unmap keeps_tidy ?_
    by_cases hl : pageAlign len = 0
    · rw [mmanUnmap_zero (.inl hl)]
      exact hm.table
    have hal := pageAlign_mod len
    have halg : addr % 0x1000 = 0 := hq.1
    have hlt := pageAlign_lt len
    by_cases hw : addr + pageAlign len < 2 ^ 32
    · have hend : addU addr (pageAlign len) = addr + pageAlign len := Nat.mod_eq_of_lt hw
      have hclean := hq.2 hl
      rw [hend] at hclean
      rw [mmanUnmap_regions hm.table (fun h ↦ by simp [hm.ready] at h) hl hw, if_neg]
      · refine hm.table.carve (by omega) halg (by omega) ?_
        rintro ⟨hfull, r, hr, hi⟩
        exact not_lt.mpr hfull (hclean r hr (hi.meets (by omega)) hi).2
      · rintro ⟨hfull, r, hr, hi⟩
        exact not_lt.mpr hfull (hclean r hr (hi.meets (by omega)) hi).2
    · have hlt' : addU addr (pageAlign len) < addr := by
        unfold addU
        omega
      rw [mmanUnmap_eq hl hm.ready, unmapLoop_none m.lock (-1) hm.table.fits fun r hr hmeet ↦ ?_]
      · exact hm.table
      · have hi : Inside addr (addU addr (pageAlign len)) r :=
          ⟨hmeet.2.trans hlt', hlt'.trans hmeet.1⟩
        have := (hq.2 hl r hr hmeet hi).1
        omega
  | resize addr oldLen newLen =>
    have hneg : ∀ h : Hit m.regions, ¬ h.entry.uid < 0 := fun h ↦
      not_lt.mpr (hm.backed hk _ h.mem).1
    refine hm.resize (mmanResize_outcome m addr oldLen newLen) (fun h hres ↦ ?_)
      fun h _ _ hk' ↦ absurd (hk.symm.trans hk') (by decide)
    refine hm.table.shorten h ?_ (pageAlign_mod newLen)
    rw [hres.len]
    exact hres.room.resolve_right fun h' ↦ hneg h h'.1
  | protect addr len prot => exact hm.protect keeps_tidy prot
  | discard addr len => exact hm.discard

end Step

section Run

def CleanStep (m : State) (k : Answers) (q : Request) : Prop := q.Aligned ∧ q.Clean m k

theorem Reachable.agrees {m : State} (h : Reachable CleanStep m) (hk : m.haveKubridge = true) :
    Inv Tidy m ∧ Agrees m := by
  obtain ⟨b, mem, h⟩ := h
  induction h with
  | refl => exact ⟨inv_init keeps_tidy b mem, fun x ↦ by simp [committed]⟩
  | tail _ hs ih =>
    cases hs with
    | call k q hq hans =>
      rw [run_haveKubridge] at hk
      obtain ⟨hm, ha⟩ := ih hk
      exact ⟨hm.clean hk hq hans, (ha.step hm hk hans).mpr hq.2⟩
    | store mem =>
      obtain ⟨hm, ha⟩ := ih hk
      exact ⟨hm.same ⟨rfl, rfl, rfl, rfl⟩ rfl fun _ h ↦ h, ha⟩

/-- With kubridge, in every run of clean steps the listed pages are the committed pages, and the
next step breaks this exactly if it is not clean. -/
theorem committed_pages {m : State} (h : Reachable CleanStep m) (hk : m.haveKubridge = true) :
    Agrees m ∧ ∀ k (q : Request), q.Answered m k → (Agrees (q.run m k) ↔ q.Clean m k) := by
  obtain ⟨hm, ha⟩ := h.agrees hk
  exact ⟨ha, fun k q hans ↦ ha.step hm hk hans⟩

end Run

/-- The first page after it has been discarded and the kernel has refused to commit it again. -/
def lostPage : State :=
  Request.run kuPages { kuAnswers with commit := -1 } (.discard 0x90000000 0x1000)

theorem discard_loses_page :
    Reachable (fun _ _ q ↦ q.Aligned) lostPage ∧ lostPage.haveKubridge = true ∧
    (mmanDiscard kuPages { kuAnswers with commit := -1 } 0x90000000 0x1000).1 = -1 ∧
    ¬ Agrees lostPage := by
  have hrun : Reachable (fun _ _ q ↦ q.Aligned) kuPages := kuPages_reachable trivial
  obtain ⟨b, mem, hrun⟩ := hrun
  refine ⟨⟨b, mem, hrun.tail (.call _ { kuAnswers with commit := -1 } (.discard 0x90000000 0x1000)
    trivial trivial)⟩, rfl, by decide, fun hag ↦ ?_⟩
  have hcov : Covered lostPage.regions 0x90000000 :=
    ⟨⟨0x90000000, 0x2000, 1, 3⟩, by decide, by decide⟩
  have hno : committed lostPage.calls 0x90000000 = false := by decide
  rw [(hag _).mpr hcov] at hno
  cases hno

theorem committed_pages_kuTwo : Agrees kuTwo := by
  have hreach : Reachable CleanStep kuPages := kuPages_reachable ⟨trivial, trivial⟩
  obtain ⟨b, mem, hrun⟩ := hreach
  have hstep : Step CleanStep kuPages kuTwo :=
    .call _ kuSecond (.map 0 0x1000 1) ⟨trivial, trivial⟩ (kuSecond_sound (by decide))
  exact (committed_pages ⟨b, mem, hrun.tail hstep⟩ (by decide)).1

end SceLibcPosix.Mman
