import SceLibcPosix.Mman.Runs

namespace SceLibcPosix.Mman

open Spans

section Wrapped

variable {s e : ℕ} {r x : Region} {t passed : List Region}

/-- Where the loop of `__mman_unmap` puts the start of an entry that it shortens. -/
def cutAddr (s e : ℕ) (r : Region) : ℕ := if Meets s e r ∧ s ≤ r.addr then e else r.addr

theorem cutAddr_mono (hr : r.addr ≤ x.addr) (hx : 0 < x.len) : cutAddr s e r ≤ cutAddr s e x := by
  unfold cutAddr Meets
  split <;> split <;> omega

theorem carve_addr (hm : Meets s e r) (hi : ¬ Inside s e r) {p : Region} (hp : p ∈ carve s e r) :
    p.addr = cutAddr s e r := by
  unfold Meets at hm
  unfold Inside at hi
  unfold carve cutAddr Meets at *
  rw [if_neg (by omega)] at hp
  by_cases hs : r.addr < s
  · rw [if_pos hs, if_neg (by omega), List.append_nil] at hp
    rw [if_neg (by omega), List.mem_singleton.mp hp]
  · rw [if_neg hs, List.nil_append] at hp
    rw [if_pos (by omega)]
    split at hp
    · rw [List.mem_singleton.mp hp]
    · cases hp

theorem sorted_split (hi : Inside s e r) (hp : passed.Pairwise (·.addr ≤ ·.addr))
    (ht : (r :: t).Pairwise (·.addr ≤ ·.addr))
    (hx : ∀ p ∈ passed, ∀ x ∈ r :: t, p.addr ≤ cutAddr s e x) :
    (passed ++ r :: t).Pairwise (·.addr ≤ ·.addr) := by
  have hr : cutAddr s e r = r.addr := if_neg fun h ↦ not_le.mpr hi.1 h.2
  refine List.pairwise_append.mpr ⟨hp, ht, fun p hpm x hxm ↦ ?_⟩
  have hpr := hx p hpm r List.mem_cons_self
  rw [hr] at hpr
  rcases List.mem_cons.mp hxm with rfl | hxm
  · exact hpr
  · exact hpr.trans ((List.pairwise_cons.mp ht).1 x hxm)

theorem unmapLoop_sorted (m : State) (ret : ℤ) (hf : ∀ r ∈ t, r.addr + r.len < 2 ^ 32)
    (hpos : ∀ r ∈ t, 0 < r.len) (hp : passed.Pairwise (·.addr ≤ ·.addr))
    (ht : t.Pairwise (·.addr ≤ ·.addr)) (hx : ∀ p ∈ passed, ∀ r ∈ t, p.addr ≤ cutAddr s e r) :
    (unmapLoop s e m ret passed t).2.regions.Pairwise (·.addr ≤ ·.addr) := by
  refine unmapLoop_induction (P := fun _ _ passed t res ↦ (∀ r ∈ t, 0 < r.len) →
    passed.Pairwise (·.addr ≤ ·.addr) → t.Pairwise (·.addr ≤ ·.addr) →
    (∀ p ∈ passed, ∀ r ∈ t, p.addr ≤ cutAddr s e r) →
    res.2.regions.Pairwise (·.addr ≤ ·.addr)) ?_ ?_ ?_ ?_ ?_ m ret hf hpos hp ht hx
  · exact fun m ret passed _ hp _ _ ↦ hp
  · intro m ret passed r t res hm ih hpos hp ht hx
    obtain ⟨-, hpos⟩ := List.forall_mem_cons.mp hpos
    obtain ⟨hrt, ht⟩ := List.pairwise_cons.mp ht
    have hr : cutAddr s e r = r.addr := if_neg fun h ↦ hm h.1
    refine ih hpos (List.pairwise_append.mpr ⟨hp, List.pairwise_singleton _ _, ?_⟩) ht ?_
    · intro p hpm q hq
      rw [List.mem_singleton.mp hq, ← hr]
      exact hx p hpm r List.mem_cons_self
    · simp only [List.forall_mem_append, List.forall_mem_singleton]
      refine ⟨fun p hpm x hxm ↦ hx p hpm x (List.mem_cons_of_mem r hxm), fun x hxm ↦ ?_⟩
      rw [← hr]
      exact cutAddr_mono (hrt x hxm) (hpos x hxm)
  · intro m ret passed r t res hm hi ih hpos hp ht hx
    obtain ⟨-, hpos⟩ := List.forall_mem_cons.mp hpos
    obtain ⟨hrt, ht⟩ := List.pairwise_cons.mp ht
    have hc := carve_length hi
    have hone : (carve s e r).Pairwise (·.addr ≤ ·.addr) := by
      match hcar : carve s e r with
      | [] => exact .nil
      | [p] => exact List.pairwise_singleton _ _
      | _ :: _ :: _ => simp [hcar] at hc
    refine ih hpos (List.pairwise_append.mpr ⟨hp, hone, ?_⟩) ht ?_
    · intro p hpm q hq
      rw [carve_addr hm hi hq]
      exact hx p hpm r List.mem_cons_self
    · simp only [List.forall_mem_append]
      refine ⟨fun p hpm x hxm ↦ hx p hpm x (List.mem_cons_of_mem r hxm), fun q hq x hxm ↦ ?_⟩
      rw [carve_addr hm hi hq]
      exact cutAddr_mono (hrt x hxm) (hpos x hxm)
  · intro m ret passed r t hm hi _ _ hp ht hx
    exact sorted_split hi hp ht hx
  · intro m ret passed r t t' hm hi hins _ hp ht hx
    refine sorted_insert hins ?_
    have h := List.pairwise_map.mpr (sorted_split hi hp ht hx)
    refine List.pairwise_map (f := Region.addr) (R := (· ≤ ·)).mp ?_
    simpa using h

theorem unmapLoop_keeps (passed : List Region) (m : State) (ret : ℤ)
    (hf : ∀ r ∈ t, r.addr + r.len < 2 ^ 32) (hx : x ∈ passed ++ t) (hmx : ¬ Meets s e x) :
    x ∈ (unmapLoop s e m ret passed t).2.regions := by
  refine unmapLoop_induction (P := fun _ _ passed t res ↦ x ∈ passed ++ t → x ∈ res.2.regions)
    ?_ ?_ ?_ ?_ ?_ m ret hf hx
  · intro m ret passed hx
    simpa using hx
  · intro m ret passed r t res _ ih hx
    exact ih (by simpa using hx)
  · intro m ret passed r t res hm _ ih hx
    have hne : x ≠ r := fun h ↦ hmx (h ▸ hm)
    simp only [List.mem_append, List.mem_cons, hne, false_or] at hx ih
    exact ih (hx.imp .inl id)
  · exact fun m ret passed r t _ _ _ hx ↦ hx
  · intro m ret passed r t t' hm _ hins hx
    have hne : x ≠ r := fun h ↦ hmx (h ▸ hm)
    simp only [List.mem_append, List.mem_cons, hne, false_or] at hx
    refine (regionInsert_mem hins x).mpr (.inr ?_)
    simp only [List.mem_append, List.mem_cons]
    exact hx.imp id .inr

end Wrapped

section Loose

variable {m : State} {k : Answers}

/-- The requests that keep the entries in order: all but a resize in place to a length that
wraps. -/
def Request.Loose (m : State) (_ : Answers) : Request → Prop
  | .unmap addr _ => addr % 0x1000 = 0
  | .resize addr oldLen newLen => ∀ h, Resizable m addr (pageAlign oldLen) (pageAlign newLen) h →
      0 < pageAlign newLen ∧ (m.haveKubridge = false → addr + pageAlign newLen < 2 ^ 32)
  | _ => True

theorem InOrder.unmap (hm : m.ready = true) (ht : InOrder m.regions) {addr : ℕ} (len : ℕ)
    (ha : addr % 0x1000 = 0) : InOrder (mmanUnmap m addr len).2.regions := by
  by_cases hl : pageAlign len = 0
  · rwa [mmanUnmap_zero (.inl hl)]
  have hal := pageAlign_mod len
  have he : addU addr (pageAlign len) % 0x1000 = 0 := by
    unfold addU
    omega
  rw [mmanUnmap_eq hl hm]
  refine ⟨?_, ?_, ?_, ?_⟩
  · exact unmapLoop_sorted m.lock (-1) ht.fits ht.pos .nil ht.sorted (by simp)
  · exact unmapLoop_forall (fun r p hr hp ↦ carve_pos hr hp) m.lock (-1) ht.fits ht.pos
  · exact unmapLoop_forall (fun r p hr hp ↦ (carve_within hp).2.1.trans_lt hr) m.lock (-1) ht.fits
      ht.fits
  · exact unmapLoop_forall (fun r p hr hp ↦ carve_aligned ha he hr hp) m.lock (-1) ht.fits
      ht.aligned

theorem sorted_put {t : List Region} (h : Hit t) (n : ℕ) (ht : t.Pairwise (·.addr ≤ ·.addr)) :
    (h.put { h.entry with len := n }).Pairwise (·.addr ≤ ·.addr) := by
  rw [← h.eq] at ht
  refine List.pairwise_map (f := Region.addr) (R := (· ≤ ·)).mp ?_
  have := List.pairwise_map (f := Region.addr) (R := (· ≤ ·)).mpr ht
  simpa [Hit.put] using this

theorem Inv.loose {q : Request} (hm : Inv InOrder m) (hq : q.Loose m k) (hk : q.Answered m k) :
    Inv InOrder (q.run m k) := by
  cases q with
  | map hint len prot =>
    exact hm.map keeps_inOrder hk (pageAlign_mod len) (mmanMap_outcome m k hint len prot)
  | unmap addr len => exact hm.unmap keeps_inOrder (hm.table.unmap hm.ready len hq)
  | resize addr oldLen newLen =>
    have ht := hm.table
    refine hm.resize (mmanResize_outcome m addr oldLen newLen) (fun h hres ↦ ?_)
      fun h hres hlt hkub ↦ hm.resize_top hres hlt hkub ((hq h hres).2 hkub)
    refine ⟨sorted_put h _ ht.sorted, forall_put h (hq h hres).1 ht.pos, forall_put h ?_ ht.fits,
      forall_put h ⟨(ht.aligned _ h.mem).1, pageAlign_mod newLen⟩ ht.aligned⟩
    have hold := ht.fits _ h.mem
    have hstart := hres.start
    have hlen := hres.len
    dsimp only
    rcases hres.room with hle | ⟨hu, -⟩
    · omega
    · rw [hstart]
      refine (hq h hres).2 ?_
      by_contra hk
      have := (hm.backed (by simpa using hk) _ h.mem).1
      omega
  | protect addr len prot => exact hm.protect keeps_inOrder prot
  | discard addr len => exact hm.discard

theorem Reachable.inOrder (h : Reachable Request.Loose m) : Inv InOrder m :=
  h.inv keeps_inOrder Inv.loose

end Loose

section Move

variable {m m' : State} {k : Answers} {oldAddr oldLen newLen : ℕ}

theorem mappedFrom_covered {t : List Region} {e p q : ℕ} (h : mappedFrom t e p = true)
    (hp : p ≤ q) (hq : q < e) : ∃ r ∈ t, r.addr ≤ q ∧ q < r.stop := by
  induction p using mappedFrom.induct (t := t) (e := e) with
  | case1 p hpe hnone =>
    rw [mappedFrom, if_pos hpe] at h
    split at h
    · cases h
    · next hit hsome => rw [hnone] at hsome; cases hsome
  | case2 p hpe hit hfind ih =>
    rw [mappedFrom, if_pos hpe] at h
    split at h
    · cases h
    · next hit' hfind' =>
      have heq := hfind.symm.trans hfind'
      cases heq
      by_cases hlt : q < hit.entry.stop
      · exact ⟨hit.entry, hit.mem, (regionFind_hit hfind).1.trans hp, hlt⟩
      · exact ih h (not_lt.mp hlt)
  | case3 p hpe => omega

/-- A new entry is not in the way of the unmapping of the old range. -/
theorem not_meets_mapped {h : Hit m.regions} {x : Region} (ha : oldAddr % 0x1000 = 0)
    (hf : ∀ r ∈ m.regions, r.addr + r.len < 2 ^ 32) (hfind : regionFind m.regions oldAddr = some h)
    (hmap : mmanMapped m oldAddr oldLen = true) (hpos : 0 < x.len)
    (hap : ∀ r ∈ m.regions, r.addr + r.len ≤ x.addr ∨ x.addr + x.len ≤ r.addr) :
    ¬ Meets oldAddr (addU oldAddr (pageAlign oldLen)) x := by
  rintro ⟨hlo, hhi⟩
  obtain ⟨hle, hstop⟩ := regionFind_hit hfind
  rw [Region.stop_eq (hf _ h.mem)] at hstop
  have hbelow := hap _ h.mem
  simp only [mmanMapped, Bool.and_eq_true, ← addU_pageAlign ha] at hmap
  obtain ⟨r, hr, hrlo, hrhi⟩ := mappedFrom_covered hmap.2 (by omega : oldAddr ≤ x.addr) hhi
  rw [Region.stop_eq (hf r hr)] at hrhi
  have := hap r hr
  omega

theorem mmanProtect_keeps {addr len : ℕ} (prot : BitVec 32) {x : Region} (hx : x ∈ m.regions) :
    ∃ y ∈ (mmanProtect m k addr len prot).2.regions, y.addr = x.addr ∧ y.len = x.len := by
  unfold mmanProtect
  dsimp only
  split
  · exact ⟨x, hx, rfl, rfl⟩
  · refine ⟨_, List.mem_map_of_mem hx, ?_⟩
    split <;> exact ⟨rfl, rfl⟩

theorem mmanProtect_layer {addr len : ℕ} (prot : BitVec 32) :
    SameLayer m (mmanProtect m k addr len prot).2 := by
  unfold mmanProtect
  dsimp only
  split <;> exact ⟨rfl, rfl, rfl, rfl⟩

theorem moveTo_keeps (k : Answers) (oldAddr oldLen newLen : ℕ) (hm : Inv InOrder m) {p : ℕ}
    (prot : BitVec 32) {x : Region} (hx : x ∈ m.regions)
    (hmeet : ¬ Meets oldAddr (addU oldAddr (pageAlign oldLen)) x) :
    (∃ y ∈ (moveTo m k oldAddr oldLen newLen prot p).regions, y.addr = x.addr ∧ y.len = x.len) ∧
      SameLayer m (moveTo m k oldAddr oldLen newLen prot p) := by
  have hmid : ∃ m₁, moveTo m k oldAddr oldLen newLen prot p = (mmanUnmap m₁ oldAddr oldLen).2 ∧
      Inv InOrder m₁ ∧ SameLayer m m₁ ∧ ∃ y ∈ m₁.regions, y.addr = x.addr ∧ y.len = x.len := by
    have hlayer : SameLayer m (m.memcpy p oldAddr (if oldLen < newLen then oldLen else newLen)) :=
      ⟨rfl, rfl, rfl, rfl⟩
    have hcopy := hm.same hlayer rfl fun _ h ↦ h
    unfold moveTo
    dsimp only
    split
    · exact ⟨_, rfl, hcopy.protect keeps_inOrder prot, hlayer.trans (mmanProtect_layer prot),
        mmanProtect_keeps prot hx⟩
    · exact ⟨_, rfl, hcopy, hlayer, x, hx, rfl, rfl⟩
  obtain ⟨m₁, heq, hm₁, hlayer, y, hy, hya, hyl⟩ := hmid
  rw [heq]
  refine ⟨⟨y, ?_, hya, hyl⟩, hlayer.trans (mmanUnmap_layer m₁ oldAddr oldLen)⟩
  by_cases hl : pageAlign oldLen = 0
  · rwa [mmanUnmap_zero (.inl hl)]
  · rw [mmanUnmap_eq hl hm₁.ready]
    refine unmapLoop_keeps [] m₁.lock (-1) hm₁.table.fits hy ?_
    unfold Meets at hmeet ⊢
    rwa [hya, hyl]

/-- What a successful `mremap` promises: an entry at the address it returns, as long as asked for,
in one piece below 2^32 and inside the pool. -/
def Provides (newLen : ℕ) (res : ℕ × ℤ × State) : Prop :=
  res.1 ≠ MAP_FAILED → ∃ r ∈ res.2.2.regions, r.addr = res.1 ∧ newLen ≤ r.len ∧ 0 < r.len ∧
    r.addr + r.len ≤ 2 ^ 32 ∧
    (res.2.2.haveKubridge = false → r.addr + r.len ≤ res.2.2.vmBase + poolSize)

/-- The requests that `mremap` resizes in place although the new length wraps: its page multiple is
no 32-bit number, or in the pool its end is none. -/
def WrapsInPlace (m : State) (oldAddr oldLen newLen : ℕ) (flags : BitVec 32) : Prop :=
  flags &&& ~~~(MREMAP_MAYMOVE ||| MREMAP_FIXED) = 0 ∧ flags &&& MREMAP_FIXED = 0 ∧
  (∃ h, Resizable m oldAddr (pageAlign oldLen) (pageAlign newLen) h ∧ 0 ≤ h.entry.prot.toInt) ∧
  (2 ^ 32 - 0x1000 < newLen ∨ m.haveKubridge = false ∧ 2 ^ 32 ≤ oldAddr + pageAlign newLen)

theorem mmanResize_ret (hr : m.ready = true) {h : Hit m.regions}
    (hres : Resizable m oldAddr (pageAlign oldLen) (pageAlign newLen) h) :
    (mmanResize m oldAddr oldLen newLen).1 = 0 := by
  have hout := mmanResize_outcome m oldAddr oldLen newLen
  generalize mmanResize m oldAddr oldLen newLen = res at hout ⊢
  cases hout with
  | refused hno => exact absurd hres (hno hr h)
  | same | shrunk | grown => rfl

theorem mmanMapped_within (hr : m.ready = true) {h : Hit m.regions}
    (hfind : regionFind m.regions oldAddr = some h) (ha : oldAddr % 0x1000 = 0)
    (hle : addU oldAddr (pageAlign oldLen) ≤ h.entry.stop) :
    mmanMapped m oldAddr oldLen = true := by
  rw [mmanMapped, hr, Bool.true_and, ← addU_pageAlign ha, mappedFrom]
  split
  · split
    · next hnone => rw [hfind] at hnone; cases hnone
    · next hit hsome =>
      have heq := hfind.symm.trans hsome
      cases heq
      rw [mappedFrom, if_neg (not_lt.mpr hle)]
  · rfl

theorem mmanMapped_entry (hm : Inv InOrder m) {h : Hit m.regions}
    (hfind : regionFind m.regions oldAddr = some h) (hstart : h.entry.addr = oldAddr)
    (hlen : h.entry.len = pageAlign oldLen) : mmanMapped m oldAddr oldLen = true := by
  refine mmanMapped_within hm.ready hfind (hstart ▸ (hm.table.aligned _ h.mem).1) (le_of_eq ?_)
  rw [← hstart, ← hlen]
  rfl

theorem mremap_inPlace (hm : Inv InOrder m) {flags : BitVec 32} {fixedArg : ℕ} {h : Hit m.regions}
    (hn : newLen ≠ 0) (hflags : flags &&& ~~~(MREMAP_MAYMOVE ||| MREMAP_FIXED) = 0)
    (hfix : flags &&& MREMAP_FIXED = 0)
    (hres : Resizable m oldAddr (pageAlign oldLen) (pageAlign newLen) h)
    (hprot : 0 ≤ h.entry.prot.toInt) :
    mremap m k oldAddr oldLen newLen flags fixedArg =
      (oldAddr, 0, (mmanResize m oldAddr oldLen newLen).2) := by
  have ha : oldAddr % 0x1000 = 0 := hres.start ▸ (hm.table.aligned _ h.mem).1
  have hmap := mmanMapped_entry hm hres.found hres.start hres.len
  have hret := mmanResize_ret hm.ready hres
  have hof : mmanProtOf m oldAddr = h.entry.prot := by
    simp [mmanProtOf, hm.ready, hres.found]
  simp [mremap, ha, hn, hflags, hfix, hof, not_lt.mpr hprot, hmap, hret]

theorem resize_put {o n : ℕ} {res : ℤ × State} (hout : ResizeOutcome m oldAddr o n res)
    (hr : res.1 = 0) : ∃ h, Resizable m oldAddr o n h ∧ SameLayer m res.2 ∧
      res.2.regions = h.put { h.entry with len := n } := by
  cases hout with
  | refused => cases hr
  | same h hfind ha hl hn =>
    refine ⟨h, ⟨hfind, ha, hl, .inl hn.le⟩, ⟨rfl, rfl, rfl, rfl⟩, ?_⟩
    rw [hn, ← hl]
    exact h.eq.symm
  | shrunk h hfind ha hl hlt =>
    refine ⟨h, ⟨hfind, ha, hl, .inl hlt.le⟩, ?_, rfl⟩
    split <;> exact ⟨rfl, rfl, rfl, rfl⟩
  | grown h hfind ha hl hlt hu hend hfree =>
    exact ⟨h, ⟨hfind, ha, hl, .inr ⟨hu, hend, hfree⟩⟩, ⟨rfl, rfl, rfl, rfl⟩, rfl⟩

/-- An `mremap` that does not resize to a wrapping length in place is a run of the layer. -/
theorem mremap_run (hs : k.Sound m (pageAlign newLen)) {flags : BitVec 32}
    {fixedArg : ℕ} (hw : ¬ WrapsInPlace m oldAddr oldLen newLen flags) (hnew : newLen < 2 ^ 32) :
    Relation.ReflTransGen (Step Request.Loose) m
      (mremap m k oldAddr oldLen newLen flags fixedArg).2.2 := by
  have hout := mremap_outcome m k oldAddr oldLen newLen flags fixedArg
  generalize mremap m k oldAddr oldLen newLen flags fixedArg = res at hout ⊢
  cases hout with
  | refused => exact .refl
  | resized h m' hn hflags hfix hfind hprot hmap hres =>
    have hloose : (Request.resize oldAddr oldLen newLen).Loose m k → Step Request.Loose m m' := by
      intro hq
      have hcall : Step Request.Loose m ((Request.resize oldAddr oldLen newLen).run m k) :=
        .call m k _ hq trivial
      simpa only [Request.run, hres] using hcall
    refine .single (hloose ?_)
    intro h' hres'
    have heq := hfind.symm.trans hres'.found
    cases heq
    have hok : ¬ (2 ^ 32 - 0x1000 < newLen ∨
        m.haveKubridge = false ∧ 2 ^ 32 ≤ oldAddr + pageAlign newLen) :=
      fun h ↦ hw ⟨hflags, hfix, ⟨_, hres', hprot⟩, h⟩
    refine ⟨?_, fun hk ↦ ?_⟩
    · have := pageAlign_eq_zero hnew
      omega
    · by_contra hle
      exact hok (.inr ⟨hk, by omega⟩)
  | mapFailed hint prot err _ => exact .single (.call m k (.map hint newLen prot) trivial hs)
  | moved h hint p err m' hargs hfind hprot hmap hno hmm hnull =>
    have hmapped : Step Request.Loose m
        ((Request.map hint newLen (h.entry.prot ||| PROT_WRITE)).run m k) := .call m k _ trivial hs
    simp only [Request.run, hmm] at hmapped
    have hcopy := Relation.ReflTransGen.tail (.single hmapped) (.store m'
      (m'.memcpy p oldAddr (if oldLen < newLen then oldLen else newLen)).mem)
    unfold moveTo
    dsimp only
    split
    · exact (hcopy.tail (.call _ k (.protect p newLen h.entry.prot) trivial trivial)).tail
        (.call _ k (.unmap oldAddr oldLen) hargs.aligned trivial)
    · exact hcopy.tail (.call _ k (.unmap oldAddr oldLen) hargs.aligned trivial)

theorem provides_resized (hm : Inv InOrder m) (hn : newLen ≠ 0) (hnew : newLen < 2 ^ 32)
    (hok : ¬ (2 ^ 32 - 0x1000 < newLen ∨
      m.haveKubridge = false ∧ 2 ^ 32 ≤ oldAddr + pageAlign newLen)) {h : Hit m.regions} {err : ℤ}
    (hres : Resizable m oldAddr (pageAlign oldLen) (pageAlign newLen) h) (hlayer : SameLayer m m')
    (hregs : m'.regions = h.put { h.entry with len := pageAlign newLen }) :
    Provides newLen (oldAddr, err, m') := by
  intro _
  have hal : pageAlign newLen = roundUp newLen := pageAlign_eq (by unfold roundUp; omega)
  have hup := le_roundUp newLen
  have hold := hm.table.fits _ h.mem
  rw [hres.start, hres.len] at hold
  refine ⟨{ h.entry with len := pageAlign newLen }, ?_, hres.start, ?_, ?_, ?_, ?_⟩
  · change _ ∈ m'.regions
    rw [hregs]
    exact h.mem_put.mpr (.inl rfl)
  · dsimp only
    omega
  · dsimp only
    omega
  · dsimp only
    rw [hres.start]
    rcases hres.room with hle | ⟨hu, -⟩
    · omega
    · have hk : m.haveKubridge = false := by
        by_contra hk
        have := (hm.backed (by simpa using hk) _ h.mem).1
        omega
      by_contra hlt
      exact hok (.inr ⟨hk, by omega⟩)
  · intro hk
    dsimp only at hk ⊢
    rw [hlayer.haveKubridge] at hk
    rw [hlayer.vmBase, hres.start]
    rcases le_or_gt (pageAlign newLen) (pageAlign oldLen) with hle | hlt
    · have := (hm.pool hk).inside _ h.mem
      rw [hres.start, hres.len] at this
      omega
    · refine hm.resize_top hres hlt hk ?_
      by_contra hc
      exact hok (.inr ⟨hk, by omega⟩)

theorem provides_moved (hm : Inv InOrder m) (hs : k.Sound m (pageAlign newLen))
    (hnew : newLen < 2 ^ 32) (ha : oldAddr % 0x1000 = 0) {h : Hit m.regions} {hint p : ℕ} {err : ℤ}
    (hfind : regionFind m.regions oldAddr = some h) (hmap : mmanMapped m oldAddr oldLen = true)
    (hmm : mmanMap m k hint newLen (h.entry.prot ||| PROT_WRITE) = (p, err, m')) (hp : p ≠ NULL) :
    Provides newLen (p, 0, moveTo m' k oldAddr oldLen newLen h.entry.prot p) := by
  intro _
  have hmout := mmanMap_outcome m k hint newLen (h.entry.prot ||| PROT_WRITE)
  rw [hmm] at hmout
  obtain ⟨uid, hpl⟩ := hmout.placed keeps_inOrder hm hs hp
  have hm' : Inv InOrder m' := hm.map keeps_inOrder hs (pageAlign_mod newLen) hmout
  have hmem := (regionInsert_mem hpl.insert ⟨p, pageAlign newLen, uid, _⟩).mpr (.inl rfl)
  obtain ⟨⟨y, hy, hya, hyl⟩, hlayer⟩ := moveTo_keeps k oldAddr oldLen newLen hm' (p := p)
    h.entry.prot hmem (not_meets_mapped ha hm.table.fits hfind hmap hpl.pos hpl.apart)
  dsimp only at hya hyl
  have hpos := hpl.pos
  have hfits := hpl.fits
  have hzero := pageAlign_eq_zero hnew
  have hup := le_roundUp newLen
  have hal : pageAlign newLen = roundUp newLen := pageAlign_eq (by unfold roundUp; omega)
  refine ⟨y, hy, hya, by omega, by omega, by omega, fun hk ↦ ?_⟩
  dsimp only at hk ⊢
  rw [hlayer.haveKubridge] at hk
  rw [hlayer.vmBase, hya, hyl]
  exact hpl.inPool hk

theorem mremap_provides (hm : Inv InOrder m) (hs : k.Sound m (pageAlign newLen))
    {flags : BitVec 32} {fixedArg : ℕ} (hnew : newLen < 2 ^ 32)
    (hw : ¬ WrapsInPlace m oldAddr oldLen newLen flags) :
    Provides newLen (mremap m k oldAddr oldLen newLen flags fixedArg) := by
  have hout := mremap_outcome m k oldAddr oldLen newLen flags fixedArg
  generalize mremap m k oldAddr oldLen newLen flags fixedArg = res at hout ⊢
  cases hout with
  | refused => exact fun hok ↦ absurd rfl hok
  | mapFailed => exact fun hok ↦ absurd rfl hok
  | resized h m' hn hflags hfix hfind hprot hmap hres =>
    have hput := resize_put (mmanResize_outcome m oldAddr oldLen newLen) (by rw [hres])
    rw [hres] at hput
    obtain ⟨g, hgres, hlayer, hregs⟩ := hput
    have heq := hfind.symm.trans hgres.found
    cases heq
    refine provides_resized hm hn hnew (fun hc ↦ ?_) hgres hlayer hregs
    exact hw ⟨hflags, hfix, ⟨h, hgres, hprot⟩, hc⟩
  | moved h hint p err m' hargs hfind hprot hmap hno hmm hnull =>
    exact provides_moved hm hs hnew hargs.aligned hfind hmap hmm hnull

/-- In every state that a run of such requests reaches, `mremap` provides what it was asked for
exactly if it does not resize in place to a length that wraps; and then the run goes on. -/
theorem mremap_provides_iff (hm : Reachable Request.Loose m) (hs : k.Sound m (pageAlign newLen))
    (hold : oldAddr < 2 ^ 32) (hnew : newLen < 2 ^ 32) (flags : BitVec 32) (fixedArg : ℕ) :
    (Provides newLen (mremap m k oldAddr oldLen newLen flags fixedArg) ↔
      ¬ WrapsInPlace m oldAddr oldLen newLen flags) ∧
    (¬ WrapsInPlace m oldAddr oldLen newLen flags →
      Reachable Request.Loose (mremap m k oldAddr oldLen newLen flags fixedArg).2.2) := by
  have hinv := hm.inOrder
  refine ⟨⟨fun hp hw ↦ ?_, mremap_provides hinv hs hnew⟩, fun hw ↦ ?_⟩
  · obtain ⟨hflags, hfix, ⟨h, hres, hprot⟩, hwrap⟩ := hw
    have ha : oldAddr % 0x1000 = 0 := hres.start ▸ (hinv.table.aligned _ h.mem).1
    have hn : newLen ≠ 0 := by
      rintro rfl
      have : pageAlign 0 = 0 := rfl
      omega
    rw [mremap_inPlace hinv hn hflags hfix hres hprot] at hp
    obtain ⟨r, hr, hra, hlen, hpos, hfits, hpool⟩ := hp (by unfold MAP_FAILED; dsimp only; omega)
    obtain ⟨g, hgres, hlayer, hregs⟩ :=
      resize_put (mmanResize_outcome m oldAddr oldLen newLen) (mmanResize_ret hinv.ready hres)
    dsimp only at hr hra hpool
    rw [hregs] at hr
    rw [hlayer.haveKubridge, hlayer.vmBase] at hpool
    have hzero := pageAlign_eq_zero hnew
    have hend : m.haveKubridge = false → m.vmBase + poolSize < 2 ^ 32 := by
      intro hk
      have hpt := hinv.pool hk
      exact (hpt.placed (not_lt.mp fun hv ↦
        List.eq_nil_iff_forall_not_mem.mp (hpt.empty hv) _ h.mem)).2
    rcases g.mem_put.mp hr with rfl | hr
    · dsimp only at *
      rcases hwrap with hwrap | ⟨hk, hwrap⟩
      · omega
      · have := hpool hk
        have := hend hk
        omega
    · have hmem := g.mem_iff.mpr (.inr hr)
      have hal := hinv.table.aligned r hmem
      have hrf := hinv.table.fits r hmem
      have hle : 2 ^ 32 - 0x1000 < newLen ∨ pageAlign newLen ≤ r.len := by
        unfold pageAlign addU
        omega
      rcases hwrap with hwrap | ⟨hk, hwrap⟩ <;> omega
  · obtain ⟨b, mem, hrun⟩ := hm
    exact ⟨b, mem, hrun.trans (mremap_run hs hw hnew)⟩

end Move

def onePage : State :=
  Request.run (initMman false fun _ ↦ 0) poolAnswers (.map 0 0x1000 3)

theorem onePage_reachable : Reachable Request.Loose onePage :=
  ⟨false, fun _ ↦ 0,
    .single (.call _ poolAnswers (.map 0 0x1000 3) trivial (poolAnswers_sound _ _))⟩

/-- The page multiple of 0xffffffff is 0: the page is cut down to nothing, and `mremap` succeeds. -/
theorem mremap_resizes_to_nothing :
    Reachable Request.Loose onePage ∧
    (mremap onePage poolAnswers 0x81000000 0x1000 0xffffffff 0 0).1 = 0x81000000 ∧
    ¬ Provides 0xffffffff (mremap onePage poolAnswers 0x81000000 0x1000 0xffffffff 0 0) := by
  have hret : (mremap onePage poolAnswers 0x81000000 0x1000 0xffffffff 0 0).1 = 0x81000000 := by
    decide +kernel
  have hregs : (mremap onePage poolAnswers 0x81000000 0x1000 0xffffffff 0 0).2.2.regions =
      [⟨0x81000000, 0, -1, 3⟩] := by
    decide +kernel
  refine ⟨onePage_reachable, hret, fun hp ↦ ?_⟩
  obtain ⟨r, hr, -, hlen, -⟩ := hp (by rw [hret]; decide)
  rw [hregs, List.mem_singleton] at hr
  rw [hr] at hlen
  exact absurd hlen (by decide)

theorem mremap_provides_onePage :
    Provides 0x2000 (mremap onePage poolAnswers 0x81000000 0x1000 0x2000 0 0) := by
  refine (mremap_provides_iff onePage_reachable (poolAnswers_sound _ _) (by decide) (by decide) 0
    0).1.mpr ?_
  rintro ⟨-, -, -, h | ⟨-, h⟩⟩
  · exact absurd h (by decide)
  · exact absurd h (by decide)

end SceLibcPosix.Mman
