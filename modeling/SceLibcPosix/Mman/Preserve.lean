import SceLibcPosix.Mman.Invariant

namespace SceLibcPosix.Mman

open Spans

section Map

variable {T : List Region → Prop} {m : State} {k : Answers} {n : ℕ} {prot : BitVec 32}

theorem mem_reserved_free {cs : List KuCall} {ρ : Reservation} {uid : ℤ} (h : ρ ∈ reserved cs)
    (hu : ρ.uid ≠ uid) : ρ ∈ reserved (.free uid :: cs) := by
  simpa [reserved] using ⟨h, hu⟩

theorem Inv.vmPoolInit (hm : Inv T m) (hk : m.haveKubridge = false) (hs : k.Sound m n)
    (hr : 0 ≤ (vmPoolInit m k).1) : Inv T (vmPoolInit m k).2 ∧ 0 ≤ (vmPoolInit m k).2.vmUid ∧
      (vmPoolInit m k).2.haveKubridge = false ∧ (vmPoolInit m k).2.regions = m.regions := by
  unfold Mman.vmPoolInit at hr ⊢
  split at hr
  · next hu =>
    rw [if_pos hu]
    exact ⟨hm, hu, hk, rfl⟩
  · next hu =>
    have hempty := (hm.pool hk).empty (by omega)
    rw [if_neg hu]
    split at hr
    · omega
    · next h₁ =>
      rw [if_neg h₁]
      split at hr
      · omega
      · next h₂ =>
        rw [if_neg h₂]
        refine ⟨⟨hm.ready, hm.table, fun _ ↦ ⟨fun _ ↦ hempty, fun _ ↦ ?_, ?_⟩, ?_⟩, ?_, hk, rfl⟩
        · exact hs.pool (by omega) (by omega)
        · simp [hempty]
        · simp [hk]
        · dsimp only
          omega

theorem vmPoolScan_spec {t : List Region} (ho : t.Pairwise (·.addr ≤ ·.addr))
    (hf : ∀ r ∈ t, r.addr + r.len < 2 ^ 32) (hu : ∀ r ∈ t, r.uid < 0) (cand : ℕ) :
    cand ≤ vmPoolScan n cand t ∧
    (vmPoolScan n cand t + n < 2 ^ 32 → ∀ r ∈ t,
      r.addr + r.len ≤ vmPoolScan n cand t ∨ vmPoolScan n cand t + n ≤ r.addr) ∧
    (vmPoolScan n cand t = cand ∨ ∃ r ∈ t, vmPoolScan n cand t = r.addr + r.len) := by
  induction t generalizing cand with
  | nil => simp [vmPoolScan]
  | cons r t ih =>
    obtain ⟨hrt, ho⟩ := List.pairwise_cons.mp ho
    simp only [List.forall_mem_cons] at hf hu
    have hnu : ¬ 0 ≤ r.uid := by omega
    rw [vmPoolScan, if_neg hnu]
    split
    · next hb =>
      refine ⟨le_rfl, fun hw ↦ ?_, .inl rfl⟩
      have hle : cand + n ≤ r.addr := by
        unfold addU at hb
        rwa [Nat.mod_eq_of_lt hw] at hb
      refine List.forall_mem_cons.mpr ⟨.inr hle, fun x hx ↦ .inr ?_⟩
      have := hrt x hx
      omega
    · rw [Region.stop_eq hf.1]
      obtain ⟨hge, hfree, hat⟩ := ih ho hf.2 hu.2 (if cand < r.addr + r.len then r.addr + r.len
        else cand)
      have hc : cand ≤ (if cand < r.addr + r.len then r.addr + r.len else cand) ∧
          r.addr + r.len ≤ if cand < r.addr + r.len then r.addr + r.len else cand := by
        split <;> omega
      refine ⟨hc.1.trans hge, fun hw ↦ List.forall_mem_cons.mpr ⟨.inl (hc.2.trans hge), hfree hw⟩,
        ?_⟩
      · rcases hat with hat | ⟨x, hx, hat⟩
        · rw [hat]
          split
          · exact .inr ⟨r, List.mem_cons_self, rfl⟩
          · exact .inl rfl
        · exact .inr ⟨x, List.mem_cons_of_mem r hx, hat⟩

theorem vmPoolAlloc_spec (hT : Keeps T) (hm : Inv T m) (hk : m.haveKubridge = false)
    (hu : 0 ≤ m.vmUid) (hp : vmPoolAlloc m n ≠ NULL) :
    vmPoolAlloc m n % 0x1000 = 0 ∧ m.vmBase ≤ vmPoolAlloc m n ∧
    vmPoolAlloc m n + n ≤ m.vmBase + poolSize ∧
    ∀ r ∈ m.regions, r.addr + r.len ≤ vmPoolAlloc m n ∨ vmPoolAlloc m n + n ≤ r.addr := by
  have hpool := hm.pool hk
  obtain ⟨hal, hend⟩ := hpool.placed hu
  have huid : ∀ r ∈ m.regions, r.uid < 0 := by
    intro r hr
    rw [(hpool.inside r hr).1]
    decide
  obtain ⟨hge, hfree, hat⟩ := vmPoolScan_spec (n := n) (hT.inOrder hm.table)
    (hT.fits hm.table) huid m.vmBase
  unfold vmPoolAlloc at hp ⊢
  rw [addU, Nat.mod_eq_of_lt hend] at hp ⊢
  dsimp only at hp ⊢
  generalize vmPoolScan n m.vmBase m.regions = c at *
  split at hp
  · exact absurd rfl hp
  · next hc =>
    rw [if_neg hc]
    unfold subU at hc
    refine ⟨?_, hge, by omega, hfree (by omega)⟩
    rcases hat with rfl | ⟨r, hr, rfl⟩
    · exact hal
    · have := hT.aligned hm.table r hr
      omega

/-- What a successful `__mman_map` has done to the table. -/
structure Placed (m : State) (n : ℕ) (prot : BitVec 32) (p : ℕ) (uid : ℤ) (m' : State) : Prop where
  insert : regionInsert m.regions p n uid prot = some m'.regions
  pos : 0 < n
  fits : p + n < 2 ^ 32
  aligned : p % 0x1000 = 0
  apart : ∀ r ∈ m.regions, r.addr + r.len ≤ p ∨ p + n ≤ r.addr
  inPool : m'.haveKubridge = false → p + n ≤ m'.vmBase + poolSize
  sameMode : m'.haveKubridge = m.haveKubridge

theorem placed_reserve (hm : Inv T m) (hs : k.Sound m n) {t : List Region}
    (hk : m.haveKubridge = true) (hn : n ≠ 0) (hu : 0 ≤ k.reserveUid)
    (hi : regionInsert m.regions k.reserveBase n k.reserveUid prot = some t) :
    Placed m n prot k.reserveBase k.reserveUid
      (((m.call (.reserve k.reserveUid k.reserveBase n)).commit k k.reserveBase n).setRegions
        t) where
  insert := hi
  pos := by omega
  fits := hs.fits hu
  aligned := hs.aligned hu
  apart := by
    intro r hr
    obtain ⟨-, ρ, hρ, -, hlo, hhi⟩ := hm.backed hk r hr
    have := hs.apart hu ρ hρ
    omega
  inPool := fun h ↦ absurd (hk.symm.trans h) (by decide)
  sameMode := rfl

theorem placed_pool (hT : Keeps T) (hm : Inv T m) (hs : k.Sound m n) {t : List Region}
    (hk : m.haveKubridge = false) (hn : n ≠ 0) (hr : 0 ≤ (vmPoolInit m k).1)
    (hp : vmPoolAlloc (vmPoolInit m k).2 n ≠ NULL)
    (hi : regionInsert (vmPoolInit m k).2.regions (vmPoolAlloc (vmPoolInit m k).2 n) n (-1) prot =
      some t) :
    Placed m n prot (vmPoolAlloc (vmPoolInit m k).2 n) (-1) ((vmPoolInit m k).2.setRegions t) := by
  obtain ⟨hm₁, hu, hk₁, hreg⟩ := hm.vmPoolInit hk hs hr
  obtain ⟨hal, hlo, hhi, hap⟩ := vmPoolAlloc_spec hT hm₁ hk₁ hu hp
  have hend := ((hm₁.pool hk₁).placed hu).2
  refine ⟨?_, by omega, by omega, hal, ?_, fun _ ↦ hhi, hk₁.trans hk.symm⟩
  · rw [← hreg]
    exact hi
  · rw [← hreg]
    exact hap

theorem Inv.map (hT : Keeps T) (hm : Inv T m) (hs : k.Sound m n) (hn : n % 0x1000 = 0)
    {res : ℕ × ℤ × State} (h : MapOutcome m k n prot res) : Inv T res.2.2 := by
  have hfreed : ∀ hu : 0 ≤ k.reserveUid, ∀ ρ ∈ reserved m.calls,
      ρ ∈ reserved (.free k.reserveUid :: .reserve k.reserveUid k.reserveBase n :: m.calls) :=
    fun hu ρ hρ ↦ mem_reserved_free (List.mem_cons_of_mem _ hρ) (hs.own hu ρ hρ)
  have htable : ∀ {p uid m'}, Placed m n prot p uid m' → T m'.regions := fun hp ↦
    hT.insert hm.table hp.insert hp.fits ⟨hp.aligned, hn⟩ hp.pos hp.apart
  cases h with
  | refused => exact hm
  | commitFailed hk hu _ => exact hm.same ⟨rfl, rfl, rfl, rfl⟩ rfl (hfreed hu)
  | tableFull hk hu _ => exact hm.same ⟨rfl, rfl, rfl, rfl⟩ rfl (hfreed hu)
  | mapped t hk hn0 hu hi =>
    have hplaced := placed_reserve hm hs hk hn0 hu hi
    refine ⟨hm.ready, htable hplaced, fun hk' ↦ ?_, fun _ ↦ forall_insert hi ?_ fun r hr ↦ ?_⟩
    · exact absurd (hk.symm.trans hk') (by decide)
    · exact ⟨hu, _, List.mem_cons_self, rfl, le_rfl, le_rfl⟩
    · obtain ⟨hru, ρ, hρ, h⟩ := hm.backed hk r hr
      exact ⟨hru, ρ, List.mem_cons_of_mem _ hρ, h⟩
  | poolFailed hk hr => exact (hm.vmPoolInit hk hs hr).1
  | poolMapped t hk hn0 hr hp hi =>
    obtain ⟨hm₁, hu, hk₁, -⟩ := hm.vmPoolInit hk hs hr
    obtain ⟨-, hlo, hhi, -⟩ := vmPoolAlloc_spec hT hm₁ hk₁ hu hp
    have hplaced := placed_pool hT hm hs hk hn0 hr hp hi
    have hpool := hm₁.pool hk₁
    refine ⟨hm₁.ready, htable hplaced, fun _ ↦ ⟨fun h ↦ ?_, hpool.placed, ?_⟩, fun h ↦ ?_⟩
    · exact absurd hu (not_le.mpr h)
    · exact forall_insert hi ⟨rfl, hlo, hhi⟩ hpool.inside
    · exact absurd (hk₁.symm.trans h) (by decide)

theorem MapOutcome.placed (hT : Keeps T) (hm : Inv T m) (hs : k.Sound m n) {p : ℕ} {err : ℤ}
    {m' : State} (h : MapOutcome m k n prot (p, err, m')) (hp : p ≠ NULL) :
    ∃ uid, Placed m n prot p uid m' := by
  generalize hres : (p, err, m') = res at h
  cases h with
  | refused | commitFailed | tableFull | poolFailed => cases hres; exact absurd rfl hp
  | mapped t hk hn hu hi => cases hres; exact ⟨_, placed_reserve hm hs hk hn hu hi⟩
  | poolMapped t hk hn hr hp hi => cases hres; exact ⟨_, placed_pool hT hm hs hk hn hr hp hi⟩

end Map

section Cut

variable {T : List Region → Prop} {m : State} {addr len : ℕ}

/-- Nothing but the table and the calls to the kernel differs. -/
def Rewrites (m m' : State) : Prop := ∃ t cs, m' = { m with regions := t, calls := cs }

theorem Rewrites.refl (m : State) : Rewrites m m := ⟨m.regions, m.calls, rfl⟩

theorem Rewrites.trans {m m' m'' : State} (h : Rewrites m m') (h' : Rewrites m' m'') :
    Rewrites m m'' := by
  obtain ⟨t, cs, rfl⟩ := h
  obtain ⟨t', cs', rfl⟩ := h'
  exact ⟨t', cs', rfl⟩

theorem Rewrites.setRegions (m : State) (t : List Region) : Rewrites m (m.setRegions t) :=
  ⟨t, m.calls, rfl⟩

theorem Rewrites.release (m : State) (uid : ℤ) : Rewrites m (releaseReservation m uid) := by
  unfold releaseReservation
  split
  · exact .refl m
  · split
    · exact .refl m
    · exact ⟨m.regions, .free uid :: m.calls, rfl⟩

theorem unmapLoop_rewrites {s e : ℕ} (t passed : List Region) (m : State) (ret : ℤ) :
    Rewrites m (unmapLoop s e m ret passed t).2 := by
  induction t generalizing m ret passed with
  | nil => exact .setRegions m passed
  | cons r t ih =>
    rw [unmapLoop]
    dsimp only
    generalize (if r.addr < s then s else r.addr) = us
    generalize (if e < r.stop then e else r.stop) = ue
    have hd : Rewrites m (if 0 ≤ r.uid then m.call (.decommit us (subU ue us)) else m) := by
      split
      · exact ⟨m.regions, .decommit us (subU ue us) :: m.calls, rfl⟩
      · exact .refl m
    generalize (if 0 ≤ r.uid then m.call (.decommit us (subU ue us)) else m) = m₁ at hd ⊢
    split
    · exact ih _ _ _
    split
    · exact hd.trans
        ((Rewrites.setRegions m₁ _).trans ((Rewrites.release _ r.uid).trans (ih _ _ _)))
    split
    · exact hd.trans (ih _ _ _)
    split
    · exact hd.trans (ih _ _ _)
    split
    · exact hd.trans (.setRegions m₁ _)
    · exact hd.trans (.setRegions m₁ _)

theorem mmanUnmap_rewrites (m : State) (addr len : ℕ) : Rewrites m (mmanUnmap m addr len).2 := by
  unfold mmanUnmap
  dsimp only
  split
  · exact .refl m
  · obtain ⟨t, cs, h⟩ := unmapLoop_rewrites m.regions [] m.lock (-1) (s := addr)
      (e := addU addr (pageAlign len))
    refine ⟨t, cs, ?_⟩
    rw [h]
    rfl

theorem mmanUnmap_layer (m : State) (addr len : ℕ) : SameLayer m (mmanUnmap m addr len).2 := by
  obtain ⟨t, cs, h⟩ := mmanUnmap_rewrites m addr len
  rw [h]
  exact ⟨rfl, rfl, rfl, rfl⟩

theorem unmapLoop_forall {Q : Region → Prop} {s e : ℕ} {passed t : List Region}
    (hQ : ∀ r p, Q r → p ∈ carve s e r → Q p) (m : State) (ret : ℤ)
    (hf : ∀ r ∈ t, r.addr + r.len < 2 ^ 32) (h : ∀ r ∈ passed ++ t, Q r) :
    ∀ r ∈ (unmapLoop s e m ret passed t).2.regions, Q r := by
  refine unmapLoop_induction (P := fun _ _ passed t res ↦ (∀ r ∈ passed ++ t, Q r) →
    ∀ r ∈ res.2.regions, Q r) ?_ ?_ ?_ ?_ ?_ m ret hf h
  · exact fun m ret passed h r hr ↦ h r (List.mem_append_left _ hr)
  · exact fun m ret passed r t res _ ih h ↦ ih (by simpa using h)
  · intro m ret passed r t res _ _ ih h
    simp only [List.forall_mem_append, List.forall_mem_cons] at h ih
    exact ih ⟨⟨h.1, fun p hp ↦ hQ r p h.2.1 hp⟩, h.2.2⟩
  · exact fun m ret passed r t _ _ _ h ↦ h
  · intro m ret passed r t t' hm hi hins h
    simp only [List.forall_mem_append, List.forall_mem_cons] at h
    unfold Meets at hm
    unfold Inside at hi
    have hc : carve s e r = [{ r with len := s - r.addr },
        { r with addr := e, len := r.addr + r.len - e }] := by
      rw [carve, if_neg (by omega), if_pos hi.1, if_pos hi.2]
      rfl
    refine forall_insert hins (hQ r _ h.2.1 ?_) ?_
    · simp [hc]
    · simp only [List.forall_mem_append, List.forall_mem_cons]
      exact ⟨h.1, hQ r _ h.2.1 (by simp [hc]), h.2.2⟩

theorem mmanUnmap_reserved (hf : ∀ r ∈ m.regions, r.addr + r.len < 2 ^ 32) (hr : m.ready = true)
    (hl : pageAlign len ≠ 0) :
    ∀ ρ, ρ ∈ reserved (mmanUnmap m addr len).2.calls ↔ ρ ∈ reserved m.calls ∧
      ¬ (0 ≤ ρ.uid ∧ Listed m.regions ρ.uid ∧ ¬ Listed (mmanUnmap m addr len).2.regions ρ.uid) := by
  rw [mmanUnmap_eq hl hr]
  exact (unmapLoop_reserved [] m.lock (-1) hf).2

theorem Inv.unmap (hT : Keeps T) (hm : Inv T m) (ht : T (mmanUnmap m addr len).2.regions) :
    Inv T (mmanUnmap m addr len).2 := by
  by_cases hl : pageAlign len = 0
  · rwa [mmanUnmap_zero (.inl hl)]
  · have hf := hT.fits hm.table
    refine hm.cut (mmanUnmap_layer m addr len) ht ?_ fun ρ hρ hlist ↦
      (mmanUnmap_reserved hf hm.ready hl ρ).mpr ⟨hρ, fun h ↦ h.2.2 hlist⟩
    rw [mmanUnmap_eq hl hm.ready]
    exact unmapLoop_forall (fun r p hr hp ↦ hr.carve hp) m.lock (-1) hf fun r hr ↦ within_self hr

end Cut

section Change

variable {T : List Region → Prop} {m : State} {k : Answers} {addr len o n : ℕ}

theorem Inv.resize_top (hm : Inv T m) {h : Hit m.regions} (hres : Resizable m addr o n h)
    (hlt : o < n) (hk : m.haveKubridge = false) (hw : addr + n < 2 ^ 32) :
    addr + n ≤ m.vmBase + poolSize := by
  have hpool := hm.pool hk
  have hvm : ¬ m.vmUid < 0 := fun hv ↦ List.eq_nil_iff_forall_not_mem.mp (hpool.empty hv) _ h.mem
  have hend := (hpool.placed (by omega)).2
  rcases hres.room with hle | ⟨-, htop, -⟩
  · omega
  · rwa [addU, addU, Nat.mod_eq_of_lt hw, Nat.mod_eq_of_lt hend] at htop

theorem Inv.resize (hm : Inv T m) {res : ℤ × State} (hout : ResizeOutcome m addr o n res)
    (hput : ∀ h : Hit m.regions, Resizable m addr o n h → T (h.put { h.entry with len := n }))
    (htop : ∀ h : Hit m.regions, Resizable m addr o n h → o < n → m.haveKubridge = false →
      addr + n ≤ m.vmBase + poolSize) : Inv T res.2 := by
  cases hout with
  | refused => exact hm
  | same => exact hm
  | shrunk h hfind ha hl hlt =>
    refine hm.cut ?_ (hput h ⟨hfind, ha, hl, .inl hlt.le⟩)
      (forall_put h ?_ fun r hr ↦ within_self hr) ?_
    · split <;> exact ⟨rfl, rfl, rfl, rfl⟩
    · exact ⟨h.entry, h.mem, rfl, le_rfl, by dsimp only; omega⟩
    · intro ρ hρ _
      split <;> exact hρ
  | grown h hfind ha hl hlt hu hend hfree =>
    have hres : Resizable m addr o n h := ⟨hfind, ha, hl, .inr ⟨hu, hend, hfree⟩⟩
    have hk : m.haveKubridge = false := by
      by_contra hk
      have := (hm.backed (by simpa using hk) _ h.mem).1
      omega
    have hpool := hm.pool hk
    have hvm : ¬ m.vmUid < 0 := fun hv ↦
      List.eq_nil_iff_forall_not_mem.mp (hpool.empty hv) _ h.mem
    refine ⟨hm.ready, hput h hres, fun _ ↦ ⟨fun hv ↦ absurd hv hvm, hpool.placed, ?_⟩, fun hk' ↦ ?_⟩
    · obtain ⟨huid, hlo, -⟩ := hpool.inside _ h.mem
      have htop := htop h hres hlt hk
      subst ha
      exact forall_put h ⟨huid, hlo, htop⟩ hpool.inside
    · exact absurd (hk.symm.trans hk') (by decide)

theorem Inv.protect (hT : Keeps T) (hm : Inv T m) (prot : BitVec 32) :
    Inv T (mmanProtect m k addr len prot).2 := by
  unfold mmanProtect
  dsimp only
  split
  · exact hm
  have hf : ∀ r : Region, (if addr ≤ r.addr ∧ r.stop ≤ addU addr (pageAlign len) then
      { r with prot := prot } else r).addr = r.addr ∧
    (if addr ≤ r.addr ∧ r.stop ≤ addU addr (pageAlign len) then
      { r with prot := prot } else r).len = r.len ∧
    (if addr ≤ r.addr ∧ r.stop ≤ addU addr (pageAlign len) then
      { r with prot := prot } else r).uid = r.uid := by
    intro r
    split <;> exact ⟨rfl, rfl, rfl⟩
  refine hm.cut ⟨rfl, rfl, rfl, rfl⟩ (hT.map hm.table fun r ↦ ⟨(hf r).1, (hf r).2.1⟩) ?_
    fun ρ hρ _ ↦ hρ
  intro r' hr'
  obtain ⟨r, hr, rfl⟩ := List.mem_map.mp hr'
  obtain ⟨ha, hl, hu⟩ := hf r
  exact ⟨r, hr, hu, ha.ge, by rw [ha, hl]⟩

theorem Placed.protect {m' : State} {p : ℕ} {uid : ℤ} {prot : BitVec 32}
    (hpl : Placed m (pageAlign len) prot p uid m') (hready : m'.ready = true)
    (hf : ∀ r ∈ m.regions, r.addr + r.len < 2 ^ 32) (hpos : ∀ r ∈ m.regions, 0 < r.len)
    (prot' : BitVec 32) : regionInsert m.regions p (pageAlign len) uid prot' =
      some (mmanProtect m' k p len prot').2.regions := by
  have hend : addU p (pageAlign len) = p + pageAlign len := Nat.mod_eq_of_lt hpl.fits
  have hnew : Region.stop ⟨p, pageAlign len, uid, prot⟩ = p + pageAlign len :=
    Region.stop_eq hpl.fits
  have hold : ∀ x ∈ m.regions, ¬ (p ≤ x.addr ∧ x.stop ≤ p + pageAlign len) := by
    intro x hx
    have := hpos x hx
    have := hpl.apart x hx
    rw [Region.stop_eq (hf x hx)]
    omega
  obtain ⟨t₁, t₂, ht, hins⟩ := regionInsert_prot hpl.insert
  have hreg : m'.regions = t₁ ++ ⟨p, pageAlign len, uid, prot⟩ :: t₂ :=
    Option.some.inj (hpl.insert.symm.trans (hins prot))
  have hid : ∀ t : List Region, (∀ x ∈ t, x ∈ m.regions) → t.map (fun r ↦
      if p ≤ r.addr ∧ r.stop ≤ p + pageAlign len then { r with prot := prot' } else r) = t :=
    fun t hsub ↦ (List.map_congr_left fun x hx ↦ if_neg (hold x (hsub x hx))).trans (List.map_id t)
  rw [hins prot', Option.some.injEq]
  simp only [mmanProtect, hready, Bool.not_true, Bool.false_eq_true, if_false,
    State.unlock_regions, State.setRegions_regions, State.lock_regions, hreg, List.map_append,
    List.map_cons, hnew, hend, le_refl, and_self, if_true]
  rw [hid t₁ fun x hx ↦ ht ▸ List.mem_append_left t₂ hx,
    hid t₂ fun x hx ↦ ht ▸ List.mem_append_right t₁ hx]

theorem Inv.discard (hm : Inv T m) : Inv T (mmanDiscard m k addr len).2 := by
  have hout := mmanDiscard_outcome m k addr len
  generalize mmanDiscard m k addr len = res at hout ⊢
  cases hout with
  | refused => exact hm
  | commitFailed | recommitted | cleared => exact hm.same ⟨rfl, rfl, rfl, rfl⟩ rfl fun _ h ↦ h

end Change

end SceLibcPosix.Mman
