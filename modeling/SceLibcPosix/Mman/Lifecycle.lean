import SceLibcPosix.Mman.Teardown

namespace SceLibcPosix.Mman

open Relation

/-- The calls on the block of the pool and on its domain that took effect. -/
inductive VmCall
  | alloc (uid : ℤ)
  | openDomain
  | closeDomain
  | free (uid : ℤ)
deriving DecidableEq, Repr

structure Domain where
  block : Option ℤ
  isOpen : Bool
deriving DecidableEq, Repr

/-- What a call does, if it comes in its place: there is one block at a time, and its domain is open
after it has been allocated and before it is freed. -/
def VmCall.apply : VmCall → Domain → Option Domain
  | alloc uid, ⟨none, false⟩ => some ⟨some uid, false⟩
  | openDomain, ⟨some uid, false⟩ => some ⟨some uid, true⟩
  | closeDomain, ⟨some uid, true⟩ => some ⟨some uid, false⟩
  | free uid, ⟨some uid', false⟩ => if uid = uid' then some ⟨none, false⟩ else none
  | _, _ => none

/-- What the calls have come to, last call first, if each has come in its place. -/
def domainAfter : List VmCall → Option Domain
  | [] => some ⟨none, false⟩
  | c :: cs => (domainAfter cs).bind c.apply

/-- What `_vm_uid` says of the pool. -/
def State.domain (m : State) : Domain :=
  if 0 ≤ m.vmUid then ⟨some m.vmUid, true⟩ else ⟨none, false⟩

def vmPoolInitCalls (m : State) (k : Answers) : List VmCall :=
  if 0 ≤ m.vmUid then []
  else if k.vmUid < 0 then []
  else if k.vmBaseRet < 0 then [.free k.vmUid, .alloc k.vmUid]
  else [.openDomain, .alloc k.vmUid]

/-- Only a mapping without kubridge comes to `_vm_pool_init`. -/
def Request.vmCalls (m : State) (k : Answers) : Request → List VmCall
  | .map hint len _ =>
    if pageAlign len = 0 then []
    else if !m.ready then []
    else if hint ≠ NULL ∧ !m.haveKubridge then []
    else if m.haveKubridge then []
    else vmPoolInitCalls m k
  | _ => []

def finiVmCalls (m : State) : List VmCall :=
  if !m.ready then []
  else if 0 ≤ m.vmUid then [.free m.vmUid, .closeDomain]
  else []

/-- `__init_mman` on what an earlier start has left, with the outcome of `_kubridge_usable`. The
mutex is a new one. -/
def startMman (m : State) (haveKubridge : Bool) : State :=
  { m with
    regions := []
    ready := true
    haveKubridge := haveKubridge
    held := 0 }

def unstarted (mem : ℕ → UInt8) : State := { initMman false mem with ready := false }

/-- The layer, and the calls on the domain of the pool, last call first. -/
structure Life where
  state : State
  domain : List VmCall

/-- Starts, requests and stops of a module in any order, each start with kubridge or without; only a
module that is not started is started. -/
inductive LifeStep : Life → Life → Prop
  | start (l : Life) (b : Bool) : l.state.ready = false →
      LifeStep l ⟨startMman l.state b, l.domain⟩
  | call (l : Life) (k : Answers) (q : Request) (hq : q.Fresh l.state k) :
      LifeStep l ⟨q.run l.state k, q.vmCalls l.state k ++ l.domain⟩
  | stop (l : Life) : LifeStep l ⟨finiMman l.state, finiVmCalls l.state ++ l.domain⟩

section Fini

variable {m : State}

theorem finiLog_cons (passed t : List Region) (r : Region) (cs : List KuCall) :
    (finiLog passed (r :: t)).reverse ++ cs = (finiLog (passed ++ [r]) t).reverse ++
      ((if uidListed passed r.uid then [] else [.free r.uid]) ++ .decommit r.addr r.len :: cs) := by
  rw [finiLog]
  split <;> simp

theorem finiLog_frees (t passed : List Region) (cs : List KuCall) (honce : FreedOnce cs)
    (hheld : ∀ uid, Listed t uid → ¬ Listed passed uid → Held cs uid) :
    FreedOnce ((finiLog passed t).reverse ++ cs) ∧
    ∀ uid, Held ((finiLog passed t).reverse ++ cs) uid ↔
      Held cs uid ∧ ¬ (Listed t uid ∧ ¬ Listed passed uid) := by
  induction t generalizing passed cs with
  | nil => simp [finiLog, honce]
  | cons r t ih =>
    rw [finiLog_cons]
    by_cases hp : Listed passed r.uid
    · rw [if_pos (uidListed_iff.mpr hp), List.nil_append]
      have ih := ih (passed ++ [r]) (.decommit r.addr r.len :: cs) honce ?_
      · refine ⟨ih.1, fun uid ↦ (ih.2 uid).trans (and_congr_right fun _ ↦ not_congr ?_)⟩
        simp only [listed_append, listed_cons, listed_nil, or_false, not_or]
        constructor
        · exact fun h ↦ ⟨.inr h.1, h.2.1⟩
        · rintro ⟨rfl | h, hno⟩
          · exact absurd hp hno
          · exact ⟨h, hno, fun heq ↦ hno (heq ▸ hp)⟩
      · intro uid hu hno
        rw [listed_append, not_or] at hno
        exact hheld uid (listed_cons.mpr (.inr hu)) hno.1
    · rw [if_neg (fun h ↦ hp (uidListed_iff.mp h)), List.singleton_append]
      have hr : Held cs r.uid := hheld r.uid (listed_cons.mpr (.inl rfl)) hp
      have ih := ih (passed ++ [r]) (.free r.uid :: .decommit r.addr r.len :: cs) ⟨hr, honce⟩ ?_
      · refine ⟨ih.1, fun uid ↦ (ih.2 uid).trans ?_⟩
        rw [held_free]
        change (Held cs uid ∧ uid ≠ r.uid) ∧ _ ↔ _
        simp only [listed_append, listed_cons, listed_nil, or_false, not_or]
        constructor
        · rintro ⟨⟨hcs, hne⟩, hno⟩
          refine ⟨hcs, fun h ↦ hno ?_⟩
          rcases h with ⟨heq | h, hpass⟩
          · exact absurd heq.symm hne
          · exact ⟨h, hpass, fun heq ↦ hne heq.symm⟩
        · rintro ⟨hcs, hno⟩
          refine ⟨⟨hcs, ?_⟩, fun h ↦ hno ⟨.inr h.1, h.2.1⟩⟩
          rintro rfl
          exact hno ⟨.inl rfl, hp⟩
      · intro uid hu hno
        rw [listed_append, listed_cons, not_or, not_or] at hno
        exact held_free.mpr ⟨hheld uid (listed_cons.mpr (.inr hu)) hno.1, fun h ↦ hno.2.1 h.symm⟩

theorem finiMman_balanced (hready : m.ready = true) (h : Balanced m.regions m.calls) :
    Balanced [] (finiMman m).calls := by
  have hfrees := finiLog_frees m.regions [] m.calls h.once fun uid hu _ ↦ (h.held uid).mpr hu
  rw [finiMman_log hready fun r hr ↦ h.owned r.uid ⟨r, hr, rfl⟩]
  refine ⟨fun uid hu ↦ absurd hu listed_nil, fun uid ↦ ?_, hfrees.1⟩
  rw [hfrees.2 uid, h.held uid]
  simp

theorem finiLoop_setup (m : State) (passed t : List Region) :
    (finiLoop m passed t).haveKubridge = m.haveKubridge ∧
      (finiLoop m passed t).vmUid = m.vmUid := by
  induction t generalizing m passed with
  | nil => exact ⟨rfl, rfl⟩
  | cons r t ih =>
    rw [finiLoop]
    split
    · exact ih m _
    · dsimp only
      split <;> exact ih _ _

theorem run_unready (hm : m.ready = false) (k : Answers) (q : Request) : q.run m k = m := by
  cases q with
  | map hint len prot =>
    simp only [Request.run, mmanMap, hm]
    split <;> rfl
  | unmap addr len => simp [Request.run, mmanUnmap, hm]
  | resize addr oldLen newLen => simp [Request.run, mmanResize, hm]
  | protect addr len prot => simp [Request.run, mmanProtect, hm]
  | discard addr len => simp [Request.run, mmanDiscard, hm]

theorem finiLoop_pool (passed : List Region) {t : List Region} (ht : ∀ r ∈ t, r.uid < 0) :
    finiLoop m passed t = m := by
  induction t generalizing passed with
  | nil => rfl
  | cons r t ih =>
    obtain ⟨hr, ht⟩ := List.forall_mem_cons.mp ht
    rw [finiLoop, if_pos hr]
    exact ih _ ht

end Fini

section Pool

variable {m : State} {k : Answers} {cs : List VmCall}

theorem releaseReservation_pool {uid : ℤ} (h : uid < 0) : releaseReservation m uid = m := if_pos h

theorem unmapLoop_pool {s e : ℕ} {t passed : List Region} {ret : ℤ}
    (h : ∀ r ∈ passed ++ t, r.uid < 0) :
    (unmapLoop s e m ret passed t).2.calls = m.calls ∧
      ∀ r ∈ (unmapLoop s e m ret passed t).2.regions, r.uid < 0 := by
  induction t generalizing m ret passed with
  | nil => exact ⟨rfl, by simpa [unmapLoop] using h⟩
  | cons r t ih =>
    obtain ⟨hpassed, hr, ht⟩ := by simpa only [List.forall_mem_append, List.forall_mem_cons] using h
    rw [unmapLoop]
    dsimp only
    rw [if_neg (not_le.mpr hr), releaseReservation_pool hr]
    generalize (if r.addr < s then s else r.addr) = us
    generalize (if e < r.stop then e else r.stop) = ue
    have hcut : ∀ r' : Region, r'.uid = r.uid → ∀ x ∈ passed ++ [r'], x.uid < 0 := by
      intro r' huid
      simp only [List.forall_mem_append, List.forall_mem_singleton]
      exact ⟨hpassed, huid ▸ hr⟩
    have hwhole : ∀ r' : Region, r'.uid = r.uid → ∀ x ∈ passed ++ r' :: t, x.uid < 0 := by
      intro r' huid
      simp only [List.forall_mem_append, List.forall_mem_cons]
      exact ⟨hpassed, huid ▸ hr, ht⟩
    split
    · exact ih (List.forall_mem_append.mpr ⟨hcut r rfl, ht⟩)
    split
    · exact ih (List.forall_mem_append.mpr ⟨hpassed, ht⟩)
    split
    · exact ih (List.forall_mem_append.mpr ⟨hcut _ rfl, ht⟩)
    split
    · exact ih (List.forall_mem_append.mpr ⟨hcut _ rfl, ht⟩)
    split
    · exact ⟨rfl, hwhole _ rfl⟩
    · next t' hins => exact ⟨rfl, forall_insert hins hr (hwhole _ rfl)⟩

theorem run_pool (hk : m.haveKubridge = false) (h : ∀ r ∈ m.regions, r.uid < 0) (q : Request) :
    (q.run m k).calls = m.calls ∧ ∀ r ∈ (q.run m k).regions, r.uid < 0 := by
  cases q with
  | map hint len prot =>
    have hout := mmanMap_outcome m k hint len prot
    simp only [Request.run]
    generalize mmanMap m k hint len prot = res at hout ⊢
    cases hout with
    | refused => exact ⟨rfl, h⟩
    | commitFailed hk' | tableFull hk' => exact absurd (hk.symm.trans hk') (by decide)
    | mapped t hk' => exact absurd (hk.symm.trans hk') (by decide)
    | poolFailed => exact ⟨vmPoolInit_calls m k, (vmPoolInit_regions m k).symm ▸ h⟩
    | poolMapped t _ _ _ _ hins =>
      refine ⟨vmPoolInit_calls m k, forall_insert hins (Int.negSucc_lt_zero 0) ?_⟩
      rw [vmPoolInit_regions]
      exact h
  | unmap addr len =>
    simp only [Request.run, mmanUnmap]
    split
    · exact ⟨rfl, h⟩
    · exact unmapLoop_pool (m := m.lock) h
  | resize addr oldLen newLen =>
    have hout := mmanResize_outcome m addr oldLen newLen
    simp only [Request.run]
    generalize mmanResize m addr oldLen newLen = res at hout ⊢
    cases hout with
    | refused | same => exact ⟨rfl, h⟩
    | shrunk hit =>
      have huid : hit.entry.uid < 0 := h _ (hit.mem_iff.mpr (.inl rfl))
      dsimp only
      rw [if_neg (not_le.mpr huid)]
      exact ⟨rfl, forall_put hit huid h⟩
    | grown hit =>
      have huid : hit.entry.uid < 0 := h _ (hit.mem_iff.mpr (.inl rfl))
      exact ⟨rfl, forall_put hit huid h⟩
  | protect addr len prot =>
    simp only [Request.run, mmanProtect]
    split
    · exact ⟨rfl, h⟩
    · refine ⟨rfl, fun r hr ↦ ?_⟩
      obtain ⟨r', hr', rfl⟩ := List.mem_map.mp hr
      split
      · exact h r' hr'
      · exact h r' hr'
  | discard addr len =>
    have hout := mmanDiscard_outcome m k addr len
    simp only [Request.run]
    generalize mmanDiscard m k addr len = res at hout ⊢
    cases hout with
    | refused => exact ⟨rfl, h⟩
    | commitFailed hit _ _ _ _ huid | recommitted hit _ _ _ _ huid =>
      exact absurd (h _ (hit.mem_iff.mpr (.inl rfl))) (not_lt.mpr huid)
    | cleared => exact ⟨rfl, h⟩

theorem vmPoolInit_domain (h : domainAfter cs = some m.domain) :
    domainAfter (vmPoolInitCalls m k ++ cs) = some (vmPoolInit m k).2.domain := by
  unfold vmPoolInitCalls vmPoolInit
  split
  · exact h
  next hnone =>
  have hclosed : domainAfter cs = some ⟨none, false⟩ := by rw [h, State.domain, if_neg hnone]
  split
  · exact h
  next huid =>
  split
  · simp [domainAfter, hclosed, VmCall.apply, State.domain, hnone]
  · simp [domainAfter, hclosed, VmCall.apply, State.domain, not_lt.mp huid]

theorem Request.domain (h : domainAfter cs = some m.domain) (q : Request) :
    domainAfter (q.vmCalls m k ++ cs) = some (q.run m k).domain := by
  cases q with
  | map hint len prot =>
    simp only [Request.vmCalls, Request.run, mmanMap]
    split
    · exact h
    split
    · exact h
    split
    · exact h
    rw [State.lock_haveKubridge]
    split
    · split
      · exact h
      split
      · exact h
      split <;> exact h
    · have hinit : domainAfter (vmPoolInitCalls m k ++ cs) = some (vmPoolInit m k).2.domain :=
        vmPoolInit_domain h
      rw [vmPoolInit_lock]
      dsimp only
      split
      · exact hinit
      split
      · exact hinit
      split <;> exact hinit
  | unmap addr len =>
    obtain ⟨t, calls, hrun⟩ := mmanUnmap_rewrites m addr len
    simp only [Request.run, hrun]
    exact h
  | resize addr oldLen newLen =>
    have hout := mmanResize_outcome m addr oldLen newLen
    simp only [Request.run]
    generalize mmanResize m addr oldLen newLen = res at hout ⊢
    cases hout with
    | refused | same | grown => exact h
    | shrunk hit =>
      dsimp only
      split <;> exact h
  | protect addr len prot =>
    simp only [Request.run, mmanProtect]
    split <;> exact h
  | discard addr len =>
    have hout := mmanDiscard_outcome m k addr len
    simp only [Request.run]
    generalize mmanDiscard m k addr len = res at hout ⊢
    cases hout with
    | refused | commitFailed | recommitted | cleared => exact h

theorem finiMman_domain (h : domainAfter cs = some m.domain) :
    domainAfter (finiVmCalls m ++ cs) = some (finiMman m).domain := by
  unfold finiVmCalls finiMman
  split
  · exact h
  split
  · next hopen =>
    have hdomain : domainAfter cs = some ⟨some m.vmUid, true⟩ := by
      rw [h, State.domain, if_pos hopen]
    simp [domainAfter, hdomain, VmCall.apply, State.domain, finiLoop_setup, hopen]
  · next hclosed =>
    rw [List.nil_append, h]
    simp [State.domain, finiLoop_setup, hclosed]

end Pool

/-- What holds through starts and stops: the log and the table agree, there is no table and no pool
without a start, and `_vm_uid` keeps account of the domain. -/
structure Alive (l : Life) : Prop where
  kubridge : l.state.haveKubridge = true → Balanced l.state.regions l.state.calls
  pool : l.state.haveKubridge = false →
    Balanced [] l.state.calls ∧ ∀ r ∈ l.state.regions, r.uid < 0
  empty : l.state.ready = false → l.state.regions = [] ∧ l.state.vmUid < 0
  domain : domainAfter l.domain = some l.state.domain

section Lives

variable {l l' : Life}

theorem Alive.balanced (h : Alive l) (hno : l.state.regions = []) : Balanced [] l.state.calls := by
  cases hk : l.state.haveKubridge with
  | true => exact hno ▸ h.kubridge hk
  | false => exact (h.pool hk).1

theorem Alive.held (h : Alive l) (uid : ℤ) :
    Held l.state.calls uid ↔ 0 ≤ uid ∧ Listed l.state.regions uid := by
  cases hk : l.state.haveKubridge with
  | true =>
    have hb := h.kubridge hk
    exact (hb.held uid).trans (and_iff_right_of_imp (hb.owned uid)).symm
  | false =>
    obtain ⟨hb, huid⟩ := h.pool hk
    refine iff_of_false (fun hheld ↦ listed_nil ((hb.held uid).mp hheld)) ?_
    rintro ⟨hpos, r, hr, rfl⟩
    exact absurd (huid r hr) (not_lt.mpr hpos)

theorem Alive.once (h : Alive l) : FreedOnce l.state.calls := by
  cases hk : l.state.haveKubridge with
  | true => exact (h.kubridge hk).once
  | false => exact (h.pool hk).1.once

theorem Alive.start (h : Alive l) (hready : l.state.ready = false) (b : Bool) :
    Alive ⟨startMman l.state b, l.domain⟩ where
  kubridge _ := h.balanced (h.empty hready).1
  pool _ := ⟨h.balanced (h.empty hready).1, by simp [startMman]⟩
  empty := nofun
  domain := h.domain

theorem Alive.call (h : Alive l) {k : Answers} {q : Request} (hq : q.Fresh l.state k) :
    Alive ⟨q.run l.state k, q.vmCalls l.state k ++ l.domain⟩ := by
  obtain ⟨hr, hk⟩ := run_setup l.state k q
  refine ⟨fun hkub ↦ ?_, fun hkub ↦ ?_, fun hready ↦ ?_, q.domain h.domain⟩
  · rw [hk] at hkub
    exact (h.kubridge hkub).step hkub hq
  · rw [hk] at hkub
    obtain ⟨hb, huid⟩ := h.pool hkub
    obtain ⟨hcalls, huid'⟩ := run_pool (k := k) hkub huid q
    dsimp only
    rw [hcalls]
    exact ⟨hb, huid'⟩
  · rw [hr] at hready
    dsimp only
    rw [run_unready hready]
    exact h.empty hready

theorem Alive.stop (h : Alive l) : Alive ⟨finiMman l.state, finiVmCalls l.state ++ l.domain⟩ := by
  cases hready : l.state.ready with
  | false =>
    have hsame : finiMman l.state = l.state := by simp [finiMman, hready]
    have hcalls : finiVmCalls l.state = [] := by simp [finiVmCalls, hready]
    rw [hsame, hcalls]
    exact h
  | true =>
    have hregs : (finiMman l.state).regions = [] := by simp [finiMman, hready]
    have hk : (finiMman l.state).haveKubridge = l.state.haveKubridge := by
      simp [finiMman, hready, finiLoop_setup]
    have huid : (finiMman l.state).vmUid < 0 := by
      simp only [finiMman, hready, Bool.not_true, Bool.false_eq_true, if_false]
      split
      · decide
      · omega
    refine ⟨fun hkub ↦ ?_, fun hkub ↦ ?_, fun _ ↦ ⟨hregs, huid⟩, finiMman_domain h.domain⟩
    · rw [hk] at hkub
      dsimp only
      rw [hregs]
      exact finiMman_balanced hready (h.kubridge hkub)
    · rw [hk] at hkub
      obtain ⟨hb, huid⟩ := h.pool hkub
      have hcalls : (finiMman l.state).calls = l.state.calls := by
        simp [finiMman, hready, finiLoop_pool [] huid]
      dsimp only
      rw [hcalls, hregs]
      exact ⟨hb, by simp⟩

theorem LifeStep.alive (h : LifeStep l l') (hl : Alive l) : Alive l' := by
  cases h with
  | start b hready => exact hl.start hready b
  | call k q hq => exact hl.call hq
  | stop => exact hl.stop

end Lives

/-- Over any number of lives of the module, with kubridge or without, a reservation is held exactly
while an entry of it is in the table, and is freed once; the block of the pool and its domain are
allocated, opened, closed and freed in turn, and are there exactly while `_vm_uid` says so; and a
module that is not running holds nothing and does nothing. -/
theorem lives_balanced {mem : ℕ → UInt8} {l : Life}
    (h : ReflTransGen LifeStep ⟨unstarted mem, []⟩ l) :
    (∀ uid, Held l.state.calls uid ↔ 0 ≤ uid ∧ Listed l.state.regions uid) ∧
    FreedOnce l.state.calls ∧ domainAfter l.domain = some l.state.domain ∧
    (l.state.ready = false → (∀ uid, ¬ Held l.state.calls uid) ∧
      domainAfter l.domain = some ⟨none, false⟩ ∧
      ∀ k (q : Request), q.run l.state k = l.state ∧ q.vmCalls l.state k = []) := by
  have hl : Alive l := by
    induction h with
    | refl =>
      refine ⟨nofun, fun _ ↦ ⟨⟨fun uid h ↦ absurd h listed_nil, fun uid ↦ ?_,
        trivial⟩, by simp [unstarted]⟩, fun _ ↦ ⟨rfl, Int.negSucc_lt_zero 0⟩, rfl⟩
      simp [unstarted, Held, reserved]
    | tail _ hstep ih => exact hstep.alive ih
  refine ⟨hl.held, hl.once, hl.domain, fun hready ↦ ?_⟩
  obtain ⟨hregs, huid⟩ := hl.empty hready
  refine ⟨fun uid hu ↦ ?_, ?_, fun k q ↦ ⟨run_unready hready k q, ?_⟩⟩
  · have hlisted := ((hl.held uid).mp hu).2
    rw [hregs] at hlisted
    exact listed_nil hlisted
  · rw [hl.domain, State.domain, if_neg (not_le.mpr huid)]
  · cases q with
    | map hint len prot => simp [Request.vmCalls, hready]
    | unmap | resize | protect | discard => rfl

def Life.mapping (l : Life) (b : Bool) (k : Answers) : Life :=
  let m := startMman l.state b
  let m' := Request.run m k (.map 0 0x2000 3)
  ⟨finiMman m', finiVmCalls m' ++ (Request.vmCalls m k (.map 0 0x2000 3) ++ l.domain)⟩

/-- One life with kubridge and one without: the reservation is freed, and so is the block of the
pool. -/
theorem lives_balanced_twice :
    let l := Life.mapping (Life.mapping ⟨unstarted fun _ ↦ 0, []⟩ true kuAnswers) false poolAnswers
    (∀ uid, ¬ Held l.state.calls uid) ∧
      l.domain = [.free 1, .closeDomain, .openDomain, .alloc 1] ∧
      domainAfter l.domain = some ⟨none, false⟩ := by
  intro l
  have hlife : ∀ (l : Life) b k, l.state.ready = false →
      (0 ≤ k.reserveUid → ¬ Held l.state.calls k.reserveUid) →
      ReflTransGen LifeStep l (l.mapping b k) := fun l b k hready hno ↦
    ((ReflTransGen.single (.start l b hready)).tail
      (.call _ k (.map 0 0x2000 3) hno)).tail (.stop _)
  have hfirst : ReflTransGen LifeStep ⟨unstarted fun _ ↦ 0, []⟩
      (Life.mapping ⟨unstarted fun _ ↦ 0, []⟩ true kuAnswers) := by
    apply hlife
    · rfl
    · simp [unstarted, Held, reserved]
  have hstopped : (Life.mapping ⟨unstarted fun _ ↦ 0, []⟩ true kuAnswers).state.ready = false := by
    decide +kernel
  have hempty := ((lives_balanced hfirst).2.2.2 hstopped).1
  have hrun := hfirst.trans (hlife _ false poolAnswers hstopped fun _ ↦ hempty _)
  obtain ⟨hheld, hdomain, -⟩ := (lives_balanced hrun).2.2.2 (by decide +kernel)
  exact ⟨hheld, by decide +kernel, hdomain⟩

end SceLibcPosix.Mman
