import Mathlib.Logic.Relation
import SceLibcPosix.Mman.Outcomes

namespace SceLibcPosix.Mman

open Spans Relation

/-- What the code relies on when it asks the kernel for `n` bytes: a reservation is a page-aligned
range, apart from the reservations not yet freed and with a uid of its own; the pool is
page-aligned. Both end below 2^32. -/
structure Answers.Sound (k : Answers) (m : State) (n : ℕ) : Prop where
  aligned : 0 ≤ k.reserveUid → k.reserveBase % 0x1000 = 0
  fits : 0 ≤ k.reserveUid → k.reserveBase + n < 2 ^ 32
  own : 0 ≤ k.reserveUid → ∀ ρ ∈ reserved m.calls, ρ.uid ≠ k.reserveUid
  apart : 0 ≤ k.reserveUid → ∀ ρ ∈ reserved m.calls,
    ρ.base + ρ.len ≤ k.reserveBase ∨ k.reserveBase + n ≤ ρ.base
  pool : 0 ≤ k.vmUid → 0 ≤ k.vmBaseRet → k.vmBase % 0x1000 = 0 ∧ k.vmBase + poolSize < 2 ^ 32

/-- An entry lies in a reservation that is not yet freed. -/
def Backed (cs : List KuCall) (r : Region) : Prop :=
  0 ≤ r.uid ∧ ∃ ρ ∈ reserved cs, ρ.uid = r.uid ∧ ρ.base ≤ r.addr ∧
    r.addr + r.len ≤ ρ.base + ρ.len

/-- The entries in pool mode: none before there is a pool, then all inside it. -/
structure PoolTable (m : State) : Prop where
  empty : m.vmUid < 0 → m.regions = []
  placed : 0 ≤ m.vmUid → m.vmBase % 0x1000 = 0 ∧ m.vmBase + poolSize < 2 ^ 32
  inside : ∀ r ∈ m.regions, r.uid = -1 ∧ m.vmBase ≤ r.addr ∧ r.addr + r.len ≤ m.vmBase + poolSize

/-- Entries in the order of their addresses, none of them empty. They may overlap. -/
structure InOrder (t : List Region) : Prop where
  sorted : t.Pairwise (·.addr ≤ ·.addr)
  pos : ∀ r ∈ t, 0 < r.len
  fits : ∀ r ∈ t, r.addr + r.len < 2 ^ 32
  aligned : ∀ r ∈ t, r.addr % 0x1000 = 0 ∧ r.len % 0x1000 = 0

structure Neat (t : List Region) : Prop extends Tidy t where
  pos : ∀ r ∈ t, 0 < r.len

/-- What the layer needs of a property of its tables to keep it when it maps and protects. -/
structure Keeps (T : List Region → Prop) : Prop where
  nil : T []
  inOrder : ∀ {t}, T t → t.Pairwise (·.addr ≤ ·.addr)
  fits : ∀ {t}, T t → ∀ r ∈ t, r.addr + r.len < 2 ^ 32
  aligned : ∀ {t}, T t → ∀ r ∈ t, r.addr % 0x1000 = 0 ∧ r.len % 0x1000 = 0
  insert : ∀ {t t' addr len uid prot}, T t → regionInsert t addr len uid prot = some t' →
    addr + len < 2 ^ 32 → addr % 0x1000 = 0 ∧ len % 0x1000 = 0 → 0 < len →
    (∀ r ∈ t, r.addr + r.len ≤ addr ∨ addr + len ≤ r.addr) → T t'
  map : ∀ {t f}, T t → (∀ r : Region, (f r).addr = r.addr ∧ (f r).len = r.len) → T (t.map f)

/-- The invariant of the layer, with tables of one kind. -/
structure Inv (T : List Region → Prop) (m : State) : Prop where
  ready : m.ready = true
  table : T m.regions
  pool : m.haveKubridge = false → PoolTable m
  backed : m.haveKubridge = true → ∀ r ∈ m.regions, Backed m.calls r

/-- The variables of the layer that are set up once. -/
structure SameLayer (m m' : State) : Prop where
  ready : m'.ready = m.ready
  haveKubridge : m'.haveKubridge = m.haveKubridge
  vmUid : m'.vmUid = m.vmUid
  vmBase : m'.vmBase = m.vmBase

theorem SameLayer.trans {m m' m'' : State} (h : SameLayer m m') (h' : SameLayer m' m'') :
    SameLayer m m'' :=
  ⟨h'.1.trans h.1, h'.2.trans h.2, h'.3.trans h.3, h'.4.trans h.4⟩

def Within (r : Region) (t : List Region) : Prop :=
  ∃ x ∈ t, r.uid = x.uid ∧ x.addr ≤ r.addr ∧ r.addr + r.len ≤ x.addr + x.len

theorem within_self {r : Region} {t : List Region} (h : r ∈ t) : Within r t :=
  ⟨r, h, rfl, le_rfl, le_rfl⟩

theorem inv_init {T : List Region → Prop} (hT : Keeps T) (b : Bool) (mem : ℕ → UInt8) :
    Inv T (initMman b mem) where
  ready := rfl
  table := hT.nil
  pool := fun _ ↦ ⟨fun _ ↦ rfl, fun h ↦ by simp at h, by simp⟩
  backed := by simp

theorem Inv.cut {T : List Region → Prop} {m m' : State} (hm : Inv T m) (hs : SameLayer m m')
    (ht : T m'.regions) (hw : ∀ r ∈ m'.regions, Within r m.regions)
    (hr : ∀ ρ ∈ reserved m.calls, Listed m'.regions ρ.uid → ρ ∈ reserved m'.calls) :
    Inv T m' where
  ready := hs.ready.trans hm.ready
  table := ht
  pool := by
    intro hk
    have hp := hm.pool (hs.haveKubridge ▸ hk)
    refine ⟨fun hu ↦ ?_, fun hu ↦ ?_, fun r hr ↦ ?_⟩
    · have h := hp.empty (hs.vmUid ▸ hu)
      refine List.eq_nil_iff_forall_not_mem.mpr fun r hr ↦ ?_
      obtain ⟨x, hx, -⟩ := hw r hr
      rw [h] at hx
      cases hx
    · rw [hs.vmBase]
      exact hp.placed (hs.vmUid ▸ hu)
    · obtain ⟨x, hx, hu, hlo, hhi⟩ := hw r hr
      obtain ⟨hxu, hxlo, hxhi⟩ := hp.inside x hx
      rw [hs.vmBase]
      exact ⟨hu.trans hxu, hxlo.trans hlo, hhi.trans hxhi⟩
  backed := by
    intro hk r hmem
    obtain ⟨x, hx, hu, hlo, hhi⟩ := hw r hmem
    obtain ⟨hxu, ρ, hρ, hρu, hρlo, hρhi⟩ := hm.backed (hs.haveKubridge ▸ hk) x hx
    have hl : Listed m'.regions ρ.uid := ⟨r, hmem, hu.trans hρu.symm⟩
    exact ⟨hu ▸ hxu, ρ, hr ρ hρ hl, hρu.trans hu.symm, hρlo.trans hlo, hhi.trans hρhi⟩

theorem Inv.same {T : List Region → Prop} {m m' : State} (hm : Inv T m) (hs : SameLayer m m')
    (hreg : m'.regions = m.regions) (hr : ∀ ρ ∈ reserved m.calls, ρ ∈ reserved m'.calls) :
    Inv T m' := by
  refine hm.cut hs (hreg ▸ hm.table) (fun r hr ↦ ?_) fun ρ hρ _ ↦ hr ρ hρ
  rw [hreg] at hr
  exact within_self hr

section Carve

variable {t : List Region} {r p : Region} {s e : ℕ}

theorem carve_pos (hr : 0 < r.len) (hp : p ∈ carve s e r) : 0 < p.len := by
  apply carve_cases hp hr
  · intro hlo hhi
    exact Nat.sub_pos_of_lt hlo
  · intro hlo hhi
    exact Nat.sub_pos_of_lt hhi

theorem carve_aligned (hs : s % 0x1000 = 0) (he : e % 0x1000 = 0)
    (hr : r.addr % 0x1000 = 0 ∧ r.len % 0x1000 = 0) (hp : p ∈ carve s e r) :
    p.addr % 0x1000 = 0 ∧ p.len % 0x1000 = 0 := by
  apply carve_cases hp hr
  · intro hlo hhi
    dsimp only
    omega
  · intro hlo hhi
    dsimp only
    omega

theorem Within.carve (hr : Within r t) (hp : p ∈ carve s e r) : Within p t := by
  obtain ⟨x, hx, hu, hlo, hhi⟩ := hr
  obtain ⟨hplo, hphi, hpu, -⟩ := carve_within hp
  exact ⟨x, hx, hpu.trans hu, hlo.trans hplo, hphi.trans hhi⟩

end Carve

section Insert

variable {t t' : List Region} {addr len : ℕ} {uid : ℤ} {prot : BitVec 32}

theorem regionInsert_sorted (h : regionInsert t addr len uid prot = some t')
    (ht : t.Pairwise (·.addr ≤ ·.addr)) : t.length < maxRegions ∧
    ∃ t₁ t₂, t = t₁ ++ t₂ ∧ t' = t₁ ++ ⟨addr, len, uid, prot⟩ :: t₂ ∧
      (∀ r ∈ t₁, r.addr ≤ addr) ∧ ∀ r ∈ t₂, addr < r.addr := by
  obtain ⟨hlen, t₁, t₂, rfl, rfl, h₂, hlast⟩ := regionInsert_some h
  refine ⟨hlen, t₁, t₂, rfl, rfl, fun r hr ↦ ?_, h₂⟩
  have hne := List.ne_nil_of_mem hr
  have hle := hlast hne
  have ho := (List.pairwise_append.mp ht).1
  rw [← List.dropLast_append_getLast hne] at hr ho
  rcases List.mem_append.mp hr with hr | hr
  · exact ((List.pairwise_append.mp ho).2.2 r hr _ (List.mem_singleton_self _)).trans hle
  · rwa [List.mem_singleton.mp hr]

theorem sorted_insert (h : regionInsert t addr len uid prot = some t')
    (ht : t.Pairwise (·.addr ≤ ·.addr)) : t'.Pairwise (·.addr ≤ ·.addr) := by
  obtain ⟨-, t₁, t₂, rfl, rfl, h₁, h₂⟩ := regionInsert_sorted h ht
  obtain ⟨ho₁, ho₂, hx⟩ := List.pairwise_append.mp ht
  refine List.pairwise_append.mpr ⟨ho₁, List.pairwise_cons.mpr ⟨fun r hr ↦ (h₂ r hr).le, ho₂⟩, ?_⟩
  intro a ha b hb
  rcases List.mem_cons.mp hb with rfl | hb
  · exact h₁ a ha
  · exact hx a ha b hb

theorem forall_insert {P : Region → Prop} (h : regionInsert t addr len uid prot = some t')
    (hnew : P ⟨addr, len, uid, prot⟩) (hold : ∀ r ∈ t, P r) : ∀ r ∈ t', P r := by
  intro r hr
  rcases (regionInsert_mem h r).mp hr with rfl | hr
  · exact hnew
  · exact hold r hr

theorem forall_put {P : Region → Prop} (h : Hit t) {r : Region} (hnew : P r)
    (hold : ∀ x ∈ t, P x) : ∀ x ∈ h.put r, P x := by
  intro x hx
  rcases h.mem_put.mp hx with rfl | hx
  · exact hnew
  · exact hold x (h.mem_iff.mpr (.inr hx))

end Insert

section Tidy

variable {t : List Region} {s e : ℕ}

theorem Tidy.sorted (ht : Tidy t) : t.Pairwise (·.addr ≤ ·.addr) := by
  have ho : t.Pairwise fun a b ↦ a.addr + a.len ≤ b.addr := ht.ordered
  exact ho.imp fun {a b} h ↦ by omega

theorem length_flatMap_carve (hse : s < e) (ho : Ordered t) :
    (t.flatMap (carve s e)).length ≤ t.length + if ∃ r ∈ t, Inside s e r then 1 else 0 := by
  induction t with
  | nil => simp
  | cons r t ih =>
    have ho' := (ordered_cons'.mp ho).2
    rw [List.flatMap_cons, List.length_append, List.length_cons]
    by_cases hi : Inside s e r
    · have hc : (carve s e r).length = 2 := by
        unfold Inside at hi
        rw [carve, if_neg (by omega), if_pos hi.1, if_pos hi.2]
        rfl
      rw [hc, flatMap_carve_eq_self (hi.alone ho), if_pos ⟨r, List.mem_cons_self, hi⟩]
      omega
    · have hc := carve_length hi
      simp only [List.exists_mem_cons_iff, hi, false_or]
      have := ih ho'
      omega

theorem Tidy.carve (ht : Tidy t) (hse : s < e) (hs : s % 0x1000 = 0) (he : e % 0x1000 = 0)
    (hb : ¬ Blocked s e t.length t) : Tidy (t.flatMap (carve s e)) where
  ordered := ht.ordered.flatMap (fun _ _ ↦ carve_ordered hse.le)
    fun r _ p hp ↦ ⟨(carve_within hp).1, (carve_within hp).2.1⟩
  fits := by
    intro p hp
    obtain ⟨r, hr, hp⟩ := List.mem_flatMap.mp hp
    exact (carve_within hp).2.1.trans_lt (ht.fits r hr)
  aligned := by
    intro p hp
    obtain ⟨r, hr, hp⟩ := List.mem_flatMap.mp hp
    exact carve_aligned hs he (ht.aligned r hr) hp
  count := by
    have hlen := length_flatMap_carve hse ht.ordered
    have := ht.count
    split at hlen
    · next h =>
      have : ¬ maxRegions ≤ t.length := fun hc ↦ hb ⟨hc, h⟩
      omega
    · omega

theorem Tidy.insert {t' : List Region} {addr len : ℕ} {uid : ℤ} {prot : BitVec 32} (ht : Tidy t)
    (h : regionInsert t addr len uid prot = some t') (hfits : addr + len < 2 ^ 32)
    (hal : addr % 0x1000 = 0 ∧ len % 0x1000 = 0) (hpos : 0 < len)
    (hap : ∀ r ∈ t, r.addr + r.len ≤ addr ∨ addr + len ≤ r.addr) : Tidy t' := by
  obtain ⟨hlen, t₁, t₂, rfl, rfl, h₁, h₂⟩ := regionInsert_sorted h ht.sorted
  refine ⟨ht.ordered.insert ?_ ?_, forall_insert h hfits ht.fits,
    forall_insert h hal ht.aligned, ?_⟩
  · intro r hr
    have := h₁ r hr
    exact (hap r (List.mem_append_left t₂ hr)).resolve_right (by omega)
  · intro r hr
    have := h₂ r hr
    exact (hap r (List.mem_append_right t₁ hr)).resolve_left (by omega)
  · simp only [List.length_append, List.length_cons] at hlen ⊢
    omega

theorem Tidy.map {f : Region → Region} (ht : Tidy t)
    (hf : ∀ r, (f r).addr = r.addr ∧ (f r).len = r.len) : Tidy (t.map f) where
  ordered := by
    refine List.pairwise_map.mpr (List.Pairwise.imp ?_ ht.ordered)
    intro a b hab
    change (f a).addr + (f a).len ≤ (f b).addr
    rw [(hf a).1, (hf a).2, (hf b).1]
    exact hab
  fits := by simpa [hf] using ht.fits
  aligned := by simpa [hf] using ht.aligned
  count := by simpa using ht.count

theorem keeps_tidy : Keeps Tidy where
  nil := ⟨.nil, by simp, by simp, by simp⟩
  inOrder := Tidy.sorted
  fits := Tidy.fits
  aligned := Tidy.aligned
  insert := Tidy.insert
  map := Tidy.map

theorem keeps_neat : Keeps Neat where
  nil := ⟨keeps_tidy.nil, by simp⟩
  inOrder := fun h ↦ h.toTidy.sorted
  fits := fun h ↦ h.fits
  aligned := fun h ↦ h.aligned
  insert := fun h hi hf hal hpos hap ↦
    ⟨h.toTidy.insert hi hf hal hpos hap, forall_insert hi hpos h.pos⟩
  map := fun h hf ↦ ⟨h.toTidy.map hf, by simpa [hf] using h.pos⟩

theorem Tidy.shorten (ht : Tidy t) (h : Hit t) {n : ℕ} (hn : n ≤ h.entry.len)
    (hal : n % 0x1000 = 0) : Tidy (h.put { h.entry with len := n }) := by
  have hf := ht.fits _ h.mem
  refine ⟨?_, forall_put h ?_ ht.fits, forall_put h ⟨(ht.aligned _ h.mem).1, hal⟩ ht.aligned, ?_⟩
  · have ho := ht.ordered
    rw [← h.eq] at ho
    have hone : Ordered [{ h.entry with len := n }] := by simp [Ordered]
    refine ho.splice hone ?_
    intro b hb
    rw [List.mem_singleton.mp hb]
    exact ⟨le_rfl, Nat.add_le_add_left hn _⟩
  · dsimp only
    omega
  · rw [h.length_put]
    exact ht.count

end Tidy

theorem keeps_inOrder : Keeps InOrder where
  nil := ⟨.nil, by simp, by simp, by simp⟩
  inOrder := InOrder.sorted
  fits := InOrder.fits
  aligned := InOrder.aligned
  insert := fun h hi hf hal hpos _ ↦ ⟨sorted_insert hi h.sorted, forall_insert hi hpos h.pos,
    forall_insert hi hf h.fits, forall_insert hi hal h.aligned⟩
  map := fun h hf ↦ ⟨List.pairwise_map.mpr (h.sorted.imp fun {a b} hab ↦ by
    rwa [(hf a).1, (hf b).1]), by simpa [hf] using h.pos, by simpa [hf] using h.fits,
    by simpa [hf] using h.aligned⟩

end SceLibcPosix.Mman
