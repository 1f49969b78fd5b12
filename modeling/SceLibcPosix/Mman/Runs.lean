import SceLibcPosix.Mman.Preserve

namespace SceLibcPosix.Mman

open Spans Relation

/-- The calls that `mmap`, `munmap`, `mremap`, `mprotect` and `madvise` make. -/
inductive Request
  | map (hint len : ℕ) (prot : BitVec 32)
  | unmap (addr len : ℕ)
  | resize (addr oldLen newLen : ℕ)
  | protect (addr len : ℕ) (prot : BitVec 32)
  | discard (addr len : ℕ)
deriving DecidableEq, Repr

def Request.run (m : State) (k : Answers) : Request → State
  | .map hint len prot => (mmanMap m k hint len prot).2.2
  | .unmap addr len => (mmanUnmap m addr len).2
  | .resize addr oldLen newLen => (mmanResize m addr oldLen newLen).2
  | .protect addr len prot => (mmanProtect m k addr len prot).2
  | .discard addr len => (mmanDiscard m k addr len).2

def Request.Answered (m : State) (k : Answers) : Request → Prop
  | .map _ len _ => k.Sound m (pageAlign len)
  | _ => True

inductive Step (Ok : State → Answers → Request → Prop) : State → State → Prop
  | call (m : State) (k : Answers) (q : Request) (hq : Ok m k q) (hk : q.Answered m k) :
      Step Ok m (q.run m k)
  | store (m : State) (mem : ℕ → UInt8) : Step Ok m { m with mem := mem }

def Reachable (Ok : State → Answers → Request → Prop) (m : State) : Prop :=
  ∃ b mem, ReflTransGen (Step Ok) (initMman b mem) m

/-- A page-aligned address and a length whose pages end below 2^32. -/
structure FitsAt (addr len : ℕ) : Prop where
  aligned : addr % 0x1000 = 0
  pos : 0 < len
  fits : addr + roundUp len < 2 ^ 32

/-- The requests in which no sum of an address and a length wraps. -/
def Request.Fits (_ : State) (_ : Answers) : Request → Prop
  | .map hint len _ => FitsAt hint len
  | .unmap addr len => FitsAt addr len
  | .resize addr oldLen newLen => FitsAt addr oldLen ∧ FitsAt addr newLen
  | .protect addr len _ => FitsAt addr len
  | .discard addr len => FitsAt addr len

theorem FitsAt.align {addr len : ℕ} (h : FitsAt addr len) :
    0 < pageAlign len ∧ addr + pageAlign len < 2 ^ 32 := by
  have := h.fits
  have := h.pos
  have := le_roundUp len
  rw [pageAlign_eq (by omega)]
  omega

theorem Reachable.inv {Ok : State → Answers → Request → Prop} {T : List Region → Prop}
    (hT : Keeps T) (hstep : ∀ {m k q}, Inv T m → Ok m k q → q.Answered m k → Inv T (q.run m k))
    {m : State} (h : Reachable Ok m) : Inv T m := by
  obtain ⟨b, mem, h⟩ := h
  induction h with
  | refl => exact inv_init hT b mem
  | tail _ hs ih =>
    cases hs with
    | call k q hq hk => exact hstep ih hq hk
    | store mem => exact ih.same ⟨rfl, rfl, rfl, rfl⟩ rfl fun _ h ↦ h

theorem run_setup (m : State) (k : Answers) (q : Request) :
    (q.run m k).ready = m.ready ∧ (q.run m k).haveKubridge = m.haveKubridge := by
  cases q with
  | map hint len prot =>
    have hout := mmanMap_outcome m k hint len prot
    simp only [Request.run]
    generalize mmanMap m k hint len prot = res at hout ⊢
    cases hout with
    | refused | commitFailed | tableFull | mapped => exact ⟨rfl, rfl⟩
    | poolFailed | poolMapped => exact ⟨vmPoolInit_ready m k, vmPoolInit_haveKubridge m k⟩
  | unmap addr len =>
    exact ⟨(mmanUnmap_layer m addr len).ready, (mmanUnmap_layer m addr len).haveKubridge⟩
  | resize addr oldLen newLen =>
    have hout := mmanResize_outcome m addr oldLen newLen
    simp only [Request.run]
    generalize mmanResize m addr oldLen newLen = res at hout ⊢
    cases hout with
    | refused | same | grown => exact ⟨rfl, rfl⟩
    | shrunk h =>
      dsimp only
      split <;> exact ⟨rfl, rfl⟩
  | protect addr len prot =>
    simp only [Request.run, mmanProtect]
    split <;> exact ⟨rfl, rfl⟩
  | discard addr len =>
    have hout := mmanDiscard_outcome m k addr len
    simp only [Request.run]
    generalize mmanDiscard m k addr len = res at hout ⊢
    cases hout with
    | refused | commitFailed | recommitted | cleared => exact ⟨rfl, rfl⟩

theorem run_haveKubridge (m : State) (k : Answers) (q : Request) :
    (q.run m k).haveKubridge = m.haveKubridge :=
  (run_setup m k q).2

section Neat

variable {t : List Region} {m : State} {k : Answers}

theorem Neat.carve {s e : ℕ} (ht : Neat t) (hse : s < e) (hs : s % 0x1000 = 0)
    (he : e % 0x1000 = 0) (hb : ¬ Blocked s e t.length t) : Neat (t.flatMap (carve s e)) where
  toTidy := ht.toTidy.carve hse hs he hb
  pos := by
    intro p hp
    obtain ⟨r, hr, hp⟩ := List.mem_flatMap.mp hp
    exact carve_pos (ht.pos r hr) hp

/-- An entry may grow into free space behind it: the loop over the other entries looks at both
ends, and no entry is empty. -/
theorem Neat.grow (ht : Neat t) (h : Hit t) {n : ℕ} (hpos : 0 < n) (hal : n % 0x1000 = 0)
    (hw : h.entry.addr + n < 2 ^ 32)
    (hfree : ∀ x ∈ h.others, addU h.entry.addr n ≤ x.addr ∨
      x.stop ≤ addU h.entry.addr h.entry.len) :
    Neat (h.put { h.entry with len := n }) := by
  have hfits := ht.fits _ h.mem
  simp only [addU, Nat.mod_eq_of_lt hw, Nat.mod_eq_of_lt hfits] at hfree
  have ho := ht.ordered
  rw [← h.eq] at ho
  obtain ⟨-, hort, hx⟩ := ordered_append'.mp ho
  have hafter := (ordered_cons'.mp hort).1
  refine ⟨⟨?_, forall_put h hw ht.fits, forall_put h ⟨(ht.aligned _ h.mem).1, hal⟩ ht.aligned,
    ?_⟩, forall_put h hpos ht.pos⟩
  · refine (ho.sublist ?_ : Ordered (h.before ++ h.after)).insert ?_ ?_
    · exact (List.Sublist.refl _).append (List.sublist_cons_self _ _)
    · exact fun x hxm ↦ (hx x hxm h.entry List.mem_cons_self : x.addr + x.len ≤ h.entry.addr)
    · intro x hxm
      have hmem := h.mem_iff.mpr (.inr (List.mem_append_right h.before hxm))
      have hbelow := hafter x hxm
      have hlen := ht.pos x hmem
      have hstop := Region.stop_eq (ht.fits x hmem)
      have := hfree x (List.mem_append_right h.before hxm)
      change h.entry.addr + n ≤ x.addr
      omega
  · rw [h.length_put]
    exact ht.count

theorem Inv.fits {q : Request} (hm : Inv Neat m) (hq : q.Fits m k) (hk : q.Answered m k) :
    Inv Neat (q.run m k) := by
  cases q with
  | map hint len prot =>
    exact hm.map keeps_neat hk (pageAlign_mod len) (mmanMap_outcome m k hint len prot)
  | unmap addr len =>
    obtain ⟨hpos, hw⟩ := hq.align
    refine hm.unmap keeps_neat ?_
    rw [mmanUnmap_regions hm.table.toTidy (fun h ↦ by simp [hm.ready] at h) (by omega) hw]
    split
    · exact hm.table
    · next hb =>
      have := hq.aligned
      have := pageAlign_mod len
      exact hm.table.carve (by omega) hq.aligned (by omega) hb
  | resize addr oldLen newLen =>
    obtain ⟨hpos, hw⟩ := hq.2.align
    have hal := pageAlign_mod newLen
    refine hm.resize (mmanResize_outcome m addr oldLen newLen) ?_
      fun h hres hlt hkub ↦ hm.resize_top hres hlt hkub hw
    intro h hres
    rcases hres.room with hle | ⟨-, -, hfree⟩
    · exact ⟨hm.table.toTidy.shorten h (hle.trans hres.len.ge) hal, forall_put h hpos hm.table.pos⟩
    · rw [← hres.len, ← hres.start] at hfree
      exact hm.table.grow h hpos hal (hres.start ▸ hw) hfree
  | protect addr len prot => exact hm.protect keeps_neat prot
  | discard addr len => exact hm.discard

/-- The table after every run of fitting requests, in both modes. -/
theorem region_table_invariant (h : Reachable Request.Fits m) :
    m.regions.length ≤ maxRegions ∧
    m.regions.Pairwise (fun a b ↦ a.addr < b.addr) ∧
    (∀ r ∈ m.regions, 0 < r.len ∧ r.addr % 0x1000 = 0 ∧ r.len % 0x1000 = 0) ∧
    m.regions.Pairwise (fun a b ↦ ∀ x, ¬ (Covers a x ∧ Covers b x)) ∧
    (m.haveKubridge = false → ∀ r ∈ m.regions,
      m.vmBase ≤ r.addr ∧ r.addr + r.len ≤ m.vmBase + poolSize) := by
  have hm := h.inv keeps_neat Inv.fits
  have ht := hm.table
  have ho : m.regions.Pairwise fun a b ↦ a.addr + a.len ≤ b.addr := ht.ordered
  refine ⟨ht.count, ?_, fun r hr ↦ ⟨ht.pos r hr, ht.aligned r hr⟩, ?_, fun hk r hr ↦ ?_⟩
  · refine ho.imp_of_mem fun {a b} ha _ hab ↦ ?_
    have := ht.pos a ha
    omega
  · refine ho.imp fun {a b} hab x hx ↦ ?_
    simp only [covers_iff] at hx
    omega
  · exact ((hm.pool hk).inside r hr).2

end Neat

/-- A kernel that has the pool at 0x81000000 and refuses everything else. -/
def poolAnswers : Answers where
  reserveUid := -1
  reserveBase := 0
  commit := -1
  protect := 0
  vmUid := 1
  vmBaseRet := 0
  vmBase := 0x81000000
  fresh := fun _ ↦ 0

theorem poolAnswers_sound (m : State) (n : ℕ) : poolAnswers.Sound m n := by
  constructor <;> simp [poolAnswers, poolSize]

/-- A kernel that reserves at 0x90000000 and commits what it is asked for. -/
def kuAnswers : Answers where
  reserveUid := 1
  reserveBase := 0x90000000
  commit := 0
  protect := 0
  vmUid := -1
  vmBaseRet := -1
  vmBase := 0
  fresh := fun _ ↦ 0

def kuPages : State := Request.run (initMman true fun _ ↦ 0) kuAnswers (.map 0 0x2000 3)

theorem kuAnswers_sound : kuAnswers.Sound (initMman true fun _ ↦ 0) (pageAlign 0x2000) := by
  constructor <;> simp [kuAnswers, reserved, pageAlign, addU]

theorem kuPages_reachable {Ok : State → Answers → Request → Prop}
    (hok : Ok (initMman true fun _ ↦ 0) kuAnswers (.map 0 0x2000 3)) : Reachable Ok kuPages :=
  ⟨true, fun _ ↦ 0, .single (.call _ kuAnswers (.map 0 0x2000 3) hok kuAnswers_sound)⟩

def kuSecond : Answers := { kuAnswers with reserveUid := 2, reserveBase := 0x91000000 }

theorem kuSecond_sound {n : ℕ} (hn : n < 2 ^ 24) : kuSecond.Sound kuPages n := by
  have hres : reserved kuPages.calls = [⟨1, 0x90000000, 0x2000⟩] := by decide
  constructor <;> simp [hres, kuSecond, kuAnswers]
  all_goals omega

def kuTwo : State := Request.run kuPages kuSecond (.map 0 0x1000 1)

theorem kuTwo_regions :
    kuTwo.regions = [⟨0x90000000, 0x2000, 1, 3⟩, ⟨0x91000000, 0x1000, 2, 1⟩] := by
  decide +kernel

def afterTwo : State :=
  Request.run (Request.run (initMman false fun _ ↦ 0) poolAnswers (.map 0 0x3000 3)) poolAnswers
    (.unmap 0x81001000 0x1000)

theorem afterTwo_reachable : Reachable Request.Fits afterTwo := by
  refine ⟨false, fun _ ↦ 0, .tail (.single (.call _ poolAnswers (.map 0 0x3000 3) ?_ ?_))
    (.call _ poolAnswers (.unmap 0x81001000 0x1000) ?_ trivial)⟩
  · exact ⟨rfl, by decide, by decide⟩
  · exact poolAnswers_sound _ _
  · exact ⟨rfl, by decide, by decide⟩

theorem region_table_invariant_afterTwo :
    afterTwo.regions = [⟨0x81000000, 0x1000, -1, 3⟩, ⟨0x81002000, 0x1000, -1, 3⟩] ∧
    afterTwo.regions.Pairwise (fun a b ↦ ∀ x, ¬ (Covers a x ∧ Covers b x)) ∧
    ∀ r ∈ afterTwo.regions,
      afterTwo.vmBase ≤ r.addr ∧ r.addr + r.len ≤ afterTwo.vmBase + poolSize :=
  have h := region_table_invariant afterTwo_reachable
  ⟨by decide +kernel, h.2.2.2.1, h.2.2.2.2 rfl⟩

end SceLibcPosix.Mman
