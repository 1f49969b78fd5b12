import SceLibcPosix.Net.AddrInfo

namespace SceLibcPosix.Net

open Heaps Loops Function

/-- A list has been added that consists of the blocks allocated since then, and the nodes there
were are as they were. -/
structure Memory.Added (m m' : Memory) (ps : List Pointer) : Prop where
  freed : m'.heap.freed = m.heap.freed
  next : m.heap.next ≤ m'.heap.next
  chain : Chain m'.nodes m'.res ps
  nodup : (blocks m'.nodes ps).Nodup
  mem : ∀ p, p ∈ blocks m'.nodes ps ↔ m'.heap.Allocated p ∧ ¬ m.heap.Allocated p
  old : ∀ p, m.heap.Allocated p → m'.nodes p = m.nodes p

inductive Memory.Ends (m : Memory) : Option EaiError → Memory → Prop
  | failed (e : EaiError) (m' : Memory) (hfreed : m.FreedOwn m')
      (hnext : m.heap.next ≤ m'.heap.next)
      (hold : ∀ p, m.heap.Allocated p → m'.nodes p = m.nodes p) : Memory.Ends m (some e) m'
  | answered (m' : Memory) (ps : List Pointer) (hadded : m.Added m' ps) : Memory.Ends m none m'

/-- A list that a caller has been given, with what was asked for. -/
structure AddrList where
  res : Option Pointer
  service : Option (List Char)
  hints : Option AddrInfo
  addrs : List InAddr

/-- The runs of calls of `getaddrinfo`, with a null pointer at `res`, and of `freeaddrinfo`, with
one of the lists that have been returned and not freed yet. -/
inductive Lists (m₀ : Memory) : Memory → List AddrList → Prop
  | start : Lists m₀ m₀ []
  | get {m m' : Memory} {answers : List AddrList} {e : Option EaiError} (grants : ℕ → Bool)
      (ghbn : List Char → Option Hostent) (node service : Option (List Char))
      (hints : Option AddrInfo) (h : Lists m₀ m answers)
      (hret : Returns (getaddrinfo grants ghbn node service hints { m with res := none }) (e, m')) :
      Lists m₀ m' (if e = none then
        ⟨m'.res, service, hints, addressesOf ghbn node hints⟩ :: answers else answers)
  | free {m m' : Memory} (before after : List AddrList) (a : AddrList)
      (h : Lists m₀ m (before ++ a :: after)) (hret : Returns (freeaddrinfo a.res m) m') :
      Lists m₀ m' (before ++ after)

/-- The list of the nodes `ps` is what the answer says. -/
def AddrList.Intact (nodes : Pointer → AddrInfo) (a : AddrList) (ps : List Pointer) : Prop :=
  Chain nodes a.res ps ∧
    List.Forall₂ (fun p addr ↦ (nodes p).Answers a.service a.hints addr) ps a.addrs

/-- All lists are intact, they have no block in common, and they and the blocks there were at the
start are all that is allocated. -/
structure Memory.Holds (m₀ m : Memory) (answers : List AddrList) (pss : List (List Pointer)) :
    Prop where
  sound : m.heap.Sound
  next : m₀.heap.next ≤ m.heap.next
  intact : List.Forall₂ (AddrList.Intact m.nodes) answers pss
  nodup : (pss.flatMap (blocks m.nodes)).Nodup
  new : ∀ p ∈ pss.flatMap (blocks m.nodes), ¬ m₀.heap.Allocated p
  live : ∀ p, m.heap.Live p ↔ m₀.heap.Live p ∨ p ∈ pss.flatMap (blocks m.nodes)
  old : ∀ p, m₀.heap.Allocated p → m.nodes p = m₀.nodes p

section

variable {grants : ℕ → Bool} {ghbn : List Char → Option Hostent}
  {node service : Option (List Char)} {hints : Option AddrInfo} {m₀ m m' m'' : Memory}
  {rq : Request} {nodes nodes' : Pointer → AddrInfo} {r : Option Pointer} {p q : Pointer}
  {ps qs : List Pointer} {pss : List (List Pointer)} {addr : InAddr} {addrs : List InAddr}
  {a : AddrList} {answers : List AddrList} {e : Option EaiError}

theorem Chain.unique (h : Chain nodes r ps) (h' : Chain nodes r qs) : ps = qs := by
  induction ps generalizing r qs with
  | nil =>
    cases qs with
    | nil => rfl
    | cons q qs => cases (h : r = none).symm.trans h'.1
  | cons p ps ih =>
    cases qs with
    | nil => cases (h' : r = none).symm.trans h.1
    | cons q qs =>
      obtain ⟨rfl, h⟩ := h
      obtain ⟨heq, h'⟩ := h'
      cases heq
      rw [ih h h']

theorem mem_blocks (hp : p ∈ ps) : p ∈ blocks nodes ps :=
  List.mem_flatMap.mpr ⟨p, hp, by simp⟩

theorem blocks_congr (heq : ∀ p ∈ ps, nodes' p = nodes p) : blocks nodes' ps = blocks nodes ps := by
  unfold blocks
  apply List.flatMap_congr
  intro p hp
  rw [heq p hp]

theorem AddrList.Intact.congr (h : a.Intact nodes ps) (heq : ∀ p ∈ ps, nodes' p = nodes p) :
    a.Intact nodes' ps := by
  obtain ⟨hchain, hans⟩ := h
  refine ⟨hchain.congr fun p hp ↦ congrArg _ (heq p hp), ?_⟩
  rw [List.forall₂_iff_get] at hans ⊢
  refine ⟨hans.1, fun i hi hi' ↦ ?_⟩
  rw [heq _ (List.get_mem ps _)]
  exact hans.2 i hi hi'

theorem addNodes_old (grants : ℕ → Bool) (rq : Request) (addrs : List InAddr)
    {prev : Option Pointer} (hnext : m₀.heap.next ≤ m.heap.next)
    (hprev : ∀ q, prev = some q → ¬ m₀.heap.Allocated q) (hp : m₀.heap.Allocated p) :
    (m.addNodes grants rq addrs prev).2.nodes p = m.nodes p := by
  induction addrs generalizing m prev with
  | nil => rfl
  | cons a addrs ih =>
    cases hg : grants m.asked with
    | false => rw [Memory.addNodes, mallocAi_refused hg]
    | true =>
      have hnew : ¬ m₀.heap.Allocated (.block m.heap.next) := by
        rintro ⟨n, hn, heq⟩
        cases heq
        omega
      have hpn : p ≠ .block m.heap.next := fun heq ↦ hnew (heq ▸ hp)
      have hcur : ∀ q, some (Pointer.block m.heap.next) = some q → ¬ m₀.heap.Allocated q := by
        intro q hq
        cases hq
        exact hnew
      rw [Memory.addNodes, mallocAi_granted hg]
      dsimp only
      cases prev with
      | none =>
        rw [ih (Nat.le_succ_of_le hnext) hcur]
        exact update_of_ne hpn _ _
      | some q =>
        have hpq : p ≠ q := fun heq ↦ hprev q rfl (heq ▸ hp)
        rw [ih (Nat.le_succ_of_le hnext) hcur]
        exact (update_of_ne hpq _ _).trans (update_of_ne hpn _ _)

theorem Memory.Built.added (h : m.Built m' rq ps addrs)
    (hold : ∀ p, m.heap.Allocated p → m'.nodes p = m.nodes p) : m.Added m' ps := by
  have hblocks := blocks_of_unnamed h.unnamed
  refine ⟨h.freed, h.next, h.chain, ?_, fun p ↦ ?_, hold⟩
  · rw [hblocks]
    exact h.nodup
  · rw [hblocks]
    exact h.mem p

theorem Memory.Built.named (h : m.Built m' rq (p :: ps) addrs)
    (hold : ∀ p, m.heap.Allocated p → m'.nodes p = m.nodes p) (k : ℕ)
    (strings : Pointer → List Char) :
    m.Added { m' with
      heap := { m'.heap with next := m'.heap.next + 1 }
      nodes := update m'.nodes p { m'.nodes p with aiCanonname := some (.block m'.heap.next) }
      strings := strings
      asked := k } (p :: ps) := by
  have hps : p ∉ ps := (List.nodup_cons.mp h.nodup).1
  have hfresh : Pointer.block m'.heap.next ∉ p :: ps := fun hmem ↦
    Heap.not_allocated_next ((h.mem _).mp hmem).1
  have hunnamed : ∀ q ∈ ps, (m'.nodes q).aiCanonname = none := fun q hq ↦
    h.unnamed q (List.mem_cons_of_mem _ hq)
  have hrest : blocks (update m'.nodes p
      { m'.nodes p with aiCanonname := some (.block m'.heap.next) }) ps = ps := by
    apply blocks_of_unnamed
    intro q hq
    have hqp : q ≠ p := fun heq ↦ hps (heq ▸ hq)
    rw [update_of_ne hqp]
    exact hunnamed q hq
  have hblocks : blocks (update m'.nodes p
      { m'.nodes p with aiCanonname := some (.block m'.heap.next) }) (p :: ps) =
      .block m'.heap.next :: p :: ps := by
    unfold blocks at hrest ⊢
    rw [List.flatMap_cons, hrest, update_self]
    rfl
  refine ⟨h.freed, Nat.le_succ_of_le h.next, h.chain.congr fun q _ ↦ ?_, ?_, fun q ↦ ?_,
    fun q hq ↦ ?_⟩
  · by_cases hqp : q = p
    · subst hqp
      dsimp only
      rw [update_self]
    · exact congrArg _ (update_of_ne hqp _ _)
  · rw [hblocks]
    exact List.nodup_cons.mpr ⟨hfresh, h.nodup⟩
  · rw [hblocks, List.mem_cons, h.mem, Heap.allocated_succ, or_and_right, or_comm]
    refine or_congr Iff.rfl ⟨fun hq ↦ ⟨hq, fun ⟨j, hj, heq⟩ ↦ ?_⟩, And.left⟩
    cases hq.symm.trans heq
    exact absurd hj (Nat.not_lt.mpr h.next)
  · have hqp : q ≠ p := fun heq ↦ ((h.mem p).mp List.mem_cons_self).2 (heq ▸ hq)
    exact (update_of_ne hqp _ _).trans (hold q hq)

theorem Memory.Built.release_ends (h : m.Built m' rq ps addrs)
    (hold : ∀ p, m.heap.Allocated p → m'.nodes p = m.nodes p) (e : EaiError) :
    m.Ends (some e) (m'.freeAll ps) :=
  .failed e _ h.release.2 h.next hold

theorem canonname_ends (h : m.Built m' rq ps addrs)
    (hold : ∀ p, m.heap.Allocated p → m'.nodes p = m.nodes p) (grants : ℕ → Bool)
    (hints : Option AddrInfo) (name : List Char) :
    ∃ e m'', Returns (m'.canonname grants hints name) (e, m'') ∧ m.Ends e m'' := by
  by_cases hname : hasFlag hints AI_CANONNAME = true ∧ ps ≠ []
  · obtain ⟨hflag, hps⟩ := hname
    obtain ⟨p, ps, rfl⟩ := List.exists_cons_of_ne_nil hps
    cases hg : grants m'.asked with
    | false =>
      have hstored : update m'.nodes p { m'.nodes p with aiCanonname := none } = m'.nodes := by
        rw [update_eq_self_iff, ← h.unnamed p List.mem_cons_self]
      have hasked : m.Built { m' with asked := m'.asked + 1 } rq (p :: ps) addrs :=
        ⟨h.freed, h.next, h.mem, h.nodup, h.chain, h.unnamed, h.bare⟩
      refine ⟨some .EAI_MEMORY, _, ?_, hasked.release_ends hold _⟩
      convert hasked.release.1.map (some EaiError.EAI_MEMORY, ·) using 2 with n
      simp [Memory.canonname, hflag, h.chain.1, Memory.strdup, Heap.malloc, hg, hstored]
    | true =>
      refine ⟨none, _, ?_, .answered _ _ (h.named hold (m'.asked + 1)
        (update m'.strings (.block m'.heap.next) name))⟩
      convert Returns.pure _ using 2 with n
      simp [Memory.canonname, hflag, h.chain.1, Memory.strdup, Heap.malloc, hg]
  · refine ⟨none, m', ?_, .answered m' ps (h.added hold)⟩
    convert Returns.pure _ using 2 with n
    unfold Memory.canonname
    split
    · next p hflag hres =>
      refine absurd ⟨hflag, fun hps ↦ ?_⟩ hname
      subst hps
      cases (h.chain : m'.res = none).symm.trans hres
    · rfl

theorem answer_ends (m : Memory) (grants : ℕ → Bool) (rq : Request) (addr : InAddr) :
    m.Ends (m.answer grants rq addr).1 (m.answer grants rq addr).2 := by
  cases hg : grants m.asked with
  | false =>
    rw [Memory.answer, mallocAi_refused hg]
    exact .failed _ _ (.refl rfl) le_rfl fun _ _ ↦ rfl
  | true =>
    rw [Memory.answer, mallocAi_granted hg]
    refine .answered _ _ ((Memory.Built.first m rq addr (m.asked + 1)).added fun p hp ↦ ?_)
    exact update_of_ne (fun heq ↦ Heap.not_allocated_next (heq ▸ hp)) _ _

theorem answerHost_ends (grants : ℕ → Bool) (rq : Request) (hints : Option AddrInfo)
    (name : List Char) (addr : InAddr) (addrs : List InAddr) (hres : m.res = none) :
    ∃ e m', Returns (m.answerHost grants rq hints name (addr :: addrs)) (e, m') ∧
      m.Ends e m' := by
  cases hg : grants m.asked with
  | false =>
    refine ⟨some .EAI_MEMORY, { m with asked := m.asked + 1 }, ?_,
      .failed _ _ (.refl rfl) le_rfl fun _ _ ↦ rfl⟩
    rw [answerHost_refused hg]
    convert Returns.pure _ using 2 with n
    simp [Memory.noMemory, hres]
  | true =>
    obtain ⟨ok, m', ps, done, heq, hps, hbuilt, -⟩ :=
      (Memory.Built.first m rq addr (m.asked + 1)).addNodes [] grants addrs
    have hnew : ∀ q, some (Pointer.block m.heap.next) = some q → ¬ m.heap.Allocated q := by
      intro q hq
      cases hq
      exact Heap.not_allocated_next
    have hold : ∀ p, m.heap.Allocated p → m'.nodes p = m.nodes p := by
      intro p hp
      have hpn : p ≠ .block m.heap.next := fun heq ↦ Heap.not_allocated_next (heq ▸ hp)
      have hkept := congrArg (fun s ↦ s.2.nodes p) heq
      rw [addNodes_old grants rq addrs (Nat.le_succ m.heap.next) hnew hp] at hkept
      exact hkept.symm.trans (update_of_ne hpn _ _)
    have hfirst : m.addNodes grants rq (addr :: addrs) none = (ok, m') := by
      rw [Memory.addNodes, mallocAi_granted hg]
      exact heq
    cases ok with
    | false =>
      refine ⟨some .EAI_MEMORY, m'.freeAll ps, ?_, hbuilt.release_ends hold _⟩
      have hrun : m.answerHost grants rq hints name (addr :: addrs) = m'.noMemory := by
        funext n
        rw [Memory.answerHost, hfirst]
      exact hrun ▸ hbuilt.noMemory hps
    | true =>
      obtain ⟨e, m'', hret, hends⟩ := canonname_ends hbuilt hold grants hints name
      refine ⟨e, m'', ?_, hends⟩
      have hrun : m.answerHost grants rq hints name (addr :: addrs) =
          m'.canonname grants hints name := by
        funext n
        rw [Memory.answerHost, hfirst]
      exact hrun ▸ hret

theorem getaddrinfo_ends (grants : ℕ → Bool) (ghbn : List Char → Option Hostent)
    (node service : Option (List Char)) (hints : Option AddrInfo) (hres : m.res = none) :
    ∃ e m', Returns (getaddrinfo grants ghbn node service hints m) (e, m') ∧ m.Ends e m' := by
  have hrefused (e : EaiError) (h : getaddrinfo grants ghbn node service hints m =
      fun _ ↦ some (some e, m)) : ∃ e m',
        Returns (getaddrinfo grants ghbn node service hints m) (e, m') ∧ m.Ends e m' :=
    ⟨some e, m, h ▸ .pure _, .failed _ _ (.refl rfl) le_rfl fun _ _ ↦ rfl⟩
  have hone (rq : Request) (addr : InAddr) (h : getaddrinfo grants ghbn node service hints m =
      fun _ ↦ some (m.answer grants rq addr)) : ∃ e m',
        Returns (getaddrinfo grants ghbn node service hints m) (e, m') ∧ m.Ends e m' :=
    ⟨_, _, h ▸ .pure _, answer_ends m grants rq addr⟩
  cases hrq : request hints service with
  | error e =>
    apply hrefused e
    funext n
    rw [getaddrinfo, hrq]
  | ok rq =>
    cases node with
    | none =>
      apply hone rq (networkOrder (if hasFlag hints AI_PASSIVE then 0x00000000 else 0x7f000001))
      funext n
      rw [getaddrinfo, hrq]
    | some node =>
      by_cases haton : (inetAton node ⟨0, 0, 0, 0⟩).1 ≠ 0
      · apply hone rq (inetAton node ⟨0, 0, 0, 0⟩).2
        funext n
        simp only [getaddrinfo, hrq, if_pos haton]
      · by_cases hflag : hasFlag hints AI_NUMERICHOST
        · apply hrefused .EAI_NODATA
          funext n
          simp only [getaddrinfo, hrq, if_neg haton, if_pos hflag]
        · cases hbind : (ghbn node).bind Hostent.addresses with
          | none =>
            apply hrefused .EAI_NODATA
            funext n
            simp only [getaddrinfo, hrq, if_neg haton, if_neg hflag, hbind]
          | some host =>
            obtain ⟨name, addrs⟩ := host
            obtain ⟨hp, -, haddrs⟩ := Option.bind_eq_some_iff.mp hbind
            obtain ⟨addr, addrs, rfl⟩ :=
              List.exists_cons_of_ne_nil (addresses_eq_some haddrs).2
            obtain ⟨e, m', hret, hends⟩ :=
              answerHost_ends grants rq hints name addr addrs hres
            have hrun : getaddrinfo grants ghbn (some node) service hints m =
                m.answerHost grants rq hints name (addr :: addrs) := by
              funext n
              simp only [getaddrinfo, hrq, if_neg haton, if_neg hflag, hbind]
            exact ⟨e, m', hrun ▸ hret, hends⟩

theorem Memory.Holds.start (m : Memory) (hm : m.heap.Sound) : m.Holds m [] [] :=
  ⟨hm, le_rfl, .nil, List.nodup_nil, by simp, by simp, fun _ _ ↦ rfl⟩

theorem Memory.Holds.allocated (h : m₀.Holds m answers pss)
    (hp : p ∈ pss.flatMap (blocks m.nodes)) : m.heap.Allocated p :=
  ((h.live p).mpr (.inr hp)).1

theorem Memory.Holds.kept (h : m₀.Holds m answers pss)
    (hold : ∀ p, m.heap.Allocated p → m'.nodes p = m.nodes p) :
    pss.flatMap (blocks m'.nodes) = pss.flatMap (blocks m.nodes) ∧
      List.Forall₂ (AddrList.Intact m'.nodes) answers pss := by
  have hmem : ∀ ps ∈ pss, ∀ p ∈ ps, m'.nodes p = m.nodes p := by
    intro ps hps p hp
    apply hold
    exact h.allocated (List.mem_flatMap.mpr ⟨ps, hps, mem_blocks hp⟩)
  refine ⟨List.flatMap_congr fun ps hps ↦ blocks_congr (hmem ps hps), ?_⟩
  have hintact := h.intact
  rw [List.forall₂_iff_get] at hintact ⊢
  refine ⟨hintact.1, fun i hi hi' ↦ ?_⟩
  exact (hintact.2 i hi hi').congr (hmem _ (List.get_mem pss _))

theorem Memory.Holds.fail (h : m₀.Holds m answers pss) (hfreed : m.FreedOwn m')
    (hnext : m.heap.next ≤ m'.heap.next)
    (hold : ∀ p, m.heap.Allocated p → m'.nodes p = m.nodes p) : m₀.Holds m' answers pss := by
  obtain ⟨hblocks, hintact⟩ := h.kept hold
  obtain ⟨fs, hfs, hnodup, hmem⟩ := hfreed
  have hgrows : m.heap.Grows m'.heap := ⟨hnext, hfs ▸ List.suffix_append fs _⟩
  have hlive : ∀ p, m'.heap.Live p ↔ m.heap.Live p := by
    intro p
    unfold Heap.Live
    rw [hfs, List.mem_append, hmem]
    have := @Heap.Grows.allocated p _ _ hgrows
    tauto
  refine ⟨⟨fun p hp ↦ ?_, ?_⟩, h.next.trans hnext, hintact, hblocks ▸ h.nodup, hblocks ▸ h.new,
    fun p ↦ ?_, fun p hp ↦ ?_⟩
  · rw [hfs] at hp
    rcases List.mem_append.mp hp with hp | hp
    · exact ((hmem p).mp hp).1
    · exact hgrows.allocated (h.sound.own p hp)
  · rw [hfs]
    refine List.nodup_append.mpr ⟨hnodup, h.sound.once, fun p hp q hq heq ↦ ?_⟩
    exact ((hmem p).mp hp).2 (heq ▸ h.sound.own q hq)
  · rw [hlive, h.live, hblocks]
  · have hp' : m.heap.Allocated p := by
      obtain ⟨n, hn, rfl⟩ := hp
      exact ⟨n, Nat.lt_of_lt_of_le hn h.next, rfl⟩
    exact (hold p hp').trans (h.old p hp)

theorem Memory.Holds.add (h : m₀.Holds m answers pss) (hadded : m.Added m' ps)
    (ha : a.Intact m'.nodes ps) : m₀.Holds m' (a :: answers) (ps :: pss) := by
  obtain ⟨hblocks, hintact⟩ := h.kept hadded.old
  have hgrows : m.heap.Grows m'.heap := ⟨hadded.next, hadded.freed ▸ List.suffix_rfl⟩
  have hstart : ∀ p, m₀.heap.Allocated p → m.heap.Allocated p := by
    intro p ⟨n, hn, heq⟩
    exact ⟨n, Nat.lt_of_lt_of_le hn h.next, heq⟩
  refine ⟨⟨fun p hp ↦ ?_, hadded.freed ▸ h.sound.once⟩, h.next.trans hadded.next,
    .cons ha hintact, ?_, fun p hp ↦ ?_, fun p ↦ ?_, fun p hp ↦ ?_⟩
  · exact hgrows.allocated (h.sound.own p (hadded.freed ▸ hp))
  · rw [List.flatMap_cons, hblocks]
    refine List.nodup_append.mpr ⟨hadded.nodup, h.nodup, fun p hp q hq heq ↦ ?_⟩
    exact ((hadded.mem p).mp hp).2 (heq ▸ h.allocated hq)
  · rw [List.flatMap_cons, hblocks] at hp
    rcases List.mem_append.mp hp with hp | hp
    · exact fun hp' ↦ ((hadded.mem p).mp hp).2 (hstart p hp')
    · exact h.new p hp
  · have hlive := h.live p
    have hmem := hadded.mem p
    have hown := h.sound.own p
    rw [List.flatMap_cons, hblocks, List.mem_append]
    unfold Heap.Live at hlive ⊢
    rw [hadded.freed]
    have := @Heap.Grows.allocated p _ _ hgrows
    tauto
  · exact (hadded.old p (hstart p hp)).trans (h.old p hp)

theorem nodes_freeAll (m : Memory) (ps : List Pointer) : (m.freeAll ps).nodes = m.nodes := rfl

theorem live_freeAll (m : Memory) (ps : List Pointer) (p : Pointer) :
    (m.freeAll ps).heap.Live p ↔ m.heap.Live p ∧ p ∉ ps := by
  have halloc : (m.freeAll ps).heap.Allocated p ↔ m.heap.Allocated p := Iff.rfl
  have hfreed : (m.freeAll ps).heap.freed = ps.reverse ++ m.heap.freed := rfl
  unfold Heap.Live
  rw [halloc, hfreed, List.mem_append, List.mem_reverse, not_or, and_comm (a := p ∉ ps), and_assoc]

theorem forall₂_split {α β : Type*} {R : α → β → Prop} {as after : List α} {x : α} {bs : List β}
    (h : List.Forall₂ R (as ++ x :: after) bs) : ∃ bs₁ b bs₂, bs = bs₁ ++ b :: bs₂ ∧
      List.Forall₂ R as bs₁ ∧ R x b ∧ List.Forall₂ R after bs₂ := by
  induction as generalizing bs with
  | nil =>
    obtain ⟨b, bs, hb, hbs, rfl⟩ := List.forall₂_cons_left_iff.mp h
    exact ⟨[], b, bs, rfl, .nil, hb, hbs⟩
  | cons y as ih =>
    obtain ⟨c, cs, hc, hcs, rfl⟩ := List.forall₂_cons_left_iff.mp h
    obtain ⟨bs₁, b, bs₂, rfl, h₁, hb, h₂⟩ := ih hcs
    exact ⟨c :: bs₁, b, bs₂, rfl, .cons hc h₁, hb, h₂⟩

theorem Memory.Holds.free {before after : List AddrList}
    (h : m₀.Holds m (before ++ a :: after) pss) :
    ∃ ps pss', Chain m.nodes a.res ps ∧
      m₀.Holds (m.freeAll (blocks m.nodes ps)) (before ++ after) pss' := by
  obtain ⟨pss₁, ps, pss₂, rfl, h₁, ha, h₂⟩ := forall₂_split h.intact
  have hflat : (pss₁ ++ ps :: pss₂).flatMap (blocks m.nodes) = pss₁.flatMap (blocks m.nodes) ++
      (blocks m.nodes ps ++ pss₂.flatMap (blocks m.nodes)) := by
    rw [List.flatMap_append, List.flatMap_cons]
  have hrest : (pss₁ ++ pss₂).flatMap (blocks m.nodes) =
      pss₁.flatMap (blocks m.nodes) ++ pss₂.flatMap (blocks m.nodes) := List.flatMap_append
  have hnodup := hflat ▸ h.nodup
  have hlive := fun p ↦ hflat ▸ h.live p
  have hnew := hflat ▸ h.new
  have hsound : ∀ p ∈ blocks m.nodes ps, m.heap.Live p := fun p hp ↦
    (hlive p).mpr (.inr (by simp [hp]))
  obtain ⟨hnodup₁, hnodup₂, hapart⟩ := List.nodup_append.mp hnodup
  obtain ⟨hnodupPs, hnodupRest, hapart'⟩ := List.nodup_append.mp hnodup₂
  refine ⟨ps, pss₁ ++ pss₂, ha.1, ⟨fun p hp ↦ ?_, ?_⟩, h.next, ?_, ?_, fun p hp ↦ ?_, fun p ↦ ?_,
    h.old⟩
  · rcases List.mem_append.mp hp with hp | hp
    · exact (hsound p (List.mem_reverse.mp hp)).1
    · exact h.sound.own p hp
  · refine List.nodup_append.mpr ⟨List.nodup_reverse.mpr hnodupPs, h.sound.once,
      fun p hp q hq heq ↦ ?_⟩
    exact (hsound p (List.mem_reverse.mp hp)).2 (heq ▸ hq)
  · exact List.rel_append h₁ h₂
  · rw [nodes_freeAll, hrest]
    refine List.nodup_append.mpr ⟨hnodup₁, hnodupRest, fun p hp q hq ↦ ?_⟩
    exact hapart p hp q (List.mem_append_right _ hq)
  · rw [nodes_freeAll, hrest] at hp
    apply hnew
    rcases List.mem_append.mp hp with hp | hp
    · exact List.mem_append_left _ hp
    · exact List.mem_append_right _ (List.mem_append_right _ hp)
  · rw [live_freeAll, hlive, nodes_freeAll, hrest]
    simp only [List.mem_append]
    constructor
    · tauto
    · rintro (hp | hp | hp)
      · refine ⟨.inl hp, fun hmem ↦ ?_⟩
        exact hnew p (List.mem_append_right _ (List.mem_append_left _ hmem)) hp.1
      · refine ⟨.inr (.inl hp), fun hmem ↦ ?_⟩
        exact hapart p hp p (List.mem_append_left _ hmem) rfl
      · refine ⟨.inr (.inr (.inr hp)), fun hmem ↦ ?_⟩
        exact hapart' p hmem p hp rfl

theorem intact_of_returns (hret : Returns
    (getaddrinfo grants ghbn node service hints { m with res := none }) (none, m'))
    (hchain : Chain m'.nodes m'.res ps) :
    (⟨m'.res, service, hints, addressesOf ghbn node hints⟩ : AddrList).Intact m'.nodes ps := by
  cases getaddrinfo_way grants ghbn node service hints m with
  | early e hno h =>
    rw [h none] at hret
    cases hret.unique (.pure _)
  | answered e m'' hno hproper h =>
    cases hret.unique (h none)
    obtain ⟨-, qs, hchain', -, -, hans⟩ := hproper.success rfl
    rw [hchain.unique hchain']
    exact ⟨hchain', hans⟩
  | refused hhost hg h =>
    have hrun : Returns (Memory.noMemory { m with asked := m.asked + 1, res := none })
        (some .EAI_MEMORY, { m with asked := m.asked + 1, res := none }) := .pure _
    rw [h none] at hret
    cases hret.unique hrun

theorem Memory.Holds.get (h : m₀.Holds m answers pss) (hret : Returns
    (getaddrinfo grants ghbn node service hints { m with res := none }) (e, m')) :
    ∃ pss', m₀.Holds m' (if e = none then
      ⟨m'.res, service, hints, addressesOf ghbn node hints⟩ :: answers else answers) pss' := by
  have hm : m₀.Holds { m with res := none } answers pss :=
    ⟨h.sound, h.next, h.intact, h.nodup, h.new, h.live, h.old⟩
  obtain ⟨e', m'', hret', hends⟩ :=
    getaddrinfo_ends (m := { m with res := none }) grants ghbn node service hints rfl
  cases hret.unique hret'
  cases hends with
  | failed e m' hfreed hnext hold =>
    rw [if_neg (Option.some_ne_none e)]
    exact ⟨pss, hm.fail hfreed hnext hold⟩
  | answered m' ps hadded =>
    rw [if_pos rfl]
    exact ⟨ps :: pss, hm.add hadded (intact_of_returns hret hadded.chain)⟩

/-- In every run the lists that have been returned and not yet freed are intact: each has a node
for each of the addresses that it was asked for. They have no block in common, `freeaddrinfo` comes
to the end of each, and what else is allocated was so at the start. -/
theorem lists_held (hm₀ : m₀.heap.Sound) (h : Lists m₀ m answers) :
    ∃ pss, m₀.Holds m answers pss ∧
      ∀ a ∈ answers, ∃ m', Returns (freeaddrinfo a.res m) m' := by
  suffices hholds : ∃ pss, m₀.Holds m answers pss by
    obtain ⟨pss, hholds⟩ := hholds
    refine ⟨pss, hholds, fun a ha ↦ ?_⟩
    obtain ⟨before, after, rfl⟩ := List.append_of_mem ha
    obtain ⟨ps, -, hchain, -⟩ := hholds.free
    exact ⟨_, hchain.freeaddrinfo⟩
  induction h with
  | start => exact ⟨[], .start m₀ hm₀⟩
  | get grants ghbn node service hints _ hret ih =>
    obtain ⟨pss, hholds⟩ := ih
    exact hholds.get hret
  | free before after a _ hret ih =>
    obtain ⟨pss, hholds⟩ := ih
    obtain ⟨ps, pss', hchain, hholds'⟩ := hholds.free
    cases hret.unique hchain.freeaddrinfo
    exact ⟨pss', hholds'⟩

/-- Two lists for this host, the first of them freed before the second is asked for. -/
theorem lists_held_twice : ∃ m answers, Lists {} m answers ∧ answers.length = 1 ∧
    ∃ pss, Memory.Holds {} m answers pss ∧
      ∀ a ∈ answers, ∃ m', Returns (freeaddrinfo a.res m) m' := by
  have hstart : Lists {} {} [] := .start
  have hfirst := Lists.get (fun _ ↦ true) (fun _ ↦ none) none (some ['8', '0']) none hstart
    (.pure _)
  have hfreed := Lists.free [] [] _ hfirst (returns_of_run (n := 2) rfl |>.map Prod.snd)
  have hrun := Lists.get (fun _ ↦ true) (fun _ ↦ none) none none none hfreed (.pure _)
  exact ⟨_, _, hrun, rfl, lists_held Heap.sound_empty hrun⟩

end

end SceLibcPosix.Net
