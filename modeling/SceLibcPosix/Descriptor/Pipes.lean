import SceLibcPosix.Descriptor.OpenFiles
import SceLibcPosix.Descriptor.Steps
import SceLibcPosix.Descriptor.Still

namespace SceLibcPosix.Descriptor

open Errno VitaError References Programs Relation

/-- What the kernel promises about its message pipes: it takes some first bytes of what it gets to
the end of the pipe, and hands out some from the front. -/
structure Fifo {σ : Type} (K : (q : KernelAsk) → σ → q.Answer × σ) (queue : σ → ℤ → List UInt8) :
    Prop where
  receive : ∀ i uid len k, ∀ x : Transfer × σ, K (.transfer i (.receiveMsgPipe uid len)) k = x →
    queue k uid = x.1.data ++ queue x.2 uid ∧ ∀ uid', uid' ≠ uid → queue x.2 uid' = queue k uid'
  send : ∀ i uid bytes k, ∀ x : Transfer × σ, K (.transfer i (.sendMsgPipe uid bytes)) k = x →
    x.1.data <+: bytes ∧ queue x.2 uid = queue k uid ++ x.1.data ∧
      ∀ uid', uid' ≠ uid → queue x.2 uid' = queue k uid'
  other : ∀ q k, ¬ q.MovesPipe → queue (K q k).2 = queue k

def KernelObject.asPipe : KernelObject → Option ℤ
  | .msgPipe uid => some uid
  | _ => none

def pipeAt (t : Table) (fd : ℤ) : Option ℤ := (openAt t fd).bind fun p ↦ (t.pool p.2).object.asPipe

def append (f : ℤ → List UInt8) (data : List UInt8) : Option ℤ → ℤ → List UInt8
  | none => f
  | some uid => Function.update f uid (f uid ++ data)

/-- A new pipe has been sent nothing yet. -/
def renew (calls : List KernelCall) (f : ℤ → List UInt8) (uid : ℤ) : List UInt8 :=
  if .created (.msgPipe uid) ∈ calls then [] else f uid

/-- A program and the kernel, with the bytes of each pipe that `write` has reported as written since
the pipe was created, and those that `read` has returned. -/
structure PipeWorld (σ : Type) where
  session : Session
  kernel : σ
  sent : ℤ → List UInt8
  received : ℤ → List UInt8

/-- The calls of a program: those that read and write, the others that take a descriptor, and those
that create and close. `calls` are the kernel calls of one of the last, after which the kernel has
the pipes that it had, and the new ones empty. -/
inductive PipeStep (net : NetErrno → ℤ) {σ : Type} (K : (q : KernelAsk) → σ → q.Answer × σ)
    (queue : σ → ℤ → List UInt8) : PipeWorld σ → PipeWorld σ → Prop
  | read (w : PipeWorld σ) (fd : ℤ) (len : ℕ) {out : Outcome} {data : List UInt8} {s' : Session}
    {k' : σ} (h : ((readPlain len).steps net fd).run (watch net K) (w.session, w.kernel) =
      some ((out, data), s', k')) :
    PipeStep net K queue w ⟨s', k', w.sent,
      append w.received (data.take out.ret.toNat) (pipeAt w.session.table fd)⟩
  | write (w : PipeWorld σ) (fd : ℤ) (bytes : List UInt8) {out : Outcome} {data : List UInt8}
    {s' : Session} {k' : σ}
    (h : ((writePlain bytes).steps net fd).run (watch net K) (w.session, w.kernel) =
      some ((out, data), s', k')) :
    PipeStep net K queue w ⟨s', k',
      append w.sent (bytes.take out.ret.toNat) (pipeAt w.session.table fd), w.received⟩
  | use (w : PipeWorld σ) (c : FdCall) (hc : ¬ c.Streams)
    (hfits : (SessionCall.use c).Fits w.session) {out : Outcome} {s' : Session} {k' : σ}
    (h : (c.steps net).run (watch net K) (w.session, w.kernel) = some (out, s', k')) :
    PipeStep net K queue w ⟨s', k', w.sent, w.received⟩
  | call (w : PipeWorld σ) (c : SessionCall) (hc : ∀ c', c ≠ .use c') (hfits : c.Fits w.session)
    (hkeeps : c.Keeps net w.session) {s' : Session} (h : c.Runs net w.session s')
    (calls : List KernelCall) (hcalls : s'.table.calls = calls ++ w.session.table.calls) (k' : σ)
    (hk : ∀ uid, alive s'.table.calls (.msgPipe uid) →
      queue k' uid = renew calls (queue w.kernel) uid) :
    PipeStep net K queue w ⟨s', k', renew calls w.sent, renew calls w.received⟩

/-- What a plain transfer comes to, with the table as before. -/
inductive PlainOutcome (net : NetErrno → ℤ) {σ : Type} (K : (q : KernelAsk) → σ → q.Answer × σ)
    (c : Plain) (t : Table) (fd : ℤ) (k : σ) : Outcome → List UInt8 → σ → Prop
  | refused (h : openAt t fd = none) {k' : σ} (hk : k' = k ∨ k' = (K (.fhTell fd) k).2) :
    PlainOutcome net K c t fd k (fail EBADF) [] k'
  | handle (h : openAt t fd = none) {q : ℤ → Request} (hq : c.handle = some q) {x : Transfer × σ}
    (hx : K (.transfer none (q fd)) (K (.fhTell fd) k).2 = x) :
    PlainOutcome net K c t fd k (ending net .FIOS x.1.ret) x.1.data x.2
  | directory (sl : Slot) (i : Entry) (h : openAt t fd = some (sl, i))
    (hentry : c.entry ((t.addRef i 1).pool i) = none) :
    PlainOutcome net K c t fd k (ending net .GENERIC (Transfer.refused EBADF).ret) [] k
  | moved (sl : Slot) (i : Entry) (h : openAt t fd = some (sl, i)) {type : ErrorType}
    {q : Request} (hentry : c.entry ((t.addRef i 1).pool i) = some (type, q)) {x : Transfer × σ}
    (hx : K (.transfer (some i) q) k = x) :
    PlainOutcome net K c t fd k (ending net type x.1.ret) x.1.data x.2

section

variable {σ : Type} {net : NetErrno → ℤ} {K : (q : KernelAsk) → σ → q.Answer × σ}
  {queue : σ → ℤ → List UInt8} {t t' : Table} {k k' : σ} {s s' : Session} {c : Plain} {fd : ℤ}
  {out : Outcome} {data : List UInt8} {w w' : PipeWorld σ}

theorem run_watch {α : Type} {p : Call α} {a : α}
    (h : p.run (serve net K) (s.table, k) = some (a, t', k')) :
    ∃ s', s'.table = t' ∧ p.run (watch net K) (s, k) = some (a, s', k') := by
  induction p generalizing s k with
  | ret b =>
    obtain ⟨rfl, hs⟩ := Prod.mk.inj (Option.some.inj h)
    obtain ⟨rfl, rfl⟩ := Prod.mk.inj hs
    exact ⟨s, rfl, rfl⟩
  | ask q next ih =>
    obtain ⟨⟨x, t₁, k₁⟩, hserve, hrun⟩ := Option.bind_eq_some_iff.mp h
    have hwatch : watch net K q (s, k) =
        some (x, ⟨t₁, q.newOrigin s.origin, q.uses s ++ s.uses⟩, k₁) := by
      rw [watch, hserve]
      rfl
    obtain ⟨s', hs', hrun'⟩ := ih x (s := ⟨t₁, _, _⟩) hrun
    exact ⟨s', hs', by rw [Program.run_ask, hwatch]; exact hrun'⟩

theorem Plain.run_moved (ht : InUse t) {sl : Slot} {i : Entry} (hopen : openAt t fd = some (sl, i))
    {type : ErrorType} {q : Request} (hentry : c.entry ((t.addRef i 1).pool i) = some (type, q))
    {x : Transfer × σ} (hx : K (.transfer (some i) q) k = x) :
    (c.steps net fd).run (serve net K) (t, k) =
      some ((ending net type x.1.ret, x.1.data), t, x.2) := by
  have href := ht sl i (openAt_eq_some.mp hopen).2
  unfold Plain.steps
  rw [run_withFd_some (fdGrab_open hopen), hentry, ← hx]
  change (drop i >>= fun _ ↦ _ : Call _).run (serve net K)
    (t.addRef i 1, (K (.transfer (some i) q) k).2) = _
  rw [run_drop_grabbed href]
  rfl

theorem Plain.outcome (ht : InUse t)
    (h : (c.steps net fd).run (serve net K) (t, k) = some ((out, data), t', k')) :
    t' = t ∧ PlainOutcome net K c t fd k out data k' := by
  unfold Plain.steps at h
  cases hopen : openAt t fd with
  | none =>
    rw [run_withFd_none (fdGrab_closed hopen)] at h
    cases hq : c.handle with
    | none =>
      rw [hq] at h
      obtain ⟨hout, hs⟩ := Prod.mk.inj (Option.some.inj h)
      obtain ⟨rfl, rfl⟩ := Prod.mk.inj hs
      obtain ⟨rfl, rfl⟩ := Prod.mk.inj hout
      exact ⟨rfl, .refused hopen (.inl rfl)⟩
    | some q =>
      rw [hq] at h
      dsimp only at h
      rw [run_kernel] at h
      change (if (K (.fhTell fd) k).1 < 0 then _ else _ : Call _).run _ _ = _ at h
      by_cases hpos : (K (.fhTell fd) k).1 < 0
      · rw [if_pos hpos] at h
        obtain ⟨hout, hs⟩ := Prod.mk.inj (Option.some.inj h)
        obtain ⟨rfl, rfl⟩ := Prod.mk.inj hs
        obtain ⟨rfl, rfl⟩ := Prod.mk.inj hout
        exact ⟨rfl, .refused hopen (.inr rfl)⟩
      · rw [if_neg hpos, run_kernel] at h
        obtain ⟨hout, hs⟩ := Prod.mk.inj (Option.some.inj h)
        obtain ⟨rfl, rfl⟩ := Prod.mk.inj hs
        obtain ⟨rfl, rfl⟩ := Prod.mk.inj hout
        exact ⟨rfl, .handle hopen hq rfl⟩
  | some p =>
    obtain ⟨sl, i⟩ := p
    have href := ht sl i (openAt_eq_some.mp hopen).2
    rw [run_withFd_some (fdGrab_open hopen)] at h
    cases hentry : c.entry ((t.addRef i 1).pool i) with
    | none =>
      rw [hentry] at h
      dsimp only at h
      rw [Program.pure_eq, Program.ret_bind, run_drop_grabbed href] at h
      obtain ⟨hout, hs⟩ := Prod.mk.inj (Option.some.inj h)
      obtain ⟨rfl, rfl⟩ := Prod.mk.inj hs
      obtain ⟨rfl, rfl⟩ := Prod.mk.inj hout
      exact ⟨rfl, .directory sl i hopen hentry⟩
    | some r =>
      obtain ⟨type, q⟩ := r
      rw [hentry] at h
      change (drop i >>= fun _ ↦ _ : Call _).run (serve net K)
        (t.addRef i 1, (K (.transfer (some i) q) k).2) = _ at h
      rw [run_drop_grabbed href] at h
      obtain ⟨hout, hs⟩ := Prod.mk.inj (Option.some.inj h)
      obtain ⟨rfl, rfl⟩ := Prod.mk.inj hs
      obtain ⟨rfl, rfl⟩ := Prod.mk.inj hout
      exact ⟨rfl, .moved sl i hopen hentry rfl⟩

theorem append_nil (f : ℤ → List UInt8) (o : Option ℤ) : append f [] o = f := by
  cases o with
  | none => rfl
  | some uid =>
    rw [append, List.append_nil]
    exact Function.update_eq_self uid f

theorem take_ending (x : Transfer) {bytes : List UInt8} (type : ErrorType) (h : x.data <+: bytes) :
    bytes.take (ending net type x.ret).ret.toNat = x.data := by
  cases x with
  | failed n =>
    have hneg : (Transfer.failed n).ret < 0 := Int.negSucc_lt_zero n
    rw [ending, if_pos hneg]
    rfl
  | moved data =>
    have hpos : ¬ (Transfer.moved data).ret < 0 := not_lt.mpr (Int.natCast_nonneg _)
    rw [ending, if_neg hpos]
    exact (List.prefix_iff_eq_take.mp h).symm

theorem readPlain_entry {len : ℕ} {d : DescriptorTranslation} {type : ErrorType} {q : Request}
    (h : (readPlain len).entry d = some (type, q)) :
    (∃ n, d.object.asPipe = some d.sceUid ∧ q = .receiveMsgPipe d.sceUid n) ∨
      d.object.asPipe = none ∧ ∀ i, ¬ (KernelAsk.transfer i q).MovesPipe := by
  unfold DescriptorTranslation.object
  rcases (readPlain_streamed len).asked h with ⟨htype, -, rfl⟩ | ⟨htype, -, rfl⟩ |
    ⟨htype, -, rfl⟩ | ⟨htype, -, rfl⟩
  all_goals rw [htype]
  · exact .inr ⟨rfl, fun _ ↦ id⟩
  · exact .inr ⟨rfl, fun _ ↦ id⟩
  · exact .inr ⟨rfl, fun _ ↦ id⟩
  · exact .inl ⟨_, rfl, rfl⟩

theorem writePlain_entry {bytes : List UInt8} {d : DescriptorTranslation} {type : ErrorType}
    {q : Request} (h : (writePlain bytes).entry d = some (type, q)) :
    (d.object.asPipe = some d.sceUid ∧ q = .sendMsgPipe d.sceUid (bytes.take (4 * 4096))) ∨
      d.object.asPipe = none ∧ ∀ i, ¬ (KernelAsk.transfer i q).MovesPipe := by
  unfold DescriptorTranslation.object
  rcases (writePlain_streamed bytes).asked h with ⟨htype, -, rfl⟩ | ⟨htype, -, rfl⟩ |
    ⟨htype, -, rfl⟩ | ⟨htype, -, rfl⟩
  all_goals rw [htype]
  · exact .inr ⟨rfl, fun _ ↦ id⟩
  · exact .inr ⟨rfl, fun _ ↦ id⟩
  · exact .inr ⟨rfl, fun _ ↦ id⟩
  · exact .inl ⟨rfl, rfl⟩

theorem pipeAt_none (h : openAt t fd = none) : pipeAt t fd = none := by
  rw [pipeAt, h]
  rfl

theorem pipeAt_some {sl : Slot} {i : Entry} (h : openAt t fd = some (sl, i)) :
    pipeAt t fd = ((t.addRef i 1).pool i).object.asPipe := by
  rw [pipeAt, h, object_addRef]
  rfl

theorem read_moves (hK : Fifo K queue) {len : ℕ}
    (h : PlainOutcome net K (readPlain len) t fd k out data k') (uid : ℤ) :
    append (fun _ ↦ []) (data.take out.ret.toNat) (pipeAt t fd) uid ++ queue k' uid =
      queue k uid := by
  have hself : ∀ (x : Transfer) (type : ErrorType),
      x.data.take (ending net type x.ret).ret.toNat = x.data := fun x type ↦
    take_ending x type (List.prefix_refl _)
  cases h with
  | refused hopen hk =>
    rw [List.take_nil, append_nil]
    rcases hk with rfl | rfl
    · rfl
    · rw [hK.other _ _ id]
      rfl
  | handle hopen hq hx =>
    obtain rfl := Option.some.inj hq
    rw [pipeAt_none hopen, ← hx, hK.other _ _ id, hK.other _ _ id]
    rfl
  | directory => rw [List.take_nil, append_nil]; rfl
  | moved sl i hopen hentry hx =>
    rw [pipeAt_some hopen, hself]
    rcases readPlain_entry hentry with ⟨n, hpipe, rfl⟩ | ⟨hpipe, hq⟩
    · rw [hpipe]
      obtain ⟨hqueue, hother⟩ := hK.receive _ _ _ _ _ hx
      by_cases huid : uid = ((t.addRef i 1).pool i).sceUid
      · subst huid
        rw [append, Function.update_self]
        exact hqueue.symm
      · rw [append, Function.update_of_ne huid]
        exact hother uid huid
    · rw [hpipe, ← hx, hK.other _ _ (hq _)]
      rfl

theorem write_moves (hK : Fifo K queue) {bytes : List UInt8}
    (h : PlainOutcome net K (writePlain bytes) t fd k out data k') (uid : ℤ) :
    queue k' uid =
      queue k uid ++ append (fun _ ↦ []) (bytes.take out.ret.toNat) (pipeAt t fd) uid := by
  have hnone : append (fun _ ↦ []) (bytes.take 0) (pipeAt t fd) uid = [] := by
    rw [List.take_zero, append_nil]
  cases h with
  | refused hopen hk =>
    change _ = _ ++ append _ (bytes.take 0) _ _
    rw [hnone, List.append_nil]
    rcases hk with rfl | rfl
    · rfl
    · rw [hK.other _ _ id]
  | handle hopen hq hx =>
    obtain rfl := Option.some.inj hq
    rw [pipeAt_none hopen, ← hx, hK.other _ _ id, hK.other _ _ id]
    exact (List.append_nil _).symm
  | directory =>
    change _ = _ ++ append _ (bytes.take 0) _ _
    rw [hnone, List.append_nil]
  | moved sl i hopen hentry hx =>
    rw [pipeAt_some hopen]
    rcases writePlain_entry hentry with ⟨hpipe, rfl⟩ | ⟨hpipe, hq⟩
    · obtain ⟨hstart, hqueue, hother⟩ := hK.send _ _ _ _ _ hx
      rw [hpipe, take_ending _ _ (hstart.trans (List.take_prefix _ _))]
      by_cases huid : uid = ((t.addRef i 1).pool i).sceUid
      · subst huid
        rw [append, Function.update_self]
        exact hqueue
      · rw [append, Function.update_of_ne huid, hother uid huid, List.append_nil]
    · rw [hpipe, ← hx, hK.other _ _ (hq _)]
      exact (List.append_nil _).symm

theorem append_eq (f : ℤ → List UInt8) (data : List UInt8) (o : Option ℤ) (uid : ℤ) :
    append f data o uid = f uid ++ append (fun _ ↦ []) data o uid := by
  cases o with
  | none => exact (List.append_nil _).symm
  | some uid' =>
    by_cases h : uid = uid'
    · subst h
      simp only [append, Function.update_self, List.nil_append]
    · simp only [append, Function.update_of_ne h, List.append_nil]

/-- What has been sent has been received, but for what is still in the pipe. -/
structure Delivered (queue : σ → ℤ → List UInt8) (w : PipeWorld σ) : Prop where
  sane : Sane w.session
  owned : Owned w.session.table
  fifo : ∀ uid, Stands w.session.table (.msgPipe uid) →
    w.sent uid = w.received uid ++ queue w.kernel uid

theorem run_map {p : Call (Outcome × List UInt8)}
    (h : p.run (watch net K) (s, k) = some ((out, data), s', k')) :
    (Prod.fst <$> p).run (watch net K) (s, k) = some (out, s', k') := by
  change (p >>= fun r ↦ .ret r.1).run _ _ = _
  rw [Program.run_bind, h]
  rfl

theorem alive_append {calls calls' : List KernelCall} {o : KernelObject}
    (h : alive (calls ++ calls') o) : .created o ∈ calls ∨ alive calls' o := by
  induction calls with
  | nil => exact .inr h
  | cons call calls ih =>
    cases call with
    | created o' =>
      rcases h with rfl | h
      · exact .inl List.mem_cons_self
      · exact (ih h).imp_left (List.mem_cons_of_mem _)
    | close o' r => exact (ih h.1).imp_left (List.mem_cons_of_mem _)

theorem Delivered.read (hK : Fifo K queue) (h : Delivered queue w) {len : ℕ}
    (hrun : ((readPlain len).steps net fd).run (watch net K) (w.session, w.kernel) =
      some ((out, data), s', k')) : Delivered queue ⟨s', k', w.sent,
      append w.received (data.take out.ret.toNat) (pipeAt w.session.table fd)⟩ := by
  obtain ⟨htable, hout⟩ := Plain.outcome h.owned.counts.inUse (run_serve hrun)
  have hcall : SessionCall.Runs net w.session (.use (.read fd len)) s' :=
    .use _ K _ _ out s' (run_map hrun)
  have hfits : (SessionCall.use (.read fd len)).Fits w.session := fun _ _ ↦ ofType_true
  refine ⟨SessionCall.sane h.sane hfits hcall, SessionCall.owned h.sane h.owned hfits trivial hcall,
    fun uid huid ↦ ?_⟩
  dsimp only at huid ⊢
  rw [htable] at huid
  rw [h.fifo uid huid, append_eq, List.append_assoc, read_moves hK hout]

theorem Delivered.write (hK : Fifo K queue) (h : Delivered queue w) {bytes : List UInt8}
    (hrun : ((writePlain bytes).steps net fd).run (watch net K) (w.session, w.kernel) =
      some ((out, data), s', k')) : Delivered queue ⟨s', k',
      append w.sent (bytes.take out.ret.toNat) (pipeAt w.session.table fd), w.received⟩ := by
  obtain ⟨htable, hout⟩ := Plain.outcome h.owned.counts.inUse (run_serve hrun)
  have hcall : SessionCall.Runs net w.session (.use (.write fd bytes)) s' :=
    .use _ K _ _ out s' (run_map hrun)
  have hfits : (SessionCall.use (.write fd bytes)).Fits w.session := fun _ _ ↦ ofType_true
  refine ⟨SessionCall.sane h.sane hfits hcall, SessionCall.owned h.sane h.owned hfits trivial hcall,
    fun uid huid ↦ ?_⟩
  dsimp only at huid ⊢
  rw [htable] at huid
  rw [append_eq, h.fifo uid huid, List.append_assoc, write_moves hK hout]

theorem FdCall.calls_eq (hsane : Sane s) (hcounts : Counts s.table fun _ ↦ 0) {c : FdCall}
    (hfits : (SessionCall.use c).Fits s)
    (hrun : (c.steps net).run (watch net K) (s, k) = some (out, s', k')) :
    s'.table.calls = s.table.calls := by
  by_cases hdup : c.Duplicates
  · obtain ⟨fd, arg, -, htable⟩ := FdCall.dupfd hdup hrun
    rw [htable]
    split
    · rfl
    · have hout := duplicateDescriptor_outcome s.table fd arg
      generalize duplicateDescriptor s.table fd arg = res at hout ⊢
      cases hout <;> rfl
  · exact (FdCall.quiet hcounts hsane hdup hfits hrun).calls

theorem Delivered.use (hK : Fifo K queue) (h : Delivered queue w) {c : FdCall} (hc : ¬ c.Streams)
    (hfits : (SessionCall.use c).Fits w.session)
    (hrun : (c.steps net).run (watch net K) (w.session, w.kernel) = some (out, s', k')) :
    Delivered queue ⟨s', k', w.sent, w.received⟩ := by
  have ht : InUse w.session.table := h.owned.counts.inUse
  have hqueue : queue k' = queue w.kernel := FdCall.run_still ht hc hfits hK.other (run_serve hrun)
  have hcall : SessionCall.Runs net w.session (.use c) s' := .use c K _ _ out s' hrun
  have howned := SessionCall.owned h.sane h.owned hfits trivial hcall
  refine ⟨SessionCall.sane h.sane hfits hcall, howned, fun uid huid ↦ ?_⟩
  have halive := (howned.stands (.msgPipe uid) trivial).mpr huid
  rw [FdCall.calls_eq h.sane h.owned.counts hfits hrun] at halive
  dsimp only
  rw [hqueue]
  exact h.fifo uid ((h.owned.stands (.msgPipe uid) trivial).mp halive)

theorem Delivered.call (h : Delivered queue w) {c : SessionCall} (hfits : c.Fits w.session)
    (hkeeps : c.Keeps net w.session) (hrun : c.Runs net w.session s') {calls : List KernelCall}
    (hcalls : s'.table.calls = calls ++ w.session.table.calls)
    (hk : ∀ uid, alive s'.table.calls (.msgPipe uid) →
      queue k' uid = renew calls (queue w.kernel) uid) :
    Delivered queue ⟨s', k', renew calls w.sent, renew calls w.received⟩ := by
  have howned := SessionCall.owned h.sane h.owned hfits hkeeps hrun
  refine ⟨SessionCall.sane h.sane hfits hrun, howned, fun uid huid ↦ ?_⟩
  have halive := (howned.stands (.msgPipe uid) trivial).mpr huid
  dsimp only
  rw [hk uid halive]
  unfold renew
  by_cases hnew : .created (.msgPipe uid) ∈ calls
  · simp only [if_pos hnew, List.append_nil]
  · simp only [if_neg hnew]
    rw [hcalls] at halive
    have hold := (alive_append halive).resolve_left hnew
    exact h.fifo uid ((h.owned.stands (.msgPipe uid) trivial).mp hold)

/-- Whatever descriptors a program uses for a pipe, `read` returns the bytes that `write` has taken,
each once and in their order; what is missing is still in the pipe. -/
theorem pipes_fifo (net : NetErrno → ℤ) {σ : Type} (K : (q : KernelAsk) → σ → q.Answer × σ)
    (queue : σ → ℤ → List UInt8) (hK : Fifo K queue) (stdin stdout stderr : ℤ) (k : σ)
    (w : PipeWorld σ) (h : ReflTransGen (PipeStep net K queue)
      ⟨Session.init stdin stdout stderr, k, fun _ ↦ [], fun _ ↦ []⟩ w) :
    ∀ uid, Stands w.session.table (.msgPipe uid) →
      w.sent uid = w.received uid ++ queue w.kernel uid := by
  suffices hdelivered : Delivered queue w from hdelivered.fifo
  induction h with
  | refl =>
    have howned := Owned.initFd stdin stdout stderr
    refine ⟨sane_init stdin stdout stderr, howned, fun uid huid ↦ ?_⟩
    exact ((howned.stands (.msgPipe uid) trivial).mpr huid).elim
  | tail _ hstep ih =>
    cases hstep with
    | read fd len hrun => exact ih.read hK hrun
    | write fd bytes hrun => exact ih.write hK hrun
    | use c hc hfits hrun => exact ih.use hK hc hfits hrun
    | call c _ hfits hkeeps hrun calls hcalls k' hk => exact ih.call hfits hkeeps hrun hcalls hk

end

/-- A kernel whose pipes take everything. -/
def pipes : (q : KernelAsk) → (ℤ → List UInt8) → q.Answer × (ℤ → List UInt8)
  | .transfer _ (.receiveMsgPipe uid len), k =>
    (.moved ((k uid).take len), Function.update k uid ((k uid).drop len))
  | .transfer _ (.sendMsgPipe uid bytes), k =>
    (.moved bytes, Function.update k uid (k uid ++ bytes))
  | q, k => (q.quiet, k)

theorem fifo_pipes : Fifo pipes id where
  receive i uid len k x hx := by
    subst hx
    refine ⟨?_, fun uid' h ↦ Function.update_of_ne h _ _⟩
    change k uid = (k uid).take len ++ Function.update k uid _ uid
    rw [Function.update_self, List.take_append_drop]
  send i uid bytes k x hx := by
    subst hx
    exact ⟨List.prefix_refl _, Function.update_self _ _ _, fun uid' h ↦ Function.update_of_ne h _ _⟩
  other q k hq := by
    cases q with
    | transfer i q => cases q <;> first | rfl | exact absurd trivial hq
    | _ => rfl

def withPipe : Session :=
  ⟨(pipe 0 (initFd 0 1 2) granting).2, (Session.init 0 1 2).piped 7,
    Session.undone (initFd 0 1 2) (pipe 0 (initFd 0 1 2) granting).2 (.msgPipe 7) ++ []⟩

theorem withPipe_entry : openAt withPipe.table 3 = some (3, 3) ∧
    openAt withPipe.table 4 = some (4, 3) ∧ withPipe.table.pool 3 = ⟨7, .PIPE, 2⟩ := by
  decide +kernel

/-- Three bytes are written, and two of them read. -/
theorem pipes_fifo_withPipe : ∃ w : PipeWorld (ℤ → List UInt8),
    w.sent 7 = [1, 2, 3] ∧ w.received 7 = [1, 2] ∧ w.sent 7 = w.received 7 ++ w.kernel 7 := by
  obtain ⟨hopen, hopen', hentry⟩ := withPipe_entry
  have hk : granting.Sound (Session.init 0 1 2).table := by
    constructor <;> simp [granting, Session.init, initFd, alive]
  have hav : Available (Session.init 0 1 2).table := ⟨⟨3, by decide, by decide⟩, 3, by decide⟩
  have htwo : TwoFree (Session.init 0 1 2).table := ⟨3, 4, by decide, by decide, by decide⟩
  have hkeeps : (SessionCall.pipe granting).Keeps 0 (Session.init 0 1 2) :=
    ⟨hk, fun _ ↦ ⟨fun _ ↦ htwo, fun hno ↦ absurd hav hno⟩⟩
  have hruns : SessionCall.Runs 0 (Session.init 0 1 2) (.pipe granting) withPipe := .pipe granting
  have hpipe : PipeStep 0 pipes id ⟨Session.init 0 1 2, fun _ ↦ [], fun _ ↦ [], fun _ ↦ []⟩ _ :=
    .call _ (.pipe granting) (fun _ h ↦ by cases h) trivial hkeeps hruns [.created (.msgPipe 7)]
      (by decide +kernel) (fun _ ↦ []) fun _ _ ↦ by simp [renew]
  have ht : InUse withPipe.table :=
    (SessionCall.owned (sane_init 0 1 2) (.initFd 0 1 2) (c := .pipe granting) trivial hkeeps
      hruns).counts.inUse
  have hwrite : (writePlain [1, 2, 3]).entry ((withPipe.table.addRef 3 1).pool 3) =
      some (.GENERIC, .sendMsgPipe 7 [1, 2, 3]) := by
    simp [Table.addRef, hentry, writePlain]
  obtain ⟨s₁, htable, hrun⟩ : ∃ s', s'.table = withPipe.table ∧
      ((writePlain [1, 2, 3]).steps 0 4).run (watch 0 pipes) (withPipe, fun _ ↦ []) =
        some (_, s', _) :=
    run_watch (Plain.run_moved ht hopen' hwrite
      (x := (.moved [1, 2, 3], Function.update (fun _ ↦ []) 7 [1, 2, 3])) rfl)
  have hread : (readPlain 2).entry ((s₁.table.addRef 3 1).pool 3) =
      some (.GENERIC, .receiveMsgPipe 7 2) := by
    simp [htable, Table.addRef, hentry, readPlain]
  obtain ⟨s₂, htable', hrun'⟩ : ∃ s', s'.table = s₁.table ∧
      ((readPlain 2).steps 0 3).run (watch 0 pipes)
        (s₁, Function.update (fun _ ↦ []) 7 [1, 2, 3]) = some (_, s', _) :=
    run_watch (Plain.run_moved (htable ▸ ht) (htable ▸ hopen) hread
      (x := (.moved [1, 2], Function.update (Function.update (fun _ ↦ []) 7 [1, 2, 3]) 7 [3])) rfl)
  have hpipeAt : pipeAt withPipe.table 4 = some 7 ∧ pipeAt s₁.table 3 = some 7 := by
    simp [pipeAt, htable, hopen, hopen', hentry, DescriptorTranslation.object,
      KernelObject.asPipe]
  have hstands : Stands s₂.table (.msgPipe 7) := by
    rw [htable', htable]
    exact ⟨3, 3, (openAt_eq_some.mp hopen).2, by rw [hentry]; rfl⟩
  refine ⟨_, ?_, ?_, pipes_fifo 0 pipes id fifo_pipes 0 1 2 _ _
    (.tail (.tail (.single hpipe) (.write ⟨withPipe, _, _, _⟩ 4 [1, 2, 3] hrun))
      (.read ⟨s₁, _, _, _⟩ 3 2 hrun')) 7 hstands⟩
  · simp [hpipeAt, append, renew, ending, Transfer.ret]
  · simp [hpipeAt, append, renew, ending, Transfer.ret, Transfer.data]

end SceLibcPosix.Descriptor
