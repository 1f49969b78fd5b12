import SceLibcPosix.Env.Runs

namespace SceLibcPosix.Env

open Errno Heaps Keyed

/-- Each string that is not freed is in the list once, but for `r`, which is not yet in it. -/
structure Listed (m : State) (r : Option Pointer) : Prop where
  sound : m.strings.Sound
  live : ∀ p, m.strings.Live p → m.envAlloced.count (some p) + r.toList.count p = 1
  dead : ∀ p, ¬ m.strings.Live p → m.envAlloced.count (some p) + r.toList.count p = 0

/-- These strings, but for `r`, are the ones in the environment that the program does not own. -/
structure Owned (m : State) (r : Option Pointer) : Prop extends Listed m r where
  present : ∀ n, .block n ∈ m.env ↔ m.strings.Live (.block n) ∧ r ≠ some (.block n)

section

variable {lent : ℕ → CString} {m m' : State} {k : Answers} {old new r : Option Pointer}
  {p q s : Pointer} {name : CString}

theorem Listed.same (hm : Listed m r) (hstrings : m'.strings = m.strings)
    (hlist : m'.envAlloced = m.envAlloced) : Listed m' r := by
  obtain ⟨hsound, hlive, hdead⟩ := hm
  constructor
  · rwa [hstrings]
  · rwa [hstrings, hlist]
  · rwa [hstrings, hlist]

theorem Listed.mem (hm : Listed m r) (hp : m.strings.Live p) (hne : r ≠ some p) :
    some p ∈ m.envAlloced := by
  refine List.count_pos_iff.mp ?_
  have hcount := hm.live p hp
  have hzero : r.toList.count p = 0 := List.count_eq_zero.mpr fun h ↦ hne (Option.mem_toList.mp h)
  omega

theorem Listed.live_of_mem (hm : Listed m r) (hp : some p ∈ m.envAlloced) : m.strings.Live p := by
  by_contra hdead
  have hcount := hm.dead p hdead
  have hpos := List.count_pos_iff.mpr hp
  omega

theorem Listed.pending (hm : Listed m (some p)) :
    m.strings.Live p ∧ some p ∉ m.envAlloced := by
  have hlive : m.strings.Live p := by
    by_contra hdead
    have hcount := hm.dead p hdead
    simp at hcount
  refine ⟨hlive, List.count_eq_zero.mp ?_⟩
  have hcount := hm.live p hlive
  simpa using hcount

theorem envRmAdd_live : (envRmAdd m k old new).strings.Live q ↔
    m.strings.Live q ∧ ¬ (old = some q ∧ old ∈ m.envAlloced) := by
  rw [envRmAdd_strings]
  split
  · next h =>
    cases old with
    | none => simp
    | some p => simp [Heap.live_free, h, eq_comm]
  · next h => simp [h]

theorem Listed.rmAdd (old : Option Pointer) (hm : Listed m new) (hk : k.list = true) :
    Listed (envRmAdd m k old new) none := by
  refine ⟨?_, fun q hq ↦ ?_, fun q hq ↦ ?_⟩
  · rw [envRmAdd_strings]
    split
    · next h =>
      cases old with
      | none => exact hm.sound
      | some p => exact hm.sound.free (hm.live_of_mem h)
    · exact hm.sound
  · obtain ⟨hq, hkept⟩ := envRmAdd_live.mp hq
    have hcount := envRmAdd_count (m := m) old new q hk
    have hone := hm.live q hq
    have hzero : (if old ∈ m.envAlloced then old.toList.count q else 0) = 0 := by
      split
      · next h =>
        refine List.count_eq_zero.mpr fun hmem ↦ hkept ⟨?_, h⟩
        exact Option.mem_toList.mp hmem
      · rfl
    simp only [Option.toList_none, List.count_nil]
    omega
  · have hcount := envRmAdd_count (m := m) old new q hk
    simp only [Option.toList_none, List.count_nil]
    by_cases hlive : m.strings.Live q
    · obtain ⟨hold, hmem⟩ := not_not.mp fun h ↦ hq (envRmAdd_live.mpr ⟨hlive, h⟩)
      have hone := hm.live q hlive
      rw [if_pos hmem, hold] at hcount
      simp only [Option.toList_some, List.count_singleton_self] at hcount
      rw [hold]
      omega
    · have hzero := hm.dead q hlive
      omega

theorem Listed.release (hm : Listed m none) (hk : k.list = true) (es : List Pointer) :
    Listed (m.release k es) none ∧
      ∀ q, (m.release k es).strings.Live q ↔ m.strings.Live q ∧ q ∉ es := by
  induction es generalizing m with
  | nil => exact ⟨hm, by simp [State.release]⟩
  | cons e es ih =>
    obtain ⟨hlisted, hlive⟩ := ih (hm.rmAdd (some e) hk)
    refine ⟨hlisted, fun q ↦ (hlive q).trans ?_⟩
    rw [envRmAdd_live, List.mem_cons, not_or, and_assoc]
    refine and_congr_right fun hq ↦ and_congr_left fun _ ↦ not_congr ?_
    constructor
    · rintro ⟨heq, -⟩
      exact (Option.some.inj heq).symm
    · rintro rfl
      exact ⟨rfl, hm.mem hq (Option.some_ne_none q).symm⟩

theorem Listed.fail (hm : Listed m r) :
    Listed { m with strings := m.strings.free r, errno := ENOMEM } none := by
  refine ⟨?_, fun q hq ↦ ?_, fun q hq ↦ ?_⟩
  · cases r with
    | none => exact hm.sound
    | some p => exact hm.sound.free hm.pending.1
  · obtain ⟨hq, hne⟩ := Heap.live_free_option.mp hq
    have hcount := hm.live q hq
    have hzero : r.toList.count q = 0 :=
      List.count_eq_zero.mpr fun h ↦ hne (Option.mem_toList.mp h)
    rw [hzero] at hcount
    exact hcount
  · by_cases hlive : m.strings.Live q
    · have hr := not_not.mp fun h ↦ hq (Heap.live_free_option.mpr ⟨hlive, h⟩)
      subst hr
      exact List.count_eq_zero.mpr hm.pending.2
    · have hcount := hm.dead q hlive
      simp only [Option.toList_none, List.count_nil]
      omega

theorem Listed.owned (hm : Listed m none)
    (henv : ∀ n, .block n ∈ m.env ↔ m.strings.Live (.block n)) : Owned m none := by
  refine ⟨hm, fun n ↦ ?_⟩
  rw [and_iff_left (Option.some_ne_none _).symm]
  exact henv n

theorem Owned.mem_env (hm : Owned m none) {n : ℕ} :
    .block n ∈ m.env ↔ m.strings.Live (.block n) :=
  (hm.present n).trans (and_iff_left (Option.some_ne_none _).symm)

theorem Owned.same (hm : Owned m r) (hstrings : m'.strings = m.strings)
    (hlist : m'.envAlloced = m.envAlloced) (henv : m'.env = m.env) : Owned m' r := by
  refine ⟨hm.toListed.same hstrings hlist, fun n ↦ ?_⟩
  rw [henv, hstrings]
  exact hm.present n

/-- What `__putenv` is given: a string of the program's, or a new one. -/
def Given (s : Pointer) (r : Option Pointer) : Prop := r = some s ∨ r = none ∧ ∃ n, s = .foreign n

theorem Given.block {n : ℕ} (h : Given s r) : .block n = s ↔ r = some (.block n) := by
  rcases h with rfl | ⟨rfl, n', rfl⟩
  · simp [eq_comm]
  · simp

theorem Owned.pending_block (hm : Owned m r) {n : ℕ} (hr : r = some (.block n)) :
    m.strings.Live (.block n) ∧ some (.block n) ∉ m.envAlloced := by
  subst hr
  exact hm.pending

theorem Owned.replaced (hm : Owned m r) (hdistinct : Distinct m.key m.env) (hs : Given s r)
    (hk : k.list = true) {tmp : Pointer} {c : List (Option Pointer)} (hmem : tmp ∈ m.env)
    (hkey : m.key tmp = m.key s) (hput : entries c = put m.key s m.env) :
    Owned (envRmAdd (m.setTable c) k (some tmp) r) none := by
  have hset : m.environ ≠ none := fun h ↦ by simp [env_null h] at hmem
  apply ((hm.toListed.same (setTable_strings c) (setTable_envAlloced c)).rmAdd _ hk).owned
  intro n
  rw [State.env, envRmAdd_table, setTable_table hset, hput,
    mem_put hdistinct, envRmAdd_live, setTable_strings, setTable_envAlloced, hs.block]
  constructor
  · rintro (hr | ⟨henv, hne⟩)
    · obtain ⟨hlive, hno⟩ := hm.pending_block hr
      refine ⟨hlive, ?_⟩
      rintro ⟨heq, hlisted⟩
      exact hno (heq ▸ hlisted)
    · refine ⟨((hm.present n).mp henv).1, ?_⟩
      rintro ⟨heq, -⟩
      exact hne (Option.some.inj heq ▸ hkey)
  · rintro ⟨hlive, hkept⟩
    by_cases hr : r = some (.block n)
    · exact .inl hr
    · have henv := (hm.present n).mpr ⟨hlive, hr⟩
      refine .inr ⟨henv, fun hsame ↦ hkept ?_⟩
      -- two entries with one name are one entry
      have htmp := hdistinct.unique henv hmem (hsame.trans hkey.symm)
      exact ⟨congrArg some htmp.symm, htmp ▸ hm.mem hlive hr⟩

theorem Owned.added (hm : Owned m r) (hs : Given s r) (hk : k.list = true) (a : Pointer)
    (arrays : Heap) {c : List (Option Pointer)} (hc : entries c = m.env ++ [s]) :
    Owned (if r = none then m.grown a arrays c else envRmAdd (m.grown a arrays c) k none r)
      none := by
  have hgrown : Listed (m.grown a arrays c) r := hm.toListed.same rfl rfl
  have henv : ∀ n, .block n ∈ entries c ↔ m.strings.Live (.block n) := by
    intro n
    rw [hc, List.mem_append, List.mem_singleton, hs.block, hm.present n]
    by_cases hr : r = some (.block n)
    · exact iff_of_true (.inr hr) (hm.pending_block hr).1
    · simp [hr]
  split
  · next hr =>
    subst hr
    apply hgrown.owned
    intro n
    rw [State.env, grown_table]
    exact henv n
  · apply (hgrown.rmAdd _ hk).owned
    intro n
    rw [State.env, envRmAdd_table, grown_table, henv n, envRmAdd_live]
    simp [State.grown]

theorem Owned.putenv' (hm : Owned m r) (hdistinct : Distinct m.key m.env) (hs : Given s r)
    (hk : k.list = true) {res : ℤ × State} (hres : PutOutcome m k s r res) : Owned res.2 none := by
  cases hres with
  | replaced tmp c hmem hkey hput hnull => exact hm.replaced hdistinct hs hk hmem hkey hput
  | failed =>
    apply hm.toListed.fail.owned
    intro n
    exact (hm.present n).trans Heap.live_free_option.symm
  | added a arrays c hnew hc hnull => exact hm.added hs hk a arrays hc

theorem Owned.unsetenv (hm : Owned m none) (hwf : WellFormed lent m) (hk : k.list = true)
    (name : CString) : Owned (Env.unsetenv m k name).2 none := by
  by_cases hname : ValidName name
  · obtain ⟨c, heq, hc, -⟩ := unsetenv_outcome (k := k) hwf.terminated hwf.binds hname
    obtain ⟨hlisted, hlive⟩ := hm.toListed.release hk (m.env.filter fun e ↦ m.key e = name)
    rw [heq]
    apply (hlisted.same (setTable_strings c) (setTable_envAlloced c)).owned
    intro n
    rw [released_env hc, mem_remove, setTable_strings, hlive]
    constructor
    · rintro ⟨hmem, hne⟩
      refine ⟨hm.mem_env.mp hmem, fun h ↦ hne ?_⟩
      simpa using (List.mem_filter.mp h).2
    · rintro ⟨hlive, hno⟩
      have hmem := hm.mem_env.mpr hlive
      exact ⟨hmem, fun heq ↦ hno (List.mem_filter.mpr ⟨hmem, by simpa using heq⟩)⟩
  · rw [unsetenv_invalid hname]
    exact hm.same rfl rfl rfl

theorem Owned.clearenv (hm : Owned m none) (hk : k.list = true) :
    Owned (Env.clearenv m k).2 none := by
  have hlisted : Listed ({ m with environ := none } : State) none := hm.toListed.same rfl rfl
  obtain ⟨hlisted', hlive⟩ := hlisted.release hk m.env
  apply hlisted'.owned
  intro n
  have henv : (({ m with environ := none } : State).release k m.env).env = [] :=
    env_null (release_environ m.env)
  have hno : Pointer.block n ∉ (({ m with environ := none } : State).release k m.env).env := by
    simp [henv]
  refine iff_of_false hno fun h ↦ ?_
  obtain ⟨hlive', hgone⟩ := (hlive (.block n)).mp h
  exact hgone (hm.mem_env.mpr hlive')

theorem Owned.written (hm : Owned m none) (t : CString) :
    Owned (m.written t) (some (.block m.strings.next)) := by
  have hnew : ¬ m.strings.Live (.block m.strings.next) := fun h ↦ Heap.not_allocated_next h.1
  have hlive : ∀ p, (m.written t).strings.Live p ↔
      m.strings.Live p ∨ p = .block m.strings.next := fun p ↦ hm.sound.live_succ
  refine ⟨⟨hm.sound.succ, fun p hp ↦ ?_, fun p hp ↦ ?_⟩, fun n ↦ ?_⟩
  · rcases (hlive p).mp hp with hp | rfl
    · have hne : p ≠ .block m.strings.next := fun heq ↦ hnew (heq ▸ hp)
      simpa [State.written, List.count_cons, hne.symm] using hm.live p hp
    · simpa [State.written] using hm.dead _ hnew
  · obtain ⟨hp, hne⟩ := not_or.mp (mt (hlive p).mpr hp)
    simpa [State.written, List.count_cons, Ne.symm hne] using hm.dead p hp
  · rw [hlive]
    refine hm.mem_env.trans ?_
    constructor
    · intro hlive
      exact ⟨.inl hlive, fun heq ↦ hnew (Option.some.inj heq ▸ hlive)⟩
    · rintro ⟨hlive | heq, hne⟩
      · exact hlive
      · exact absurd (congrArg some heq.symm) hne

theorem Owned.live_mem (hm : Owned m none) (hp : m.strings.Live p) : p ∈ m.env := by
  obtain ⟨n, -, rfl⟩ := hp.1
  exact hm.mem_env.mpr hp

theorem Owned.not_freed (hm : Owned m none) (hp : p ∈ m.env) : p ∉ m.strings.freed := by
  intro hfreed
  obtain ⟨n, -, rfl⟩ := hm.sound.own p hfreed
  exact (hm.mem_env.mp hp).2 hfreed

theorem Owned.setenv (hm : Owned m none) (hwf : WellFormed lent m) (hk : k.list = true)
    (var : Option CString) (value : CString) (overwrite : Bool) :
    Owned (Env.setenv m k var value overwrite).2 none := by
  rcases setenv_cases m k var value overwrite with ⟨e, h⟩ | ⟨h, -⟩ | ⟨name, -, hname, -, h⟩
  · rw [h]
    exact hm.same rfl rfl rfl
  · rw [h]
    exact hm
  · have hwritten := (hwf.written (name ++ equalsSign :: value)).1
    have howned := hm.written (name ++ equalsSign :: value)
    have hout := putenv'_outcome (k := k) (s := .block m.strings.next)
      (r := some (.block m.strings.next)) hwritten.terminated hwritten.binds (by simp)
    rw [written_text_new, ← h] at hout
    exact howned.putenv' hwritten.distinct (.inl rfl) hk hout

theorem Owned.putenv (hm : Owned m none) (hwf : WellFormed lent m) (hk : k.list = true) (n : ℕ) :
    Owned (Env.putenv m k n).2 none := by
  unfold Env.putenv
  dsimp only
  split
  · exact hm.unsetenv hwf hk _
  · next h =>
    exact hm.putenv' hwf.distinct (.inr ⟨rfl, n, rfl⟩) hk
      (putenv'_outcome hwf.terminated hwf.binds (binds_iff.mp h).1)

theorem Owned.step (hm : Owned m none) (hwf : WellFormed lent m) (hk : k.list = true) (c : Call) :
    Owned (c.run m k).2 none := by
  cases c with
  | setenv var value overwrite => exact hm.setenv hwf hk var value overwrite
  | putenv n => exact hm.putenv hwf hk n
  | unsetenv name => exact hm.unsetenv hwf hk name
  | clearenv => exact hm.clearenv hk
  | getenv name => exact hm

theorem grows_rmAdd (old new : Option Pointer) :
    m.strings.Grows (envRmAdd m k old new).strings := by
  rw [envRmAdd_strings]
  split
  · exact Heap.grows_free old
  · exact .refl _

theorem grows_release (es : List Pointer) (m : State) :
    m.strings.Grows (m.release k es).strings := by
  induction es generalizing m with
  | nil => exact .refl _
  | cons e es ih => exact (grows_rmAdd _ _).trans (ih _)

theorem grows_putenv' (s : Pointer) (l : ℕ) (r : Option Pointer) :
    m.strings.Grows (putenv' m k s l r).2.strings := by
  unfold putenv'
  dsimp only
  split
  · next tmp c _ =>
    have hgrows := grows_rmAdd (m := m.setTable c) (k := k) (some tmp) r
    rwa [setTable_strings] at hgrows
  split
  · exact Heap.grows_free r
  · split
    · exact .refl _
    · exact grows_rmAdd (m := m.grown _ _ _) _ _

theorem grows_unsetenv (name : CString) : m.strings.Grows (unsetenv m k name).2.strings := by
  unfold unsetenv
  dsimp only
  split
  · exact .refl _
  · rw [unsetLoop_eq, setTable_strings]
    exact grows_release _ m

theorem grows_step (c : Call) : m.strings.Grows (c.run m k).2.strings := by
  cases c with
  | setenv var value overwrite =>
    dsimp only [Call.run]
    rcases setenv_cases m k var value overwrite with ⟨e, h⟩ | ⟨h, -⟩ | ⟨name, -, -, -, h⟩
    · rw [h]
      exact .refl _
    · rw [h]
      exact .refl _
    · rw [h]
      exact Heap.grows_succ.trans (grows_putenv' (m := m.written _) _ _ _)
  | putenv n =>
    dsimp only [Call.run, Env.putenv]
    split
    · exact grows_unsetenv _
    · exact grows_putenv' _ _ _
  | unsetenv name => exact grows_unsetenv name
  | clearenv => exact grows_release m.env { m with environ := none }
  | getenv name => exact .refl _

theorem owned_init (lent : ℕ → CString) : Owned (initEnv lent) none := by
  have hdead : ∀ p, ¬ (initEnv lent).strings.Live p := by
    rintro p ⟨⟨n, hn, -⟩, -⟩
    exact Nat.not_lt_zero n hn
  refine ⟨⟨Heap.sound_empty, fun p hp ↦ absurd hp (hdead p), fun p hp ↦ rfl⟩, fun n ↦ ?_⟩
  refine iff_of_false ?_ fun h ↦ hdead _ h.1
  simp [env_null (m := initEnv lent) rfl]

theorem Owned.run (hm : Owned m none) (hwf : WellFormed lent m) (calls : List (Call × Answers))
    (hcalls : ∀ x ∈ calls, x.2.list = true) : Owned (Env.run m calls).2 none := by
  induction calls generalizing m with
  | nil => exact hm
  | cons x calls ih =>
    obtain ⟨hx, hcalls⟩ := List.forall_mem_cons.mp hcalls
    exact ih (hm.step hwf hx x.1) (hwf.step x.1).1 hcalls

end

/-- A run in which the list of strings can always grow. -/
theorem strings_owned (lent : ℕ → CString) (calls : List (Call × Answers))
    (hcalls : ∀ x ∈ calls, x.2.list = true) :
    (∀ p, (after lent calls).strings.Live p →
      (after lent calls).envAlloced.count (some p) = 1 ∧ p ∈ (after lent calls).env) ∧
    (after lent calls).strings.freed.Nodup ∧
    (∀ n, .foreign n ∉ (after lent calls).strings.freed) ∧
    (∀ p ∈ (after lent calls).env, p ∉ (after lent calls).strings.freed) ∧
    ∀ (c : Call) (k : Answers), k.list = true →
      (after lent calls).strings.freed <:+ (c.run (after lent calls) k).2.strings.freed ∧
      (∀ n, .block n ∈ (after lent calls).env →
        .block n ∉ (c.run (after lent calls) k).2.env →
        .block n ∈ (c.run (after lent calls) k).2.strings.freed) ∧
      ∀ p ∈ (c.run (after lent calls) k).2.strings.freed, p ∉ (after lent calls).strings.freed →
        p ∉ (c.run (after lent calls) k).2.env ∧
        (p ∈ (after lent calls).env ∨ ¬ (after lent calls).strings.Allocated p) := by
  have hwf := ((wellFormed_init lent).run calls).1
  have hm := (owned_init lent).run (wellFormed_init lent) calls hcalls
  change WellFormed lent (after lent calls) at hwf
  change Owned (after lent calls) none at hm
  generalize after lent calls = m at hwf hm ⊢
  refine ⟨fun p hp ↦ ⟨hm.live p hp, hm.live_mem hp⟩, hm.sound.once, fun n hn ↦ ?_,
    fun p hp ↦ hm.not_freed hp, fun c k hk ↦ ?_⟩
  · obtain ⟨n', -, heq⟩ := hm.sound.own _ hn
    cases heq
  have hm' := hm.step hwf hk c
  have hgrows := grows_step (m := m) (k := k) c
  refine ⟨hgrows.freed, fun n hn hgone ↦ ?_,
    fun p hp hkept ↦ ⟨fun h ↦ hm'.not_freed h hp, ?_⟩⟩
  · by_contra hkept
    have halloc := hgrows.allocated (hm.mem_env.mp hn).1
    exact hgone (hm'.live_mem ⟨halloc, hkept⟩)
  · by_cases halloc : m.strings.Allocated p
    · exact .inl (hm.live_mem ⟨halloc, hkept⟩)
    · exact .inr halloc

def assignedTwice : List (Call × Answers) :=
  [(.setenv (some [97]) [49] true, ⟨true, true, true⟩),
    (.setenv (some [97]) [50] true, ⟨true, true, true⟩)]

theorem strings_owned_assignedTwice :
    (after (fun _ ↦ []) assignedTwice).strings.freed = [.block 0] ∧
    (after (fun _ ↦ []) assignedTwice).env = [.block 1] ∧
    ∀ p, (after (fun _ ↦ []) assignedTwice).strings.Live p →
      (after (fun _ ↦ []) assignedTwice).envAlloced.count (some p) = 1 ∧
        p ∈ (after (fun _ ↦ []) assignedTwice).env :=
  ⟨by decide, by decide, (strings_owned _ _ (by decide)).1⟩

end SceLibcPosix.Env
