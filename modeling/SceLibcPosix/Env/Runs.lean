import SceLibcPosix.Env.Map

namespace SceLibcPosix.Env

open Errno Heaps Keyed

/-- A run: the calls with what they have returned, and the state that is left. -/
def run (m : State) : List (Call × Answers) → List (Call × ℤ) × State
  | [] => ([], m)
  | (c, k) :: calls =>
    let res := c.run m k
    let rest := run res.2 calls
    ((c, res.1) :: rest.1, rest.2)

def after (lent : ℕ → CString) (calls : List (Call × Answers)) : State :=
  (run (initEnv lent) calls).2

def returned (lent : ℕ → CString) (calls : List (Call × Answers)) : List (Call × ℤ) :=
  (run (initEnv lent) calls).1

/-- The assignments of a run that have succeeded and are not undone. -/
def assigned (lent : ℕ → CString) (b : Bindings) (log : List (Call × ℤ)) : Bindings :=
  log.foldl (fun b x ↦ x.1.effect lent b x.2) b

def Call.On (lent : ℕ → CString) : Call → CString → Prop
  | setenv var _ _, name => var = some name
  | putenv n, name => nameOf (lent n) = name
  | unsetenv name', name => name' = name
  | clearenv, _ => True
  | getenv _, _ => False

/-- `environ` is `NULL` or the one array that has not been freed. -/
structure OneArray (m : State) : Prop where
  sound : m.arrays.Sound
  live : ∀ a ∈ m.oldenv, m.arrays.Live a
  current : m.environ = none ∨ m.environ = m.oldenv

section

variable {lent : ℕ → CString} {m m' : State} {k : Answers} {name : CString}

theorem OneArray.same (hm : OneArray m) (harrays : m'.arrays = m.arrays)
    (hold : m'.oldenv = m.oldenv) (henv : m'.environ = none ∨ m'.environ = m.environ) :
    OneArray m' := by
  refine ⟨harrays ▸ hm.sound, fun a ha ↦ harrays ▸ hm.live a (hold ▸ ha), ?_⟩
  rcases henv with henv | henv
  · exact .inl henv
  · rw [henv, hold]
    exact hm.current

theorem OneArray.rmAdd (hm : OneArray m) (old new : Option Pointer) :
    OneArray (envRmAdd m k old new) := by
  obtain ⟨errno, strings, l, h⟩ := envRmAdd_frame m k old new
  rw [h]
  exact hm.same rfl rfl (.inr rfl)

theorem OneArray.release (hm : OneArray m) (es : List Pointer) : OneArray (m.release k es) := by
  obtain ⟨errno, strings, l, h⟩ := release_frame (k := k) es m
  rw [h]
  exact hm.same rfl rfl (.inr rfl)

theorem OneArray.setTable (hm : OneArray m) (c : List (Option Pointer)) :
    OneArray (m.setTable c) := by
  unfold State.setTable
  split
  · exact hm
  · exact hm.same rfl rfl (.inr rfl)

theorem OneArray.grown (hm : OneArray m) {i : ℕ} {a : Pointer}
    (h : (newTable m k i).1 = some a) (c : List (Option Pointer)) :
    OneArray (m.grown a (newTable m k i).2.1 c) := by
  have hnew : a = .block m.arrays.next ∧
      (newTable m k i).2.1 =
        ({ m.arrays with next := m.arrays.next + 1 } : Heap).free m.oldenv := by
    by_cases heq : m.environ = m.oldenv
    · rw [newTable, if_pos heq] at h ⊢
      cases hk : k.array with
      | false => simp [Heap.realloc, hk] at h
      | true => simpa [Heap.realloc, hk, eq_comm] using h
    · rw [newTable, if_neg heq] at h ⊢
      cases hk : k.array with
      | false => simp [Heap.malloc, hk] at h
      | true => simpa [Heap.malloc, hk, eq_comm] using h
  rw [hnew.1, hnew.2]
  have hsucc := hm.sound.succ
  have hlive : ({ m.arrays with next := m.arrays.next + 1 } : Heap).Live (.block m.arrays.next) :=
    hm.sound.live_succ.mpr (.inr rfl)
  cases hold : m.oldenv with
  | none => exact ⟨hsucc, fun a ha ↦ Option.mem_some_iff.mp ha ▸ hlive, .inr rfl⟩
  | some b =>
    have hb := hm.live b hold
    have hne : Pointer.block m.arrays.next ≠ b := fun heq ↦ Heap.not_allocated_next (heq ▸ hb.1)
    refine ⟨hsucc.free (hm.sound.live_succ.mpr (.inl hb)), fun a ha ↦ ?_, .inr rfl⟩
    exact Option.mem_some_iff.mp ha ▸ Heap.live_free.mpr ⟨hlive, hne⟩

theorem OneArray.putenv' (hm : OneArray m) (s : Pointer) (l : ℕ) (r : Option Pointer) :
    OneArray (Env.putenv' m k s l r).2 := by
  unfold Env.putenv'
  dsimp only
  split
  · exact (hm.setTable _).rmAdd _ _
  split
  · exact hm.same rfl rfl (.inr rfl)
  next a ha =>
  have hgrown := hm.grown ha ((newTable m k m.env.length).2.2 ++ [some s, none])
  split
  · exact hgrown
  · exact hgrown.rmAdd _ _

theorem OneArray.unsetenv (hm : OneArray m) (name : CString) :
    OneArray (Env.unsetenv m k name).2 := by
  unfold Env.unsetenv
  dsimp only
  split
  · exact hm.same rfl rfl (.inr rfl)
  · rw [unsetLoop_eq]
    exact (hm.release _).setTable _

theorem OneArray.step (hm : OneArray m) (c : Call) : OneArray (c.run m k).2 := by
  cases c with
  | setenv var value overwrite =>
    dsimp only [Call.run]
    rcases setenv_cases m k var value overwrite with ⟨e, h⟩ | ⟨h, -⟩ | ⟨name, -, -, -, h⟩
    · rw [h]
      exact hm.same rfl rfl (.inr rfl)
    · rw [h]
      exact hm
    · rw [h]
      refine OneArray.putenv' ?_ _ _ _
      exact hm.same rfl rfl (.inr rfl)
  | putenv n =>
    dsimp only [Call.run, Env.putenv]
    split
    · exact hm.unsetenv _
    · exact hm.putenv' _ _ _
  | unsetenv name => exact hm.unsetenv name
  | clearenv =>
    refine OneArray.release (m := { m with environ := none }) ?_ m.env
    exact hm.same rfl rfl (.inl rfl)
  | getenv name => exact hm

theorem wellFormed_init (lent : ℕ → CString) : WellFormed lent (initEnv lent) where
  terminated := .inl rfl
  binds := by simp [env_null (m := initEnv lent) rfl]
  distinct := List.nodup_nil
  placed := by simp [env_null (m := initEnv lent) rfl]
  lent := fun _ ↦ rfl

theorem oneArray_init (lent : ℕ → CString) : OneArray (initEnv lent) :=
  ⟨Heap.sound_empty, nofun, .inl rfl⟩

theorem getenv_init (lent : ℕ → CString) : getenv (initEnv lent) = fun _ ↦ none := by
  funext name
  simp [getenv, env_null (m := initEnv lent) rfl]

theorem WellFormed.run (hm : WellFormed lent m) (calls : List (Call × Answers)) :
    WellFormed lent (Env.run m calls).2 ∧
      getenv (Env.run m calls).2 = assigned lent (getenv m) (Env.run m calls).1 := by
  induction calls generalizing m with
  | nil => exact ⟨hm, rfl⟩
  | cons call calls ih =>
    obtain ⟨c, k⟩ := call
    obtain ⟨hwf, hget⟩ := hm.step (k := k) c
    obtain ⟨hwf', hget'⟩ := ih hwf
    refine ⟨hwf', hget'.trans ?_⟩
    rw [hget]
    rfl

theorem OneArray.run (hm : OneArray m) (calls : List (Call × Answers)) :
    OneArray (Env.run m calls).2 := by
  induction calls generalizing m with
  | nil => exact hm
  | cons call calls ih => exact ih (hm.step call.1)

theorem OneArray.environ (hm : OneArray m) : ∀ a ∈ m.environ, m.arrays.Live a := by
  intro a ha
  rcases hm.current with hnull | hold
  · rw [hnull] at ha
    cases ha
  · exact hm.live a (hold ▸ ha)

theorem nameOf_whole {t : CString} (h : equalsSign ∉ t) : nameOf t = t := by
  refine List.take_of_length_le ?_
  have hno := mt strchrnul_lt.mp h
  omega

theorem effect_other {c : Call} (h : ¬ c.On lent name) (b : Bindings) (ret : ℤ) :
    c.effect lent b ret name = b name := by
  unfold Call.effect
  split
  · rfl
  cases c with
  | setenv var value overwrite =>
    cases var with
    | none => rfl
    | some var =>
      have hne : name ≠ var := fun heq ↦ h (congrArg some heq.symm)
      dsimp only
      split
      · exact Function.update_of_ne hne _ _
      · rfl
  | putenv n =>
    have hne : name ≠ nameOf (lent n) := fun heq ↦ h heq.symm
    dsimp only
    split
    · exact Function.update_of_ne hne _ _
    · next hno =>
      rw [nameOf_whole hno] at hne
      exact Function.update_of_ne hne _ _
  | unsetenv name' => exact Function.update_of_ne (fun heq ↦ h heq.symm) _ _
  | clearenv => exact absurd trivial h
  | getenv name' => rfl

theorem effect_keeps {var value : CString} (b : Bindings) (ret : ℤ) (h : b var ≠ none) :
    (Call.setenv (some var) value false).effect lent b ret = b := by
  simp [Call.effect, h]

end

theorem environment_map (lent : ℕ → CString) (calls : List (Call × Answers)) :
    ((after lent calls).environ = none ∨ none ∈ (after lent calls).table) ∧
    (∀ a ∈ (after lent calls).environ, (after lent calls).arrays.Live a) ∧
    (∀ e ∈ (after lent calls).env, (after lent calls).key e ≠ []) ∧
    ((after lent calls).env.map (after lent calls).key).Nodup ∧
    getenv (after lent calls) = assigned lent (fun _ ↦ none) (returned lent calls) ∧
    (∀ (k : Answers) (var value : CString), getenv (after lent calls) var ≠ none →
      getenv (setenv (after lent calls) k (some var) value false).2 = getenv (after lent calls)) ∧
    (∀ (c : Call) (k : Answers) (name : CString), ¬ c.On lent name →
      getenv (c.run (after lent calls) k).2 name = getenv (after lent calls) name) ∧
    ∀ (c : Call) (k : Answers), (c.run (after lent calls) k).1 = -1 →
      getenv (c.run (after lent calls) k).2 = getenv (after lent calls) := by
  obtain ⟨hwf, hget⟩ := (wellFormed_init lent).run calls
  have harray := (oneArray_init lent).run calls
  rw [getenv_init] at hget
  refine ⟨hwf.terminated, harray.environ, fun e he ↦ (hwf.binds e he).2, hwf.distinct, hget,
    fun k var value hbound ↦ ?_, fun c k name hother ↦ ?_, fun c k hret ↦ ?_⟩
  · have hstep := (hwf.step (k := k) (.setenv (some var) value false)).2
    exact hstep.trans (effect_keeps _ _ hbound)
  · have hstep := (hwf.step (k := k) c).2
    exact (congrFun hstep name).trans (effect_other hother _ _)
  · exact (hwf.step (k := k) c).2.trans (if_pos hret)

end SceLibcPosix.Env
