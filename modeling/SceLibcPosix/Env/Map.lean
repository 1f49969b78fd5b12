import SceLibcPosix.Env.Outcomes

namespace SceLibcPosix.Env

open Errno Heaps Keyed

inductive Call
  | setenv (var : Option CString) (value : CString) (overwrite : Bool)
  | putenv (n : ℕ)
  | unsetenv (name : CString)
  | clearenv
  | getenv (name : CString)
deriving DecidableEq, Repr

def Call.run (m : State) (k : Answers) : Call → ℤ × State
  | setenv var value overwrite => Env.setenv m k var value overwrite
  | putenv n => Env.putenv m k n
  | unsetenv name => Env.unsetenv m k name
  | clearenv => Env.clearenv m k
  | getenv _ => (0, m)

/-- The environment as a map. -/
abbrev Bindings := CString → Option CString

/-- What a call that has returned `ret` does to the map. -/
def Call.effect (lent : ℕ → CString) (b : Bindings) (ret : ℤ) (c : Call) : Bindings :=
  if ret = -1 then b
  else match c with
    | setenv none _ _ | getenv _ => b
    | setenv (some var) value overwrite =>
      if overwrite = true ∨ b var = none then Function.update b var (some value) else b
    | putenv n =>
      if equalsSign ∈ lent n then Function.update b (nameOf (lent n)) (some (valueOf (lent n)))
      else Function.update b (lent n) none
    | unsetenv name => Function.update b name none
    | clearenv => fun _ ↦ none

/-- What holds of the environment in every state. Its strings bind distinct names. -/
structure WellFormed (lent : ℕ → CString) (m : State) : Prop where
  terminated : m.environ = none ∨ none ∈ m.table
  binds : ∀ e ∈ m.env, Binds (m.text e)
  distinct : Distinct m.key m.env
  placed : ∀ n, .block n ∈ m.env → n < m.strings.next
  lent : ∀ n, m.text (.foreign n) = lent n

section

variable {lent : ℕ → CString} {m m' : State} {k : Answers} {s : Pointer} {r : Option Pointer}
  {name : CString}

theorem find_congr {key key' : Pointer → CString} {es : List Pointer}
    (h : ∀ e ∈ es, key e = key' e) : find key es name = find key' es name := by
  rw [find, find, ← List.head?_filter, ← List.head?_filter]
  exact congrArg _ (List.filter_congr fun e he ↦ by rw [h e he])

theorem getenv_congr (hb : ∀ e ∈ m.env, Binds (m.text e)) (henv : m'.env = m.env)
    (htext : ∀ e ∈ m.env, m'.text e = m.text e) : getenv m' = getenv m := by
  funext name
  by_cases hname : ValidName name
  · have hb' : ∀ e ∈ m'.env, Binds (m'.text e) := by
      rw [henv]
      exact fun e he ↦ htext e he ▸ hb e he
    have hkeys : ∀ e ∈ m.env, m'.key e = m.key e := fun e he ↦ congrArg nameOf (htext e he)
    rw [getenv_eq hb' hname, getenv_eq hb hname, henv, find_congr hkeys]
    refine Option.map_congr fun e he ↦ ?_
    rw [htext e (List.mem_of_find?_eq_some he)]
  · rw [getenv_invalid hname, getenv_invalid hname]

theorem Binds.valid {t : CString} (h : Binds t) : ValidName (nameOf t) := ⟨h.2, not_mem_nameOf t⟩

theorem WellFormed.put (hm : WellFormed lent m) (hs : Binds (m.text s))
    (hplaced : ∀ n, s = .block n → n < m.strings.next) (m' : State) (htext : m'.text = m.text)
    (hnext : m'.strings.next = m.strings.next) (henv : m'.env = put m.key s m.env)
    (hnull : none ∈ m'.table) :
    WellFormed lent m' ∧
      getenv m' = Function.update (getenv m) (m.key s) (some (valueOf (m.text s))) := by
  have hkey : m'.key = m.key := funext fun e ↦ congrArg nameOf (congrFun htext e)
  have hmem : ∀ e ∈ m'.env, e = s ∨ e ∈ m.env := by
    rw [henv]
    exact fun e he ↦ ((mem_put hm.distinct).mp he).imp_right And.left
  have hb : ∀ e ∈ m'.env, Binds (m'.text e) := by
    rw [htext]
    rintro e he
    rcases hmem e he with rfl | he
    · exact hs
    · exact hm.binds e he
  refine ⟨⟨.inr hnull, hb, ?_, fun n hn ↦ ?_, fun n ↦ htext ▸ hm.lent n⟩, ?_⟩
  · rw [henv, hkey]
    exact hm.distinct.put
  · rw [hnext]
    rcases hmem _ hn with hn | hn
    · exact hplaced n hn.symm
    · exact hm.placed n hn
  · funext name
    by_cases hname : ValidName name
    · rw [getenv_eq hb hname, henv, hkey, htext, find_put, Function.update_apply,
        getenv_eq hm.binds hname]
      simp only [eq_comm (a := name)]
      split <;> rfl
    · have hne : name ≠ m.key s := fun h ↦ hname (h ▸ hs.valid)
      rw [getenv_invalid hname, Function.update_of_ne hne, getenv_invalid hname]

theorem WellFormed.remove (hm : WellFormed lent m) (hname : ValidName name) (m' : State)
    (htext : m'.text = m.text) (hnext : m'.strings.next = m.strings.next)
    (henv : m'.env = remove m.key name m.env) (hterm : m'.environ = none ∨ none ∈ m'.table) :
    WellFormed lent m' ∧ getenv m' = Function.update (getenv m) name none := by
  have hkey : m'.key = m.key := funext fun e ↦ congrArg nameOf (congrFun htext e)
  have hmem : ∀ e ∈ m'.env, e ∈ m.env := by
    rw [henv]
    exact fun e he ↦ (mem_remove.mp he).1
  have hb : ∀ e ∈ m'.env, Binds (m'.text e) := by
    rw [htext]
    exact fun e he ↦ hm.binds e (hmem e he)
  refine ⟨⟨hterm, hb, ?_, fun n hn ↦ hnext ▸ hm.placed n (hmem _ hn),
    fun n ↦ htext ▸ hm.lent n⟩, ?_⟩
  · rw [henv, hkey]
    exact hm.distinct.remove
  · funext name'
    by_cases hname' : ValidName name'
    · rw [getenv_eq hb hname', henv, hkey, htext, find_remove, Function.update_apply,
        Function.update_apply, getenv_eq hm.binds hname']
      split <;> rfl
    · have hne : name' ≠ name := fun h ↦ hname' (h ▸ hname)
      rw [getenv_invalid hname', Function.update_of_ne hne, getenv_invalid hname']

theorem envRmAdd_next {old new : Option Pointer} :
    (envRmAdd m k old new).strings.next = m.strings.next := by
  rw [envRmAdd_strings]
  split
  · exact Heap.free_next old
  · rfl

theorem release_next (es : List Pointer) (m : State) :
    (m.release k es).strings.next = m.strings.next := by
  induction es generalizing m with
  | nil => rfl
  | cons e es ih => exact (ih _).trans envRmAdd_next

theorem WellFormed.same (hm : WellFormed lent m) (m' : State) (htext : m'.text = m.text)
    (hnext : m'.strings.next = m.strings.next) (henviron : m'.environ = m.environ)
    (htable : m'.table = m.table) : WellFormed lent m' ∧ getenv m' = getenv m := by
  have henv : m'.env = m.env := congrArg entries htable
  have hkey : m'.key = m.key := funext fun e ↦ congrArg nameOf (congrFun htext e)
  refine ⟨⟨?_, ?_, ?_, ?_, fun n ↦ htext ▸ hm.lent n⟩, getenv_congr hm.binds henv fun e _ ↦ by
    rw [htext]⟩
  · rw [henviron, htable]
    exact hm.terminated
  · rw [henv, htext]
    exact hm.binds
  · rw [henv, hkey]
    exact hm.distinct
  · rw [henv, hnext]
    exact hm.placed

theorem WellFormed.putenv' (hm : WellFormed lent m) (hs : Binds (m.text s))
    (hplaced : ∀ n, s = .block n → n < m.strings.next) {res : ℤ × State}
    (hres : PutOutcome m k s r res) :
    WellFormed lent res.2 ∧
      (res.1 ≠ -1 ∧
        getenv res.2 = Function.update (getenv m) (m.key s) (some (valueOf (m.text s))) ∨
      res.1 = -1 ∧ getenv res.2 = getenv m) := by
  cases hres with
  | replaced tmp c hmem hkey hput hnull =>
    have hset : m.environ ≠ none := fun h ↦ by simp [env_null h] at hmem
    have htable := setTable_table hset c
    have hput' := hm.put hs hplaced (envRmAdd (m.setTable c) k (some tmp) r) (by simp)
      (by rw [envRmAdd_next, setTable_strings])
      (by rw [State.env, envRmAdd_table, htable, hput])
      (by rw [envRmAdd_table, htable]; exact hnull)
    exact ⟨hput'.1, .inl ⟨by simp, hput'.2⟩⟩
  | failed =>
    have hsame := hm.same { m with strings := m.strings.free r, errno := ENOMEM } rfl
      (Heap.free_next r) rfl rfl
    exact ⟨hsame.1, .inr ⟨rfl, hsame.2⟩⟩
  | added a arrays c hnew hc hnull =>
    have hadd : ∀ m' : State, m'.text = m.text → m'.strings.next = m.strings.next → m'.table = c →
        WellFormed lent m' ∧
          getenv m' = Function.update (getenv m) (m.key s) (some (valueOf (m.text s))) := by
      intro m' htext hnext htable
      refine hm.put hs hplaced m' htext hnext ?_ (htable ▸ hnull)
      rw [State.env, htable, hc, put_of_new hnew]
    have hput' : WellFormed lent (if r = none then m.grown a arrays c
        else envRmAdd (m.grown a arrays c) k none r) ∧ getenv (if r = none then m.grown a arrays c
        else envRmAdd (m.grown a arrays c) k none r) =
          Function.update (getenv m) (m.key s) (some (valueOf (m.text s))) := by
      split
      · exact hadd _ rfl rfl (grown_table a arrays c)
      · exact hadd _ envRmAdd_text envRmAdd_next (envRmAdd_table.trans (grown_table a arrays c))
    exact ⟨hput'.1, .inl ⟨by simp, hput'.2⟩⟩

theorem WellFormed.unsetenv (hm : WellFormed lent m) (name : CString) :
    WellFormed lent (Env.unsetenv m k name).2 ∧
      ((Env.unsetenv m k name).1 ≠ -1 ∧ ValidName name ∧
        getenv (Env.unsetenv m k name).2 = Function.update (getenv m) name none ∨
      (Env.unsetenv m k name).1 = -1 ∧ getenv (Env.unsetenv m k name).2 = getenv m) := by
  by_cases hname : ValidName name
  · obtain ⟨c, heq, hc, hnull⟩ := unsetenv_outcome (k := k) hm.terminated hm.binds hname
    rw [heq]
    have hgone : WellFormed lent ((m.release k (m.env.filter fun e ↦ m.key e = name)).setTable c) ∧
        getenv ((m.release k (m.env.filter fun e ↦ m.key e = name)).setTable c) =
          Function.update (getenv m) name none := by
      refine hm.remove hname _ (by simp) ?_ (released_env hc) (setTable_terminated ?_)
      · rw [setTable_strings, release_next]
      · rwa [release_environ]
    exact ⟨hgone.1, .inl ⟨by simp, hname, hgone.2⟩⟩
  · rw [unsetenv_invalid hname]
    have hsame := hm.same { m with errno := EINVAL } rfl rfl rfl rfl
    exact ⟨hsame.1, .inr ⟨rfl, hsame.2⟩⟩

theorem binds_iff {t : CString} :
    ¬ (strchrnul t equalsSign = 0 ∨ strchrnul t equalsSign = t.length) ↔ Binds t := by
  have hle := strchrnul_le t equalsSign
  have hlen := nameOf_length t
  rw [Binds, ← strchrnul_lt, ne_eq, ← List.length_eq_zero_iff, hlen]
  omega

theorem WellFormed.putenv (hm : WellFormed lent m) (n : ℕ) :
    WellFormed lent (Env.putenv m k n).2 ∧ getenv (Env.putenv m k n).2 =
      (Call.putenv n).effect lent (getenv m) (Env.putenv m k n).1 := by
  unfold Env.putenv
  dsimp only
  split
  · next h =>
    have hno : ¬ Binds (m.text (.foreign n)) := fun hb ↦ binds_iff.mpr hb h
    obtain ⟨hwf, ⟨hret, hname, hget⟩ | ⟨hret, hget⟩⟩ :=
      hm.unsetenv (k := k) (m.text (.foreign n))
    · refine ⟨hwf, hget.trans ?_⟩
      rw [hm.lent] at hname ⊢
      rw [Call.effect, if_neg (hm.lent n ▸ hret), if_neg hname.2]
    · exact ⟨hwf, hget.trans (if_pos hret).symm⟩
  · next h =>
    have hb := binds_iff.mp h
    obtain ⟨hwf, ⟨hret, hget⟩ | ⟨hret, hget⟩⟩ := hm.putenv' hb (fun _ h ↦ by cases h)
      (putenv'_outcome (k := k) (r := none) hm.terminated hm.binds hb.1)
    · refine ⟨hwf, hget.trans ?_⟩
      rw [State.key, hm.lent]
      rw [hm.lent] at hb hret
      rw [Call.effect, if_neg hret, if_pos hb.1]
    · exact ⟨hwf, hget.trans (if_pos hret).symm⟩

theorem WellFormed.written (hm : WellFormed lent m) (t : CString) :
    WellFormed lent (m.written t) ∧ getenv (m.written t) = getenv m := by
  have htext : ∀ e ∈ m.env, (m.written t).text e = m.text e := fun e he ↦ if_neg (by
    rintro rfl
    exact Nat.lt_irrefl _ (hm.placed _ he))
  refine ⟨⟨hm.terminated, fun e he ↦ ?_, ?_, fun n hn ↦ Nat.lt_succ_of_lt (hm.placed n hn),
    fun n ↦ ?_⟩, getenv_congr hm.binds rfl htext⟩
  · rw [htext e he]
    exact hm.binds e he
  · refine Eq.mpr (congrArg List.Nodup (List.map_congr_left fun e he ↦ ?_)) hm.distinct
    exact congrArg nameOf (htext e he)
  · exact (written_text_foreign t n).trans (hm.lent n)

theorem WellFormed.setenv (hm : WellFormed lent m) (var : Option CString) (value : CString)
    (overwrite : Bool) :
    WellFormed lent (Env.setenv m k var value overwrite).2 ∧
      getenv (Env.setenv m k var value overwrite).2 =
        (Call.setenv var value overwrite).effect lent (getenv m)
          (Env.setenv m k var value overwrite).1 := by
  rcases setenv_cases m k var value overwrite with
    ⟨e, h⟩ | ⟨h, name, rfl, rfl, hbound⟩ | ⟨name, rfl, hname, hyes, h⟩
  · have hsame := hm.same (m.fail e).2 rfl rfl rfl rfl
    rw [h]
    exact ⟨hsame.1, hsame.2.trans (if_pos rfl).symm⟩
  · rw [h]
    exact ⟨hm, by simp [Call.effect, hbound]⟩
  · obtain ⟨hwritten, hgetenv⟩ := hm.written (name ++ equalsSign :: value)
    have hb : Binds ((m.written (name ++ equalsSign :: value)).text (.block m.strings.next)) := by
      rw [written_text_new]
      exact binds_append hname.2 hname.1
    have hplaced : ∀ n, Pointer.block m.strings.next = .block n →
        n < (m.written (name ++ equalsSign :: value)).strings.next := by
      rintro n ⟨⟩
      exact Nat.lt_succ_self _
    have hout := putenv'_outcome (k := k) (r := some (.block m.strings.next))
      hwritten.terminated hwritten.binds hb.1
    rw [written_text_new, ← h] at hout
    obtain ⟨hwf, ⟨hret, hget⟩ | ⟨hret, hget⟩⟩ := hwritten.putenv' hb hplaced hout
    · refine ⟨hwf, hget.trans ?_⟩
      rw [State.key, written_text_new, nameOf_append hname.2, valueOf_append hname.2, hgetenv,
        Call.effect, if_neg hret, if_pos hyes]
    · exact ⟨hwf, (hget.trans hgetenv).trans (if_pos hret).symm⟩

theorem WellFormed.clearenv (hm : WellFormed lent m) :
    WellFormed lent (Env.clearenv m k).2 ∧
      getenv (Env.clearenv m k).2 = Call.clearenv.effect lent (getenv m) (Env.clearenv m k).1 := by
  have hclear : (Env.clearenv m k).2 = ({ m with environ := none } : State).release k m.env := rfl
  generalize hm₁ : ({ m with environ := none } : State) = m₁ at hclear
  have henviron : (m₁.release k m.env).environ = none := by
    rw [release_environ, ← hm₁]
  have htext : (m₁.release k m.env).text = m.text := by
    rw [release_text, ← hm₁]
  have henv : (m₁.release k m.env).env = [] := env_null henviron
  rw [hclear]
  refine ⟨⟨.inl henviron, by simp [henv], by simp [henv, Distinct], by simp [henv],
    fun n ↦ htext ▸ hm.lent n⟩, ?_⟩
  funext name
  by_cases hname : ValidName name
  · rw [getenv_eq (by simp [henv]) hname, henv]
    rfl
  · rw [getenv_invalid hname]
    rfl

theorem WellFormed.step (hm : WellFormed lent m) (c : Call) :
    WellFormed lent (c.run m k).2 ∧
      getenv (c.run m k).2 = c.effect lent (getenv m) (c.run m k).1 := by
  cases c with
  | setenv var value overwrite => exact hm.setenv var value overwrite
  | putenv n => exact hm.putenv n
  | unsetenv name =>
    obtain ⟨hwf, ⟨hret, -, hget⟩ | ⟨hret, hget⟩⟩ := hm.unsetenv (k := k) name
    · exact ⟨hwf, hget.trans (if_neg hret).symm⟩
    · exact ⟨hwf, hget.trans (if_pos hret).symm⟩
  | clearenv => exact hm.clearenv
  | getenv name => exact ⟨hm, by simp [Call.effect, Call.run]⟩

end

end SceLibcPosix.Env
