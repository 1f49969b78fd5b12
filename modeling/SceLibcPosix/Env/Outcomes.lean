import SceLibcPosix.Env.Calls
import SceLibcPosix.Lib.Keyed

namespace SceLibcPosix.Env

open Errno Heaps Keyed

/-- The name in a string, and the value behind its first `=`. -/
def nameOf (s : CString) : CString := s.take (strchrnul s equalsSign)

def valueOf (s : CString) : CString := s.drop (strchrnul s equalsSign + 1)

/-- A string that binds a name: something, then `=`. -/
def Binds (s : CString) : Prop := equalsSign ∈ s ∧ nameOf s ≠ []

section Strings

variable {s t name value : CString}

theorem strchrnul_le (s : CString) (c : UInt8) : strchrnul s c ≤ s.length :=
  List.findIdx_le_length

theorem strchrnul_lt {c : UInt8} : strchrnul s c < s.length ↔ c ∈ s := by
  simp [strchrnul, List.findIdx_lt_length]

theorem strchrnul_append (h : equalsSign ∉ name) :
    strchrnul (name ++ equalsSign :: value) equalsSign = name.length := by
  have hnone : name.findIdx (· = equalsSign) = name.length := by
    refine List.findIdx_eq_length.mpr fun c hc ↦ ?_
    simp only [decide_eq_false_iff_not]
    rintro rfl
    exact h hc
  rw [strchrnul, List.findIdx_append, hnone, if_neg (Nat.lt_irrefl _), List.findIdx_cons]
  simp

theorem nameOf_append (h : equalsSign ∉ name) :
    nameOf (name ++ equalsSign :: value) = name := by
  rw [nameOf, strchrnul_append h, List.take_left]

theorem valueOf_append (h : equalsSign ∉ name) :
    valueOf (name ++ equalsSign :: value) = value := by
  rw [valueOf, strchrnul_append h, ← List.drop_drop, List.drop_left]
  rfl

theorem binds_append (h : equalsSign ∉ name) (hne : name ≠ []) :
    Binds (name ++ equalsSign :: value) :=
  ⟨by simp, (nameOf_append h).symm ▸ hne⟩

theorem not_mem_nameOf (s : CString) : equalsSign ∉ nameOf s := by
  intro h
  obtain ⟨i, hi, heq⟩ := List.getElem_of_mem h
  have hlt : i < strchrnul s equalsSign := by
    rw [nameOf, List.length_take] at hi
    omega
  have hno := List.not_of_lt_findIdx hlt
  simp only [nameOf, List.getElem_take] at heq
  simp [heq] at hno

theorem nameOf_valueOf (h : equalsSign ∈ s) : nameOf s ++ equalsSign :: valueOf s = s := by
  have hlt := strchrnul_lt.mpr h
  have hat : decide (s[strchrnul s equalsSign] = equalsSign) = true :=
    List.findIdx_getElem (p := fun c ↦ c = equalsSign) (w := hlt)
  calc nameOf s ++ equalsSign :: valueOf s
      = s.take (strchrnul s equalsSign) ++ s.drop (strchrnul s equalsSign) := by
        rw [List.drop_eq_getElem_cons hlt, of_decide_eq_true hat]
        rfl
    _ = s := List.take_append_drop _ s

theorem nameOf_length (s : CString) : (nameOf s).length = strchrnul s equalsSign := by
  rw [nameOf, List.length_take, Nat.min_eq_left (strchrnul_le s equalsSign)]

theorem nameOf_of_take {d : CString} (hname : equalsSign ∉ name)
    (h : s = name ++ [equalsSign] ++ d) : nameOf s = name := by
  rw [h, List.append_assoc, List.singleton_append, nameOf_append hname]

theorem names_iff (hname : equalsSign ∉ name) (hs : equalsSign ∈ s) :
    (name.take name.length = s.take name.length ∧ s[name.length]? = some equalsSign) ↔
      nameOf s = name := by
  constructor
  · rintro ⟨htake, hat⟩
    obtain ⟨hlt, hat⟩ := List.getElem?_eq_some_iff.mp hat
    refine nameOf_of_take hname (d := s.drop (name.length + 1)) ?_
    calc s = s.take name.length ++ s.drop name.length := (List.take_append_drop _ s).symm
      _ = name ++ [equalsSign] ++ s.drop (name.length + 1) := by
        rw [← htake, List.take_length, List.drop_eq_getElem_cons hlt, hat, List.append_assoc]
        rfl
  · intro h
    have hsplit := nameOf_valueOf hs
    rw [h] at hsplit
    rw [← hsplit, List.take_left, List.take_length, List.getElem?_append_right (Nat.le_refl _)]
    simp

theorem sameName_iff (hs : equalsSign ∈ s) (ht : equalsSign ∈ t) :
    strncmpEq s t (strchrnul s equalsSign + 1) = true ↔ nameOf t = nameOf s := by
  have htake : ∀ {s : CString}, equalsSign ∈ s →
      s.take ((nameOf s).length + 1) = nameOf s ++ [equalsSign] := by
    intro s hs
    calc s.take ((nameOf s).length + 1)
        = (nameOf s ++ equalsSign :: valueOf s).take ((nameOf s).length + 1) := by
          rw [nameOf_valueOf hs]
      _ = nameOf s ++ [equalsSign] := by
          rw [List.take_length_add_append, List.take_succ_cons, List.take_zero]
  rw [strncmpEq, decide_eq_true_eq, ← nameOf_length s, htake hs]
  constructor
  · intro h
    refine nameOf_of_take (not_mem_nameOf s) (d := t.drop ((nameOf s).length + 1)) ?_
    rw [h, List.take_append_drop]
  · intro h
    rw [← h, htake ht]

end Strings

/-- The name that a string binds. -/
def State.key (m : State) (p : Pointer) : CString := nameOf (m.text p)

def State.grown (m : State) (a : Pointer) (arrays : Heap) (c : List (Option Pointer)) : State :=
  { m with
    arrays := arrays
    cells := fun p ↦ if p = a then c else m.cells p
    environ := some a
    oldenv := some a }

def State.written (m : State) (t : CString) : State :=
  { m with
    strings := { m.strings with next := m.strings.next + 1 }
    text := fun p ↦ if p = .block m.strings.next then t else m.text p }

def State.release (m : State) (k : Answers) (es : List Pointer) : State :=
  es.foldl (fun m e ↦ envRmAdd m k (some e) none) m

def ValidName (name : CString) : Prop := name ≠ [] ∧ equalsSign ∉ name

section List

variable {m : State} {k : Answers} {old new : Option Pointer} {l c : List (Option Pointer)}
  {p q s : Pointer}

theorem rmAddScan_found : (rmAddScan old new l).1 = true ↔ old ∈ l := by
  induction l generalizing new with
  | nil => simp [rmAddScan]
  | cons a l ih =>
    rw [rmAddScan, List.mem_cons, eq_comm (a := old)]
    split
    · next h => exact iff_of_true rfl (.inl h)
    · next h =>
      rw [or_iff_right h]
      split
      · exact ih
      · exact ih

theorem rmAddScan_left (h : (rmAddScan old new l).1 = true) :
    (rmAddScan old new l).2.1 = none := by
  induction l generalizing new with
  | nil => cases h
  | cons a l ih =>
    rw [rmAddScan] at h ⊢
    split
    · rfl
    · next ha =>
      rw [if_neg ha] at h
      split
      · next hn => exact ih (by rwa [if_pos hn] at h)
      · next hn => exact ih (by rwa [if_neg hn] at h)

theorem count_cons_toList {a : Option Pointer} :
    (a :: l).count (some q) = l.count (some q) + a.toList.count q := by
  cases a with
  | none => simp
  | some p => simp [List.count_cons]

theorem rmAddScan_count :
    (rmAddScan old new l).2.2.count (some q) + (rmAddScan old new l).2.1.toList.count q +
      (if old ∈ l then old.toList.count q else 0) =
    l.count (some q) + new.toList.count q := by
  induction l generalizing new with
  | nil => simp [rmAddScan]
  | cons a l ih =>
    rw [rmAddScan]
    split
    · next ha =>
      subst ha
      simp only [count_cons_toList, List.mem_cons_self, if_true, Option.toList_none, List.count_nil]
      omega
    next ha =>
    have hmem : old ∈ a :: l ↔ old ∈ l := by
      rw [List.mem_cons, or_iff_right (Ne.symm ha)]
    simp only [hmem]
    split
    · next h =>
      have hscan := @ih none
      simp only [h.1, count_cons_toList, Option.toList_none, List.count_nil] at hscan ⊢
      omega
    · have hscan := @ih new
      simp only [count_cons_toList] at hscan ⊢
      omega

theorem envRmAdd_frame (m : State) (k : Answers) (old new : Option Pointer) :
    ∃ errno strings l, envRmAdd m k old new =
      { m with errno := errno, strings := strings, envAlloced := l } := by
  unfold envRmAdd
  dsimp only
  split
  · exact ⟨_, _, _, rfl⟩
  · split
    · exact ⟨_, _, _, rfl⟩
    · split <;> exact ⟨_, _, _, rfl⟩

@[simp] theorem envRmAdd_text : (envRmAdd m k old new).text = m.text := by
  obtain ⟨errno, strings, l, h⟩ := envRmAdd_frame m k old new
  rw [h]

@[simp] theorem envRmAdd_table : (envRmAdd m k old new).table = m.table := by
  obtain ⟨errno, strings, l, h⟩ := envRmAdd_frame m k old new
  rw [h]
  rfl

theorem envRmAdd_strings : (envRmAdd m k old new).strings =
    if old ∈ m.envAlloced then m.strings.free old else m.strings := by
  have hfound := @rmAddScan_found old new m.envAlloced
  by_cases h : old ∈ m.envAlloced
  · simp [envRmAdd, hfound.mpr h, h]
  · have hno : (rmAddScan old new m.envAlloced).1 = false := by
      simpa using fun h' ↦ h (hfound.mp h')
    simp only [envRmAdd, hno, Bool.false_eq_true, if_false, h]
    split
    · rfl
    · split <;> rfl

/-- Where the list can grow, it loses `old` and gets `new`. -/
theorem envRmAdd_count (old new : Option Pointer) (q : Pointer) (hk : k.list = true) :
    (envRmAdd m k old new).envAlloced.count (some q) +
      (if old ∈ m.envAlloced then old.toList.count q else 0) =
    m.envAlloced.count (some q) + new.toList.count q := by
  have hcount := @rmAddScan_count old new m.envAlloced q
  have hleft := @rmAddScan_left old new m.envAlloced
  simp only [envRmAdd, hk, Bool.not_true, Bool.false_eq_true, if_false]
  split
  · next h =>
    rw [hleft h] at hcount
    simpa using hcount
  · split
    · next h =>
      rw [h] at hcount
      simpa using hcount
    · next h =>
      obtain ⟨p, hp⟩ := Option.ne_none_iff_exists'.mp h
      rw [hp] at hcount ⊢
      rw [List.count_append, ← hcount]
      simp [List.count_cons]

theorem entries_append (es : List Pointer) (c : List (Option Pointer)) :
    entries (es.map some ++ none :: c) = es := by
  induction es with
  | nil => rfl
  | cons e es ih => exact congrArg _ ih

theorem take_entries (c : List (Option Pointer)) :
    c.take (entries c).length = (entries c).map some := by
  induction c using entries.induct with
  | case1 e c ih => simp [entries, ih]
  | case2 c => rfl
  | case3 => rfl

theorem replaceEntry_none {same : Pointer → Bool} :
    replaceEntry same s c = none ↔ ∀ e ∈ entries c, same e = false := by
  induction c using entries.induct with
  | case1 e c ih =>
    rw [replaceEntry, entries, List.forall_mem_cons]
    split
    · next h => simp [h]
    · next h => simp [h, ih]
  | case2 c => simp [replaceEntry, entries]
  | case3 => simp [replaceEntry, entries]

theorem replaceEntry_some {same : Pointer → Bool} {key : Pointer → CString} {tmp : Pointer}
    {c' : List (Option Pointer)} (hsame : ∀ e ∈ entries c, same e = true ↔ key e = key s)
    (h : replaceEntry same s c = some (tmp, c')) :
    tmp ∈ entries c ∧ key tmp = key s ∧ entries c' = put key s (entries c) ∧
      (none ∈ c → none ∈ c') := by
  induction c using entries.induct generalizing c' with
  | case1 e c ih =>
    obtain ⟨he, hc⟩ := List.forall_mem_cons.mp hsame
    rw [replaceEntry] at h
    split at h
    · next hs =>
      cases h
      exact ⟨List.mem_cons_self, he.mp hs, by simp [entries, put, he.mp hs], by simp⟩
    · next hs =>
      obtain ⟨⟨tmp', d⟩, hd, hres⟩ := Option.map_eq_some_iff.mp h
      cases hres
      obtain ⟨hmem, hkey, hput, hnull⟩ := ih hc hd
      refine ⟨List.mem_cons_of_mem _ hmem, hkey, ?_, by simpa using hnull⟩
      rw [entries, entries, put, if_neg fun h ↦ hs (he.mpr h), hput]
  | case2 c => cases h
  | case3 => cases h

end List

inductive PutOutcome (m : State) (k : Answers) (s : Pointer) (r : Option Pointer) : ℤ × State → Prop
  | replaced (tmp : Pointer) (c : List (Option Pointer)) : tmp ∈ m.env → m.key tmp = m.key s →
      entries c = put m.key s m.env → none ∈ c →
      PutOutcome m k s r (0, envRmAdd (m.setTable c) k (some tmp) r)
  | failed : PutOutcome m k s r ({ m with strings := m.strings.free r }.fail ENOMEM)
  | added (a : Pointer) (arrays : Heap) (c : List (Option Pointer)) :
      (∀ e ∈ m.env, m.key e ≠ m.key s) → entries c = m.env ++ [s] → none ∈ c →
      PutOutcome m k s r
        (0, if r = none then m.grown a arrays c else envRmAdd (m.grown a arrays c) k none r)

section Calls

variable {m : State} {k : Answers} {s : Pointer} {r : Option Pointer} {name : CString}

theorem setTable_table (h : m.environ ≠ none) (c : List (Option Pointer)) :
    (m.setTable c).table = c := by
  obtain ⟨a, ha⟩ := Option.ne_none_iff_exists'.mp h
  simp [State.setTable, State.table, ha]

theorem setTable_null (h : m.environ = none) (c : List (Option Pointer)) : m.setTable c = m := by
  rw [State.setTable, h]

theorem env_null (h : m.environ = none) : m.env = [] := by
  rw [State.env, State.table, h]
  rfl

theorem setTable_env {c : List (Option Pointer)} (h : m.environ = none → entries c = []) :
    (m.setTable c).env = entries c := by
  by_cases hnil : m.environ = none
  · rw [setTable_null hnil, env_null hnil, h hnil]
  · rw [State.env, setTable_table hnil]

theorem setTable_terminated {c : List (Option Pointer)} (h : m.environ = none ∨ none ∈ c) :
    (m.setTable c).environ = none ∨ none ∈ (m.setTable c).table := by
  by_cases hnil : m.environ = none
  · rw [setTable_null hnil]
    exact .inl hnil
  · rw [setTable_table hnil]
    exact .inr (h.resolve_left hnil)

@[simp] theorem setTable_text (c : List (Option Pointer)) : (m.setTable c).text = m.text := by
  unfold State.setTable
  split <;> rfl

@[simp] theorem setTable_strings (c : List (Option Pointer)) :
    (m.setTable c).strings = m.strings := by
  unfold State.setTable
  split <;> rfl

@[simp] theorem setTable_envAlloced (c : List (Option Pointer)) :
    (m.setTable c).envAlloced = m.envAlloced := by
  unfold State.setTable
  split <;> rfl

@[simp] theorem grown_table (a : Pointer) (arrays : Heap) (c : List (Option Pointer)) :
    (m.grown a arrays c).table = c := by
  simp [State.grown, State.table]

theorem newTable_cells (i : ℕ) : (newTable m k i).2.2 = m.table.take i := by
  unfold newTable
  split
  · next h => rw [State.table, h]
  · rfl

theorem putenv'_outcome (hterm : m.environ = none ∨ none ∈ m.table)
    (hb : ∀ e ∈ m.env, Binds (m.text e)) (hs : equalsSign ∈ m.text s) :
    PutOutcome m k s r (putenv' m k s (strchrnul (m.text s) equalsSign) r) := by
  have hsame : ∀ e ∈ entries m.table,
      strncmpEq (m.text s) (m.text e) (strchrnul (m.text s) equalsSign + 1) = true ↔
        m.key e = m.key s := fun e he ↦ sameName_iff hs (hb e he).1
  unfold putenv'
  split
  · next tmp c h =>
    obtain ⟨hmem, hkey, hput, hnull⟩ := replaceEntry_some hsame h
    refine .replaced tmp c hmem hkey hput (hnull (hterm.resolve_left fun hn ↦ ?_))
    simp [State.table, hn, entries] at hmem
  · next h =>
    have hnew : ∀ e ∈ m.env, m.key e ≠ m.key s := fun e he heq ↦ by
      have hno := replaceEntry_none.mp h e he
      simp [(hsame e he).mpr heq] at hno
    dsimp only
    split
    · exact .failed
    · next a ha =>
      refine .added a _ _ hnew ?_ (by simp)
      rw [newTable_cells, State.env, take_entries]
      have happ := entries_append (entries m.table ++ [s]) []
      rwa [List.map_append, List.append_assoc] at happ

theorem release_frame (es : List Pointer) (m : State) :
    ∃ errno strings l, m.release k es =
      { m with errno := errno, strings := strings, envAlloced := l } := by
  induction es generalizing m with
  | nil => exact ⟨_, _, _, rfl⟩
  | cons e es ih =>
    obtain ⟨errno, strings, l, h⟩ := envRmAdd_frame m k (some e) none
    obtain ⟨errno', strings', l', h'⟩ := ih (envRmAdd m k (some e) none)
    refine ⟨errno', strings', l', ?_⟩
    rw [State.release, List.foldl_cons]
    rw [State.release, h] at h'
    rw [h]
    exact h'

@[simp] theorem release_text {es : List Pointer} : (m.release k es).text = m.text := by
  obtain ⟨errno, strings, l, h⟩ := release_frame (k := k) es m
  rw [h]

@[simp] theorem release_table {es : List Pointer} : (m.release k es).table = m.table := by
  obtain ⟨errno, strings, l, h⟩ := release_frame (k := k) es m
  rw [h]
  rfl

@[simp] theorem release_environ (es : List Pointer) : (m.release k es).environ = m.environ := by
  obtain ⟨errno, strings, l, h⟩ := release_frame (k := k) es m
  rw [h]

theorem released_env {es : List Pointer} {c : List (Option Pointer)}
    (hc : entries c = remove m.key name m.env) :
    ((m.release k es).setTable c).env = remove m.key name m.env := by
  refine (setTable_env fun hnil ↦ ?_).trans hc
  rw [release_environ] at hnil
  rw [hc, env_null hnil]
  rfl

theorem strchrnul_valid :
    ¬ (strchrnul name equalsSign = 0 ∨ strchrnul name equalsSign < name.length) ↔
      ValidName name := by
  have hle := strchrnul_le name equalsSign
  rw [not_or, strchrnul_lt, ValidName]
  refine and_congr_left fun hno ↦ not_congr ?_
  rw [← strchrnul_lt] at hno
  rw [← List.length_eq_zero_iff]
  omega

theorem named_iff (hname : equalsSign ∉ name) {e : Pointer} (he : Binds (m.text e)) :
    named m name name.length e = true ↔ m.key e = name := by
  rw [named, strncmpEq, Bool.and_eq_true, decide_eq_true_eq, decide_eq_true_eq]
  exact names_iff hname he.1

theorem strchrnul_eq (hname : ValidName name) : strchrnul name equalsSign = name.length := by
  have hle := strchrnul_le name equalsSign
  have hno := mt strchrnul_lt.mp hname.2
  omega

theorem filter_named (hb : ∀ e ∈ m.env, Binds (m.text e)) (hname : ValidName name) :
    m.env.filter (named m name name.length) = m.env.filter fun e ↦ m.key e = name :=
  List.filter_congr fun e he ↦ Bool.eq_iff_iff.mpr (by
    rw [named_iff hname.2 (hb e he), decide_eq_true_eq])

theorem unsetLoop_eq (name : CString) {l : ℕ} (m : State) (kept es : List Pointer) :
    unsetLoop k name l m kept es =
      (m.release k (es.filter (named m name l)), kept ++ es.filter fun e ↦ !named m name l e) := by
  induction es generalizing m kept with
  | nil => simp [unsetLoop, State.release]
  | cons e es ih =>
    have hnamed : named (envRmAdd m k (some e) none) name l = named m name l := by
      funext e'
      simp [named]
    rw [unsetLoop]
    split
    · next h =>
      rw [ih, hnamed]
      simp [h, State.release]
    · next h =>
      rw [ih]
      simp [h]

theorem unsetenv_outcome (hterm : m.environ = none ∨ none ∈ m.table)
    (hb : ∀ e ∈ m.env, Binds (m.text e)) (hname : ValidName name) :
    ∃ c, unsetenv m k name =
        (0, (m.release k (m.env.filter fun e ↦ m.key e = name)).setTable c) ∧
      entries c = remove m.key name m.env ∧ (m.environ = none ∨ none ∈ c) := by
  have hlen := strchrnul_eq hname
  have hgone := filter_named hb hname
  have hkept : (m.env.filter fun e ↦ !named m name name.length e) = remove m.key name m.env :=
    List.filter_congr fun e he ↦ Bool.eq_iff_iff.mpr (by
      rw [Bool.not_eq_true', ← Bool.not_eq_true, named_iff hname.2 (hb e he), decide_eq_true_eq])
  refine ⟨(remove m.key name m.env).map some ++
    if (remove m.key name m.env).length ≠ m.env.length
    then none :: (m.table.drop (remove m.key name m.env).length).drop 1
    else m.table.drop (remove m.key name m.env).length, ?_, ?_, ?_⟩
  · have hloop := unsetLoop_eq (k := k) name (l := name.length) m [] m.env
    rw [hgone, hkept, List.nil_append] at hloop
    unfold unsetenv
    rw [if_neg (strchrnul_valid.mpr hname), hlen, hloop]
    simp [State.env]
  · split
    · exact entries_append _ _
    · next h =>
      have hall : remove m.key name m.env = m.env :=
        List.filter_sublist.eq_of_length (not_not.mp h)
      rw [hall, State.env, ← take_entries, List.take_append_drop]
  · refine hterm.imp_right fun hnull ↦ ?_
    split
    · simp
    · next h =>
      have hall : remove m.key name m.env = m.env :=
        List.filter_sublist.eq_of_length (not_not.mp h)
      rwa [hall, State.env, ← take_entries, List.take_append_drop]

theorem unsetenv_invalid (hname : ¬ ValidName name) : unsetenv m k name = m.fail EINVAL := by
  rw [unsetenv, if_pos (not_not.mp fun h ↦ hname (strchrnul_valid.mp h))]

theorem getenv_eq (hb : ∀ e ∈ m.env, Binds (m.text e)) (hname : ValidName name) :
    getenv m name = (find m.key m.env name).map fun e ↦ valueOf (m.text e) := by
  have hlen := strchrnul_eq hname
  have hfind : m.env.find? (named m name name.length) = find m.key m.env name := by
    rw [find, ← List.head?_filter, ← List.head?_filter, filter_named hb hname]
  rw [getenv, if_pos, hlen, hfind]
  · refine Option.map_congr fun e he ↦ ?_
    have hkey := key_of_find he
    rw [valueOf, ← nameOf_length, ← State.key, hkey]
  · rw [hlen]
    exact ⟨fun h ↦ hname.1 (List.length_eq_zero_iff.mp h), rfl⟩

theorem getenv_invalid (hname : ¬ ValidName name) : getenv m name = none := by
  rw [getenv, if_neg]
  rintro ⟨h0, hlen⟩
  exact hname (strchrnul_valid.mp (not_or.mpr ⟨h0, by omega⟩))

theorem setenv_cases (m : State) (k : Answers) (var : Option CString) (value : CString)
    (overwrite : Bool) :
    (∃ e, setenv m k var value overwrite = m.fail e) ∨
    (setenv m k var value overwrite = (0, m) ∧
      ∃ name, var = some name ∧ overwrite = false ∧ getenv m name ≠ none) ∨
    ∃ name, var = some name ∧ ValidName name ∧ (overwrite = true ∨ getenv m name = none) ∧
      setenv m k var value overwrite =
        putenv' (m.written (name ++ equalsSign :: value)) k (.block m.strings.next)
          (strchrnul (name ++ equalsSign :: value) equalsSign) (some (.block m.strings.next)) := by
  cases var with
  | none => exact .inl ⟨EINVAL, rfl⟩
  | some name =>
    unfold setenv
    dsimp only
    split
    · exact .inl ⟨EINVAL, rfl⟩
    next hvalid =>
    have hname := strchrnul_valid.mp hvalid
    split
    · next hbound =>
      refine .inr (.inl ⟨rfl, name, rfl, ?_⟩)
      simpa [Option.isSome_iff_ne_none] using hbound
    next hfree =>
    have hyes : overwrite = true ∨ getenv m name = none := by
      by_contra hno
      exact hfree (by simpa [Option.isSome_iff_ne_none] using hno)
    cases hstring : k.string with
    | false => exact .inl ⟨ENOMEM, rfl⟩
    | true =>
      refine .inr (.inr ⟨name, rfl, hname, hyes, ?_⟩)
      rw [strchrnul_append hname.2, ← strchrnul_eq hname]
      rfl

@[simp] theorem written_text_new (t : CString) :
    (m.written t).text (.block m.strings.next) = t := if_pos rfl

@[simp] theorem written_text_foreign (t : CString) (n : ℕ) :
    (m.written t).text (.foreign n) = m.text (.foreign n) := by
  simp [State.written]

end Calls

end SceLibcPosix.Env
