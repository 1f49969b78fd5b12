import Mathlib.Data.List.Basic

namespace SceLibcPosix.Components

variable {α : Type*} {sep : α} {c l : List α} {cs : List (List α)}

/-- Which components a text passes over and which ones take the previous component back. -/
structure Rules (α : Type*) where
  skip : List α → Bool
  up : List α → Bool
  skip_nil : skip [] = true

def Rules.push (R : Rules α) (cs : List (List α)) (c : List α) : List (List α) :=
  if R.skip c then cs else if R.up c then cs.dropLast else cs ++ [c]

def Rules.normal (R : Rules α) (cs : List (List α)) (ps : List (List α)) : List (List α) :=
  ps.foldl R.push cs

/-- The components, each after a separator. -/
def body (sep : α) (cs : List (List α)) : List α := cs.flatMap (sep :: ·)

/-- The rooted text of a stack: no separator at its end, unless it is nothing else. -/
def rooted (sep : α) (cs : List (List α)) : List α := if cs = [] then [sep] else body sep cs

/-- What a text can hold between two separators. -/
def Proper (sep : α) (c : List α) : Prop := c ≠ [] ∧ sep ∉ c

/-- A text that has come to the end of a component, before or after the separator. -/
inductive Pending (sep : α) (cs : List (List α)) : List α → Prop
  | bare (h : cs ≠ []) : Pending sep cs (body sep cs)
  | slashed : Pending sep cs (body sep cs ++ [sep])

def cut [DecidableEq α] (sep : α) (l : List α) : List α := (l.reverse.dropWhile (· ≠ sep)).reverse

theorem body_concat : body sep (cs ++ [c]) = body sep cs ++ sep :: c := by
  simp [body]

theorem cut_append [DecidableEq α] (h : sep ∉ c) : cut sep (l ++ sep :: c) = l ++ [sep] := by
  have hall : ∀ x ∈ c.reverse, decide (x ≠ sep) = true := by
    intro x hx
    exact decide_eq_true fun h' ↦ h (h' ▸ List.mem_reverse.mp hx)
  rw [cut, List.reverse_append, List.reverse_cons, List.append_assoc,
    List.dropWhile_append_of_pos hall]
  simp

theorem getLast?_body (hcs : ∀ c ∈ cs, Proper sep c) (hne : cs ≠ []) :
    ∃ x, (body sep cs).getLast? = some x ∧ x ≠ sep := by
  obtain ⟨cs', c, rfl⟩ := List.eq_nil_or_concat' cs |>.resolve_left hne
  obtain ⟨hc, hsep⟩ := hcs c (by simp)
  refine ⟨c.getLast hc, ?_, fun h ↦ hsep (h ▸ List.getLast_mem hc)⟩
  rw [body_concat, List.getLast?_append_of_ne_nil _ (by simp), List.getLast?_cons_of_ne_nil hc,
    List.getLast?_eq_some_getLast hc]

theorem Rules.push_proper (R : Rules α) (hcs : ∀ c ∈ cs, Proper sep c) (hc : sep ∉ c) :
    ∀ c' ∈ R.push cs c, Proper sep c' := by
  intro c' hc'
  unfold Rules.push at hc'
  split at hc'
  · exact hcs c' hc'
  · next hskip =>
    split at hc'
    · exact hcs c' (List.dropLast_subset _ hc')
    · rcases List.mem_append.mp hc' with hc' | hc'
      · exact hcs c' hc'
      · obtain rfl := List.mem_singleton.mp hc'
        exact ⟨fun h ↦ hskip (h ▸ R.skip_nil), hc⟩

theorem Pending.rooted_le {text : List α} (h : Pending sep cs text) :
    (rooted sep cs).length ≤ text.length := by
  cases h with
  | bare hne => exact Nat.le_of_eq (congrArg List.length (if_neg hne))
  | slashed =>
    unfold rooted
    split
    · simp
    · simp

theorem rooted_le_body : (rooted sep cs).length ≤ (body sep cs).length + 1 := by
  unfold rooted
  split
  · simp
  · omega

/-- The stacks that the rules leave: each component stays as it is. -/
def Rules.Clean (R : Rules α) (sep : α) (cs : List (List α)) : Prop :=
  ∀ c ∈ cs, Proper sep c ∧ ¬ R.skip c = true ∧ ¬ R.up c = true

theorem Rules.length_body_normal (R : Rules α) (cs ps : List (List α)) :
    (body sep (R.normal cs ps)).length ≤ (body sep cs).length + (body sep ps).length := by
  induction ps generalizing cs with
  | nil => exact Nat.le_add_right _ _
  | cons p ps ih =>
    have hpush : (body sep (R.push cs p)).length ≤ (body sep cs).length + (p.length + 1) := by
      unfold Rules.push
      split
      · omega
      · split
        · rcases List.eq_nil_or_concat' cs with rfl | ⟨cs', c, rfl⟩
          · exact Nat.zero_le _
          · rw [List.dropLast_concat, body_concat, List.length_append]
            omega
        · exact Nat.le_of_eq (by rw [body_concat, List.length_append, List.length_cons])
    calc (body sep (R.normal cs (p :: ps))).length
        = (body sep (R.normal (R.push cs p) ps)).length := rfl
      _ ≤ (body sep (R.push cs p)).length + (body sep ps).length := ih _
      _ ≤ (body sep cs).length + (p.length + 1) + (body sep ps).length := by omega
      _ = (body sep cs).length + (body sep (p :: ps)).length := by
        simp only [body, List.flatMap_cons, List.length_append, List.length_cons]
        omega

section Clean

variable {R : Rules α} {ps : List (List α)}

theorem Rules.Clean.push (hcs : R.Clean sep cs) (hc : sep ∉ c) : R.Clean sep (R.push cs c) := by
  intro c' hc'
  refine ⟨R.push_proper (fun c h ↦ (hcs c h).1) hc c' hc', ?_⟩
  unfold Rules.push at hc'
  split at hc'
  · exact (hcs c' hc').2
  · next hskip =>
    split at hc'
    · exact (hcs c' (List.dropLast_subset _ hc')).2
    · next hup =>
      rcases List.mem_append.mp hc' with hc' | hc'
      · exact (hcs c' hc').2
      · obtain rfl := List.mem_singleton.mp hc'
        exact ⟨hskip, hup⟩

theorem Rules.Clean.normal (hcs : R.Clean sep cs) (hps : ∀ p ∈ ps, sep ∉ p) :
    R.Clean sep (R.normal cs ps) := by
  induction ps generalizing cs with
  | nil => exact hcs
  | cons p ps ih =>
    apply ih (hcs.push (hps p List.mem_cons_self))
    exact fun q hq ↦ hps q (List.mem_cons_of_mem _ hq)

theorem Rules.normal_append (ps qs : List (List α)) :
    R.normal cs (ps ++ qs) = R.normal (R.normal cs ps) qs := List.foldl_append

theorem Rules.Clean.normal_eq (hps : R.Clean sep ps) : R.normal cs ps = cs ++ ps := by
  induction ps generalizing cs with
  | nil => exact (List.append_nil cs).symm
  | cons p ps ih =>
    obtain ⟨-, hskip, hup⟩ := hps p List.mem_cons_self
    have hpush : R.push cs p = cs ++ [p] := by rw [Rules.push, if_neg hskip, if_neg hup]
    calc R.normal cs (p :: ps) = R.normal (cs ++ [p]) ps := by rw [← hpush]; rfl
      _ = cs ++ [p] ++ ps := ih fun q hq ↦ hps q (List.mem_cons_of_mem _ hq)
      _ = cs ++ p :: ps := List.append_cons cs p ps |>.symm

variable [BEq α] [LawfulBEq α]

theorem notMem_of_mem_splitOn {p : List α} (h : p ∈ l.splitOn sep) : sep ∉ p := by
  induction l generalizing p with
  | nil =>
    obtain rfl := List.mem_singleton.mp h
    exact List.not_mem_nil
  | cons x l ih =>
    rw [List.splitOn_cons_eq_if_modifyHead] at h
    split at h
    · rcases List.mem_cons.mp h with rfl | h
      · exact List.not_mem_nil
      · exact ih h
    · next hx =>
      rcases hsplit : l.splitOn sep with _ | ⟨q, qs⟩
      · exact absurd hsplit (List.splitOn_ne_nil _ _)
      · rw [hsplit] at h ih
        rcases List.mem_cons.mp h with rfl | h
        · rw [List.mem_cons, not_or]
          exact ⟨fun hsep ↦ hx (by simp [hsep]), ih List.mem_cons_self⟩
        · exact ih (List.mem_cons_of_mem _ h)

theorem splitOn_cons_self : (sep :: l).splitOn sep = [] :: l.splitOn sep :=
  List.splitOn_append_cons_self [] l

theorem splitOn_body (h : ∀ c ∈ cs, sep ∉ c) : (body sep cs).splitOn sep = [] :: cs := by
  induction cs with
  | nil => rfl
  | cons c cs ih =>
    have hbody : body sep (c :: cs) = sep :: (c ++ body sep cs) := rfl
    rw [hbody, splitOn_cons_self]
    congr 1
    cases cs with
    | nil =>
      rw [body, List.flatMap_nil, List.append_nil]
      exact List.splitOn_eq_singleton (h c List.mem_cons_self)
    | cons c' cs =>
      have hnext : body sep (c' :: cs) = sep :: (c' ++ body sep cs) := rfl
      have ih' := ih fun q hq ↦ h q (List.mem_cons_of_mem _ hq)
      rw [hnext, splitOn_cons_self] at ih'
      rw [hnext, List.splitOn_append_cons_self_of_not_mem (h c List.mem_cons_self),
        List.cons_injective ih']

theorem Rules.Clean.normal_rooted (h : R.Clean sep cs) :
    R.normal [] ((rooted sep cs).splitOn sep) = cs := by
  have hnil : ∀ cs qs, R.normal cs ([] :: qs) = R.normal cs qs := by
    intro cs qs
    have hpush : R.push cs [] = cs := if_pos R.skip_nil
    calc R.normal cs ([] :: qs) = R.normal (R.push cs []) qs := rfl
      _ = R.normal cs qs := by rw [hpush]
  unfold rooted
  split
  · next hcs =>
    rw [splitOn_cons_self, hcs, hnil]
    exact hnil [] []
  · rw [splitOn_body fun c hc ↦ (h c hc).1.2, hnil]
    exact h.normal_eq

omit [LawfulBEq α] in
theorem length_body_splitOn : (body sep (l.splitOn sep)).length = l.length + 1 := by
  induction l with
  | nil => rfl
  | cons x l ih =>
    rw [List.splitOn_cons_eq_if_modifyHead]
    split
    · rw [body, List.flatMap_cons, List.length_append, ← body, ih, List.length_cons]
      simp only [List.length_cons, List.length_nil]
      omega
    · rcases hsplit : l.splitOn sep with _ | ⟨q, qs⟩
      · exact absurd hsplit (List.splitOn_ne_nil _ _)
      · rw [hsplit] at ih
        simp only [body, List.modifyHead_cons, List.flatMap_cons, List.length_append,
          List.length_cons] at ih ⊢
        omega

end Clean

section Components

variable [DecidableEq α] {w : List α}

/-- The components of a text that are not empty. -/
def components (sep : α) (l : List α) : List (List α) := (l.splitOn sep).filter (· ≠ [])

theorem components_append_cons (a b : List α) :
    components sep (a ++ sep :: b) = components sep a ++ components sep b := by
  rw [components, List.splitOn_append_cons_self, List.filter_append]
  rfl

theorem components_cons_self : components sep (sep :: l) = components sep l :=
  components_append_cons [] l

theorem components_of_proper (h : Proper sep c) : components sep c = [c] := by
  rw [components, List.splitOn_eq_singleton h.2]
  simp [h.1]

theorem components_seps_append (hw : ∀ x ∈ w, x = sep) :
    components sep (w ++ l) = components sep l := by
  induction w with
  | nil => rfl
  | cons x w ih =>
    obtain rfl := hw x List.mem_cons_self
    rw [List.cons_append, components_cons_self]
    exact ih fun y hy ↦ hw y (List.mem_cons_of_mem _ hy)

theorem components_append_seps (hw : ∀ x ∈ w, x = sep) :
    components sep (l ++ w) = components sep l := by
  cases w with
  | nil => rw [List.append_nil]
  | cons x w =>
    obtain rfl := hw x List.mem_cons_self
    have hnil : components x w = [] := by
      have h := components_seps_append (l := []) fun y hy ↦ hw y (List.mem_cons_of_mem _ hy)
      rwa [List.append_nil] at h
    rw [components_append_cons, hnil, List.append_nil]

end Components

end SceLibcPosix.Components
