import Mathlib

/-! Iterations of an action whose order and repetitions do not matter, and lists of actions
that are taken in two phases. -/
namespace MetaStore.Commuting

variable {S A : Type*} {f : S → A → S}

theorem foldl_perm (hcomm : ∀ s a b, f (f s a) b = f (f s b) a) {l m : List A} (h : l.Perm m)
    (s : S) : l.foldl f s = m.foldl f s :=
  h.foldl_eq' (fun a _ b _ s => hcomm s a b) s

theorem foldl_comm {P : S → Prop} {a : A} {l : List A}
    (h : ∀ s, P s → ∀ b ∈ l, P (f s b) ∧ f (f s a) b = f (f s b) a) {s : S} (hs : P s) :
    l.foldl f (f s a) = f (l.foldl f s) a := by
  induction l generalizing s with
  | nil => rfl
  | cons b l ih =>
    obtain ⟨hsb,hab⟩ := h s hs b List.mem_cons_self
    rw [List.foldl_cons,List.foldl_cons,hab]
    exact ih (fun s hs c hc => h s hs c (List.mem_cons_of_mem b hc)) hsb

/-- Every action of the second phase commutes, where it stands, with the later ones of the
first phase. -/
def Overtaken (f : S → A → S) (first : A → Bool) : S → List A → Prop
  | _,[] => True
  | s,a :: l => (first a = false →
      (l.filter first).foldl f (f s a) = f ((l.filter first).foldl f s) a) ∧
    Overtaken f first (f s a) l

theorem foldl_eq_phases {first : A → Bool} {l : List A} {s : S} (h : Overtaken f first s l) :
    l.foldl f s = (l.filter fun a => !first a).foldl f ((l.filter first).foldl f s) := by
  induction l generalizing s with
  | nil => rfl
  | cons a l ih =>
    rw [List.foldl_cons,ih h.2]
    cases ha : first a with
    | true => simp [ha]
    | false => simp [ha,h.1 ha]

variable (hcomm : ∀ s a b, f (f s a) b = f (f s b) a) (hidem : ∀ s a, f (f s a) a = f s a)
include hcomm hidem

theorem foldl_cons_of_mem {l : List A} {a : A} (h : a ∈ l) (s : S) :
    (a :: l).foldl f s = l.foldl f s := by
  classical
  have hp := List.perm_cons_erase h
  rw [foldl_perm hcomm (hp.cons a) s,foldl_perm hcomm hp s]
  simp only [List.foldl_cons,hidem]

theorem foldl_append_of_absorbed {l m : List A} {s : S}
    (h : ∀ a ∈ m, a ∈ l ∨ f s a = s) : (m ++ l).foldl f s = l.foldl f s := by
  induction m with
  | nil => rfl
  | cons a m ih =>
    have hm := ih fun b hb => h b (List.mem_cons_of_mem a hb)
    rcases h a List.mem_cons_self with ha | ha
    · rw [List.cons_append,foldl_cons_of_mem hcomm hidem (List.mem_append_right m ha) s,hm]
    · rw [List.cons_append,List.foldl_cons,ha,hm]

/-- Only the set of actions that have an effect counts. -/
theorem foldl_congr_mem {l m : List A} {s : S} (h : ∀ a, f s a ≠ s → (a ∈ l ↔ a ∈ m)) :
    l.foldl f s = m.foldl f s := by
  have hl : ∀ a ∈ l, a ∈ m ∨ f s a = s := by
    intro a ha
    by_cases hs : f s a = s
    · exact Or.inr hs
    · exact Or.inl ((h a hs).mp ha)
  have hm : ∀ a ∈ m, a ∈ l ∨ f s a = s := by
    intro a ha
    by_cases hs : f s a = s
    · exact Or.inr hs
    · exact Or.inl ((h a hs).mpr ha)
  calc l.foldl f s = (m ++ l).foldl f s := (foldl_append_of_absorbed hcomm hidem hm).symm
    _ = (l ++ m).foldl f s := foldl_perm hcomm List.perm_append_comm s
    _ = m.foldl f s := foldl_append_of_absorbed hcomm hidem hl

end MetaStore.Commuting
