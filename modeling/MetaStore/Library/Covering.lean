import Mathlib

/-! Covering an interval by finitely many others in a linear order. A point that is missed lies
after the last covered end, so that the start of the interval and the ends of the others are
the only points to check. -/
namespace MetaStore.Covering

variable {α : Type*} [LinearOrder α]

/-- The points from `lo` on and below `hi`, if there is an upper bound. -/
structure Span (α : Type*) where
  lo : α
  hi : Option α

def Span.Contains (i : Span α) (x : α) : Prop := i.lo ≤ x ∧ ∀ h ∈ i.hi, x < h

instance (i : Span α) : DecidablePred i.Contains := fun x =>
  match h : i.hi with
  | none => decidable_of_iff (i.lo ≤ x) (by simp [Span.Contains,h])
  | some hi => decidable_of_iff (i.lo ≤ x ∧ x < hi) (by simp [Span.Contains,h])

def Covered (is : List (Span α)) (x : α) : Prop := ∃ i ∈ is, i.Contains x

/-- The start of `j` and the ends of the others, as far as they lie in `j`. -/
def checkpoints (is : List (Span α)) (j : Span α) : List α :=
  (j.lo :: is.filterMap Span.hi).filter (j.Contains ·)

lemma mem_checkpoints {is : List (Span α)} {j : Span α} {c : α} :
    c ∈ checkpoints is j ↔ (c = j.lo ∨ ∃ i ∈ is, i.hi = some c) ∧ j.Contains c := by
  simp [checkpoints]

lemma exists_greatest_le {l : List α} {x a : α} (ha : a ∈ l) (hax : a ≤ x) :
    ∃ c ∈ l, c ≤ x ∧ ∀ d ∈ l, d ≤ x → d ≤ c := by
  obtain ⟨c,hc,hmax⟩ := (l.toFinset.filter (· ≤ x)).exists_max_image id
    ⟨a,by simp [ha,hax]⟩
  simp only [Finset.mem_filter,List.mem_toFinset] at hc hmax
  exact ⟨c,hc.1,hc.2,fun d hd hdx => hmax d ⟨hd,hdx⟩⟩

theorem forall_covered_iff (is : List (Span α)) (j : Span α) :
    (∀ x, j.Contains x → Covered is x) ↔ ∀ c ∈ checkpoints is j, Covered is c := by
  constructor
  · intro h c hc
    exact h c (mem_checkpoints.mp hc).2
  · intro h x hx
    have hlo : j.lo ∈ checkpoints is j :=
      mem_checkpoints.mpr ⟨.inl rfl,le_rfl,fun h hh => hx.1.trans_lt (hx.2 h hh)⟩
    obtain ⟨c,hc,hcx,hmax⟩ := exists_greatest_le hlo hx.1
    obtain ⟨i,hi,hic⟩ := h c hc
    refine ⟨i,hi,hic.1.trans hcx,fun e he => ?_⟩
    by_contra hex
    -- the end of the interval around the last checkpoint would be a later one
    have hex := not_lt.mp hex
    have hce := hic.2 e he
    have hmem : e ∈ checkpoints is j := by
      refine mem_checkpoints.mpr ⟨.inr ⟨i,hi,he⟩,?_,fun h hh => hex.trans_lt (hx.2 h hh)⟩
      exact (mem_checkpoints.mp hc).2.1.trans hce.le
    exact absurd (hmax e hmem hex) (not_le.mpr hce)

end MetaStore.Covering
