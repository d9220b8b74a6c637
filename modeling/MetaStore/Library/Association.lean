import Mathlib.Logic.Function.Basic

/-! A relation that is stored twice: every item names the group it is in, and every group
lists its items. The two sides agree when the lists of the counted groups say exactly what
the items say. -/
namespace MetaStore.Association

variable {ι κ : Type*}

def Agree (counts : ι → Prop) (group : κ → Option ι) (lists : ι → κ → Prop) : Prop :=
  ∀ i k, lists i k ↔ counts i ∧ group k = some i

namespace Agree

variable {counts : ι → Prop} {group group' : κ → Option ι} {lists lists' : ι → κ → Prop}

theorem congr (h : Agree counts group lists) (hgroup : ∀ k, group' k = group k)
    (hlists : ∀ i k, lists' i k ↔ lists i k) : Agree counts group' lists' := by
  intro i k
  rw [hlists,hgroup,h]

theorem join [DecidableEq κ] (h : Agree counts group lists) {i : ι} {k : κ}
    (hk : ∀ j, counts j → group k = some j → j = i)
    (hgroup : ∀ l, group' l = if l = k then some i else group l)
    (hlists : ∀ j l, lists' j l ↔ lists j l ∨ counts j ∧ j = i ∧ l = k) :
    Agree counts group' lists' := by
  intro j l
  rw [hlists,hgroup,h]
  by_cases hl : l = k
  · subst hl
    constructor
    · rintro (⟨hj,hg⟩|⟨hj,rfl,-⟩)
      · exact ⟨hj,by rw [if_pos rfl,hk j hj hg]⟩
      · exact ⟨hj,if_pos rfl⟩
    · rintro ⟨hj,hg⟩
      rw [if_pos rfl] at hg
      exact .inr ⟨hj,(Option.some.inj hg).symm,rfl⟩
  · simp [hl]

theorem leave [DecidableEq κ] (h : Agree counts group lists) {k : κ}
    (hgroup : ∀ l, group' l = if l = k then none else group l)
    (hlists : ∀ j l, lists' j l ↔ lists j l ∧ ¬ (counts j ∧ group k = some j ∧ l = k)) :
    Agree counts group' lists' := by
  intro j l
  rw [hlists,hgroup,h]
  by_cases hl : l = k
  · subst hl
    simp only [and_true,if_true,reduceCtorEq,and_false,iff_false]
    exact fun hj => hj.2 hj.1
  · simp [hl]

theorem lose (h : Agree counts group lists)
    (hgroup : ∀ k, group' k = group k ∨
      group' k = none ∧ ∀ i, counts i → group k ≠ some i)
    (hlists : ∀ i k, lists' i k ↔ lists i k) : Agree counts group' lists' := by
  intro i k
  rw [hlists,h]
  obtain hk|⟨hk,hnone⟩ := hgroup k
  · rw [hk]
  · rw [hk]
    exact ⟨fun hi => absurd hi.2 (hnone i hi.1),fun hi => nomatch hi.2⟩

theorem clear (gone : ι → Prop) (h : Agree counts group lists)
    (hgone : ∀ i k, counts i → gone i → group k ≠ some i) (hgroup : ∀ k, group' k = group k)
    (hlists : ∀ i k, lists' i k ↔ lists i k ∧ ¬ gone i) : Agree counts group' lists' := by
  intro i k
  rw [hlists,hgroup,h]
  constructor
  · exact fun hi => hi.1
  · exact fun hi => ⟨hi,fun hg => hgone i k hi.1 hg hi.2⟩

theorem dissolve (h : Agree counts group lists) {i : ι}
    (hgroup : ∀ k, (lists i k → group' k = none) ∧ (¬ lists i k → group' k = group k))
    (hlists : ∀ j k, lists' j k ↔ lists j k ∧ j ≠ i) : Agree counts group' lists' := by
  intro j k
  rw [hlists]
  by_cases hk : lists i k
  · rw [(hgroup k).1 hk,h]
    -- an item is in one group only
    constructor
    · rintro ⟨⟨-,hj⟩,hne⟩
      exact absurd (Option.some.inj (hj.symm.trans ((h i k).mp hk).2)) hne
    · rintro ⟨-,hj⟩
      cases hj
  · rw [(hgroup k).2 hk,h]
    constructor
    · exact fun hj => hj.1
    · intro hj
      refine ⟨hj,?_⟩
      rintro rfl
      exact hk ((h j k).mpr hj)

end Agree
end MetaStore.Association
