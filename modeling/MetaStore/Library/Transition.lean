import Mathlib

/-! Runs of labelled transition systems. A run is judged by what holds of its steps: each one
is allowed in the state it is taken in, and what every allowed step preserves holds at the
end. -/
namespace MetaStore.Transition

variable {S L : Type*} {Step : S → L → S → Prop} {Allowed : S → L → Prop}

inductive Run (Step : S → L → S → Prop) (Allowed : S → L → Prop) : S → List L → S → Prop
  | nil (s : S) : Run Step Allowed s [] s
  | cons {s t u : S} {l : L} {ls : List L} (allowed : Allowed s l) (step : Step s l t)
      (rest : Run Step Allowed t ls u) : Run Step Allowed s (l :: ls) u

theorem Run.invariant {Inv : S → Prop} (h : ∀ s l t, Inv s → Allowed s l → Step s l t → Inv t)
    {s t : S} {ls : List L} (hrun : Run Step Allowed s ls t) (hs : Inv s) : Inv t := by
  induction hrun with
  | nil s => exact hs
  | cons allowed step _ ih => exact ih (h _ _ _ hs allowed step)

section Partial
variable {step : S → L → Option S}
variable {s : S} {P : S → L → S → Prop} {ls : List L} {Inv : S → Prop}

lemma foldlM_snoc_eq_some_iff {u : S} {p : List L} {l : L} :
    (p ++ [l]).foldlM step s = some u ↔ ∃ t, p.foldlM step s = some t ∧ step t l = some u := by
  simp [List.foldlM_append,Option.bind_eq_some_iff]

/-- Every state of a run satisfies `P`. -/
def EveryState (step : S → L → Option S) (P : S → Prop) (s : S) (ls : List L) : Prop :=
  ∀ p, p <+: ls → ∀ t, p.foldlM step s = some t → P t

/-- Every step of a run satisfies `P`. -/
def EveryStep (step : S → L → Option S) (P : S → L → S → Prop) (s : S) (ls : List L) : Prop :=
  ∀ p l, p ++ [l] <+: ls → ∀ t u, p.foldlM step s = some t → step t l = some u → P t l u

lemma everyStep_nil (s : S) : EveryStep step P s [] := by
  intro p l hp
  exact absurd hp (by simp)

lemma everyStep_cons {a : L} :
    EveryStep step P s (a :: ls) ↔ ∀ v, step s a = some v → P s a v ∧ EveryStep step P v ls := by
  constructor
  · intro h v hv
    refine ⟨h [] a (by simp) s v rfl hv,fun p l hp t u ht htu => ?_⟩
    refine h (a :: p) l (List.cons_prefix_cons.mpr ⟨rfl,hp⟩) t u ?_ htu
    rw [List.foldlM_cons,hv]
    exact ht
  · intro h p l hp t u ht htu
    cases p with
    | nil =>
      obtain ⟨rfl,-⟩ := List.cons_prefix_cons.mp hp
      obtain rfl := Option.some.inj ht
      exact (h u htu).1
    | cons b p =>
      obtain ⟨rfl,hrest⟩ := List.cons_prefix_cons.mp hp
      obtain ⟨v,hv,ht⟩ := Option.bind_eq_some_iff.mp ht
      exact (h v hv).2 p l hrest t u ht htu

lemma everyStep_of_some {v : S} {a : L}
    (hv : step s a = some v) (hP : P s a v) (h : EveryStep step P v ls) :
    EveryStep step P s (a :: ls) :=
  everyStep_cons.mpr fun w hw => by
    obtain rfl := Option.some.inj (hv.symm.trans hw)
    exact ⟨hP,h⟩

theorem everyState_of_everyStep
    (hstep : ∀ s, ∀ l ∈ ls, ∀ t, Inv s → step s l = some t → P s l t → Inv t) (hs : Inv s)
    (h : EveryStep step P s ls) : EveryState step Inv s ls := by
  intro p
  induction p using List.reverseRecOn with
  | nil =>
    intro _ t ht
    exact Option.some.inj ht ▸ hs
  | append_singleton p l ih =>
    intro hp u hu
    obtain ⟨t,ht,htu⟩ := foldlM_snoc_eq_some_iff.mp hu
    have hinv := ih ((List.prefix_append p [l]).trans hp) t ht
    exact hstep t l (hp.subset (by simp)) u hinv htu (h p l hp t u ht htu)

theorem everyState_of_invariant
    (hstep : ∀ s, ∀ l ∈ ls, ∀ t, Inv s → step s l = some t → Inv t) (hs : Inv s) :
    EveryState step Inv s ls :=
  everyState_of_everyStep (P := fun _ _ _ => True)
    (fun s l hl t hinv ht _ => hstep s l hl t hinv ht) hs fun _ _ _ _ _ _ _ => trivial

theorem everyStep_congr {Q : S → L → S → Prop}
    (hstep : ∀ s, ∀ l ∈ ls, ∀ t, Inv s → step s l = some t → Inv t)
    (hiff : ∀ s l t, Inv s → step s l = some t → (P s l t ↔ Q s l t)) (hs : Inv s) :
    EveryStep step P s ls ↔ EveryStep step Q s ls := by
  have hinv := everyState_of_invariant hstep hs
  refine forall_congr' fun p => forall_congr' fun l => forall_congr' fun hp =>
    forall_congr' fun t => forall_congr' fun u => forall_congr' fun ht => ?_
  refine forall_congr' fun htu => hiff t l u ?_ htu
  exact hinv p ((List.prefix_append p [l]).trans hp) t ht

/-- A property that a step keeps exactly when it is allowed, as long as an invariant holds that
every allowed step keeps, holds in every state of a run exactly when every step is allowed. -/
theorem always_iff_of_invariant {P : S → Prop}
    (hstep : ∀ s l t, Inv s → P s → step s l = some t →
      (P t ↔ Allowed s l) ∧ (Allowed s l → Inv t))
    (hs : Inv s) (hP : P s) (ls : List L) :
    EveryState step P s ls ↔ EveryStep step (fun s l _ => Allowed s l) s ls := by
  constructor
  · intro h
    have hsteps : EveryStep step (fun s _ t => P s ∧ P t) s ls := fun p l hp t u ht htu =>
      ⟨h p ((List.prefix_append p [l]).trans hp) t ht,
        h _ hp u (foldlM_snoc_eq_some_iff.mpr ⟨t,ht,htu⟩)⟩
    -- the invariant holds along the run, since the property holds after every step
    have hinv : EveryState step Inv s ls := by
      refine everyState_of_everyStep (fun s l _ t hs ht hboth => ?_) hs hsteps
      obtain ⟨hiff,hnext⟩ := hstep s l t hs hboth.1 ht
      exact hnext (hiff.mp hboth.2)
    intro p l hp t u ht htu
    obtain ⟨hbefore,hafter⟩ := hsteps p l hp t u ht htu
    have hreached := hinv p ((List.prefix_append p [l]).trans hp) t ht
    exact (hstep t l u hreached hbefore htu).1.mp hafter
  · intro h
    have hboth : EveryState step (fun s => Inv s ∧ P s) s ls := by
      refine everyState_of_everyStep (fun s l _ t hs ht hallowed => ?_) ⟨hs,hP⟩ h
      obtain ⟨hiff,hnext⟩ := hstep s l t hs.1 hs.2 ht
      exact ⟨hnext hallowed,hiff.mpr hallowed⟩
    exact fun p hp t ht => (hboth p hp t ht).2

theorem always_iff
    (hstep : ∀ s l t, Inv s → step s l = some t → (Inv t ↔ Allowed s l)) (hs : Inv s)
    (ls : List L) :
    (∀ p, p <+: ls → ∀ t, p.foldlM step s = some t → Inv t) ↔
      ∀ p l, p ++ [l] <+: ls → ∀ t u, p.foldlM step s = some t → step t l = some u →
        Allowed t l := by
  have hstep' : ∀ s l t, True → Inv s → step s l = some t →
      (Inv t ↔ Allowed s l) ∧ (Allowed s l → True) :=
    fun s l t _ hs h => ⟨hstep s l t hs h,fun _ => trivial⟩
  exact always_iff_of_invariant hstep' trivial hs ls

end Partial
end MetaStore.Transition
