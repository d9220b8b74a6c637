import Mathlib

/-! Lists of steps on a state that give answers. A step may fail, and the list ends with it. -/
namespace MetaStore.Trials
variable {S A E B : Type*}

/-- The answers of all steps, or the first failure; the state is that of the last step taken. -/
def run (step : S → A → S × Except E B) : S → List A → S × Except E (List B)
  | s,[] => (s,.ok [])
  | s,a :: as =>
    match (step s a).2 with
    | .error e => ((step s a).1,.error e)
    | .ok b =>
      let rest := run step (step s a).1 as
      (rest.1,rest.2.map (b :: ·))

def Fails (step : S → A → S × Except E B) : S → List A → Prop
  | _,[] => False
  | s,a :: as => (∃ e, (step s a).2 = .error e) ∨ Fails step (step s a).1 as

def Agrees (step : S → A → S × Except E B) (f : A → A) : S → List A → Prop
  | _,[] => True
  | s,a :: as => (step s (f a)).2 = (step s a).2 ∧ Agrees step f (step s a).1 as

section Cons
variable {step : S → A → S × Except E B} {s : S} {a : A} {as : List A}

lemma run_cons_of_error {e : E} (h : (step s a).2 = .error e) :
    run step s (a :: as) = ((step s a).1,.error e) := by
  rw [run,h]

lemma run_cons_of_ok {b : B} (h : (step s a).2 = .ok b) :
    run step s (a :: as) =
      ((run step (step s a).1 as).1,(run step (step s a).1 as).2.map (b :: ·)) := by
  rw [run,h]

end Cons

lemma run_error_iff {step : S → A → S × Except E B} (s : S) (as : List A) :
    (∃ e, (run step s as).2 = .error e) ↔ Fails step s as := by
  induction as generalizing s with
  | nil => simp [run,Fails]
  | cons a as ih =>
    cases h : (step s a).2 with
    | error e => simp [run_cons_of_error h,Fails,h]
    | ok b =>
      rw [run_cons_of_ok h,Fails,← ih]
      cases (run step (step s a).1 as).2 <;> simp [h,Except.map]

section Replace
variable {step : S → A → S × Except E B} {f : A → A}

/-- The replaced step has the same effect and the same failure, but maybe another answer. -/
structure Imitates (step : S → A → S × Except E B) (f : A → A) : Prop where
  state : ∀ s a, (step s (f a)).1 = (step s a).1
  error : ∀ s a e, (step s a).2 = .error e → (step s (f a)).2 = .error e
  ok : ∀ s a b, (step s a).2 = .ok b → ∃ b', (step s (f a)).2 = .ok b'

lemma run_map_of_fails (h : Imitates step f) {s : S} {as : List A} (hfails : Fails step s as) :
    run step s (as.map f) = run step s as := by
  induction as generalizing s with
  | nil => rfl
  | cons a as ih =>
    rw [List.map_cons]
    cases ha : (step s a).2 with
    | error e => rw [run_cons_of_error ha,run_cons_of_error (h.error s a e ha),h.state]
    | ok b =>
      obtain ⟨b',hb'⟩ := h.ok s a b ha
      have hrest : Fails step (step s a).1 as := by
        rcases hfails with ⟨e,he⟩|hrest
        · rw [ha] at he
          cases he
        · exact hrest
      -- the answers of a failing list are dropped
      obtain ⟨e,he⟩ := (run_error_iff _ _).mpr hrest
      rw [run_cons_of_ok ha,run_cons_of_ok hb',h.state,ih hrest,he]
      rfl

lemma run_map_ok (h : Imitates step f) {s : S} {as : List A} {bs : List B}
    (hok : (run step s as).2 = .ok bs) :
    (run step s (as.map f)).1 = (run step s as).1 ∧ ∃ bs', (run step s (as.map f)).2 = .ok bs' := by
  induction as generalizing s bs with
  | nil => exact ⟨rfl,[],rfl⟩
  | cons a as ih =>
    rw [List.map_cons]
    cases ha : (step s a).2 with
    | error e =>
      rw [run_cons_of_error ha] at hok
      cases hok
    | ok b =>
      obtain ⟨b',hb'⟩ := h.ok s a b ha
      rw [run_cons_of_ok ha] at hok ⊢
      rw [run_cons_of_ok hb',h.state]
      cases hrest : (run step (step s a).1 as).2 with
      | error e =>
        rw [hrest] at hok
        cases hok
      | ok cs =>
        obtain ⟨hstate,cs',hcs'⟩ := ih hrest
        exact ⟨hstate,b' :: cs',by rw [hcs']; rfl⟩

theorem run_map_eq_iff (h : Imitates step f) (s : S) (as : List A) :
    run step s (as.map f) = run step s as ↔ Fails step s as ∨ Agrees step f s as := by
  induction as generalizing s with
  | nil => simp [Agrees]
  | cons a as ih =>
    by_cases hfails : Fails step s (a :: as)
    · exact ⟨fun _ => .inl hfails,fun _ => run_map_of_fails h hfails⟩
    cases ha : (step s a).2 with
    | error e => exact absurd (.inl ⟨e,ha⟩) hfails
    | ok b =>
      obtain ⟨b',hb'⟩ := h.ok s a b ha
      have hrest : ¬ Fails step (step s a).1 as := fun hrest => hfails (.inr hrest)
      obtain ⟨bs,hbs⟩ : ∃ bs, (run step (step s a).1 as).2 = .ok bs := by
        cases hrun : (run step (step s a).1 as).2 with
        | error e => exact absurd ((run_error_iff _ _).mp ⟨e,hrun⟩) hrest
        | ok bs => exact ⟨bs,rfl⟩
      obtain ⟨hstate,bs',hbs'⟩ := run_map_ok h hbs
      have hsame : bs' = bs ↔ Agrees step f (step s a).1 as := by
        have hiff := ih (step s a).1
        rw [or_iff_right hrest,Prod.ext_iff,hbs,hbs',Except.ok.injEq,and_iff_right hstate] at hiff
        exact hiff
      rw [or_iff_right hfails,Agrees,ha,hb',Except.ok.injEq,← hsame,List.map_cons,run_cons_of_ok ha,
        run_cons_of_ok hb',h.state,hbs,hbs',Prod.ext_iff]
      constructor
      · rintro ⟨-,hcons⟩
        exact List.cons.inj (Except.ok.inj hcons)
      · rintro ⟨rfl,rfl⟩
        exact ⟨hstate,rfl⟩

lemma run_map_fst (h : Imitates step f) (s : S) (as : List A) :
    (run step s (as.map f)).1 = (run step s as).1 := by
  cases hrun : (run step s as).2 with
  | error e => rw [run_map_of_fails h ((run_error_iff s as).mp ⟨e,hrun⟩)]
  | ok bs => exact (run_map_ok h hrun).1

theorem toOption_run_map_eq_iff (h : Imitates step f) {C : Type*} {g : List B → C}
    (hg : Function.Injective g) (s : S) (as : List A) :
    ((run step s (as.map f)).2.map g).toOption = ((run step s as).2.map g).toOption ↔
      Fails step s as ∨ Agrees step f s as := by
  rw [← run_map_eq_iff h]
  constructor
  · intro heq
    cases hrun : (run step s as).2 with
    | error e => exact run_map_of_fails h ((run_error_iff s as).mp ⟨e,hrun⟩)
    | ok bs =>
      obtain ⟨hstate,bs',hbs'⟩ := run_map_ok h hrun
      rw [hrun,hbs'] at heq
      have hsame : bs' = bs := hg (Option.some.inj heq)
      exact Prod.ext hstate (by rw [hbs',hrun,hsame])
  · intro heq
    rw [heq]

end Replace
end MetaStore.Trials
