import Mathlib

/-! Threads that take atomic actions on one shared state, in any order.
An action may leave follow-up actions to its own thread. When actions of different
threads are independent, every complete schedule ends in the state of the sequential one. -/
namespace MetaStore.Interleaving
open Relation

variable {ι S A : Type*} [DecidableEq ι]

structure Config (ι S A : Type*) where
  shared : S
  threads : ι → List A

/-- One thread takes its next action; the follow-ups come before the rest of its work. -/
inductive Step (exec : A → S → S × List A) : Config ι S A → Config ι S A → Prop
  | act (c : Config ι S A) (i : ι) (a : A) (rest : List A) (h : c.threads i = a :: rest) :
      Step exec c ⟨(exec a c.shared).1,
        Function.update c.threads i ((exec a c.shared).2 ++ rest)⟩

def Config.Done (c : Config ι S A) : Prop := ∀ i, c.threads i = []

/-- Some complete schedule of `c` ends with shared state `s`. -/
def Ends (exec : A → S → S × List A) (c : Config ι S A) (s : S) : Prop :=
  ∃ d, ReflTransGen (Step exec) c d ∧ d.Done ∧ d.shared = s

/-- The sequential execution: each action is followed by its own follow-ups. -/
inductive Runs (exec : A → S → S × List A) : List A → S → S → Prop
  | nil (s : S) : Runs exec [] s s
  | cons {a : A} {l : List A} {s t : S} (h : Runs exec ((exec a s).2 ++ l) (exec a s).1 t) :
      Runs exec (a :: l) s t

def split (owner : A → ι) (l : List A) : ι → List A :=
  fun i => l.filter fun a => owner a = i

section Sequential
variable {exec : A → S → S × List A} {owner : A → ι}
variable {c : Config ι S A} {s : S}

theorem Runs.append {l m : List A} {t u : S} (h : Runs exec l s t) (k : Runs exec m t u) :
    Runs exec (l ++ m) s u := by
  induction h with
  | nil => exact k
  | @cons a l s t _ ih =>
    refine Runs.cons ?_
    have hk := ih k
    rwa [List.append_assoc] at hk

theorem Runs.foldl {B : Type*} {start : B → A} {f : S → B → S}
    (h : ∀ b s, Runs exec [start b] s (f s b)) (l : List B) (s : S) :
    Runs exec (l.map start) s (l.foldl f s) := by
  induction l generalizing s with
  | nil => exact Runs.nil s
  | cons b l ih => exact (h b s).append (ih (f s b))

/-- A property of the shared state and one of the queued actions that preserve each other. -/
theorem Ends.invariant_of_both {P : S → Prop} {Q : A → Prop}
    (hP : ∀ a s, Q a → P s → P (exec a s).1) (hQ : ∀ a s, Q a → P s → ∀ b ∈ (exec a s).2, Q b)
    (h : Ends exec c s) (hc : P c.shared)
    (hqueued : ∀ i, ∀ a ∈ c.threads i, Q a) : P s := by
  obtain ⟨d,hd,-,rfl⟩ := h
  suffices hboth : P d.shared ∧ ∀ i, ∀ a ∈ d.threads i, Q a from hboth.1
  induction hd with
  | refl => exact ⟨hc,hqueued⟩
  | tail _ hstep ih =>
    obtain ⟨i,a,rest,hi⟩ := hstep
    have ha : ∀ b ∈ a :: rest, Q b := fun b hb => ih.2 i b (hi ▸ hb)
    refine ⟨hP a _ (ha a List.mem_cons_self) ih.1,fun j b hb => ?_⟩
    dsimp only at hb
    by_cases hj : j = i
    · subst hj
      rw [Function.update_self,List.mem_append] at hb
      rcases hb with hb|hb
      · exact hQ a _ (ha a List.mem_cons_self) ih.1 b hb
      · exact ha b (List.mem_cons_of_mem a hb)
    · rw [Function.update_of_ne hj] at hb
      exact ih.2 j b hb

theorem Ends.invariant_of_queued {P : S → Prop} {Q : A → Prop}
    (hP : ∀ a s, Q a → P s → P (exec a s).1) (hQ : ∀ a s, Q a → ∀ b ∈ (exec a s).2, Q b)
    (h : Ends exec c s) (hc : P c.shared)
    (hqueued : ∀ i, ∀ a ∈ c.threads i, Q a) : P s :=
  h.invariant_of_both hP (fun a s ha _ => hQ a s ha) hc hqueued

theorem Ends.invariant {P : S → Prop} (hP : ∀ a s, P s → P (exec a s).1)
    (h : Ends exec c s) (hc : P c.shared) : P s :=
  h.invariant_of_queued (Q := fun _ => True) (fun a s _ => hP a s) (fun _ _ _ _ _ => trivial) hc
    fun _ _ _ => trivial

theorem Ends.thread_first {i : ι} {t u : S}
    (h : Runs exec (c.threads i) c.shared t)
    (k : Ends exec ⟨t,Function.update c.threads i []⟩ u) : Ends exec c u := by
  obtain ⟨s,threads⟩ := c
  dsimp only at h k
  generalize hl : threads i = l at h
  induction h generalizing threads with
  | nil s => rwa [← hl,Function.update_eq_self] at k
  | @cons a l s t _ ih =>
    obtain ⟨d,hd,hdone,hu⟩ := ih (Function.update threads i ((exec a s).2 ++ l))
      (by rwa [Function.update_idem]) (Function.update_self ..)
    exact ⟨d,.head (Step.act _ i a l hl) hd,hdone,hu⟩

theorem ends_of_runs (hown : ∀ a s, ∀ b ∈ (exec a s).2, owner b = owner a)
    {l : List A} {t : S} (h : Runs exec l s t) : Ends exec ⟨s,split owner l⟩ t := by
  induction h with
  | nil s => exact ⟨⟨s,split owner []⟩,.refl,fun i => by simp [split],rfl⟩
  | @cons a l s t h ih =>
    obtain ⟨d,hd,hdone,hs⟩ := ih
    refine ⟨d,.head ?_ hd,hdone,hs⟩
    have hstep : Step exec ⟨s,split owner (a :: l)⟩ _ :=
      Step.act _ (owner a) a (split owner l (owner a)) (by simp [split])
    convert hstep using 2
    funext i
    by_cases hi : i = owner a
    · subst hi
      have hf : ((exec a s).2).filter (fun b => owner b = owner a) = (exec a s).2 :=
        List.filter_eq_self.mpr fun b hb => by simp [hown a s b hb]
      simp [split,hf]
    · have hf : ((exec a s).2).filter (fun b => owner b = i) = [] :=
        List.filter_eq_nil_iff.mpr fun b hb => by simp [hown a s b hb,Ne.symm hi]
      simp [split,hf,hi,Ne.symm hi]

end Sequential

section Confluence
variable {exec : A → S → S × List A} {owner : A → ι}
variable {c d : Config ι S A}

/-- Taking `a` first changes neither what `b` does to the state nor what it leaves to do. -/
def Independent (exec : A → S → S × List A) (a b : A) : Prop :=
  ∀ s, (exec b (exec a s).1).1 = (exec a (exec b s).1).1 ∧
    (exec b (exec a s).1).2 = (exec b s).2 ∧ (exec a (exec b s).1).2 = (exec a s).2

def Config.Owned (owner : A → ι) (c : Config ι S A) : Prop :=
  ∀ i, ∀ a ∈ c.threads i, owner a = i

lemma owned_split (owner : A → ι) (s : S) (l : List A) :
    (⟨s,split owner l⟩ : Config ι S A).Owned owner := by
  intro i a ha
  simpa [split] using (List.mem_filter.mp ha).2

lemma Step.owned (hown : ∀ a s, ∀ b ∈ (exec a s).2, owner b = owner a)
    (h : Step exec c d) (hc : c.Owned owner) : d.Owned owner := by
  obtain ⟨i,a,rest,hi⟩ := h
  intro j b hb
  dsimp only at hb
  by_cases hj : j = i
  · subst hj
    rw [Function.update_self] at hb
    rcases List.mem_append.mp hb with hb | hb
    · rw [hown a _ b hb]
      exact hc j a (by simp [hi])
    · exact hc j b (by simp [hi,hb])
  · rw [Function.update_of_ne hj] at hb
    exact hc j b hb

theorem Step.diamond (hind : ∀ a b, owner a ≠ owner b → Independent exec a b)
    {e : Config ι S A} (hc : c.Owned owner) (hd : Step exec c d) (he : Step exec c e) :
    d = e ∨ ∃ f, Step exec d f ∧ Step exec e f := by
  obtain ⟨i,a,rest,hi⟩ := hd
  obtain ⟨j,b,rest',hj⟩ := he
  by_cases hij : i = j
  · subst hij
    obtain ⟨rfl,rfl⟩ := List.cons.inj (hi.symm.trans hj)
    exact Or.inl rfl
  · right
    have hne : owner a ≠ owner b := by
      rw [hc i a (by simp [hi]),hc j b (by simp [hj])]
      exact hij
    obtain ⟨h1,h2,h3⟩ := hind a b hne c.shared
    have hd : Step exec
        ⟨(exec a c.shared).1,Function.update c.threads i ((exec a c.shared).2 ++ rest)⟩ _ :=
      Step.act _ j b rest' (by simpa [Function.update_of_ne (Ne.symm hij)] using hj)
    have he : Step exec
        ⟨(exec b c.shared).1,Function.update c.threads j ((exec b c.shared).2 ++ rest')⟩ _ :=
      Step.act _ i a rest (by simpa [Function.update_of_ne hij] using hi)
    simp only [h1,h2,h3,Function.update_comm (Ne.symm hij)] at hd he
    exact ⟨_,hd,he⟩

lemma Config.Done.no_step (hc : c.Done) : ¬ Step exec c d := by
  rintro ⟨i,a,rest,h⟩
  simp [hc i] at h

lemma Config.Done.eq_of_steps (hc : c.Done)
    (h : ReflTransGen (Step exec) c d) : d = c := by
  cases ReflTransGen.cases_head h with
  | inl h => exact h.symm
  | inr h =>
    obtain ⟨e,he,_⟩ := h
    exact absurd he hc.no_step

/-- All complete schedules of an owned configuration end in the same shared state. -/
theorem Ends.unique (hown : ∀ a s, ∀ b ∈ (exec a s).2, owner b = owner a)
    (hind : ∀ a b, owner a ≠ owner b → Independent exec a b)
    (hc : c.Owned owner) {s t : S}
    (hs : Ends exec c s) (ht : Ends exec c t) : s = t := by
  obtain ⟨d,hd,hdone,rfl⟩ := hs
  obtain ⟨e,he,hedone,rfl⟩ := ht
  -- the diamond needs ownership, so it is carried along in the relation
  have hcarry : ∀ {x}, ReflTransGen (Step exec) c x →
      ReflTransGen (fun x y => x.Owned owner ∧ Step exec x y) c x ∧ x.Owned owner := by
    intro x hx
    induction hx with
    | refl => exact ⟨.refl,hc⟩
    | tail _ hstep ih => exact ⟨ih.1.tail ⟨ih.2,hstep⟩,hstep.owned hown ih.2⟩
  have hjoin : Join (ReflTransGen (fun x y => x.Owned owner ∧ Step exec x y)) d e := by
    refine church_rosser ?_ (hcarry hd).1 (hcarry he).1
    rintro x y z ⟨hx,hxy⟩ ⟨-,hxz⟩
    rcases Step.diamond hind hx hxy hxz with rfl | ⟨w,hyw,hzw⟩
    · exact ⟨y,.refl,.refl⟩
    · exact ⟨w,.single ⟨hxy.owned hown hx,hyw⟩,.single ⟨hxz.owned hown hx,hzw⟩⟩
  obtain ⟨f,hdf,hef⟩ := hjoin
  have hforget : ∀ {x y}, ReflTransGen (fun x y => x.Owned owner ∧ Step exec x y) x y →
      ReflTransGen (Step exec) x y := fun h => ReflTransGen.mono (fun _ _ h => h.2) _ _ h
  rw [← hdone.eq_of_steps (hforget hdf),← hedone.eq_of_steps (hforget hef)]

/-- Independence makes the threads compute what the sequential execution computes. -/
theorem ends_split_iff (hown : ∀ a s, ∀ b ∈ (exec a s).2, owner b = owner a)
    (hind : ∀ a b, owner a ≠ owner b → Independent exec a b)
    {l : List A} {s t u : S} (h : Runs exec l s t) :
    Ends exec ⟨s,split owner l⟩ u ↔ u = t := by
  have ht := ends_of_runs hown h
  constructor
  · intro hu
    exact Ends.unique hown hind (owned_split owner s l) hu ht
  · rintro rfl
    exact ht

theorem ends_split_iff_of_forall_owner {l : List A} {i : ι} (hl : ∀ a ∈ l, owner a = i)
    {s t u : S} (h : Runs exec l s t) : Ends exec ⟨s,split owner l⟩ u ↔ u = t := by
  have hsplit : split owner l = split (fun _ => i) l := by
    funext j
    exact List.filter_congr fun a ha => by rw [hl a ha]
  rw [hsplit]
  exact ends_split_iff (fun _ _ _ _ => rfl) (fun _ _ hne => absurd rfl hne) h

end Confluence
end MetaStore.Interleaving
