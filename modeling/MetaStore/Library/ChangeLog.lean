import Mathlib

/-! Logs of writes to a map, the changes they make, and reports of changes. A log is replayed on a
view of the map; a deletion of a missing key changes nothing. Reports of changes that come in
segments can be compared segment by segment, as long as no report fits a change of another
segment. -/
namespace MetaStore.ChangeLog
variable {K V R : Type*}

structure Write (K V R : Type*) where
  key : K
  value : Option V
  revision : R

structure Change (K V R : Type*) extends Write K V R where
  before : Option V

section Replay
variable [DecidableEq K]

def Write.apply (view : K → Option V) (w : Write K V R) : K → Option V :=
  Function.update view w.key w.value

def Write.change (view : K → Option V) (w : Write K V R) : Option (Change K V R) :=
  if w.value.isSome ∨ (view w.key).isSome then some ⟨w,view w.key⟩ else none

def replay (view : K → Option V) (log : List (Write K V R)) : K → Option V :=
  log.foldl Write.apply view

def changes (view : K → Option V) : List (Write K V R) → List (Change K V R)
  | [] => []
  | w :: log => (w.change view).toList ++ changes (w.apply view) log

variable (view : K → Option V)

@[simp] lemma replay_nil : replay view ([] : List (Write K V R)) = view := rfl

lemma replay_cons (w : Write K V R) (log : List (Write K V R)) :
    replay view (w :: log) = replay (w.apply view) log := rfl

lemma replay_append (log log' : List (Write K V R)) :
    replay view (log ++ log') = replay (replay view log) log' := List.foldl_append

@[simp] lemma changes_nil : changes view ([] : List (Write K V R)) = [] := rfl

lemma changes_append (log log' : List (Write K V R)) :
    changes view (log ++ log') = changes view log ++ changes (replay view log) log' := by
  induction log generalizing view with
  | nil => rfl
  | cons w log ih => rw [List.cons_append,changes,changes,ih,List.append_assoc]; rfl

lemma changes_singleton (w : Write K V R) : changes view [w] = (w.change view).toList := by
  rw [changes,changes,List.append_nil]

lemma mem_changes {log : List (Write K V R)} {c : Change K V R} (h : c ∈ changes view log) :
    c.toWrite ∈ log := by
  induction log generalizing view with
  | nil => exact absurd h List.not_mem_nil
  | cons w log ih =>
    rcases List.mem_append.mp h with h|h
    · unfold Write.change at h
      split_ifs at h
      · rw [List.mem_singleton.mp h]
        exact List.mem_cons_self
      · exact absurd h List.not_mem_nil
    · exact List.mem_cons_of_mem _ (ih _ h)

end Replay

section Reports
variable {α β ι : Type*} {Fits : α → β → Prop}

theorem forall₂_append_iff {a b : List α} {c d : List β}
    (had : ∀ x ∈ a, ∀ y ∈ d, ¬ Fits x y) (hbc : ∀ x ∈ b, ∀ y ∈ c, ¬ Fits x y) :
    List.Forall₂ Fits (a ++ b) (c ++ d) ↔ List.Forall₂ Fits a c ∧ List.Forall₂ Fits b d := by
  refine ⟨fun h => ?_,fun h => List.rel_append h.1 h.2⟩
  induction a generalizing c with
  | nil =>
    cases c with
    | nil => exact ⟨.nil,h⟩
    | cons y c =>
      cases b with
      | nil => cases h
      | cons x b =>
        obtain ⟨hxy,-⟩ := List.forall₂_cons.mp h
        exact absurd hxy (hbc x List.mem_cons_self y List.mem_cons_self)
  | cons x a ih =>
    cases c with
    | nil =>
      cases d with
      | nil => cases h
      | cons y d =>
        obtain ⟨hxy,-⟩ := List.forall₂_cons.mp h
        exact absurd hxy (had x List.mem_cons_self y List.mem_cons_self)
    | cons y c =>
      obtain ⟨hxy,hrest⟩ := List.forall₂_cons.mp h
      obtain ⟨hac,hbd⟩ := ih (fun x hx => had x (List.mem_cons_of_mem _ hx))
        (fun x hx y hy => hbc x hx y (List.mem_cons_of_mem _ hy)) hrest
      exact ⟨.cons hxy hac,hbd⟩

def Separate (Fits : α → β → Prop) (f : ι → List α) (g : ι → List β) (i j : ι) : Prop :=
  (∀ x ∈ f i, ∀ y ∈ g j, ¬ Fits x y) ∧ ∀ x ∈ f j, ∀ y ∈ g i, ¬ Fits x y

theorem forall₂_flatMap_iff {f : ι → List α} {g : ι → List β} {segments : List ι}
    (h : segments.Pairwise (Separate Fits f g)) :
    List.Forall₂ Fits (segments.flatMap f) (segments.flatMap g) ↔
      ∀ i ∈ segments, List.Forall₂ Fits (f i) (g i) := by
  induction segments with
  | nil => simp
  | cons i segments ih =>
    obtain ⟨hi,hrest⟩ := List.pairwise_cons.mp h
    rw [List.flatMap_cons,List.flatMap_cons,forall₂_append_iff,ih hrest,List.forall_mem_cons]
    · intro x hx y hy
      obtain ⟨j,hj,hyj⟩ := List.mem_flatMap.mp hy
      exact (hi j hj).1 x hx y hyj
    · intro x hx y hy
      obtain ⟨j,hj,hxj⟩ := List.mem_flatMap.mp hx
      exact (hi j hj).2 x hxj y hy

end Reports

section Segments
variable [DecidableEq K] {α ι : Type*} (writes : ι → List (Write K V R))

def located : (K → Option V) → List ι → List (ι × (K → Option V))
  | _,[] => []
  | view,i :: segments => (i,view) :: located (replay view (writes i)) segments

variable (view : K → Option V)

@[simp] lemma located_nil : located writes view [] = [] := rfl

lemma located_append (segments segments' : List ι) :
    located writes view (segments ++ segments') = located writes view segments ++
      located writes (replay view (segments.flatMap writes)) segments' := by
  induction segments generalizing view with
  | nil => rfl
  | cons i segments ih =>
    rw [List.cons_append,located,located,ih,List.flatMap_cons,replay_append,List.cons_append]

lemma map_fst_located (segments : List ι) :
    (located writes view segments).map Prod.fst = segments := by
  induction segments generalizing view with
  | nil => rfl
  | cons i segments ih => rw [located,List.map_cons,ih]

lemma changes_flatMap (segments : List ι) : changes view (segments.flatMap writes) =
    (located writes view segments).flatMap fun p => changes p.2 (writes p.1) := by
  induction segments generalizing view with
  | nil => rfl
  | cons i segments ih => rw [List.flatMap_cons,changes_append,located,List.flatMap_cons,ih]

variable (Fits : α → Change K V R → Prop) (reports : ι → List α)

def Apart (i j : ι) : Prop :=
  (∀ x ∈ reports i, ∀ c : Change K V R, c.toWrite ∈ writes j → ¬ Fits x c) ∧
    ∀ x ∈ reports j, ∀ c : Change K V R, c.toWrite ∈ writes i → ¬ Fits x c

variable {writes view Fits reports}

omit [DecidableEq K] in
lemma Apart.symm {i j : ι} (h : Apart writes Fits reports i j) : Apart writes Fits reports j i :=
  ⟨h.2,h.1⟩

theorem forall₂_changes_iff {keep : Change K V R → Bool} {segments : List ι}
    (h : segments.Pairwise (Apart writes Fits reports)) :
    List.Forall₂ Fits (segments.flatMap reports)
        ((changes view (segments.flatMap writes)).filter keep) ↔
      ∀ p ∈ located writes view segments,
        List.Forall₂ Fits (reports p.1) ((changes p.2 (writes p.1)).filter keep) := by
  have hreports : segments.flatMap reports =
      (located writes view segments).flatMap fun p => reports p.1 := by
    conv_lhs => rw [← map_fst_located writes view segments,List.flatMap_map]
  have hpairs : (located writes view segments).Pairwise (Separate Fits (fun p => reports p.1)
      fun p => (changes p.2 (writes p.1)).filter keep) := by
    rw [← map_fst_located writes view segments,List.pairwise_map] at h
    refine h.imp fun hapart => ⟨fun x hx c hc => ?_,fun x hx c hc => ?_⟩
    · exact hapart.1 x hx c (mem_changes _ (List.mem_filter.mp hc).1)
    · exact hapart.2 x hx c (mem_changes _ (List.mem_filter.mp hc).1)
  rw [hreports,changes_flatMap,List.filter_flatMap]
  exact forall₂_flatMap_iff hpairs

end Segments
end MetaStore.ChangeLog
