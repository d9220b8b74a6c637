import MetaStore.MVCC.Layered

/-! The history of a key under compaction (key_index.go). `Compact` drops the revisions of a
generation up to its target, and every generation that is then empty, also the one that marks a
key as deleted. `Twin` relates an item to its compaction, and both to whatever is written
later. -/
namespace MetaStore.MVCC
open Std

namespace Revision

lemma greaterThanOrEqual_iff {r other : Revision} :
    r.greaterThanOrEqual other = true ↔
      other.main < r.main ∨ other.main = r.main ∧ other.sub ≤ r.sub := by
  rw [greaterThanOrEqual,decide_eq_true_iff,compare]
  split_ifs <;> omega

lemma greaterThanOrEqual_main_iff {r : Revision} (h : 0 ≤ r.sub) {c : ℤ} :
    r.greaterThanOrEqual ⟨c,0⟩ = true ↔ c ≤ r.main := by
  rw [greaterThanOrEqual_iff]
  dsimp only
  omega

lemma greaterThanOrEqual_main_eq_false_iff {r : Revision} (h : 0 ≤ r.sub) {c : ℤ} :
    r.greaterThanOrEqual ⟨c,0⟩ = false ↔ r.main < c := by
  rw [← Bool.not_eq_true,greaterThanOrEqual_main_iff h,Int.not_le]

lemma greaterThanOrEqual_eq_not_lessThan (r other : Revision) :
    r.greaterThanOrEqual other = !r.lessThan other := by
  rw [Bool.eq_iff_iff,greaterThanOrEqual_iff,Bool.not_eq_true',← Bool.not_eq_true,lessThan_iff]
  omega

end Revision

namespace Generation
variable {g : Generation} {atRev : Revision}

def kept (atRev : Revision) (g : Generation) : List Revision :=
  g.revisions.dropWhile (!·.greaterThanOrEqual atRev)

lemma compact_eq (atRev : Revision) (g : Generation) :
    g.compact atRev = if g.kept atRev = [] then none else some ⟨g.created,g.kept atRev⟩ := by
  unfold compact kept
  split
  · next h => rw [if_pos h]
  · next h => rw [if_neg h]

lemma kept_eq_nil_iff :
    g.kept atRev = [] ↔ ∀ rev ∈ g.revisions, rev.greaterThanOrEqual atRev = false := by
  simp [kept]

lemma kept_eq_filter (h : g.revisions.Pairwise (· < ·)) :
    g.kept atRev = g.revisions.filter (·.greaterThanOrEqual atRev) := by
  unfold kept
  generalize g.revisions = revs at h ⊢
  induction revs with
  | nil => rfl
  | cons rev revs ih =>
    rw [List.pairwise_cons] at h
    cases hrev : rev.greaterThanOrEqual atRev with
    | false => simp [hrev,ih h.2]
    | true =>
      have hall : ∀ r ∈ revs, r.greaterThanOrEqual atRev = true := by
        intro r hr
        have h₁ := Revision.lt_iff.1 (h.1 r hr)
        have h₂ := Revision.greaterThanOrEqual_iff.1 hrev
        exact Revision.greaterThanOrEqual_iff.2 (by omega)
      simp [hrev,List.filter_eq_self.2 hall]

lemma getLast?_kept {last : Revision}
    (h : g.revisions.getLast? = some last) (hlast : last.greaterThanOrEqual atRev = true) :
    (g.kept atRev).getLast? = some last := by
  obtain ⟨init,hinit⟩ := List.getLast?_eq_some_iff.1 h
  rw [kept,hinit,List.dropWhile_append]
  split_ifs
  · simp [hlast]
  · rw [List.getLast?_concat]

lemma kept_concat (h : g.kept atRev ≠ []) (rev : Revision) :
    kept atRev ⟨g.created,g.revisions ++ [rev]⟩ = g.kept atRev ++ [rev] := by
  have hne : (g.revisions.dropWhile (!·.greaterThanOrEqual atRev)).isEmpty = false := by
    rw [← Bool.not_eq_true,List.isEmpty_iff]
    exact h
  rw [kept,List.dropWhile_append,hne]
  rfl

end Generation

namespace KeyItem
variable {gens : List Generation} {atRev rev : Revision} {ki : KeyItem}

lemma latest_filter {revs : List Revision} {p : Revision → Bool}
    (h : revs.Pairwise fun a b => p a = true → p b = true) (atRev : Revision) :
    latest (revs.filter p) atRev = (latest revs atRev).filter p := by
  have h := h.filter (·.lessThanOrEqual atRev)
  rw [latest,latest,List.filter_comm]
  generalize revs.filter (·.lessThanOrEqual atRev) = l at h ⊢
  obtain rfl | ⟨init,last,rfl⟩ := List.eq_nil_or_concat' l
  · rfl
  · rw [List.getLast?_concat,List.filter_append]
    cases hlast : p last with
    | true => simp [hlast,Option.filter_some]
    | false =>
      have hnil : init.filter p = [] := List.filter_eq_nil_iff.2 fun r hr hp => by
        simp [(List.pairwise_append.1 h).2.2 r hr last (by simp) hp] at hlast
      simp [hlast,hnil,Option.filter_some]

lemma revisions_compact (hincreasing : ∀ g ∈ gens, g.revisions.Pairwise (· < ·)) (target : Revision) :
    (gens.filterMap (Generation.compact target)).flatMap Generation.revisions =
      (gens.flatMap Generation.revisions).filter (·.greaterThanOrEqual target) := by
  induction gens with
  | nil => rfl
  | cons g gens ih =>
    obtain ⟨hg,hgens⟩ := List.forall_mem_cons.1 hincreasing
    rw [List.flatMap_cons,List.filter_append,← ih hgens,← Generation.kept_eq_filter hg,
      List.filterMap_cons,Generation.compact_eq]
    by_cases hnil : g.kept target = [] <;> simp [hnil]

theorem newest_compact {c : ℤ}
    (hmains : (gens.flatMap Generation.revisions).Pairwise fun a b => a.main ≤ b.main)
    (hincreasing : ∀ g ∈ gens, g.revisions.Pairwise (· < ·))
    (hsub : ∀ rev ∈ gens.flatMap Generation.revisions, 0 ≤ rev.sub) (atRev : Revision) :
    newest atRev (gens.filterMap (Generation.compact ⟨c,0⟩)) =
      (newest atRev gens).filter (·.greaterThanOrEqual ⟨c,0⟩) := by
  rw [newest_eq_latest,newest_eq_latest,revisions_compact hincreasing,latest_filter]
  refine hmains.imp_of_mem fun {a b} ha hb hle => ?_
  rw [Revision.greaterThanOrEqual_main_iff (hsub a ha),Revision.greaterThanOrEqual_main_iff (hsub b hb)]
  exact fun hge => hge.trans hle

/-- Generations without revisions do not matter for look-ups. -/
lemma newest_filter_isEmpty (atRev : Revision) (gens : List Generation) :
    newest atRev (gens.filter (!·.isEmpty)) = newest atRev gens := by
  rw [newest_eq_latest,newest_eq_latest]
  congr 1
  induction gens with
  | nil => rfl
  | cons g gens ih =>
    cases hempty : g.isEmpty with
    | true => simp [hempty,ih,List.isEmpty_iff.1 hempty]
    | false => simp [hempty,ih]

lemma newest_of_concat {ki' : KeyItem} (h : rev.lessThanOrEqual atRev = false)
    (hrevs : ki'.revisions = ki.revisions ++ [rev]) :
    newest atRev ki'.generations = newest atRev ki.generations := by
  rw [newest_eq_latest,newest_eq_latest]
  change latest ki'.revisions atRev = latest ki.revisions atRev
  rw [hrevs,latest_append,show latest [rev] atRev = none by simp [latest,h],Option.none_or]

lemma filter_lessThanOrEqual {target : Revision} (h : target.lessThanOrEqual atRev = true)
    (revs : List Revision) : revs.filter (·.lessThanOrEqual target) =
      (revs.filter (·.lessThanOrEqual atRev)).filter (·.lessThanOrEqual target) := by
  rw [List.filter_filter]
  refine List.filter_congr fun rev _ => ?_
  cases hle : rev.lessThanOrEqual target with
  | false => rfl
  | true =>
    have h₁ := Revision.lessThanOrEqual_iff.1 h
    have h₂ := Revision.lessThanOrEqual_iff.1 hle
    rw [Revision.lessThanOrEqual_iff.2 (by omega : rev.main < atRev.main ∨ _)]
    rfl

lemma newest_of_le {target : Revision} (h : target.lessThanOrEqual atRev = true)
    (hle : rev.lessThanOrEqual target = true)
    (hfound : newest atRev gens = some rev) : newest target gens = some rev := by
  rw [newest_eq_latest,latest] at hfound ⊢
  obtain ⟨init,hinit⟩ := List.getLast?_eq_some_iff.1 hfound
  rw [filter_lessThanOrEqual h,hinit,List.filter_append,List.filter_cons_of_pos (by simp [hle]),
    List.filter_nil,List.getLast?_concat]

def compacted (atRev : Revision) (ki : KeyItem) : KeyItem := (ki.compact atRev).getD ⟨[],.zero⟩

lemma generations_compacted (atRev : Revision) (ki : KeyItem) :
    (ki.compacted atRev).generations = ki.generations.filterMap (Generation.compact atRev) := by
  unfold compacted compact
  split
  · next h => rw [h]; rfl
  · rfl

lemma isEmpty_of_compact {g g' : Generation} (h : g.compact atRev = some g') :
    g'.isEmpty = false := by
  rw [Generation.compact_eq,Option.ite_none_left_eq_some] at h
  obtain ⟨hne,rfl⟩ := h.imp_right Option.some.inj
  rw [Generation.isEmpty,← Bool.not_eq_true,List.isEmpty_iff]
  exact hne

lemma isDeleted_compacted_iff :
    (ki.compacted atRev).isDeleted = true ↔
      ∀ rev ∈ ki.revisions, rev.greaterThanOrEqual atRev = false := by
  have hgens := ki.generations_compacted atRev
  have hdropped : ki.generations.filterMap (Generation.compact atRev) = [] ↔
      ∀ rev ∈ ki.revisions, rev.greaterThanOrEqual atRev = false := by
    simp only [List.filterMap_eq_nil_iff,Generation.compact_eq,ite_eq_left_iff,reduceCtorEq,
      imp_false,not_not,Generation.kept_eq_nil_iff,revisions,List.mem_flatMap,
      forall_exists_index,and_imp]
    exact ⟨fun h rev g hg hrev => h g hg rev hrev,fun h g hg rev hrev => h rev g hg hrev⟩
  rw [← hdropped]
  constructor
  · intro hdel
    by_contra hne
    obtain ⟨g,hlast⟩ : ∃ g, (ki.generations.filterMap (Generation.compact atRev)).getLast? =
        some g := Option.ne_none_iff_exists'.1 fun hnone => hne (List.getLast?_eq_none_iff.1 hnone)
    obtain ⟨old,-,hold⟩ := List.mem_filterMap.1 (List.mem_of_getLast? hlast)
    rw [isDeleted,currentGeneration,hgens,hlast] at hdel
    exact absurd hdel (by simp [isEmpty_of_compact hold])
  · intro hnil
    rw [isDeleted,currentGeneration,hgens,hnil]
    rfl

lemma revisions_compacted_sublist (atRev : Revision) (ki : KeyItem) :
    (ki.compacted atRev).revisions.Sublist ki.revisions := by
  rw [revisions,generations_compacted,revisions]
  induction ki.generations with
  | nil => exact List.Sublist.slnil
  | cons g gens ih =>
    rw [List.filterMap_cons,Generation.compact_eq]
    split_ifs
    · exact ih.trans (List.sublist_append_right _ _)
    · exact (List.dropWhile_sublist _).append ih

lemma Layered.compacted (h : ki.Layered) (atRev : Revision) :
    (ki.compacted atRev).Layered := by
  have hmem : ∀ g ∈ (ki.compacted atRev).generations, ∃ old ∈ ki.generations,
      g.created = old.created ∧ g.revisions.Sublist old.revisions := by
    rw [generations_compacted]
    intro g hg
    obtain ⟨old,hold,hcompact⟩ := List.mem_filterMap.1 hg
    rw [Generation.compact_eq,Option.ite_none_left_eq_some] at hcompact
    obtain rfl := Option.some.inj hcompact.2
    exact ⟨old,hold,rfl,List.dropWhile_sublist _⟩
  refine ⟨h.mains.sublist (revisions_compacted_sublist atRev ki),fun g hg => ?_,fun g hg r hr => ?_⟩
  · obtain ⟨old,hold,-,hsub⟩ := hmem g hg
    exact (h.increasing old hold).sublist hsub
  · obtain ⟨old,hold,hcreated,hsub⟩ := hmem g hg
    rw [hcreated]
    exact h.created old hold r (hsub.subset hr)

lemma main_le_lastRevision (ki : KeyItem) (h : ki.Layered) (hlive : ki.isDeleted = false) :
    ∀ rev ∈ ki.revisions, rev.main ≤ ki.lastRevision.main := by
  obtain ⟨init,hinit⟩ := List.getLast?_eq_some_iff.1 (getLast?_revisions hlive)
  have hmains := h.mains
  rw [hinit] at hmains ⊢
  intro rev hrev
  obtain hrev | hrev := List.mem_append.1 hrev
  · exact (List.pairwise_append.1 hmains).2.2 rev hrev _ (by simp)
  · rw [List.mem_singleton.1 hrev]

/-- Two items that differ by a compaction at `c` and agree on everything written since. -/
structure Twin (c : ℤ) (ki ki' : KeyItem) : Prop where
  deleted : ki'.isDeleted = ki.isDeleted
  generations : ki'.generations.filter (!·.isEmpty) =
    ki.generations.filterMap (Generation.compact ⟨c,0⟩)
  last : ki.isDeleted = false → ki.lastRevision.greaterThanOrEqual ⟨c,0⟩ = true

namespace Twin
variable {c : ℤ} {ki ki' : KeyItem}

lemma current (h : ki.Twin c ki') (hlive : ki.isDeleted = false) :
    ∃ init gen init', ki.generations = init ++ [gen] ∧ gen.isEmpty = false ∧
      ki'.generations = init' ++ [⟨gen.created,gen.kept ⟨c,0⟩⟩] ∧ gen.kept ⟨c,0⟩ ≠ [] ∧
      init'.filter (!·.isEmpty) = init.filterMap (Generation.compact ⟨c,0⟩) ∧
      (gen.kept ⟨c,0⟩).getLast? = some ki.lastRevision := by
  obtain ⟨init,gen,hgens,hne,hlast⟩ := exists_last_generation hlive
  obtain ⟨init',gen',hgens',hne',-⟩ := exists_last_generation (h.deleted.trans hlive)
  have hkept := Generation.getLast?_kept hlast (h.last hlive)
  have hnil : gen.kept ⟨c,0⟩ ≠ [] := fun hnil => by simp [hnil] at hkept
  have hcompact : gen.compact ⟨c,0⟩ = some ⟨gen.created,gen.kept ⟨c,0⟩⟩ := by
    rw [Generation.compact_eq,if_neg hnil]
  have heq := h.generations
  rw [hgens,hgens',List.filter_append,List.filterMap_append,List.filterMap_cons,hcompact,
    List.filter_cons_of_pos (by simp [hne'])] at heq
  obtain ⟨hinit,hgen⟩ := List.append_inj' heq rfl
  obtain rfl := List.singleton_inj.1 hgen
  exact ⟨init,gen,init',hgens,hne,hgens',hnil,hinit,hkept⟩

lemma lastRevision_eq (h : ki.Twin c ki') (hlive : ki.isDeleted = false) :
    ki'.lastRevision = ki.lastRevision := by
  obtain ⟨init,gen,init',-,-,hgens',-,-,hlast⟩ := h.current hlive
  rw [lastRevision,currentGeneration,hgens',List.getLast?_concat,Option.map_some,Option.getD_some,
    Generation.lastRevision,hlast,Option.getD_some]

lemma put (h : ki.Twin c ki') {rev : Revision} (hrev : rev.greaterThanOrEqual ⟨c,0⟩ = true) :
    (ki.put rev).Twin c (ki'.put rev) where
  deleted := by rw [isDeleted_put,isDeleted_put]
  last _ := by rw [lastRevision_put]; exact hrev
  generations := by
    cases hdel : ki.isDeleted with
    | true =>
      have hnew : Generation.compact ⟨c,0⟩ ⟨rev,[rev]⟩ = some ⟨rev,[rev]⟩ := by
        simp [Generation.compact_eq,Generation.kept,hrev]
      rw [put_of_deleted hdel,put_of_deleted (h.deleted.trans hdel),List.filter_append,
        List.filterMap_append,h.generations,List.filterMap_cons,hnew]
      rfl
    | false =>
      obtain ⟨init,gen,init',hgens,hne,hgens',hnil,hinit,-⟩ := h.current hdel
      have hne' : Generation.isEmpty ⟨gen.created,gen.kept ⟨c,0⟩⟩ = false := by
        rw [Generation.isEmpty,← Bool.not_eq_true,List.isEmpty_iff]
        exact hnil
      rw [put_of_append hgens hne,put_of_append hgens' hne',List.filter_append,
        List.filterMap_append,hinit,List.filterMap_cons,Generation.compact_eq,
        Generation.kept_concat hnil]
      simp [Generation.isEmpty]

lemma delete (h : ki.Twin c ki') (hlive : ki.isDeleted = false) {rev : Revision}
    (hrev : rev.greaterThanOrEqual ⟨c,0⟩ = true) : (ki.delete rev).Twin c (ki'.delete rev) where
  deleted := by rw [isDeleted_delete,isDeleted_delete]
  last hl := by rw [isDeleted_delete] at hl; exact absurd hl (by decide)
  generations := by
    rw [generations_delete hlive,generations_delete (h.deleted.trans hlive),List.filter_append,
      List.filterMap_append,(h.put hrev).generations]
    rfl

/-- A look-up in the compacted item misses only what is before the compaction. -/
lemma newest_eq (h : ki.Twin c ki') (hki : ki.Layered) (hsub : ∀ rev ∈ ki.revisions, 0 ≤ rev.sub)
    (atRev : Revision) :
    newest atRev ki'.generations =
      (newest atRev ki.generations).filter (·.greaterThanOrEqual ⟨c,0⟩) := by
  rw [← newest_filter_isEmpty,h.generations,newest_compact hki.mains hki.increasing hsub]

end Twin

end KeyItem

end MetaStore.MVCC
