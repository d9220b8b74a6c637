import MetaStore.Library.Bytes
import MetaStore.Library.Halving

/-! Revisions and the key index of the MVCC stores (internal/mvcc/revision.go, key_index.go).
The history of a key is spread over generations, with an empty one after every deletion, and
a look-up walks them backwards with a binary search in each. -/
namespace MetaStore.MVCC
open Std

structure Revision where
  main : ℤ
  sub : ℤ
  deriving DecidableEq, Repr

namespace Revision
variable {other r : Revision}

def zero : Revision := ⟨0,0⟩

def compare (r other : Revision) : ℤ :=
  if r.main < other.main then -1
  else if other.main < r.main then 1
  else if r.sub < other.sub then -1
  else if other.sub < r.sub then 1
  else 0

def greaterThan (r other : Revision) : Bool := 0 < r.compare other
def lessThan (r other : Revision) : Bool := r.compare other < 0
def lessThanOrEqual (r other : Revision) : Bool := r.compare other ≤ 0
def greaterThanOrEqual (r other : Revision) : Bool := 0 ≤ r.compare other
def isZero (r : Revision) : Bool := r.main = 0 && r.sub = 0

instance : LT Revision := ⟨fun r other => r.lessThan other = true⟩

/-- The order of the B-tree of records. -/
instance : Ord Revision := ⟨compareLex (compareOn main) (compareOn sub)⟩

instance : TransOrd Revision :=
  inferInstanceAs (TransCmp (compareLex (compareOn main) (compareOn sub)))

instance : LawfulEqOrd Revision where
  eq_of_compare {a b} h := by
    have hthen : (Ord.compare a.main b.main).then (Ord.compare a.sub b.sub) = .eq := h
    obtain ⟨hmain,hsub⟩ := Ordering.then_eq_eq.mp hthen
    cases a
    cases b
    simp_all

lemma lt_iff :
    r < other ↔ r.main < other.main ∨ r.main = other.main ∧ r.sub < other.sub := by
  change decide (r.compare other < 0) = true ↔ _
  rw [decide_eq_true_iff,compare]
  split_ifs <;> omega

lemma lessThan_iff :
    r.lessThan other = true ↔ r.main < other.main ∨ r.main = other.main ∧ r.sub < other.sub :=
  lt_iff

lemma lessThanOrEqual_iff :
    r.lessThanOrEqual other = true ↔
      r.main < other.main ∨ r.main = other.main ∧ r.sub ≤ other.sub := by
  rw [lessThanOrEqual,decide_eq_true_iff,compare]
  split_ifs <;> omega

lemma greaterThan_iff :
    r.greaterThan other = true ↔
      other.main < r.main ∨ other.main = r.main ∧ other.sub < r.sub := by
  rw [greaterThan,decide_eq_true_iff,compare]
  split_ifs <;> omega

lemma isZero_of_main_pos (h : 0 < r.main) : r.isZero = false := by
  simp [isZero,h.ne']

end Revision

structure Generation where
  created : Revision
  revisions : List Revision
  deriving DecidableEq, Repr

namespace Generation

def isEmpty (g : Generation) : Bool := g.revisions.isEmpty
def lastRevision (g : Generation) : Revision := g.revisions.getLast?.getD .zero

/-- What `Compact` keeps of a generation: its revisions from the first that is not before
`atRev` on. -/
def compact (atRev : Revision) (g : Generation) : Option Generation :=
  match g.revisions.dropWhile (!·.greaterThanOrEqual atRev) with
  | [] => none
  | kept => some ⟨g.created,kept⟩

end Generation

/-- The index of the last revision that is not after the target, or none for -1. -/
def binarySearchRevision (revs : List Revision) (target : Revision) : Option ℕ :=
  Halving.lastTrue (Halving.test (·.lessThanOrEqual target) revs) revs.length

structure KeyItem where
  generations : List Generation
  modified : Revision
  deriving DecidableEq, Repr

namespace KeyItem

def currentGeneration (ki : KeyItem) : Option Generation := ki.generations.getLast?

def isDeleted (ki : KeyItem) : Bool :=
  match ki.currentGeneration with
  | none => true
  | some gen => gen.isEmpty

/-- `CurrentGeneration().LastRevision()`. -/
def lastRevision (ki : KeyItem) : Revision :=
  (ki.currentGeneration.map Generation.lastRevision).getD .zero

/-- The loop of `FindRevision`, newest generation first. -/
def findIn (atRev : Revision) : List Generation → Revision
  | [] => .zero
  | gen :: older =>
    if gen.created.greaterThan atRev then findIn atRev older
    else
      match (binarySearchRevision gen.revisions atRev).bind (gen.revisions[·]?) with
      | some rev => rev
      | none => findIn atRev older

def findRevision (ki : KeyItem) (atRev : Revision) : Revision := findIn atRev ki.generations.reverse

def put (ki : KeyItem) (rev : Revision) : KeyItem :=
  match ki.currentGeneration with
  | none => ⟨ki.generations ++ [⟨rev,[rev]⟩],rev⟩
  | some gen =>
    if gen.isEmpty then ⟨ki.generations ++ [⟨rev,[rev]⟩],rev⟩
    else ⟨ki.generations.dropLast ++ [⟨gen.created,gen.revisions ++ [rev]⟩],rev⟩

/-- The current generation ends with the revision of its deletion, and an empty one follows. -/
def delete (ki : KeyItem) (rev : Revision) : KeyItem :=
  match ki.currentGeneration with
  | none => ki
  | some gen =>
    if gen.isEmpty then ki
    else ⟨ki.generations.dropLast ++ [⟨gen.created,gen.revisions ++ [rev]⟩] ++ [⟨rev,[]⟩],rev⟩

/-- An item without any generation left is removed. -/
def compact (atRev : Revision) (ki : KeyItem) : Option KeyItem :=
  match ki.generations.filterMap (Generation.compact atRev) with
  | [] => none
  | newGens => some { ki with generations := newGens }

/-- How many revisions `Compact` passes over in an item. -/
def removed (atRev : Revision) (ki : KeyItem) : ℕ :=
  (ki.generations.map fun g => (g.revisions.takeWhile (!·.greaterThanOrEqual atRev)).length).sum

end KeyItem

/-- The B-tree of key items. An item's key is the key it is stored under. -/
abbrev KeyIndex := ExtTreeMap Bytes KeyItem

/-- The walk from `start` ends at the first key that is not below `stop`; no `stop` is no bound. -/
def inSpan (start : Bytes) (stop : Option Bytes) (key : Bytes) : Bool :=
  decide (start ≤ key) && stop.all fun e => decide (key < e)

namespace KeyIndex

def getRevision (idx : KeyIndex) (key : Bytes) (atRev : Revision) : Revision :=
  match idx[key]? with
  | none => .zero
  | some ki => ki.findRevision atRev

def put (idx : KeyIndex) (key : Bytes) (rev : Revision) : KeyIndex :=
  match idx[key]? with
  | none => idx.insert key ⟨[⟨rev,[rev]⟩],rev⟩
  | some ki => idx.insert key (ki.put rev)

def delete (idx : KeyIndex) (key : Bytes) (rev : Revision) : KeyIndex :=
  match idx[key]? with
  | none => idx
  | some ki => idx.insert key (ki.delete rev)

/-- The revision of an item that a walk reports. The zero revision asks for live keys. -/
def visit (atRev : Revision) (item : Bytes × KeyItem) : Option (Bytes × Revision) :=
  let rev :=
    if atRev.isZero then if item.2.isDeleted then .zero else item.2.lastRevision
    else item.2.findRevision atRev
  if rev.isZero then none else some (item.1,rev)

/-- What `Range` hands to its callback. -/
def range (idx : KeyIndex) (start : Bytes) (stop : Option Bytes) (atRev : Revision) :
    List (Bytes × Revision) :=
  (idx.toList.filter fun item => inSpan start stop item.1).filterMap (visit atRev)

/-- `Compact`, with the number of revisions it has removed. -/
def compact (idx : KeyIndex) (atRev : Revision) : KeyIndex × ℕ :=
  (idx.filterMap fun _ ki => ki.compact atRev,
    (idx.toList.map fun item => item.2.removed atRev).sum)

end KeyIndex

/-! ### The history of an item -/

namespace KeyItem
variable {ki : KeyItem} {revs : List Revision} {gen : Generation}

def revisions (ki : KeyItem) : List Revision := ki.generations.flatMap Generation.revisions

/-- Revisions increase over all generations, and no generation has one from before its
creation. -/
structure Ordered (ki : KeyItem) : Prop where
  increasing : ki.revisions.Pairwise (· < ·)
  created : ∀ g ∈ ki.generations, ∀ rev ∈ g.revisions, g.created.lessThanOrEqual rev = true

/-- The last of some revisions that is not after `atRev`. -/
def latest (revs : List Revision) (atRev : Revision) : Option Revision :=
  (revs.filter (·.lessThanOrEqual atRev)).getLast?

lemma latest_append (revs more : List Revision) (atRev : Revision) :
    latest (revs ++ more) atRev = (latest more atRev).or (latest revs atRev) := by
  rw [latest,List.filter_append,List.getLast?_append]
  rfl

lemma latest_eq_none {atRev : Revision}
    (h : ∀ rev ∈ revs, atRev < rev) : latest revs atRev = none := by
  rw [latest,List.getLast?_eq_none_iff,List.filter_eq_nil_iff]
  intro rev hrev hle
  have hlt := Revision.lt_iff.mp (h rev hrev)
  have hle := Revision.lessThanOrEqual_iff.mp hle
  omega

lemma latest_of_forall_le {atRev : Revision}
    (h : ∀ rev ∈ revs, rev.lessThanOrEqual atRev = true) : latest revs atRev = revs.getLast? := by
  rw [latest,List.filter_eq_self.mpr h]

lemma binarySearchRevision_eq (h : revs.Pairwise (· < ·))
    (atRev : Revision) :
    (binarySearchRevision revs atRev).bind (revs[·]?) = latest revs atRev := by
  apply Halving.bind_lastTrue _ revs h
  intro x y hxy hy
  have hxy := Revision.lt_iff.mp hxy
  have hy := Revision.lessThanOrEqual_iff.mp hy
  exact Revision.lessThanOrEqual_iff.mpr (by omega)

theorem findRevision_eq_latest
    (hincreasing : ∀ gen ∈ ki.generations, gen.revisions.Pairwise (· < ·))
    (hcreated : ∀ gen ∈ ki.generations, ∀ rev ∈ gen.revisions,
      gen.created.lessThanOrEqual rev = true) (atRev : Revision) :
    ki.findRevision atRev = (latest ki.revisions atRev).getD .zero := by
  obtain ⟨gens,modified⟩ := ki
  simp only [findRevision,revisions] at hincreasing hcreated ⊢
  induction gens using List.reverseRecOn with
  | nil => rfl
  | append_singleton gens gen ih =>
    rw [List.reverse_append,List.flatMap_append,List.flatMap_singleton,latest_append]
    have hrest := ih (fun g hg => hincreasing g (List.mem_append_left _ hg)) fun g hg =>
      hcreated g (List.mem_append_left _ hg)
    change (if gen.created.greaterThan atRev then _ else _) = _
    by_cases hskip : gen.created.greaterThan atRev = true
    · have hnone : latest gen.revisions atRev = none := by
        apply latest_eq_none
        intro rev hrev
        have hge := hcreated gen (by simp) rev hrev
        have hskip := Revision.greaterThan_iff.mp hskip
        have hge := Revision.lessThanOrEqual_iff.mp hge
        exact Revision.lt_iff.mpr (by omega)
      rw [if_pos hskip,hnone,Option.none_or]
      exact hrest
    · rw [if_neg hskip]
      simp only [binarySearchRevision_eq (hincreasing gen (by simp)) atRev]
      cases hfound : latest gen.revisions atRev with
      | none => exact hrest
      | some rev => rfl

theorem Ordered.findRevision_eq (h : ki.Ordered) (atRev : Revision) :
    ki.findRevision atRev = (latest ki.revisions atRev).getD .zero :=
  findRevision_eq_latest (List.pairwise_flatMap.mp h.increasing).1 h.created atRev

lemma eq_append_of_currentGeneration
    (h : ki.currentGeneration = some gen) : ki.generations = ki.generations.dropLast ++ [gen] := by
  obtain ⟨init,hinit⟩ := List.getLast?_eq_some_iff.mp h
  rw [hinit,List.dropLast_concat]

lemma exists_generation_of_live (h : ki.isDeleted = false) :
    ∃ gen, ki.currentGeneration = some gen ∧ gen.isEmpty = false := by
  unfold isDeleted at h
  split at h
  · exact absurd h (by decide)
  · next gen hgen => exact ⟨gen,hgen,h⟩

lemma getLast?_revisions (h : ki.isDeleted = false) :
    ki.revisions.getLast? = some ki.lastRevision := by
  obtain ⟨gen,hgen,hne⟩ := exists_generation_of_live h
  have hlast : gen.revisions.getLast? = some gen.lastRevision := by
    cases hrevs : gen.revisions.getLast? with
    | none => exact absurd (List.getLast?_eq_none_iff.mp hrevs) (by simpa [Generation.isEmpty] using hne)
    | some rev => rw [Generation.lastRevision,hrevs]; rfl
  rw [revisions,eq_append_of_currentGeneration hgen,List.flatMap_append,List.flatMap_singleton,
    List.getLast?_append,hlast,lastRevision,hgen]
  rfl

lemma put_of_deleted (h : ki.isDeleted = true) (rev : Revision) :
    ki.put rev = ⟨ki.generations ++ [⟨rev,[rev]⟩],rev⟩ := by
  unfold isDeleted at h
  unfold put
  split
  · rfl
  · next gen hgen => rw [hgen] at h; rw [if_pos h]

lemma put_of_live (hgen : ki.currentGeneration = some gen)
    (hne : gen.isEmpty = false) (rev : Revision) :
    ki.put rev = ⟨ki.generations.dropLast ++ [⟨gen.created,gen.revisions ++ [rev]⟩],rev⟩ := by
  simp [put,hgen,hne]

lemma delete_of_live (hgen : ki.currentGeneration = some gen)
    (hne : gen.isEmpty = false) (rev : Revision) :
    ki.delete rev = ⟨(ki.put rev).generations ++ [⟨rev,[]⟩],rev⟩ := by
  rw [put_of_live hgen hne]
  simp [delete,hgen,hne]

lemma revisions_put (ki : KeyItem) (rev : Revision) :
    (ki.put rev).revisions = ki.revisions ++ [rev] := by
  cases h : ki.isDeleted with
  | true => simp [put_of_deleted h,revisions]
  | false =>
    obtain ⟨gen,hgen,hne⟩ := exists_generation_of_live h
    rw [put_of_live hgen hne]
    conv_rhs => rw [revisions,eq_append_of_currentGeneration hgen]
    simp [revisions]

lemma revisions_delete (h : ki.isDeleted = false) (rev : Revision) :
    (ki.delete rev).revisions = ki.revisions ++ [rev] := by
  obtain ⟨gen,hgen,hne⟩ := exists_generation_of_live h
  rw [← revisions_put,delete_of_live hgen hne]
  simp [revisions]

lemma isDeleted_put (ki : KeyItem) (rev : Revision) : (ki.put rev).isDeleted = false := by
  cases h : ki.isDeleted with
  | true => simp [put_of_deleted h,isDeleted,currentGeneration,Generation.isEmpty]
  | false =>
    obtain ⟨gen,hgen,hne⟩ := exists_generation_of_live h
    simp [put_of_live hgen hne,isDeleted,currentGeneration,Generation.isEmpty]

lemma delete_of_deleted (h : ki.isDeleted = true) (rev : Revision) :
    ki.delete rev = ki := by
  unfold isDeleted at h
  unfold delete
  split
  · rfl
  · next gen hgen => rw [hgen] at h; rw [if_pos h]

lemma isDeleted_delete (ki : KeyItem) (rev : Revision) : (ki.delete rev).isDeleted = true := by
  cases h : ki.isDeleted with
  | true => rw [delete_of_deleted h,h]
  | false =>
    obtain ⟨gen,hgen,hne⟩ := exists_generation_of_live h
    simp [delete_of_live hgen hne,isDeleted,currentGeneration,Generation.isEmpty]

lemma Ordered.put (h : ki.Ordered) {rev : Revision}
    (hrev : ∀ r ∈ ki.revisions, r < rev) : (ki.put rev).Ordered := by
  refine ⟨?_,?_⟩
  · rw [revisions_put,List.pairwise_append]
    refine ⟨h.increasing,List.pairwise_singleton _ _,?_⟩
    intro a ha b hb
    obtain rfl := List.mem_singleton.mp hb
    exact hrev a ha
  · have hself : rev.lessThanOrEqual rev = true := Revision.lessThanOrEqual_iff.mpr (by omega)
    cases hdel : ki.isDeleted with
    | true =>
      rw [put_of_deleted hdel]
      intro g hg r hr
      rcases List.mem_append.mp hg with hg | hg
      · exact h.created g hg r hr
      · obtain rfl := List.mem_singleton.mp hg
        obtain rfl := List.mem_singleton.mp hr
        exact hself
    | false =>
      obtain ⟨gen,hgen,hne⟩ := exists_generation_of_live hdel
      have hsplit := eq_append_of_currentGeneration hgen
      have hmem : gen ∈ ki.generations := by rw [hsplit]; simp
      rw [put_of_live hgen hne]
      intro g hg r hr
      rcases List.mem_append.mp hg with hg | hg
      · exact h.created g (List.dropLast_subset _ hg) r hr
      · obtain rfl := List.mem_singleton.mp hg
        rcases List.mem_append.mp hr with hr | hr
        · exact h.created gen hmem r hr
        · obtain rfl := List.mem_singleton.mp hr
          -- a live generation has an earlier revision, which is not before its creation
          obtain ⟨first,hfirst⟩ := List.exists_mem_of_ne_nil gen.revisions
            (by simpa [Generation.isEmpty] using hne)
          have hlow := Revision.lessThanOrEqual_iff.mp (h.created gen hmem first hfirst)
          have hhigh := Revision.lt_iff.mp
            (hrev first (List.mem_flatMap.mpr ⟨gen,hmem,hfirst⟩))
          exact Revision.lessThanOrEqual_iff.mpr (by dsimp only; omega)

lemma Ordered.delete (h : ki.Ordered) (hlive : ki.isDeleted = false)
    {rev : Revision} (hrev : ∀ r ∈ ki.revisions, r < rev) : (ki.delete rev).Ordered := by
  obtain ⟨gen,hgen,hne⟩ := exists_generation_of_live hlive
  have hput := h.put hrev
  refine ⟨?_,?_⟩
  · rw [revisions_delete hlive,← revisions_put]
    exact hput.increasing
  · rw [delete_of_live hgen hne]
    intro g hg r hr
    rcases List.mem_append.mp hg with hg | hg
    · exact hput.created g hg r hr
    · obtain rfl := List.mem_singleton.mp hg
      exact absurd hr List.not_mem_nil

end KeyItem

/-! ### Walks over the index -/

namespace KeyIndex
variable {b : Bytes × Revision} {item : Bytes × KeyItem}

lemma fst_of_visit {atRev : Revision}
    (h : visit atRev item = some b) : b.1 = item.1 := by
  rw [visit,Option.ite_none_left_eq_some] at h
  exact (congrArg Prod.fst (Option.some.inj h.2)).symm

lemma visit_zero_eq_some_iff :
    visit .zero item = some b ↔ item.2.isDeleted = false ∧ item.2.lastRevision.isZero = false ∧
      b = (item.1,item.2.lastRevision) := by
  have hzero : Revision.zero.isZero = true := rfl
  simp only [visit,hzero,if_true]
  cases hdel : item.2.isDeleted with
  | true => simp [hzero]
  | false => cases hrev : item.2.lastRevision.isZero <;> simp [hrev,eq_comm]

lemma nodup_range (idx : KeyIndex) (start : Bytes) (stop : Option Bytes) (atRev : Revision) :
    ((idx.range start stop atRev).map Prod.fst).Nodup := by
  have hkeys : idx.toList.Pairwise fun a b => a.1 ≠ b.1 :=
    ExtTreeMap.distinct_keys_toList.imp fun {a b} hne heq => hne (by rw [heq]; exact ReflCmp.compare_self)
  rw [range,List.Nodup,List.pairwise_map]
  refine (hkeys.filter _).filterMap (visit atRev) ?_
  intro a a' hne b hb b' hb'
  rw [fst_of_visit hb,fst_of_visit hb']
  exact hne

end KeyIndex

end MetaStore.MVCC
