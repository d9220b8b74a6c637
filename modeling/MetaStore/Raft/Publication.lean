import MetaStore.Raft.RocksDBNode

/-! Publication of committed entries (`entriesToApply` and `publishEntries` of both raft nodes),
with the arithmetic of uint64. The batch decoder is a parameter. -/
namespace MetaStore.Publication
open Raft (Config toEntry)
open RocksDB (Entry)

/-- Why the raft loop ends: a gap before the entries, an entry that removes the node, or the stop
channel. -/
inductive Halt
  | fatal | removed | stopped
  deriving DecidableEq, Repr

/-- The applied index, with the data lists that `commitC` has carried so far. -/
structure Publisher where
  appliedIndex : UInt64
  commitC : List (List Bytes)
  deriving DecidableEq, Repr

def entriesToApply (appliedIndex : UInt64) : List Entry → Except Halt (List Entry)
  | [] => .ok []
  | e :: es =>
    let ents := e :: es
    let firstIdx := e.index
    if appliedIndex+1 < firstIdx then .error .fatal
    else if appliedIndex-firstIdx+1 < UInt64.ofNat ents.length then
      .ok (ents.drop (appliedIndex-firstIdx+1).toNat)
    else .ok []

section Publish
variable (cfg : Config) (decodeBatch : Bytes → Except String (List Bytes))

def proposals (e : Entry) : List Bytes :=
  if e.type = .normal ∧ e.data ≠ [] then
    if cfg.batchEnable then
      match decodeBatch e.data with
      | .ok proposals => proposals
      | .error _ => []
    else [e.data]
  else []

def RemovesSelf (e : Entry) : Prop := (toEntry e).removesSelf cfg

instance (e : Entry) : Decidable (RemovesSelf cfg e) :=
  inferInstanceAs (Decidable ((toEntry e).removesSelf cfg))

def collectData : List Entry → Except Halt (List Bytes)
  | [] => .ok []
  | e :: ents =>
    if RemovesSelf cfg e then .error .removed
    else (collectData ents).map (proposals cfg decodeBatch e ++ ·)

/-- `publishEntries`; `stop` says whether its `select` takes the stop channel. -/
def publishEntries (stop : Bool) (p : Publisher) (ents : List Entry) : Except Halt Publisher :=
  match ents.getLast? with
  | none => .ok p
  | some last =>
    match collectData cfg decodeBatch ents with
    | .error halt => .error halt
    | .ok data =>
      if cfg.witness ∨ data = [] then .ok { p with appliedIndex := last.index }
      else if stop then .error .stopped
      else .ok ⟨last.index,p.commitC ++ [data]⟩

/-- The loop's call for the committed entries of a Ready batch, while nobody stops the node. -/
def publish (p : Publisher) (ents : List Entry) : Except Halt Publisher :=
  entriesToApply p.appliedIndex ents >>= publishEntries cfg decodeBatch false p

def run (p : Publisher) (slices : List (List Entry)) : Except Halt Publisher :=
  slices.foldlM (publish cfg decodeBatch) p

/-- Committed entries as raft delivers them: indexes start at 1 and are consecutive. -/
structure Slice (ents : List Entry) : Prop where
  positive : ∀ e ∈ ents, 0 < e.index
  consecutive : ents.IsChain fun a b => b.index.toNat = a.index.toNat+1
  keeps : ∀ e ∈ ents, ¬ RemovesSelf cfg e

def Offered (p : Publisher) : List (List Entry) → Prop
  | [] => True
  | ents :: slices => Slice cfg ents ∧ (∀ e ∈ ents.head?, e.index ≤ p.appliedIndex+1) ∧
      ∀ p', publish cfg decodeBatch p ents = .ok p' → Offered p' slices

end Publish

def Agree (slices : List (List Entry)) : Prop :=
  ∀ e ∈ slices.flatten, ∀ e' ∈ slices.flatten, e.index = e'.index → e = e'

/-- The log has each index of the slices after the applied one exactly once, in order. -/
structure ExactlyOnce (appliedIndex : UInt64) (slices : List (List Entry)) (log : List Entry) :
    Prop where
  mem : ∀ e ∈ log, appliedIndex < e.index ∧ ∃ ents ∈ slices, e ∈ ents
  ordered : log.Pairwise fun a b => a.index < b.index
  covers : ∀ ents ∈ slices, ∀ e ∈ ents, appliedIndex < e.index → ∃ e' ∈ log, e'.index = e.index
  complete : Agree slices → ∀ ents ∈ slices, ∀ e ∈ ents, appliedIndex < e.index → e ∈ log

structure Largest (appliedIndex : UInt64) (slices : List (List Entry)) (i : UInt64) : Prop where
  applied_le : appliedIndex ≤ i
  le : ∀ ents ∈ slices, ∀ e ∈ ents, e.index ≤ i
  seen : i = appliedIndex ∨ ∃ ents ∈ slices, ∃ e ∈ ents, e.index = i

section Slices
variable {cfg : Config} {decodeBatch : Bytes → Except String (List Bytes)} {p p' : Publisher}
  {ents : List Entry}
variable {es log : List Entry} {e : Entry} {a : UInt64}

def positions (ents : List Entry) : List ℕ := ents.map fun e => e.index.toNat

lemma positions_eq_range'
    (h : (e :: es).IsChain fun a b => b.index.toNat = a.index.toNat+1) :
    positions (e :: es) = List.range' e.index.toNat (es.length+1) := by
  induction es generalizing e with
  | nil => rfl
  | cons e' es ih =>
    rw [List.isChain_cons_cons] at h
    have htail := ih h.2
    rw [positions,List.map_cons,List.length_cons,List.range'_succ,← h.1]
    exact congrArg _ htail

/-- The subtraction wraps around when the first entry is the next one, and the sum wraps back. -/
lemma toNat_overlap {first : UInt64} (hfirst : 0 < first) (h : first ≤ a+1) :
    a.toNat+1 < 2^64 ∧ first.toNat ≤ a.toNat+1 ∧ (a-first+1).toNat = a.toNat+1-first.toNat := by
  rw [UInt64.lt_iff_toNat_lt,UInt64.toNat_zero] at hfirst
  rw [UInt64.le_iff_toNat_le,UInt64.toNat_add,UInt64.toNat_one] at h
  have ha := a.toNat_lt
  have hf := first.toNat_lt
  have hnowrap : a.toNat+1 < 2^64 := by omega
  rw [Nat.mod_eq_of_lt hnowrap] at h
  refine ⟨hnowrap,h,?_⟩
  rw [UInt64.toNat_add,UInt64.toNat_sub,UInt64.toNat_one]
  omega

lemma index_lt
    (h : (e :: es).IsChain fun a b => b.index.toNat = a.index.toNat+1) {x : Entry}
    (hx : x ∈ e :: es) : x.index.toNat < e.index.toNat+(es.length+1) := by
  have hmem : x.index.toNat ∈ positions (e :: es) := List.mem_map_of_mem hx
  rw [positions_eq_range' h,List.mem_range'_1] at hmem
  exact hmem.2

lemma Slice.length_lt (h : Slice cfg (e :: es)) :
    (e :: es).length < 2^64 := by
  have hpos := UInt64.lt_iff_toNat_lt.mp (h.positive e (by simp))
  have hlast : e.index.toNat+es.length ∈ positions (e :: es) := by
    rw [positions_eq_range' h.consecutive,List.mem_range'_1]
    omega
  obtain ⟨x,-,hx⟩ := List.mem_map.mp hlast
  have hbound := x.index.toNat_lt
  rw [UInt64.toNat_zero] at hpos
  rw [List.length_cons]
  omega

lemma entriesToApply_eq_drop (h : Slice cfg (e :: es))
    (hfirst : e.index ≤ a+1) :
    entriesToApply a (e :: es) = .ok ((e :: es).drop (a.toNat+1-e.index.toNat)) := by
  obtain ⟨-,-,hcut⟩ := toNat_overlap (h.positive e (by simp)) hfirst
  rw [entriesToApply,if_neg (UInt64.not_lt.mpr hfirst)]
  simp only [UInt64.lt_iff_toNat_lt,hcut,UInt64.toNat_ofNat_of_lt' h.length_lt]
  split_ifs with hshort
  · rfl
  · rw [List.drop_eq_nil_of_le (Nat.le_of_not_lt hshort)]

lemma exists_entriesToApply (h : Slice cfg ents)
    (hfirst : ∀ e ∈ ents.head?, e.index ≤ a+1) :
    ∃ new, entriesToApply a ents = .ok new ∧ new <:+ ents ∧
      positions new = List.range' (a.toNat+1) new.length ∧
      ∀ e ∈ ents, e.index.toNat ≤ a.toNat+new.length := by
  cases ents with
  | nil => exact ⟨[],rfl,List.suffix_rfl,rfl,by simp⟩
  | cons e es =>
    have hle := (toNat_overlap (h.positive e (by simp)) (hfirst e rfl)).2.1
    refine ⟨_,entriesToApply_eq_drop h (hfirst e rfl),List.drop_suffix _ _,?_,fun x hx => ?_⟩
    · rw [positions,List.map_drop]
      change (positions (e :: es)).drop _ = _
      rw [positions_eq_range' h.consecutive,List.drop_range',List.length_drop,List.length_cons]
      congr 1
      omega
    · have hx' := index_lt h.consecutive hx
      rw [List.length_drop,List.length_cons]
      omega

lemma collectData_eq (h : ∀ e ∈ ents, ¬ RemovesSelf cfg e) :
    collectData cfg decodeBatch ents = .ok (ents.flatMap (proposals cfg decodeBatch)) := by
  induction ents with
  | nil => rfl
  | cons e ents ih =>
    rw [collectData,if_neg (h e (by simp)),ih fun x hx => h x (by simp [hx])]
    rfl

structure Publishes (cfg : Config) (decodeBatch : Bytes → Except String (List Bytes))
    (p p' : Publisher) (log : List Entry) : Prop where
  sent : ∃ lists, p'.commitC = p.commitC ++ lists ∧
    lists.flatten = log.flatMap (proposals cfg decodeBatch)
  positions_eq : positions log = List.range' (p.appliedIndex.toNat+1) log.length
  applied : p'.appliedIndex.toNat = p.appliedIndex.toNat+log.length

lemma Publishes.refl (p : Publisher) : Publishes cfg decodeBatch p p [] :=
  ⟨⟨[],by simp,rfl⟩,rfl,rfl⟩

lemma Publishes.trans {p'' : Publisher} {log' : List Entry}
    (h : Publishes cfg decodeBatch p p' log) (h' : Publishes cfg decodeBatch p' p'' log') :
    Publishes cfg decodeBatch p p'' (log ++ log') := by
  obtain ⟨lists,hlists,hdata⟩ := h.sent
  obtain ⟨lists',hlists',hdata'⟩ := h'.sent
  refine ⟨⟨lists ++ lists',?_,?_⟩,?_,?_⟩
  · rw [hlists',hlists,List.append_assoc]
  · rw [List.flatten_append,List.flatMap_append,hdata,hdata']
  · rw [positions,List.map_append,List.length_append,← List.range'_append_1]
    exact congrArg₂ _ h.positions_eq (by rw [← Nat.add_right_comm,← h.applied]; exact h'.positions_eq)
  · rw [h'.applied,h.applied,List.length_append,Nat.add_assoc]

lemma Publishes.le (h : Publishes cfg decodeBatch p p' log) :
    p.appliedIndex ≤ p'.appliedIndex := by
  rw [UInt64.le_iff_toNat_le,h.applied]
  omega

lemma Publishes.exists_index_iff (h : Publishes cfg decodeBatch p p' log)
    (i : UInt64) :
    (∃ e ∈ log, e.index = i) ↔ p.appliedIndex < i ∧ i ≤ p'.appliedIndex := by
  have hmem : (∃ e ∈ log, e.index = i) ↔ i.toNat ∈ positions log := by
    simp only [positions,List.mem_map,UInt64.toNat_inj]
  rw [hmem,h.positions_eq,List.mem_range'_1,UInt64.lt_iff_toNat_lt,UInt64.le_iff_toNat_le,h.applied]
  omega

lemma Publishes.ordered (h : Publishes cfg decodeBatch p p' log) :
    log.Pairwise fun a b => a.index < b.index := by
  have hsorted : (positions log).Pairwise (· < ·) := h.positions_eq ▸ List.pairwise_lt_range'
  exact (List.pairwise_map.mp hsorted).imp fun hab => UInt64.lt_iff_toNat_lt.mpr hab

lemma publishes_publishEntries (hdata : cfg.witness = false)
    (hkeeps : ∀ e ∈ ents, ¬ RemovesSelf cfg e)
    (hpositions : positions ents = List.range' (p.appliedIndex.toNat+1) ents.length) :
    ∃ p', publishEntries cfg decodeBatch false p ents = .ok p' ∧
      Publishes cfg decodeBatch p p' ents := by
  unfold publishEntries
  rw [collectData_eq hkeeps]
  cases hlast : ents.getLast? with
  | none =>
    obtain rfl := List.getLast?_eq_none_iff.mp hlast
    exact ⟨p,rfl,Publishes.refl p⟩
  | some last =>
    have happlied : last.index.toNat = p.appliedIndex.toNat+ents.length := by
      have hgetLast := congrArg List.getLast? hpositions
      rw [positions,List.getLast?_map,hlast,List.getLast?_range'] at hgetLast
      have hlength : ents.length ≠ 0 := by
        rintro h0
        rw [List.length_eq_zero_iff.mp h0] at hlast
        cases hlast
      rw [if_neg hlength,Option.map_some,Option.some.injEq] at hgetLast
      omega
    dsimp only
    by_cases hempty : ents.flatMap (proposals cfg decodeBatch) = []
    · rw [if_pos (.inr hempty)]
      exact ⟨_,rfl,⟨[],by simp,hempty.symm⟩,hpositions,happlied⟩
    · rw [if_neg (by simp [hdata,hempty]),if_neg (by simp)]
      exact ⟨_,rfl,⟨_,rfl,List.flatten_singleton⟩,hpositions,happlied⟩

lemma publishes_publish (hdata : cfg.witness = false) (h : Slice cfg ents)
    (hfirst : ∀ e ∈ ents.head?, e.index ≤ p.appliedIndex+1) :
    ∃ p' new, publish cfg decodeBatch p ents = .ok p' ∧ Publishes cfg decodeBatch p p' new ∧
      new <:+ ents ∧ ∀ e ∈ ents, e.index ≤ p'.appliedIndex := by
  obtain ⟨new,hnew,hsuffix,hpositions,hle⟩ := exists_entriesToApply h hfirst
  have hkeeps : ∀ e ∈ new, ¬ RemovesSelf cfg e := fun e he => h.keeps e (hsuffix.subset he)
  obtain ⟨p',hp',hpublishes⟩ := publishes_publishEntries hdata hkeeps hpositions
  refine ⟨p',new,?_,hpublishes,hsuffix,fun e he => ?_⟩
  · rw [publish,hnew]
    exact hp'
  · rw [UInt64.le_iff_toNat_le,hpublishes.applied]
    exact hle e he

lemma publishes_run (hdata : cfg.witness = false) {slices : List (List Entry)}
    (h : Offered cfg decodeBatch p slices) :
    ∃ p' log, run cfg decodeBatch p slices = .ok p' ∧ Publishes cfg decodeBatch p p' log ∧
      (∀ e ∈ log, ∃ ents ∈ slices, e ∈ ents) ∧
      ∀ ents ∈ slices, ∀ e ∈ ents, e.index ≤ p'.appliedIndex := by
  induction slices generalizing p with
  | nil => exact ⟨p,[],rfl,Publishes.refl p,by simp,by simp⟩
  | cons ents slices ih =>
    obtain ⟨hslice,hfirst,hrest⟩ := h
    obtain ⟨p₁,new,hp₁,hnew,hsuffix,hle⟩ := publishes_publish hdata hslice hfirst
    obtain ⟨p',log,hrun,hlog,hmem,hle'⟩ := ih (hrest p₁ hp₁)
    refine ⟨p',new ++ log,?_,hnew.trans hlog,fun e he => ?_,fun es hes e he => ?_⟩
    · rw [run,List.foldlM_cons,hp₁]
      exact hrun
    · rcases List.mem_append.mp he with he|he
      · exact ⟨ents,by simp,hsuffix.subset he⟩
      · obtain ⟨es,hes,hmem⟩ := hmem e he
        exact ⟨es,by simp [hes],hmem⟩
    · rcases List.mem_cons.mp hes with rfl|hes
      · exact UInt64.le_trans (hle e he) hlog.le
      · exact hle' es hes e he

/-- A node that is no witness, is not stopped and is not removed sends the proposals of each index
after the applied one exactly once and in order, whatever slices of committed entries it gets, and
ends with the largest index applied. -/
theorem publishes_exactly_once (cfg : Config) (decodeBatch : Bytes → Except String (List Bytes))
    (hdata : cfg.witness = false) (p : Publisher) (slices : List (List Entry))
    (h : Offered cfg decodeBatch p slices) :
    ∃ p' lists log, run cfg decodeBatch p slices = .ok p' ∧ p'.commitC = p.commitC ++ lists ∧
      lists.flatten = log.flatMap (proposals cfg decodeBatch) ∧
      ExactlyOnce p.appliedIndex slices log ∧ Largest p.appliedIndex slices p'.appliedIndex := by
  obtain ⟨p',log,hrun,hlog,hmem,hle⟩ := publishes_run hdata h
  obtain ⟨lists,hlists,hflatten⟩ := hlog.sent
  have hcovers : ∀ ents ∈ slices, ∀ e ∈ ents, p.appliedIndex < e.index →
      ∃ e' ∈ log, e'.index = e.index := fun ents hents e he hlt =>
    (hlog.exists_index_iff e.index).mpr ⟨hlt,hle ents hents e he⟩
  refine ⟨p',lists,log,hrun,hlists,hflatten,⟨fun e he => ⟨?_,hmem e he⟩,hlog.ordered,hcovers,?_⟩,
    hlog.le,hle,?_⟩
  · exact ((hlog.exists_index_iff e.index).mp ⟨e,he,rfl⟩).1
  · intro hagree ents hents e he hlt
    obtain ⟨e',he',hindex⟩ := hcovers ents hents e he hlt
    have heq := hagree e' (List.mem_flatten.mpr (hmem e' he')) e
      (List.mem_flatten.mpr ⟨ents,hents,he⟩) hindex
    exact heq ▸ he'
  · rcases Nat.eq_or_lt_of_le (UInt64.le_iff_toNat_le.mp hlog.le) with heq|hlt
    · exact .inl (UInt64.toNat_inj.mp heq.symm)
    · obtain ⟨e,he,hindex⟩ := (hlog.exists_index_iff p'.appliedIndex).mpr
        ⟨UInt64.lt_iff_toNat_lt.mpr hlt,UInt64.le_refl _⟩
      obtain ⟨ents,hents,he'⟩ := hmem e he
      exact .inr ⟨ents,hents,e,he',hindex⟩

/-- Two overlapping slices, with a membership change and an empty entry. -/
theorem publishes_overlap_once :
    let cfg : Config := ⟨1,fun _ => ⟨.addNode,2⟩,false,true,10000⟩
    let put (i : UInt64) (data : String) : Entry := ⟨1,i,.normal,ascii data⟩
    let slices := [[put 1 "",put 2 "a"],[put 2 "a",⟨1,3,.confChange,[0]⟩,put 4 "b"],[put 4 "b"]]
    run cfg Batch.decodeBatch ⟨0,[]⟩ slices = .ok ⟨4,[[ascii "a"],[ascii "b"]]⟩ ∧
    ∃ p' lists log, run cfg Batch.decodeBatch ⟨0,[]⟩ slices = .ok p' ∧ p'.commitC = [] ++ lists ∧
      lists.flatten = log.flatMap (proposals cfg Batch.decodeBatch) ∧
      ExactlyOnce 0 slices log ∧ Largest 0 slices p'.appliedIndex := by
  intro cfg put slices
  have hoffered : Offered cfg Batch.decodeBatch ⟨0,[]⟩ slices := by
    refine ⟨⟨by decide,by decide,by decide⟩,by decide,fun p₁ hp₁ => ?_⟩
    have hfirst : publish cfg Batch.decodeBatch ⟨0,[]⟩ slices[0] = .ok ⟨2,[[ascii "a"]]⟩ := by decide
    obtain rfl := Except.ok.inj (hfirst.symm.trans hp₁)
    refine ⟨⟨by decide,by decide,by decide⟩,by decide,fun p₂ hp₂ => ?_⟩
    have hsecond : publish cfg Batch.decodeBatch ⟨2,[[ascii "a"]]⟩ slices[1] =
        .ok ⟨4,[[ascii "a"],[ascii "b"]]⟩ := by decide
    obtain rfl := Except.ok.inj (hsecond.symm.trans hp₂)
    exact ⟨⟨by decide,by decide,by decide⟩,by decide,fun p₃ _ => trivial⟩
  exact ⟨by decide,publishes_exactly_once cfg Batch.decodeBatch rfl ⟨0,[]⟩ slices hoffered⟩

end Slices
end MetaStore.Publication
