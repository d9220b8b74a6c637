import MetaStore.Batch.ProposalBatcher
import MetaStore.Raft.Publication

/-! The way of a proposal through a cluster: through the batcher of its node, framed into raft's log,
and out of `publishEntries` on any node. Of raft it is assumed that its log has no data but the
batches that `serveChannels` has proposed, those of one node in their order; it may drop some. -/
namespace MetaStore.Pipeline
open Batch (Batcher BatchConfig Encoded RoundTrips decodeBatch)
open Publication (Publisher Publishes Offered positions proposals)
open Raft (Config)
open RocksDB (Entry)

def payload (e : Entry) : Option Bytes :=
  if e.type = .normal ∧ e.data ≠ [] then some e.data else none

/-- A log from the first index on that carries the batches of the nodes. -/
structure Carries {ι : Type*} (log : List Entry) (batches : List (ι × Encoded)) : Prop where
  indexed : positions log = List.range' 1 log.length
  payloads : log.filterMap payload = batches.map fun b => b.2.data

variable {log part : List Entry} {cfg : Config}

lemma index_getElem (h : positions log = List.range' 1 log.length) {i : ℕ} (hi : i < log.length) :
    log[i].index.toNat = i+1 := by
  have hget := congrArg (·[i]?) h
  simp only [positions,List.getElem?_map,List.getElem?_eq_getElem hi,Option.map_some,
    List.getElem?_range' hi,Option.some.injEq] at hget
  omega

lemma isPrefix_of_indexed (h : positions log = List.range' 1 log.length)
    (hpart : positions part = List.range' 1 part.length) (hmem : ∀ e ∈ part, e ∈ log) :
    part <+: log := by
  have hget : ∀ i (hi : i < part.length), log[i]? = some part[i] := by
    intro i hi
    obtain ⟨j,hj,heq⟩ := List.mem_iff_getElem.mp (hmem _ (List.getElem_mem hi))
    have hindex := index_getElem h hj
    rw [heq,index_getElem hpart hi] at hindex
    obtain rfl : i = j := by omega
    rw [List.getElem?_eq_getElem hj,heq]
  rw [List.prefix_iff_getElem?]
  exact hget

/-- No entry of the log comes after the part. -/
lemma eq_of_index_le (h : positions log = List.range' 1 log.length) (hpart : part <+: log)
    (hle : ∀ e ∈ log, e.index.toNat ≤ part.length) : part = log := by
  refine hpart.eq_of_length (le_antisymm hpart.length_le (Nat.le_of_not_lt fun hlt => ?_))
  have hindex := hle _ (List.getElem_mem hlt)
  rw [index_getElem h hlt] at hindex
  omega

variable {ι : Type*}

/-- The proposals of the batches, each with its node. -/
def unpack (batches : List (ι × Encoded)) : List (ι × Bytes) :=
  batches.flatMap fun b => b.2.proposals.map (b.1,·)

lemma map_unpack (batches : List (ι × Encoded)) :
    (unpack batches).map Prod.snd = batches.flatMap fun b => b.2.proposals := by
  simp [unpack,List.map_flatMap,Function.comp_def]

lemma filter_unpack [DecidableEq ι] (batches : List (ι × Encoded)) (i : ι) :
    ((unpack batches).filter (·.1 = i)).map Prod.snd =
      ((batches.filter (·.1 = i)).map Prod.snd).flatMap Encoded.proposals := by
  induction batches with
  | nil => rfl
  | cons b batches ih =>
    rw [unpack,List.flatMap_cons,List.filter_append,List.map_append]
    by_cases hi : b.1 = i <;> simp [hi,List.filter_map,Function.comp_def,← ih,unpack]

lemma exists_unpacked (hbatch : cfg.batchEnable = true) {batches : List (ι × Encoded)}
    (hpayloads : log.filterMap payload = batches.map fun b => b.2.data)
    (hround : ∀ b ∈ batches, RoundTrips b.2.proposals) (hpart : part <+: log) :
    ∃ first, first <+: batches ∧ (part = log → first = batches) ∧
      part.flatMap (proposals cfg decodeBatch) = (unpack first).map Prod.snd := by
  induction log generalizing batches part with
  | nil =>
    obtain rfl := List.map_eq_nil_iff.mp hpayloads.symm
    obtain rfl := List.prefix_nil.mp hpart
    exact ⟨[],List.prefix_rfl,fun _ => rfl,rfl⟩
  | cons e log ih =>
    cases part with
    | nil => exact ⟨[],List.nil_prefix,fun h => (by cases h),rfl⟩
    | cons e' part =>
      obtain ⟨rfl,htail⟩ := List.cons_prefix_cons.mp hpart
      rw [List.flatMap_cons,proposals]
      rw [List.filterMap_cons,payload] at hpayloads
      split_ifs at hpayloads ⊢
      · cases batches with
        | nil => cases hpayloads
        | cons b batches =>
          obtain ⟨hdata,hrest⟩ := List.cons.inj hpayloads
          obtain ⟨first,hfirst,hall,heq⟩ :=
            ih hrest (fun b' hb' => hround b' (List.mem_cons_of_mem b hb')) htail
          have hdecode : decodeBatch e'.data = .ok b.2.proposals := by
            have hdecode := hround b List.mem_cons_self
            rw [RoundTrips,b.2.encoded] at hdecode
            exact hdata ▸ hdecode
          refine ⟨b :: first,List.cons_prefix_cons.mpr ⟨rfl,hfirst⟩,fun h => ?_,?_⟩
          · rw [hall (List.cons.inj h).2]
          · rw [hdecode,heq,map_unpack,map_unpack,List.flatMap_cons]
      · obtain ⟨first,hfirst,hall,heq⟩ := ih hpayloads hround htail
        exact ⟨first,hfirst,fun h => hall (List.cons.inj h).2,heq⟩

lemma roundTrips_of_valid {b : Encoded} (h : ∀ p ∈ b.proposals, Emitted p ∧ Utf8.Valid p) :
    RoundTrips b.proposals := by
  obtain ⟨ps,data,hps⟩ := b
  match ps with
  | [] => cases hps
  | [p] => exact Batch.decodeBatch_encodeBatch_single (h p (by simp)).1
  | p :: q :: ps =>
    rw [RoundTrips,Batch.decodeBatch_encodeBatch_many,Except.ok.injEq]
    exact (List.map_congr_left fun r hr => (Utf8.sanitize_eq_self_iff r).mpr (h r hr).2).trans
      (List.map_id _)

section Nodes
variable {F : Type*} [IntCast F] [OfScientific F] [Add F] [Sub F] [Mul F] [Div F] [LT F] [LE F]
  [DecidableLT F] [DecidableLE F] [DecidableEq ι]

end Nodes

end MetaStore.Pipeline
