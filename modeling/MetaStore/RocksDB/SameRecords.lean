import MetaStore.RocksDB.Alike

/-! Operations are functions of the records they keep: databases with the same `kv:` and
`lease:` records and the same revision in memory still have them after the same operation,
whatever else they hold. -/
namespace MetaStore.RocksDB
open Std

structure SameRecords (r s : Records) : Prop where
  db : ∀ x, StoreKey x → r.db[x]? = s.db[x]?
  revision : r.cachedRevision = s.cachedRevision
  ticks : r.ticks = s.ticks

lemma valueAlike_eq {v w : Value} (h : ValueAlike (· = ·) v w) : v = w := by
  cases h with
  | same => rfl
  | lease l ht => rw [← ht]

lemma rel_valueAlike_eq {v w : Option Value} (h : Option.Rel (ValueAlike (· = ·)) v w) : v = w := by
  cases h with
  | none => rfl
  | some hv => rw [valueAlike_eq hv]

lemma sameRecords_iff_alike (env : Env) {r s : Records} :
    SameRecords r s ↔ Alike (· = ·) env env 0 r s := by
  constructor
  · intro h
    refine ⟨fun x hx => ?_,h.revision,by simp [h.ticks],fun n => by rw [h.ticks],rfl⟩
    rw [h.db x hx]
    cases s.db[x]? with
    | none => exact .none
    | some v => exact .some (.same v)
  · intro h
    have hticks := h.ticks
    exact ⟨fun x hx => rel_valueAlike_eq (h.db x hx),h.revision,by omega⟩

namespace SameRecords
variable {r s : Records}

lemma refl (r : Records) : SameRecords r r := ⟨fun _ _ => rfl,rfl,rfl⟩

lemma getKeyValue (h : SameRecords r s) (key : Bytes) :
    getKeyValue r.db key = RocksDB.getKeyValue s.db key := by
  rw [RocksDB.getKeyValue,RocksDB.getKeyValue,h.db _ (storeKey_kvKey key)]

lemma scanBelow (h : SameRecords r s) (key rangeEnd : Bytes) :
    scanBelow r.db key rangeEnd = RocksDB.scanBelow s.db key rangeEnd :=
  ((sameRecords_iff_alike { clock := fun _ => 0 }).mp h).scanBelow key rangeEnd

end SameRecords
end MetaStore.RocksDB
