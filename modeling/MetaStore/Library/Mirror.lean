import MetaStore.Library.Bytes

/-! A cache of named values and the encodings of the same values in a store of bytes, each under a
key made of its name. The store may have values that the cache has dropped as stale. -/
namespace MetaStore.Mirror
open Std

variable {α : Type*} (key : Bytes → Bytes) (enc : α → Bytes) (Fits : Bytes → α → Prop)
  (Stale : α → Prop)

/-- `Fits` says which values may stand under a name. -/
structure Mirrors (data : ExtTreeMap Bytes Bytes) (cache : ExtTreeMap Bytes α) : Prop where
  cached : ∀ name a, cache[name]? = some a → data[key name]? = some (enc a) ∧ Fits name a
  stored : ∀ name v, data[key name]? = some v → cache[name]? = none →
    ∃ a, v = enc a ∧ Fits name a ∧ Stale a

def load (decode : Bytes → Option α) (nameOf : α → Bytes) (keep : α → Bool) (values : List Bytes) :
    ExtTreeMap Bytes α :=
  .ofList (((values.filterMap decode).filter keep).map fun a => (nameOf a,a))

lemma getElem?_insert_eq {β : Type*} (m : ExtTreeMap Bytes β) (k k' : Bytes) (v : β) :
    (m.insert k v)[k']? = if k = k' then some v else m[k']? := by
  simp only [ExtTreeMap.getElem?_insert,LawfulEqCmp.compare_eq_iff_eq]

lemma getElem?_erase_eq {β : Type*} (m : ExtTreeMap Bytes β) (k k' : Bytes) :
    (m.erase k)[k']? = if k = k' then none else m[k']? := by
  simp only [ExtTreeMap.getElem?_erase,LawfulEqCmp.compare_eq_iff_eq]

namespace Mirrors
variable {key enc Fits Stale} {data data' : ExtTreeMap Bytes Bytes} {cache : ExtTreeMap Bytes α}
  {name : Bytes} {a : α}

lemma congr (h : Mirrors key enc Fits Stale data cache)
    (hdata : ∀ name, data'[key name]? = data[key name]?) :
    Mirrors key enc Fits Stale data' cache where
  cached name a ha := by rw [hdata]; exact h.cached name a ha
  stored name v hv := by rw [hdata] at hv; exact h.stored name v hv

lemma change (h : Mirrors key enc Fits Stale data cache) {cache' : ExtTreeMap Bytes α}
    (Changed : Bytes → Prop) (hcache : ∀ name, ¬ Changed name → cache'[name]? = cache[name]?)
    (hdata : ∀ name, ¬ Changed name → data'[key name]? = data[key name]?)
    (hnew : ∀ name, Changed name → data'[key name]? = cache'[name]?.map enc ∧
      ∀ a, cache'[name]? = some a → Fits name a) : Mirrors key enc Fits Stale data' cache' where
  cached name a ha := by
    by_cases hname : Changed name
    · obtain ⟨hdata,hfits⟩ := hnew name hname
      exact ⟨by rw [hdata,ha]; rfl,hfits a ha⟩
    · rw [hdata name hname]
      exact h.cached name a (hcache name hname ▸ ha)
  stored name v hv hnone := by
    by_cases hname : Changed name
    · rw [(hnew name hname).1,hnone] at hv
      cases hv
    · exact h.stored name v (hdata name hname ▸ hv) (hcache name hname ▸ hnone)

lemma insert (hkey : Function.Injective key) (h : Mirrors key enc Fits Stale data cache)
    (hfits : Fits name a) :
    Mirrors key enc Fits Stale (data.insert (key name) (enc a)) (cache.insert name a) := by
  refine h.change (· = name) (fun n hn => ?_) (fun n hn => ?_) ?_
  · rw [getElem?_insert_eq,if_neg (Ne.symm hn)]
  · rw [getElem?_insert_eq,if_neg fun heq => hn (hkey heq).symm]
  · rintro n rfl
    rw [getElem?_insert_eq,getElem?_insert_eq,if_pos rfl,if_pos rfl]
    exact ⟨rfl,fun b hb => Option.some.inj hb ▸ hfits⟩

lemma erase (hkey : Function.Injective key) (h : Mirrors key enc Fits Stale data cache)
    (name : Bytes) : Mirrors key enc Fits Stale (data.erase (key name)) (cache.erase name) := by
  refine h.change (· = name) (fun n hn => ?_) (fun n hn => ?_) ?_
  · rw [getElem?_erase_eq,if_neg (Ne.symm hn)]
  · rw [getElem?_erase_eq,if_neg fun heq => hn (hkey heq).symm]
  · rintro n rfl
    rw [getElem?_erase_eq,getElem?_erase_eq,if_pos rfl,if_pos rfl]
    exact ⟨rfl,fun b hb => by cases hb⟩

/-- A loop over the cached values that are `hit` has stored each of them anew, or has deleted it. -/
lemma sweep (hkey : Function.Injective key) (h : Mirrors key enc Fits Stale data cache) (hit : α → Bool)
    (f : α → Option α) (hfits : ∀ name a b, Fits name a → f a = some b → Fits name b)
    (hdata : ∀ k, ((∀ e ∈ cache.toList.filter fun e => hit e.2, key e.1 ≠ k) ∧ data'[k]? = data[k]?) ∨
      ∃ e ∈ cache.toList.filter fun e => hit e.2, key e.1 = k ∧ data'[k]? = (f e.2).map enc)
    {cache' : ExtTreeMap Bytes α}
    (hcache : ∀ name : Bytes, cache'[name]? =
      cache[name]?.bind fun a => if hit a then f a else some a) :
    Mirrors key enc Fits Stale data' cache' := by
  have hmem : ∀ e, e ∈ (cache.toList.filter fun e => hit e.2) ↔ cache[e.1]? = some e.2 ∧ hit e.2 = true :=
    fun e => by rw [List.mem_filter,ExtTreeMap.mem_toList_iff_getElem?_eq_some]
  refine h.change (fun name => ∃ a, cache[name]? = some a ∧ hit a = true) (fun name hname => ?_)
    (fun name hname => ?_) fun name hname => ?_
  · rw [hcache]
    cases ha : cache[name]? with
    | none => rfl
    | some a => rw [Option.bind_some,if_neg fun hhit => hname ⟨a,ha,hhit⟩]
  · obtain ⟨-,heq⟩ | ⟨e,he,hk,-⟩ := hdata (key name)
    · exact heq
    · obtain rfl := hkey hk
      exact absurd ⟨e.2,(hmem e).mp he⟩ hname
  · obtain ⟨a,ha,hhit⟩ := hname
    rw [hcache,ha,Option.bind_some,if_pos hhit]
    refine ⟨?_,fun b => hfits name a b (h.cached name a ha).2⟩
    obtain ⟨hother,-⟩ | ⟨e,he,hk,heq⟩ := hdata (key name)
    · exact absurd rfl (hother (name,a) ((hmem _).mpr ⟨ha,hhit⟩))
    · obtain rfl := hkey hk
      obtain rfl := Option.some.inj (((hmem e).mp he).1.symm.trans ha)
      exact heq

lemma exists_of_stored (h : Mirrors key enc Fits Stale data cache) {v : Bytes}
    (hv : data[key name]? = some v) :
    ∃ a, v = enc a ∧ Fits name a ∧ (cache[name]? = some a ∨ cache[name]? = none ∧ Stale a) := by
  cases hcache : cache[name]? with
  | none =>
    obtain ⟨a,hva,hfits,hstale⟩ := h.stored name v hv hcache
    exact ⟨a,hva,hfits,.inr ⟨rfl,hstale⟩⟩
  | some a =>
    obtain ⟨hdata,hfits⟩ := h.cached name a hcache
    exact ⟨a,Option.some.inj (hv.symm.trans hdata),hfits,.inl rfl⟩

lemma filter (h : Mirrors key enc Fits Stale data cache) {keep : α → Bool} {Stale' : α → Prop}
    (hstale : ∀ a, Stale a → Stale' a) (hkeep : ∀ a, keep a = false → Stale' a) :
    Mirrors key enc Fits Stale' data (cache.filter fun _ a => keep a) where
  cached name a ha := by
    rw [ExtTreeMap.getElem?_filter',Option.filter_eq_some_iff] at ha
    exact h.cached name a ha.1
  stored name v hv hnone := by
    obtain ⟨a,hva,hfits,hcached | ⟨-,hold⟩⟩ := h.exists_of_stored hv
    · rw [ExtTreeMap.getElem?_filter',Option.filter_eq_none_iff] at hnone
      exact ⟨a,hva,hfits,hkeep a (by simpa using hnone a hcached)⟩
    · exact ⟨a,hva,hfits,hstale a hold⟩

theorem getElem?_load (h : Mirrors key enc Fits Stale data cache) {decode : Bytes → Option α}
    {nameOf : α → Bytes} {keep : α → Bool} {entries : List (Bytes × Bytes)}
    (hdecode : ∀ name a, Fits name a → decode (enc a) = some a ∧ nameOf a = name)
    (hstale : ∀ a, Stale a → keep a = false)
    (hentries : ∀ k v, (k,v) ∈ entries ↔ (∃ name, k = key name) ∧ data[k]? = some v)
    (hdistinct : entries.Pairwise fun e e' => e.1 ≠ e'.1) (name : Bytes) :
    (load decode nameOf keep (entries.map Prod.snd))[name]? = (cache[name]?).filter keep := by
  have hread : ∀ e ∈ entries, ∃ a, decode e.2 = some a ∧ e.1 = key (nameOf a) ∧
      (cache[nameOf a]? = some a ∨ cache[nameOf a]? = none ∧ Stale a) := by
    rintro ⟨k,v⟩ he
    obtain ⟨⟨n,rfl⟩,hv⟩ := (hentries k v).mp he
    obtain ⟨a,rfl,hfits,hcache⟩ := h.exists_of_stored hv
    obtain ⟨hdec,rfl⟩ := hdecode n a hfits
    exact ⟨a,hdec,rfl,hcache⟩
  have hpairs : (((entries.map Prod.snd).filterMap decode).filter keep).Pairwise
      fun a b => nameOf a ≠ nameOf b := by
    refine List.Pairwise.filter _ ?_
    rw [List.filterMap_map,List.pairwise_filterMap]
    refine hdistinct.imp_of_mem fun {e e'} he he' hne a ha b hb heq => hne ?_
    obtain ⟨a',ha',hka,-⟩ := hread e he
    obtain ⟨b',hb',hkb,-⟩ := hread e' he'
    obtain rfl := Option.some.inj (ha'.symm.trans ha)
    obtain rfl := Option.some.inj (hb'.symm.trans hb)
    rw [hka,hkb,heq]
  by_cases hex : ∃ a ∈ ((entries.map Prod.snd).filterMap decode).filter keep, nameOf a = name
  · obtain ⟨a,ha,rfl⟩ := hex
    obtain ⟨hfound,hkeep⟩ := List.mem_filter.mp ha
    obtain ⟨v,hv,hdec⟩ := List.mem_filterMap.mp hfound
    obtain ⟨e,he,rfl⟩ := List.mem_map.mp hv
    obtain ⟨a',hdec',-,hcache⟩ := hread e he
    obtain rfl := Option.some.inj (hdec'.symm.trans hdec)
    have hcached : cache[nameOf a']? = some a' := hcache.resolve_right fun hstale' => by
      rw [hstale a' hstale'.2] at hkeep
      cases hkeep
    have hload : (load decode nameOf keep (entries.map Prod.snd))[nameOf a']? = some a' :=
      ExtTreeMap.getElem?_ofList_of_mem compare_self
        (List.pairwise_map.mpr (hpairs.imp fun hne heq => hne (LawfulEqCmp.eq_of_compare heq)))
        (List.mem_map.mpr ⟨a',ha,rfl⟩)
    rw [hload,hcached,Option.filter_some,if_pos hkeep]
  · have hload : (load decode nameOf keep (entries.map Prod.snd))[name]? = none := by
      apply ExtTreeMap.getElem?_ofList_of_contains_eq_false
      rw [← Bool.not_eq_true,List.contains_iff_mem]
      intro hmem
      simp only [List.map_map,List.mem_map,Function.comp_apply] at hmem
      exact hex hmem
    rw [hload]
    symm
    rw [Option.filter_eq_none_iff]
    intro a hcached hkeep
    obtain ⟨hdata,hfits⟩ := h.cached name a hcached
    obtain ⟨hdec,hname⟩ := hdecode name a hfits
    have hentry := (hentries (key name) (enc a)).mpr ⟨⟨name,rfl⟩,hdata⟩
    refine hex ⟨a,List.mem_filter.mpr ⟨List.mem_filterMap.mpr ⟨enc a,?_,hdec⟩,hkeep⟩,hname⟩
    exact List.mem_map.mpr ⟨_,hentry,rfl⟩

end Mirrors
end MetaStore.Mirror
