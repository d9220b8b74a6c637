import MetaStore.Library.Bytes

/-! Serialisations. A serialisation may go through the maps of its argument in any order and may
refuse arguments that are not valid; what it does accept can be read back. -/
namespace MetaStore
variable {α : Type*}

instance countableUInt8 : Countable UInt8 :=
  Function.Injective.countable (f := UInt8.toNat) fun _ _ => UInt8.toNat_inj.mp

instance countableExtTreeMap (α β : Type) [Ord α] [Std.TransOrd α] [Std.LawfulEqOrd α] [Countable α] [Countable β] :
    Countable (Std.ExtTreeMap α β) :=
  Function.Injective.countable (f := Std.ExtTreeMap.toList) fun _ _ h =>
    Std.ExtTreeMap.ext_toList (h ▸ .rfl)

structure Codec (α : Type*) (Valid : α → Prop) where
  serialize : (order : ℕ) → α → Except Bytes Bytes
  deserialize : Bytes → Option α
  roundTrip : ∀ order a, Valid a →
    ∃ data, serialize order a = .ok data ∧ deserialize data = some a

namespace Codec

theorem nonempty_of_countable [Countable α] (Valid : α → Prop) : Nonempty (Codec α Valid) := by
  obtain ⟨f,hf⟩ := exists_injective_nat α
  have hinj : Function.Injective fun a => List.replicate (f a) (0 : UInt8) := by
    intro a b h
    have hlength := congrArg List.length h
    simp only [List.length_replicate] at hlength
    exact hf hlength
  rcases isEmpty_or_nonempty α with hempty|⟨⟨a₀⟩⟩
  · exact ⟨⟨fun _ _ => .ok [],fun _ => none,fun _ a => hempty.elim a⟩⟩
  · refine ⟨⟨fun _ a => .ok (List.replicate (f a) 0),
      fun data => some (@Function.invFun _ _ ⟨a₀⟩ (fun a => List.replicate (f a) (0 : UInt8)) data),
      fun _ a _ => ⟨_,rfl,congrArg some (@Function.leftInverse_invFun _ _ ⟨a₀⟩ _ hinj a)⟩⟩⟩

end Codec

structure StrictCodec (α : Type*) (Valid : α → Prop) extends Codec α Valid where
  rejects : ∀ order a, ¬ Valid a → ∃ err, serialize order a = .error err

namespace StrictCodec

theorem exists_ok_iff {Valid : α → Prop} (codec : StrictCodec α Valid) (order : ℕ) (a : α) :
    (∃ data, codec.serialize order a = .ok data) ↔ Valid a := by
  constructor
  · rintro ⟨data,hdata⟩
    by_contra ha
    obtain ⟨err,herr⟩ := codec.rejects order a ha
    cases hdata.symm.trans herr
  · intro ha
    obtain ⟨data,hdata,-⟩ := codec.roundTrip order a ha
    exact ⟨data,hdata⟩

theorem nonempty_of_countable [Countable α] (Valid : α → Prop) :
    Nonempty (StrictCodec α Valid) := by
  classical
  obtain ⟨codec⟩ := Codec.nonempty_of_countable Valid
  refine ⟨⟨⟨fun order a => if Valid a then codec.serialize order a else .error [],
    codec.deserialize,fun order a ha => ?_⟩,fun order a ha => ⟨[],if_neg ha⟩⟩⟩
  rw [if_pos ha]
  exact codec.roundTrip order a ha

end StrictCodec

end MetaStore
