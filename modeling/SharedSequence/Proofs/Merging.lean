import SharedSequence.Proofs.Canonical
import SharedSequence.Proofs.Extraction

namespace SharedSequence

open Sequence

namespace Sequence

variable {α : Type} [BEq α] {hashing : Option (ElementHash α)} {s t : Sequence α}

def Keeps (s t : Sequence α) : Prop :=
  ∀ i, t.get i = s.get i

def RepeatsFirst (s t : Sequence α) : Prop :=
  t.length = s.length ∧ ∀ i < s.length, t.get i = s.get 0

/-- All elements are equal, but they are not all the same. -/
def Blends (s : Sequence α) : Prop :=
  s.EqualsFirst ∧ ∃ i < s.length, s.get i ≠ s.get 0

/-- What a compaction makes of the elements. -/
inductive Merges (s t : Sequence α) : Prop where
  | kept (hu : s.isUniform = false ∨ s.IsIndexLeaf) (hk : s.Keeps t)
  | merged (hu : s.isUniform = true) (hr : s.RepeatsFirst t)

theorem WellFormed.lt_length_of_get (h : s.WellFormed hashing) {i : Nat} {x : α}
    (hx : s.get i = .ok x) : i < s.length := by
  by_contra hi
  rw [h.get_eq_error (Nat.le_of_not_lt hi)] at hx
  cases hx

theorem WellFormed.keeps_of_toList_eq (hs : s.WellFormed hashing) (ht : t.WellFormed hashing)
    (he : t.toList = s.toList) : s.Keeps t := by
  intro i
  rw [get, get, ht.get?_eq, hs.get?_eq, he, ← ht.length_toList, he, hs.length_toList]

theorem WellFormed.repeatsFirst_of_toList_eq {value : α} (ht : t.WellFormed hashing)
    (hv : s.get? 0 = some value) (he : t.toList = List.replicate s.length value) :
    s.RepeatsFirst t := by
  constructor
  · rw [← ht.length_toList, he, List.length_replicate]
  · intro i hi
    rw [get_eq_ok_iff.mpr hv, get_eq_ok_iff, ht.get?_eq, he, List.getElem?_replicate_of_lt hi]

omit [BEq α] in
theorem repeatsFirst_nil {cell : Cell} : (nil cell : Sequence α).RepeatsFirst (nil cell) :=
  ⟨rfl, fun _ hi => absurd hi (Nat.not_lt_zero _)⟩

omit [BEq α] in
theorem repeatsFirst_run {cell : Cell} {value : α} {count : Nat} :
    (run cell value count).RepeatsFirst (run cell value count) := by
  constructor
  · rfl
  · intro i hi
    have hfirst : (run cell value count).get? 0 = some value := if_pos (Nat.zero_lt_of_lt hi)
    rw [get_eq_ok_iff.mpr hfirst, get_eq_ok_iff]
    exact if_pos hi

theorem RepeatsFirst.keeps (hr : s.RepeatsFirst t) (hs : s.WellFormed hashing)
    (ht : t.WellFormed hashing) (hall : ∀ i < s.length, s.get i = s.get 0) : s.Keeps t := by
  intro i
  by_cases hi : i < s.length
  · rw [hr.2 i hi, hall i hi]
  · have hi' := Nat.le_of_not_lt hi
    rw [hs.get_eq_error hi', ht.get_eq_error (by rwa [hr.1]), hr.1]

theorem WellFormed.flatten_merges (h : s.WellFormed hashing) :
    Yields s.flatten fun done => s.Merges done.result := by
  apply yields_flatten s.Merges
  case settled =>
    intro hc hi
    cases s with
    | nil => exact .merged rfl repeatsFirst_nil
    | run => exact .merged rfl repeatsFirst_run
    -- Without transitive equality, an index leaf may count as uniform; it stays all the same.
    | indexed => exact .kept (.inr trivial) fun _ => rfl
    | flat => cases hi
    | window | reversed | link => cases hc
  case varied =>
    intro hc hi hv
    cases s with
    | nil | run | indexed => cases hi
    | flat => exact .kept (.inl (h.commonValue?_eq_none (wellFormed_flat.mp h).1 hv)) fun _ => rfl
    | window | reversed | link => cases hc
  case common =>
    intro hn value hv
    obtain ⟨hu, hg⟩ := commonValue?_eq_some hv
    have hr : Yields (replicate s.length value) fun t =>
        t.WellFormed hashing ∧ t.toList = List.replicate s.length value :=
      yields_of_makes fun _ => makes_replicate s.length value
    exact hr.mono fun t ht => .merged hu (ht.1.repeatsFirst_of_toList_eq hg ht.2)
  case copied =>
    intro hn hc hv cell
    have hs := h.length_pos hn
    exact .kept (.inl (h.commonValue?_eq_none hs hv))
      (h.keeps_of_toList_eq (h.copied hs cell) (h.toList_copied cell))

theorem WellFormed.compactFlat_merges (h : s.WellFormed hashing) :
    Yields s.compactFlat fun t => t.WellFormed hashing ∧ s.Merges t :=
  (h.flatten.and h.flatten_merges).bind fun _ hd => .pure hd

section

variable [PartialEquivBEq α]

theorem WellFormed.not_equalsFirst_of_isIndexLeaf (h : s.WellFormed hashing) (hl : s.IsIndexLeaf) :
    ¬s.EqualsFirst := by
  cases s with
  | indexed cell items index hasher =>
    intro he
    obtain ⟨⟨x, hx, y, hy, hxy⟩, -⟩ := wellFormed_indexed.mp h
    rw [h.equalsFirst_iff.mp he x (Array.mem_toList_iff.mpr hx) y (Array.mem_toList_iff.mpr hy)]
      at hxy
    cases hxy
  | nil | run | flat | window | reversed | link => exact hl.elim

theorem Merges.repeatsFirst (hm : s.Merges t) (h : s.WellFormed hashing) (he : s.EqualsFirst) :
    s.RepeatsFirst t := by
  cases hm with
  | merged hu hr => exact hr
  | kept hu hk =>
    obtain hu | hl := hu
    · rw [h.isUniform_of_equalsFirst he] at hu
      cases hu
    · exact absurd he (h.not_equalsFirst_of_isIndexLeaf hl)

/-- Elements get lost exactly where equal ones that are not the same stand. -/
theorem Merges.keeps_iff (hm : s.Merges t) (hs : s.WellFormed hashing) (ht : t.WellFormed hashing) :
    s.Keeps t ↔ ¬s.Blends := by
  constructor
  · rintro hk ⟨he, i, hi, hne⟩
    exact hne ((hk i).symm.trans ((hm.repeatsFirst hs he).2 i hi))
  · intro hb
    cases hm with
    | kept hu hk => exact hk
    | merged hu hr =>
      apply hr.keeps hs ht
      obtain he | hrun := hs.isUniform_iff_or.mp hu
      · intro i hi
        by_contra hne
        exact hb ⟨he, i, hi, hne⟩
      · cases s with
        | run cell value count => exact repeatsFirst_run.2
        | nil | flat | indexed | window | reversed | link => exact hrun.elim

/-- What takes the place of an element is equal to it. -/
theorem Merges.get_eq_or_beq (hm : s.Merges t) (hs : s.WellFormed hashing)
    (ht : t.WellFormed hashing) {i : Nat} {x : α} (hx : s.get i = .ok x) :
    ∃ y, t.get i = .ok y ∧ (y = x ∨ (y == x) = true) := by
  by_cases hb : s.Blends
  · have hi := hs.lt_length_of_get hx
    obtain ⟨first, hf⟩ := hs.get?_zero (Nat.zero_lt_of_lt hi)
    refine ⟨first, ?_, .inr (BEq.symm (hb.1 first hf i x (get_eq_ok_iff.mp hx)))⟩
    rw [(hm.repeatsFirst hs hb.1).2 i hi, get_eq_ok_iff, hf]
  · exact ⟨x, ((hm.keeps_iff hs ht).mpr hb i).trans hx, .inl rfl⟩

end

end Sequence

namespace Binary64

variable {x y : Binary64} {hashing : Option (ElementHash Binary64)} {s : Sequence Binary64}

def zero : Binary64 :=
  ⟨0⟩

def negativeZero : Binary64 :=
  ⟨0x8000000000000000⟩

theorem magnitude_eq_zero_iff : x.magnitude = 0 ↔ x = zero ∨ x = negativeZero := by
  have hm : x.magnitude.toNat = x.bits.toNat % 2 ^ 63 :=
    (UInt64.toNat_and ..).trans (Nat.and_two_pow_sub_one_eq_mod _ 63)
  have hb := x.bits.toNat_lt
  rw [← UInt64.toNat_inj, hm]
  constructor
  · intro h
    have hbits : x.bits.toNat = 0 ∨ x.bits.toNat = 2 ^ 63 := by
      change x.bits.toNat % 2 ^ 63 = 0 at h
      omega
    exact hbits.imp (fun h => congrArg mk (UInt64.toNat_inj.mp h))
      fun h => congrArg mk (UInt64.toNat_inj.mp h)
  · rintro (rfl | rfl) <;> rfl

theorem zeros_beq (hx : x = zero ∨ x = negativeZero) (hy : y = zero ∨ y = negativeZero) :
    (x == y) = true := by
  obtain rfl | rfl := hx <;> obtain rfl | rfl := hy <;> rfl

theorem zero_of_beq (h : (x == y) = true) (hy : y = zero ∨ y = negativeZero) :
    x = zero ∨ x = negativeZero := by
  obtain ⟨-, -, hb⟩ := beq_eq_true_iff.mp h
  exact magnitude_eq_zero_iff.mp ((magnitude_eq hb).trans (magnitude_eq_zero_iff.mpr hy))

theorem zeros_of_beq (h : (x == y) = true) (hne : x ≠ y) :
    x = zero ∧ y = negativeZero ∨ x = negativeZero ∧ y = zero := by
  obtain ⟨-, -, hb | ⟨hx, hy⟩⟩ := beq_eq_true_iff.mp h
  · exact absurd (congrArg mk hb) hne
  · rw [magnitude_eq_zero_iff] at hx hy
    obtain rfl | rfl := hx <;> obtain rfl | rfl := hy
    · exact absurd rfl hne
    · exact .inl ⟨rfl, rfl⟩
    · exact .inr ⟨rfl, rfl⟩
    · exact absurd rfl hne

structure MixesZeros (s : Sequence Binary64) : Prop where
  only (i : Nat) (x : Binary64) : s.get i = .ok x → x = zero ∨ x = negativeZero
  positive : ∃ i, s.get i = .ok zero
  negative : ∃ i, s.get i = .ok negativeZero

theorem blends_iff (hs : s.WellFormed hashing) : s.Blends ↔ MixesZeros s := by
  constructor
  · rintro ⟨he, i, hi, hne⟩
    obtain ⟨first, hf⟩ := hs.get?_zero (Nat.zero_lt_of_lt hi)
    obtain ⟨x, hx⟩ := hs.exists_get? hi
    have hxf : x ≠ first := by
      rintro rfl
      exact hne ((get_eq_ok_iff.mpr hx).trans (get_eq_ok_iff.mpr hf).symm)
    have hzeros := zeros_of_beq (he first hf i x hx) hxf
    have hfirst : first = zero ∨ first = negativeZero := hzeros.symm.imp And.right And.right
    rw [← get_eq_ok_iff] at hx hf
    constructor
    · intro j y hy
      exact zero_of_beq (he first (get_eq_ok_iff.mp hf) j y (get_eq_ok_iff.mp hy)) hfirst
    · obtain ⟨rfl, -⟩ | ⟨-, rfl⟩ := hzeros
      · exact ⟨i, hx⟩
      · exact ⟨0, hf⟩
    · obtain ⟨-, rfl⟩ | ⟨rfl, -⟩ := hzeros
      · exact ⟨0, hf⟩
      · exact ⟨i, hx⟩
  · intro hz
    constructor
    · intro first hf i x hx
      exact zeros_beq (hz.only i x (get_eq_ok_iff.mpr hx)) (hz.only 0 first (get_eq_ok_iff.mpr hf))
    · obtain ⟨i, hi⟩ := hz.positive
      obtain ⟨j, hj⟩ := hz.negative
      by_cases h0 : s.get 0 = .ok zero
      · refine ⟨j, hs.lt_length_of_get hj, ?_⟩
        rw [hj, h0]
        exact nofun
      · refine ⟨i, hs.lt_length_of_get hi, ?_⟩
        rw [hi]
        exact Ne.symm h0

end Binary64

/-- A compaction without an index answers every position as before, unless the sequence counts as
uniform; then it answers every position with the first element. Where equality is symmetric and
transitive, the elements change exactly if all are equal and not all are the same, and each one
becomes one that is equal to it. So floating-point numbers change, by their bits, exactly if they
are zeros of both signs and nothing else. -/
theorem compactFlat_keeps_or_repeats :
    (∀ {α : Type} [BEq α] {hashing : Option (ElementHash α)} {s : Sequence α},
      Reachable hashing s → ∀ store, s.Keeps (s.compactFlat.run store).1 ∨
        s.isUniform = true ∧ s.RepeatsFirst (s.compactFlat.run store).1) ∧
    (∀ {α : Type} [BEq α] [PartialEquivBEq α] {hashing : Option (ElementHash α)} {s : Sequence α},
      Reachable hashing s → ∀ store,
        (s.Keeps (s.compactFlat.run store).1 ↔ ¬s.Blends) ∧
        (s.Blends → s.RepeatsFirst (s.compactFlat.run store).1) ∧
        ∀ i x, s.get i = .ok x →
          ∃ y, (s.compactFlat.run store).1.get i = .ok y ∧ (y = x ∨ (y == x) = true)) ∧
    ∀ {s : Sequence Binary64}, Reachable none s → ∀ store,
      (s.Keeps (s.compactFlat.run store).1 ↔ ¬Binary64.MixesZeros s) := by
  refine ⟨?_, ?_, ?_⟩
  · intro α _ hashing s h store
    obtain ⟨-, hm⟩ := h.wellFormed.compactFlat_merges store
    cases hm with
    | kept _ hk => exact .inl hk
    | merged hu hr => exact .inr ⟨hu, hr⟩
  · intro α _ _ hashing s h store
    have hs := h.wellFormed
    obtain ⟨ht, hm⟩ := hs.compactFlat_merges store
    exact ⟨hm.keeps_iff hs ht, fun hb => hm.repeatsFirst hs hb.1,
      fun i x hx => hm.get_eq_or_beq hs ht hx⟩
  · intro s h store
    have hs := h.wellFormed
    obtain ⟨ht, hm⟩ := hs.compactFlat_merges store
    rw [hm.keeps_iff hs ht, Binary64.blends_iff hs]

namespace Binary64

def zeros : Sequence Binary64 :=
  flat 0 #[zero, negativeZero] 0 2

theorem reachable_zeros : Reachable none zeros :=
  ⟨_, _, Run.start.step (.ofArray #[zero, negativeZero]) rfl, .head _⟩

/-- A reversal of both zeros and what is no number between them. -/
def mixture : Sequence Binary64 :=
  .reversed 1 (flat 0 #[negativeZero, notANumber, zero] 0 3)

/-- What is no number keeps its bits, and the zeros beside it keep their signs. -/
theorem keeps_mixture_repeats_zeros :
    mixture.Keeps (mixture.compactFlat.run ⟨#[0, 0]⟩).1 ∧
      zeros.RepeatsFirst (zeros.compactFlat.run ⟨#[0]⟩).1 := by
  obtain ⟨-, hequal, hnumbers⟩ := compactFlat_keeps_or_repeats
  have hm : Reachable none mixture :=
    ⟨_, _, (Run.start.step (.ofArray #[negativeZero, notANumber, zero]) rfl).step
      (.reverse (.head _)) rfl, .head _⟩
  have hother : ¬MixesZeros mixture := by
    intro h
    obtain h | h := h.only 1 notANumber rfl <;> cases h
  have hblends : zeros.Blends :=
    ⟨(reachable_zeros.wellFormed.isUniform_iff_or.mp rfl).resolve_right id, 1, by decide, nofun⟩
  exact ⟨(hnumbers hm _).mpr hother, (hequal reachable_zeros _).2.1 hblends⟩

theorem zeros_not_kept :
    Reachable none zeros ∧ zeros.get 1 = .ok negativeZero ∧
      (zeros.compactFlat.run ⟨#[0]⟩).1.get 1 = .ok zero ∧
      ¬zeros.Keeps (zeros.compactFlat.run ⟨#[0]⟩).1 :=
  ⟨reachable_zeros, rfl, rfl, fun hk => nomatch hk 1⟩

end Binary64

end SharedSequence
