import SharedSequence.Proofs.Encodings
import SharedSequence.Proofs.Maps

namespace SharedSequence

open Sequence

variable {α σ : Type}

namespace Sequence

variable [BEq σ] {hashing : Option (ElementHash σ)} {q : Sequence σ} {first second : σ}

theorem WellFormed.toList_eq_pair_iff (h : q.WellFormed hashing) :
    q.toList = [first, second] ↔ q.length = 2 ∧ q.get 0 = .ok first ∧ q.get 1 = .ok second := by
  rw [get_eq_ok_iff, get_eq_ok_iff, h.get?_eq, h.get?_eq, ← h.length_toList]
  constructor
  · intro hl
    rw [hl]
    exact ⟨rfl, rfl, rfl⟩
  · rintro ⟨hl, hf, hs⟩
    obtain ⟨x, y, he⟩ := List.length_eq_two.mp hl
    rw [he] at hf hs ⊢
    cases hf
    cases hs
    rfl

theorem reflBEq_sequence [BEq α] [ElementHash α] : ReflBEq (Sequence α) where
  rfl {s} := by
    have hs : s.sameInstance s = true := beq_self_eq_true s.cell
    rw [beq_eq_equals, equals, if_pos hs]
    rfl

end Sequence

namespace SequenceMap

/-- The sequence has two elements, which hold sequences of one length, and these are the keys and
the values of the map. -/
def Encodes (held : σ → Sequence α) (q : Sequence σ) (map : SequenceMap α α) : Prop :=
  ∃ first second, q.length = 2 ∧ q.get 0 = .ok first ∧ q.get 1 = .ok second ∧
    (held first).length = (held second).length ∧ map = ⟨held first, held second⟩

/-- The sequence is not read as a map, and the error says why. -/
def Refused (held : σ → Sequence α) (q : Sequence σ) (reason : String) : Prop :=
  ∃ rejection, q.toMapBy held = .error (.invalidArgument rejection) ∧ rejection.reason = reason

theorem yields_toSequence {map : SequenceMap α α} (h : map.keys.length = map.values.length) :
    Yields map.toSequence fun q => q.toMap = .ok map := by
  intro store
  exact pair_eq_ok_iff.mpr ⟨h, rfl⟩

section

variable [BEq σ] {hashing : Option (ElementHash σ)} {held : σ → Sequence α} {q : Sequence σ}
  {first second : σ} {map : SequenceMap α α}

theorem toMapBy_eq_ok_iff (h : q.WellFormed hashing) :
    q.toMapBy held = .ok map ↔ Encodes held q map := by
  constructor
  · intro hm
    by_cases hl : q.toList.length = 2
    · obtain ⟨first, second, he⟩ := List.length_eq_two.mp hl
      rw [toMapBy_eq_pair h he, pair_eq_ok_iff] at hm
      obtain ⟨hlength, hf, hs⟩ := h.toList_eq_pair_iff.mp he
      exact ⟨first, second, hlength, hf, hs, hm.1, hm.2⟩
    · rw [toMapBy_eq_error h hl] at hm
      cases hm
  · rintro ⟨first, second, hlength, hf, hs, he, rfl⟩
    rw [toMapBy_eq_pair h (h.toList_eq_pair_iff.mpr ⟨hlength, hf, hs⟩)]
    exact pair_eq_ok_iff.mpr ⟨he, rfl⟩

theorem refused_of_length_ne (h : q.WellFormed hashing) (hl : q.length ≠ 2) :
    Refused held q "map encoding needs exactly keys and values" :=
  ⟨.mapEncodingShape, toMapBy_eq_error h (by rwa [h.length_toList]), rfl⟩

theorem refused_of_lengths_ne (h : q.WellFormed hashing) (hl : q.length = 2)
    (hf : q.get 0 = .ok first) (hs : q.get 1 = .ok second)
    (hne : (held first).length ≠ (held second).length) :
    Refused held q "keys and values differ in length" := by
  refine ⟨.mapLengthsDiffer, ?_, rfl⟩
  rw [toMapBy_eq_pair h (h.toList_eq_pair_iff.mpr ⟨hl, hf, hs⟩), pair_eq_error hne]

end

theorem toSequence_eq_ofList [BEq (Sequence α)] {hashing : Option (ElementHash (Sequence α))}
    {q : Sequence (Sequence α)} {map : SequenceMap α α} (h : q.WellFormed hashing)
    (hm : q.toMap = .ok map) : map.toSequence = ofList q.toList := by
  obtain ⟨first, second, hl, hf, hs, -, rfl⟩ := (toMapBy_eq_ok_iff h).mp hm
  rw [h.toList_eq_pair_iff.mpr ⟨hl, hf, hs⟩]
  rfl

/-- Every map that is obtained is read back from the sequence that is written of it, with the same
instances of its keys and its values. A reachable sequence is read as a map exactly if it has two
elements that hold sequences of one length, the keys and the values; it is refused for the count of
its elements or else for their lengths. In a run, what is written of a map that was read from a
sequence is equal to the sequence. -/
theorem encoding_round_trip :
    (∀ {α : Type} [BEq α] {hκ hν : Option (ElementHash α)} {map : SequenceMap α α},
      Obtained hκ hν map → Yields map.toSequence fun q => q.toMap = .ok map) ∧
    (∀ {α σ : Type} [BEq σ] {hashing : Option (ElementHash σ)} (held : σ → Sequence α)
      {q : Sequence σ}, Reachable hashing q →
      (∀ map, q.toMapBy held = .ok map ↔ Encodes held q map) ∧
        (q.length ≠ 2 → Refused held q "map encoding needs exactly keys and values") ∧
        ∀ first second, q.length = 2 → q.get 0 = .ok first → q.get 1 = .ok second →
          (held first).length ≠ (held second).length →
            Refused held q "keys and values differ in length") ∧
    ∀ {α : Type} [BEq α] [ElementHash α] [ElementHash (Sequence α)] {store : Store}
      {made : List (Sequence (Sequence α))},
      Run (some inferInstance) store made → ∀ q ∈ made, ∀ map, q.toMap = .ok map →
        MakesEqual map.toSequence store q := by
  refine ⟨?_, ?_, ?_⟩
  · intro α _ hκ hν map h
    exact yields_toSequence h.wellFormed.length_eq
  · intro α σ _ hashing held q hr
    have h := hr.wellFormed
    exact ⟨fun map => toMapBy_eq_ok_iff h, refused_of_length_ne h,
      fun first second => refused_of_lengths_ne h⟩
  · intro α _ _ _ store made hr q hq map hm
    have := reflBEq_sequence (α := α)
    rw [toSequence_eq_ofList (hr.wellFormed hq) hm]
    exact hr.makesEqual_ofList hq

def beads : Bytes :=
  reversedLink 0xCA 0xDE 0xAD 0x0B

def noughts : Bytes :=
  .run 0 0 5

instance : ElementHash Bytes where
  hash32 := Sequence.elementHash WordHash.ofUInt32

/-- A leaf with an index over the values and the keys. -/
def exchanged : Sequence Bytes :=
  .indexed 1 #[noughts, beads] (.build #[noughts, beads] hash32) hash32

theorem run_exchanged : Run (some inferInstance) ⟨#[0, 0, 0]⟩
    [.reversed 2 exchanged, exchanged, .flat 0 #[noughts, beads] 0 2] := by
  have h₁ : Run (some inferInstance) ⟨#[0]⟩ [.flat 0 #[noughts, beads] 0 2] :=
    Run.start.step (.ofArray #[noughts, beads]) rfl
  have h₂ : Run (some inferInstance) ⟨#[0, 0]⟩ [exchanged, .flat 0 #[noughts, beads] 0 2] :=
    h₁.step (.compact (Option.mem_some_self _) (.head _) true) rfl
  exact h₂.step (.reverse (.head _)) rfl

/-- A map of entries; a reversal that exchanges the parts of a leaf with an index; a run whose one
value is the keys and the values; three parts, and two of different lengths. -/
theorem encoding_round_trip_beads :
    (Yields ((ofEntries [((1 : UInt8), (10 : UInt8)), (2, 20)]).run {}).1.toSequence fun q =>
      q.toMap = .ok ((ofEntries [((1 : UInt8), (10 : UInt8)), (2, 20)]).run {}).1) ∧
      (Sequence.reversed 2 exchanged).toMap = .ok ⟨beads, noughts⟩ ∧
      MakesEqual (toSequence ⟨beads, noughts⟩) ⟨#[0, 0, 0]⟩ (.reversed 2 exchanged) ∧
      (Sequence.run 0 beads 2).toMap = .ok ⟨beads, beads⟩ ∧
      Refused id (.run 0 beads 3) "map encoding needs exactly keys and values" ∧
      Refused id (.flat 0 #[beads, .run 0 0 4] 0 2) "keys and values differ in length" := by
  obtain ⟨hentries, hread, hruns⟩ := encoding_round_trip
  have hleaf : Reachable (some inferInstance) (.reversed 2 exchanged) :=
    ⟨_, _, run_exchanged, .head _⟩
  have htwice (count : Nat) (hc : count ≠ 0) :
      Reachable (none : Option (ElementHash Bytes)) (.run 0 beads count) :=
    ⟨_, _, Run.start.step (.replicate count beads) (by rw [replicate, if_neg hc]; rfl), .head _⟩
  have huneven : Reachable (none : Option (ElementHash Bytes))
      (.flat 0 #[beads, .run 0 0 4] 0 2) :=
    ⟨_, _, Run.start.step (.ofArray #[beads, .run 0 0 4]) rfl, .head _⟩
  have hmap := ((hread id hleaf).1 ⟨beads, noughts⟩).mpr ⟨_, _, rfl, rfl, rfl, rfl, rfl⟩
  have hpairs : Obtained (some inferInstance) none
      ((ofEntries [((1 : UInt8), (10 : UInt8)), (2, 20)]).run {}).1 :=
    .ofEntries (Option.mem_some_self _) _ _
  exact ⟨hentries hpairs, hmap,
    hruns run_exchanged _ (.head _) _ hmap,
    ((hread id (htwice 2 (by decide))).1 _).mpr ⟨_, _, rfl, rfl, rfl, rfl, rfl⟩,
    (hread id (htwice 3 (by decide))).2.1 (by decide),
    (hread id huneven).2.2 _ _ rfl rfl rfl (by decide)⟩

end SequenceMap

end SharedSequence
