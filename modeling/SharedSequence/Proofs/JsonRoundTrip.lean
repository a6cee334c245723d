import SharedSequence.Proofs.JsonElements
import SharedSequence.Proofs.JsonText
import SharedSequence.Session.Elements

namespace SharedSequence

open Sequence

variable {α : Type}

namespace JsonKind

/-- Elements that are their own values and are written as scalars. -/
abbrev scalars (α : Type) [BEq α] [LawfulBEq α] [ElementHash α] (codec : ScalarCodec α)
    (faithful : codec.Faithful) : JsonKind where
  Element := α
  Value := α
  depth := 0
  json := codec.element
  Formed _ := True
  value := id
  write := codec.encode
  read := codec.decode
  beq_of_value _ _ h := beq_iff_eq.mpr h
  hash_of_value {x y} _ _ (h : x = y) := congrArg hash32 h
  toJson_eq _ := rfl
  nests v := .scalar (faithful.scalar v)
  read_write := faithful.decode_encode
  succeeds {item v} h := by
    simp only [ofJson, h]
    exact .pure ⟨trivial, rfl⟩
  fails {item} h := by
    simp only [ofJson, h]
    exact .throw _

/-- Elements that programs hold: their trees are in order, and equal ones have one value. -/
structure Honest (K : JsonKind) (held : K.Element → Prop) : Prop where
  formed {x : K.Element} : held x → K.Formed x
  value_of_beq {x y : K.Element} : held x → held y → (x == y) = true → K.value x = K.value y

/-- Elements of any type that is written as scalars, such as numbers, characters and strings, and
the sequences that runs make of elements so reached. -/
inductive Reached : (K : JsonKind) → (K.Element → Prop) → Prop where
  | scalars {α : Type} [BEq α] [LawfulBEq α] [ElementHash α] (codec : ScalarCodec α)
      (faithful : codec.Faithful) : Reached (scalars α codec faithful) fun _ => True
  | sequences (h : Reached K held) (wordHash : UInt32 → UInt64)
      (run : Run (some K.hash) store made) (hm : ∀ s ∈ made, ∀ x ∈ s.toList, held x) :
      Reached (K.sequences wordHash) fun x => x.sequence ∈ made

/-- JSON values that hold something which is no element where one is needed. -/
inductive Spoiled : JsonKind → Json → Prop where
  | here (h : K.read item = none) : Spoiled K item
  | inside (h : Spoiled K item) (wordHash : UInt32 → UInt64) (hi : item ∈ items) :
      Spoiled (K.sequences wordHash) (.array items)

theorem Spoiled.read_eq_none {K : JsonKind} {item : Json} (h : K.Spoiled item) :
    K.read item = none := by
  induction h with
  | here h => exact h
  | inside _ _ hi ih => exact mapM_eq_none_iff.mpr ⟨_, hi, ih⟩

section

variable {K : JsonKind} {held : K.Element → Prop} {store : Store} {made : List (Sequence K.Element)}
  {s t : Sequence K.Element} {xs ys : List K.Element}

theorem Honest.values_of_beq (hK : K.Honest held) (hx : ∀ x ∈ xs, held x) (hy : ∀ y ∈ ys, held y)
    (h : (xs == ys) = true) : xs.map K.value = ys.map K.value := by
  have hall := forall₂_of_members hx hy (list_beq_iff_forall₂.mp h)
  exact map_eq_iff_forall₂.mpr (hall.imp fun x y h => hK.value_of_beq h.1 h.2.1 h.2.2)

variable (hK : K.Honest held) (run : Run (some K.hash) store made)
  (hm : ∀ s ∈ made, ∀ x ∈ s.toList, held x)

include hK run hm

theorem Honest.formedSequence (hs : s ∈ made) : K.FormedSequence s :=
  ⟨run.wellFormed hs, fun x hx => hK.formed (hm s hs x hx)⟩

theorem Honest.beq_iff_values (hs : s ∈ made) (ht : t ∈ made) :
    (s == t) = true ↔ K.values s = K.values t := by
  have hfs := hK.formedSequence run hm hs
  have hft := hK.formedSequence run hm ht
  apply Iff.intro _ (hfs.beq_of_values hft)
  intro h
  obtain ⟨owners, -, hsound⟩ := run.sound
  rw [hfs.wellFormed.beq_eq_shortcuts hft.wellFormed] at h
  rcases Bool.or_eq_true_iff.mp h with hi | h
  · rw [(hsound s hs).owned.eq_of_cell (hsound t ht).owned (eq_of_beq hi)]
  · exact hK.values_of_beq (hm s hs) (hm t ht) (Bool.and_eq_true_iff.mp h).2

theorem Honest.sequences (wordHash : UInt32 → UInt64) :
    (K.sequences wordHash).Honest fun x => x.sequence ∈ made where
  formed hx := hK.formedSequence run hm hx
  value_of_beq {x y} hx hy h := by
    rw [HashedSequence.beq_eq] at h
    exact (hK.beq_iff_values run hm hx hy).mp h

/-- The text shows the values and nothing else. -/
theorem Honest.print_eq_iff {format : JsonFormat} (hf : format.Faithful (K.depth + 1))
    (hs : s ∈ made) (ht : t ∈ made) :
    format.print (toJson s) = format.print (toJson t) ↔ (s == t) = true := by
  rw [hK.beq_iff_values run hm hs ht, (hK.formedSequence run hm hs).toJson_eq,
    (hK.formedSequence run hm ht).toJson_eq]
  constructor
  · intro h
    exact K.writeSequence_injective
      (hf.eq_of_print_eq (K.nests_writeSequence _) (K.nests_writeSequence _) h)
  · intro h
    rw [h]

theorem Honest.reads_back {format : JsonFormat} (hf : format.Faithful (K.depth + 1))
    (hs : s ∈ made) :
    ∃ json t later, format.parse (format.print (toJson s)) = some json ∧
      (ofJson json).run.run store = (.ok t, later) ∧
      ((t == s) = true ∧ ((t.equals s).run later).1 = true) ∧ t.isCompact = true := by
  have hfs := hK.formedSequence run hm hs
  have hread : K.readSequence (toJson s) = some (K.values s) := by
    rw [hfs.toJson_eq, readSequence_writeSequence]
  obtain ⟨xs, cells, ⟨hxs, hv⟩, hr⟩ := readSequence_run hread store
  obtain ⟨owners, hc, hsound⟩ := run.sound
  obtain ⟨later, he, hc, ht, htl⟩ := makes_ofList xs _ (hc.extend_iterate cells)
  have hft : K.FormedSequence ((ofList xs).run (Store.extend^[cells] store)).1 :=
    (formedSequence_ofList hxs _).1
  have hb : (((ofList xs).run (Store.extend^[cells] store)).1 == s) = true := by
    apply hft.beq_of_values hfs
    rw [values, htl, hv]
  have hse := (hsound s hs).extend ((List.prefix_append _ _).trans he)
  obtain ⟨-, -, -, hq⟩ := ht.equals_eq_beq hse _ hc
  refine ⟨_, _, _, ?_, hr, ⟨hb, hq.trans hb⟩, isCompact_ofList xs _⟩
  rw [hfs.toJson_eq]
  exact hf.parse_print (K.nests_writeSequence _) (Nat.le_refl _)

end

theorem Reached.honest {K : JsonKind} {held : K.Element → Prop} (h : K.Reached held) :
    K.Honest held := by
  induction h with
  | scalars => exact ⟨fun _ => trivial, fun _ _ h => eq_of_beq h⟩
  | sequences _ wordHash run hm ih => exact ih.sequences run hm wordHash

section

variable {K : JsonKind} {now : Store}

theorem exists_gives_iff {item : Json} :
    (∃ x, Gives (ofJson item : ExceptT DecodeError StoreM K.Element) now x) ↔
      ∃ v, K.read item = some v := by
  constructor
  · rintro ⟨x, hx⟩
    cases hr : K.read item with
    | none => exact absurd hx (K.fails hr).not_gives
    | some v => exact ⟨v, rfl⟩
  · rintro ⟨v, hv⟩
    obtain ⟨x, hx, -⟩ := (K.succeeds hv).gives now
    exact ⟨x, hx⟩

theorem values_of_gives {json : Json} {t : Sequence K.Element} (h : Gives (ofJson json) now t) :
    K.readSequence json = some (K.values t) := by
  cases hr : K.readSequence json with
  | none => exact absurd h (fails_sequence hr).not_gives
  | some vs => rw [((succeeds_sequence hr).of_gives h).2]

theorem array_gives_iff {json : Json} :
    (∃ t : Sequence K.Element, Gives (ofJson json) now t) ↔
      ∃ items, json = .array items ∧
        ∀ item ∈ items, ∃ x : K.Element, Gives (ofJson item) now x := by
  constructor
  · rintro ⟨t, ht⟩
    have hr := values_of_gives ht
    cases json with
    | array items =>
      refine ⟨items, rfl, ?_⟩
      intro item hi
      apply exists_gives_iff.mpr
      cases hv : K.read item with
      | none => cases hr.symm.trans (mapM_eq_none_iff.mpr ⟨item, hi, hv⟩)
      | some v => exact ⟨v, rfl⟩
    | null | bool | integer | float | string | object => cases hr
  · rintro ⟨items, rfl, hall⟩
    cases hr : K.readSequence (.array items) with
    | none =>
      obtain ⟨item, hi, hn⟩ := mapM_eq_none_iff.mp hr
      obtain ⟨v, hv⟩ := exists_gives_iff.mp (hall item hi)
      cases hn.symm.trans hv
    | some vs =>
      obtain ⟨t, ht, -⟩ := (succeeds_sequence hr).gives now
      exact ⟨t, ht⟩

theorem items_of_gives {items : List Json} {t : Sequence K.Element}
    (h : Gives (ofJson (.array items)) now t) :
    List.Forall₂ (fun item x => K.read item = some (K.value x)) items t.toList := by
  have hall := mapM_eq_some_iff.mp (values_of_gives h)
  rwa [values, List.forall₂_map_right_iff] at hall

end

/-- Over elements that are written as scalars, and over sequences of such elements as deep as the
text format goes, the text of a sequence of a run is read as a compact leaf equal to it, and
sequences have one text exactly if they are equal. A JSON value is read exactly if it is an array
whose items are all read, and the elements are those of the items in order; one item that is
spoiled, at any depth, makes it an error. -/
theorem Reached.json_round_trip {K : JsonKind} {held : K.Element → Prop} (h : K.Reached held)
    {store : Store} {made : List (Sequence K.Element)} (run : Run (some K.hash) store made)
    (hm : ∀ s ∈ made, ∀ x ∈ s.toList, held x) {format : JsonFormat}
    (hf : format.Faithful (K.depth + 1)) :
    (∀ s ∈ made, ∃ json t later, format.parse (format.print (toJson s)) = some json ∧
        (ofJson json).run.run store = (.ok t, later) ∧
        ((t == s) = true ∧ ((t.equals s).run later).1 = true) ∧ t.isCompact = true) ∧
      (∀ s ∈ made, ∀ t ∈ made,
        (format.print (toJson s) = format.print (toJson t) ↔ (s == t) = true) ∧
          ((s.equals t).run store).1 = (s == t)) ∧
      (∀ json now, (∃ t : Sequence K.Element, Gives (ofJson json) now t) ↔
        ∃ items, json = .array items ∧
          ∀ item ∈ items, ∃ x : K.Element, Gives (ofJson item) now x) ∧
      (∀ items now, ∀ t : Sequence K.Element, Gives (ofJson (.array items)) now t →
        List.Forall₂ (fun item x => K.read item = some (K.value x)) items t.toList) ∧
      ∀ items, ∀ item ∈ items, K.Spoiled item →
        Fails (ofJson (.array items) : ExceptT DecodeError StoreM (Sequence K.Element)) := by
  have hK : K.Honest held := h.honest
  refine ⟨fun s hs => hK.reads_back run hm hf hs, ?_, fun json now => array_gives_iff,
    fun items now t => items_of_gives, ?_⟩
  · intro s hs t ht
    exact ⟨hK.print_eq_iff run hm hf hs ht, run.equals_eq_beq hs ht⟩
  · intro items item hi hb
    exact fails_sequence (mapM_eq_none_iff.mpr ⟨item, hi, hb.read_eq_none⟩)

abbrev numbers : JsonKind :=
  scalars Int64 .int64 ScalarCodec.int64_faithful

/-- The kinds of numbers, characters and strings. -/
def scalarKinds : List JsonKind :=
  [numbers, scalars Int32 .int32 ScalarCodec.int32_faithful,
    scalars UInt8 .byte ScalarCodec.byte_faithful,
    scalars Char .character ScalarCodec.character_faithful,
    scalars String .text ScalarCodec.text_faithful]

theorem reached_of_mem_scalarKinds {K : JsonKind} (h : K ∈ scalarKinds) :
    K.Reached fun _ => True := by
  simp only [scalarKinds, List.mem_cons, List.not_mem_nil, or_false] at h
  rcases h with rfl | rfl | rfl | rfl | rfl
  · exact .scalars _ ScalarCodec.int64_faithful
  · exact .scalars _ ScalarCodec.int32_faithful
  · exact .scalars _ ScalarCodec.byte_faithful
  · exact .scalars _ ScalarCodec.character_faithful
  · exact .scalars _ ScalarCodec.text_faithful

def fives : Sequence numbers.Element :=
  .run 0 5 2

def buffered : Sequence numbers.Element :=
  .flat 1 #[5, 5] 0 2

theorem run_fives : Run (some numbers.hash) ⟨#[0, 0]⟩ [buffered, fives] := by
  have h₁ : Run (some numbers.hash) ⟨#[0]⟩ [fives] := Run.start.step (.replicate 2 5) rfl
  exact h₁.step (.ofArray #[5, 5]) rfl

abbrev sequencesOfNumbers : JsonKind :=
  numbers.sequences WordHash.ofUInt32

/-- Sequences of both, with different trees. -/
def copies : Sequence sequencesOfNumbers.Element :=
  .run 0 fives.hashed 2

def pair : Sequence sequencesOfNumbers.Element :=
  .flat 1 #[fives.hashed, buffered.hashed] 0 2

def mixed : Sequence sequencesOfNumbers.Element :=
  .reversed 2 pair

theorem run_mixed : Run (some sequencesOfNumbers.hash) ⟨#[0, 0, 0]⟩ [mixed, pair, copies] := by
  have h₁ : Run (some sequencesOfNumbers.hash) ⟨#[0]⟩ [copies] :=
    Run.start.step (.replicate 2 fives.hashed) rfl
  have h₂ := h₁.step (.ofArray #[fives.hashed, buffered.hashed]) rfl
  exact h₂.step (.reverse (.head _)) rfl

theorem json_round_trip_fives :
    (mixed == copies) = true ∧
      (∃ json t later, Json.compact.parse "[[5,5],[5,5]]" = some json ∧
        (ofJson json).run.run ⟨#[0, 0, 0]⟩ = (.ok t, later) ∧
        ((t == mixed) = true ∧ ((t.equals mixed).run later).1 = true) ∧ t.isCompact = true) ∧
      Fails (ofJson (.array [.array [], .array [.integer 5, .bool true]]) :
        ExceptT DecodeError StoreM (Sequence sequencesOfNumbers.Element)) := by
  have hnested : sequencesOfNumbers.Reached fun x => x.sequence ∈ [buffered, fives] :=
    .sequences (reached_of_mem_scalarKinds (.head _)) _ run_fives fun _ _ _ _ => trivial
  have hheld : ∀ s ∈ [mixed, pair, copies], ∀ x ∈ s.toList, x.sequence ∈ [buffered, fives] := by
    simp [mixed, pair, copies, Sequence.toList, Sequence.hashed]
  obtain ⟨hback, htext, -, -, hbad⟩ :=
    hnested.json_round_trip run_mixed hheld (Json.compact_faithful (by decide))
  have hmixed : Json.compact.print (toJson mixed) = "[[5,5],[5,5]]" := rfl
  have hcopies : Json.compact.print (toJson copies) = "[[5,5],[5,5]]" := rfl
  have hmem : copies ∈ [mixed, pair, copies] := .tail _ (.tail _ (.head _))
  refine ⟨(htext _ (.head _) _ hmem).1.mp (hmixed.trans hcopies.symm), ?_, ?_⟩
  · rw [← hmixed]
    exact hback mixed (.head _)
  · exact hbad _ _ (.tail _ (.head _)) (.inside (.here rfl) _ (.tail _ (.head _)))

end JsonKind

end SharedSequence
