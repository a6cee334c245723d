import SharedSequence.Proofs.Indexing
import SharedSequence.Proofs.MapCommands

namespace SharedSequence

open Sequence

section

variable {α : Type} [BEq α] {hashing : Option (ElementHash α)} {s : Sequence α}

/-- Operations make the sequence out of such sequences, whatever else happens to the store. -/
inductive Formed (hashing : Option (ElementHash α)) : Sequence α → Prop where
  | make {made : List (Sequence α)} {make : StoreM (Sequence α)}
      (h : ∀ s ∈ made, Formed hashing s) (hm : Operation hashing made make) (store : Store) :
      Formed hashing (make.run store).1

theorem Formed.wellFormed (h : Formed hashing s) : s.WellFormed hashing := by
  induction h with
  | make _ hm store ih => exact kept_wellFormed.keptIf.operation hm ih store trivial

theorem Run.formed {store : Store} {made : List (Sequence α)} (h : Run hashing store made) :
    ∀ s ∈ made, Formed hashing s := by
  induction h with
  | start => exact fun s hs => nomatch hs
  | make h hm ih => exact List.forall_mem_cons.mpr ⟨.make ih hm _, ih⟩
  | hashCode _ _ _ ih | equals _ _ _ _ ih => exact ih

theorem Sequence.WellFormed.firstIn_all (h : s.WellFormed hashing) (hh : HashAgrees hashing)
    (value : α) :
    FirstIn (s.holds value) 0 s.length (s.findWindow value 0 s.length .forward) ∧
      (s.contains value = true ↔ ∃ x ∈ s.toList, (x == value) = true) := by
  have hf := h.findWindow_eq hh value (Nat.le_of_eq (Nat.zero_add s.length)) .forward
  constructor
  · have hs := firstIn_scan (s.holds value) 0 s.length
    rw [Nat.zero_add] at hs
    rw [hf]
    exact hs
  · rw [contains, hf, scan_isSome, Nat.zero_add]
    simp only [holds, h.get?_eq, Option.any_eq_true, List.mem_iff_getElem?]
    constructor
    · rintro ⟨p, -, -, x, hx, he⟩
      exact ⟨x, ⟨p, hx⟩, he⟩
    · rintro ⟨x, ⟨p, hx⟩, he⟩
      have hp : p < s.toList.length := (List.getElem?_eq_some_iff.mp hx).1
      rw [h.length_toList] at hp
      exact ⟨p, Nat.zero_le p, hp, x, hx, he⟩

/-- A compaction of the elements of a list. -/
structure CompactedFrom (hashing : Option (ElementHash α)) (items : List α) (s : Sequence α) :
    Prop where
  wellFormed : s.WellFormed hashing
  source : ∃ t : Sequence α, t.WellFormed hashing ∧ t.toList = items ∧ t.Compacts s

variable {items : List α}

theorem CompactedFrom.length_eq (h : CompactedFrom hashing items s) :
    s.length = items.length := by
  obtain ⟨t, ht, rfl, he | ⟨value, -, he⟩⟩ := h.source
  · rw [← h.wellFormed.length_toList, he]
  · rw [← h.wellFormed.length_toList, he, List.length_replicate, ht.length_toList]

/-- The common value is equal to every element that it stands for. -/
theorem CompactedFrom.toList_beq [EquivBEq α] (h : CompactedFrom hashing items s) :
    (s.toList == items) = true := by
  obtain ⟨t, ht, rfl, he | ⟨value, hv, he⟩⟩ := h.source
  · rw [he]
    exact BEq.rfl
  · obtain ⟨hu, hg⟩ := commonValue?_eq_some hv
    rw [ht.get?_eq] at hg
    apply list_beq_iff.mpr
    refine ⟨by rw [he, List.length_replicate, ht.length_toList], ?_⟩
    intro i x y hx hy
    rw [he] at hx
    rw [List.eq_of_mem_replicate (List.mem_of_getElem? hx)]
    exact ht.isUniform_iff_toList.mp hu _ (List.mem_of_getElem? hg) _ (List.mem_of_getElem? hy)

theorem yields_compactFlat (items : List α) :
    Yields (do (← ofList items).compactFlat) (CompactedFrom hashing items) := by
  have hb (owners : Owners α) : Builds hashing owners (do (← ofList items).compactFlat)
      fun _ s => CompactedFrom hashing items s := by
    refine .bind (makes_ofList items) ?_
    rintro later s - ⟨hs, he⟩
    apply hs.compactFlat.mono
    rintro last t - ⟨ht, hc⟩
    exact ⟨ht.wellFormed, s, hs.wellFormed, he, hc⟩
  exact yields_of_builds hb

theorem yields_compact [hash : ElementHash α] (hh : hash ∈ hashing) (items : List α) :
    Yields (do (← ofList items).compact true) fun s =>
      CompactedFrom hashing items s ∧ s.isIndexed = true := by
  have hb (owners : Owners α) : Builds hashing owners (do (← ofList items).compact true)
      fun _ s => CompactedFrom hashing items s := by
    refine .bind (makes_ofList items) ?_
    rintro later s - ⟨hs, he⟩
    apply (hs.compact hh true).mono
    rintro last t - ⟨ht, hc⟩
    exact ⟨ht.wellFormed, s, hs.wellFormed, he, hc⟩
  have hi : Yields (do (← ofList items).compact true) fun s => s.isIndexed = true :=
    .bind_any fun s => .bind (isIndexed_index s) fun done hd => .pure hd
  exact (yields_of_builds hb).and hi

end

/-- The ways to a map. -/
inductive SequenceMap.Obtained : {κ ν : Type} → [BEq κ] → [BEq ν] → Option (ElementHash κ) →
    Option (ElementHash ν) → SequenceMap κ ν → Prop where
  | pair {κ ν : Type} [BEq κ] [BEq ν] {hκ : Option (ElementHash κ)} {hν : Option (ElementHash ν)}
      {keys : Sequence κ} {values : Sequence ν} {map : SequenceMap κ ν} (hk : Formed hκ keys)
      (hv : Formed hν values) (h : SequenceMap.pair keys values = .ok map) : Obtained hκ hν map
  | ofEntries {κ ν : Type} [BEq κ] [BEq ν] [hash : ElementHash κ]
      {hκ : Option (ElementHash κ)} {hν : Option (ElementHash ν)} (hh : hash ∈ hκ)
      (entries : List (κ × ν)) (store : Store) :
      Obtained hκ hν ((SequenceMap.ofEntries entries).run store).1
  | toMap {α σ : Type} [BEq α] [BEq σ] {hα : Option (ElementHash α)} {hσ : Option (ElementHash σ)}
      {held : σ → Sequence α} {s : Sequence σ} {map : SequenceMap α α} (hs : Formed hσ s)
      (hp : ∀ part ∈ s.toList, Formed hα (held part)) (h : s.toMapBy held = .ok map) :
      Obtained hα hα map
  | clone {κ ν : Type} [BEq κ] [BEq ν] {hκ : Option (ElementHash κ)}
      {hν : Option (ElementHash ν)} {map : SequenceMap κ ν} (h : Obtained hκ hν map) :
      Obtained hκ hν ⟨map.keys, map.values⟩

namespace SequenceMap

variable {κ ν : Type} {keys : Sequence κ} {values : Sequence ν} {map : SequenceMap κ ν}

theorem pair_eq_ok_iff :
    pair keys values = .ok map ↔ keys.length = values.length ∧ map = ⟨keys, values⟩ := by
  rw [pair]
  split
  · rename_i hl
    simp [hl, eq_comm]
  · rename_i hl
    simp [hl]

theorem pair_eq_error (h : keys.length ≠ values.length) :
    pair keys values = .error (.invalidArgument .mapLengthsDiffer) :=
  if_neg h

theorem toMapBy_eq_pair {σ α : Type} [BEq σ] {hσ : Option (ElementHash σ)}
    {held : σ → Sequence α} {s : Sequence σ} {first second : σ} (hs : s.WellFormed hσ)
    (hl : s.toList = [first, second]) : s.toMapBy held = pair (held first) (held second) := by
  rw [ElementKind.toMapBy_eq held hs, hl]

theorem toMapBy_eq_error {σ α : Type} [BEq σ] {hσ : Option (ElementHash σ)}
    {held : σ → Sequence α} {s : Sequence σ} (hs : s.WellFormed hσ) (hl : s.toList.length ≠ 2) :
    s.toMapBy held = .error (.invalidArgument .mapEncodingShape) := by
  rw [ElementKind.toMapBy_eq held hs]
  split
  · rename_i first second he
    rw [he] at hl
    exact absurd rfl hl
  · rfl

variable [BEq κ] [BEq ν] {hκ : Option (ElementHash κ)} {hν : Option (ElementHash ν)}

/-- As many values as keys, in well-formed trees. -/
structure WellFormed (hκ : Option (ElementHash κ)) (hν : Option (ElementHash ν))
    (map : SequenceMap κ ν) : Prop where
  keys : map.keys.WellFormed hκ
  values : map.values.WellFormed hν
  length_eq : map.keys.length = map.values.length

/-- The keys and the values are compactions of those of the entries, the keys with an index. -/
structure CompactedParts (hκ : Option (ElementHash κ)) (hν : Option (ElementHash ν))
    (entries : List (κ × ν)) (map : SequenceMap κ ν) : Prop where
  keys : CompactedFrom hκ (entries.map Prod.fst) map.keys
  isIndexed : map.keys.isIndexed = true
  values : CompactedFrom hν (entries.map Prod.snd) map.values

theorem yields_ofEntries [hash : ElementHash κ] (hh : hash ∈ hκ) (entries : List (κ × ν)) :
    Yields (ofEntries entries) (CompactedParts hκ hν entries) := by
  have he : ofEntries entries = (do
      let keys ← (do (← Sequence.ofList (entries.map Prod.fst)).compact true)
      let values ← (do (← Sequence.ofList (entries.map Prod.snd)).compactFlat)
      return { keys, values }) := by
    rw [ofEntries, List.unzip_eq_map]
    simp only [bind_assoc]
  rw [he]
  refine .bind (yields_compact hh (entries.map Prod.fst)) ?_
  intro keys hk
  have hvs : Yields (do (← Sequence.ofList (entries.map Prod.snd)).compactFlat)
      (CompactedFrom hν (entries.map Prod.snd)) := yields_compactFlat _
  refine .bind hvs ?_
  intro values hv
  exact .pure ⟨hk.1, hk.2, hv⟩

theorem CompactedParts.wellFormed {entries : List (κ × ν)}
    (h : CompactedParts hκ hν entries map) : map.WellFormed hκ hν := by
  refine ⟨h.keys.wellFormed, h.values.wellFormed, ?_⟩
  rw [h.keys.length_eq, h.values.length_eq, List.length_map, List.length_map]

theorem Obtained.wellFormed (h : Obtained hκ hν map) : map.WellFormed hκ hν := by
  induction h with
  | pair hk hv h =>
    obtain ⟨hl, rfl⟩ := pair_eq_ok_iff.mp h
    exact ⟨hk.wellFormed, hv.wellFormed, hl⟩
  | ofEntries hh entries store =>
    exact CompactedParts.wellFormed (yields_ofEntries hh entries store)
  | toMap hs hp h =>
    rw [ElementKind.toMapBy_eq _ hs.wellFormed] at h
    split at h
    · rename_i first second hl
      rw [hl] at hp
      obtain ⟨he, rfl⟩ := pair_eq_ok_iff.mp h
      exact ⟨(hp first (.head _)).wellFormed, (hp second (.tail _ (.head _))).wellFormed, he⟩
    · cases h
  | clone _ ih => exact ⟨ih.keys, ih.values, ih.length_eq⟩

theorem WellFormed.entries_eq (h : map.WellFormed hκ hν) :
    map.entries = map.keys.toList.zip map.values.toList :=
  h.keys.pending_cursor.zipWithin_eq h.values.pending_cursor (Nat.le_of_eq h.keys.length_toList)

omit [BEq ν] in
theorem get?_eq_bind (map : SequenceMap κ ν) (key : κ) :
    map.get? key = (map.keys.findWindow key 0 map.length .forward).bind map.values.get? := by
  rw [get?]
  cases map.keys.findWindow key 0 map.length .forward with
  | none => rfl
  | some p => rfl

theorem WellFormed.containsKey_eq (h : map.WellFormed hκ hν) (hh : HashAgrees hκ) (key : κ) :
    map.containsKey key = (map.get? key).isSome := by
  obtain ⟨hf, -⟩ := h.keys.firstIn_all hh key
  rw [get?_eq_bind, length, containsKey, contains]
  generalize map.keys.findWindow key 0 map.keys.length .forward = found at hf
  cases found with
  | none => rfl
  | some p =>
    obtain ⟨-, hp, -⟩ := hf
    rw [h.length_eq, ← h.values.length_toList] at hp
    rw [Option.bind_some, h.values.get?_eq, List.getElem?_eq_getElem hp]
    rfl

theorem WellFormed.get?_eq_none_iff (h : map.WellFormed hκ hν) (hh : HashAgrees hκ) (key : κ) :
    map.get? key = none ↔ ∀ x ∈ map.keys.toList, (x == key) = false := by
  obtain ⟨-, hc⟩ := h.keys.firstIn_all hh key
  rw [← Option.not_isSome_iff_eq_none, ← h.containsKey_eq hh, containsKey, hc]
  simp

omit [BEq ν] in
/-- The first entry with a key stands at the first position of the key. -/
theorem find?_zip_eq_some {ks : List κ} {vs : List ν} {key k : κ} {v : ν} {p : Nat}
    (hk : ks[p]? = some k) (hv : vs[p]? = some v) (ht : (k == key) = true)
    (hb : ∀ q, q < p → ∀ x, ks[q]? = some x → (x == key) = false) :
    (ks.zip vs).find? (fun entry => entry.1 == key) = some (k, v) := by
  induction ks generalizing vs p with
  | nil => cases hk
  | cons x ks ih =>
    cases vs with
    | nil => cases hv
    | cons y vs =>
      rw [List.zip_cons_cons, List.find?_cons]
      cases p with
      | zero =>
        cases hk
        cases hv
        rw [ht]
      | succ p =>
        rw [hb 0 (Nat.succ_pos p) x rfl]
        exact ih hk hv fun q hq => hb (q + 1) (Nat.succ_lt_succ hq)

theorem WellFormed.get?_eq_find? (h : map.WellFormed hκ hν) (hh : HashAgrees hκ) (key : κ) :
    map.get? key = (map.entries.find? fun entry => entry.1 == key).map Prod.snd := by
  rw [h.entries_eq]
  cases hg : map.get? key with
  | none =>
    have hn := (h.get?_eq_none_iff hh key).mp hg
    rw [List.find?_eq_none.mpr, Option.map_none]
    intro entry he
    rw [hn entry.1 (List.of_mem_zip he).1]
    exact Bool.false_ne_true
  | some v =>
    obtain ⟨hf, -⟩ := h.keys.firstIn_all hh key
    rw [get?_eq_bind, Option.bind_eq_some_iff] at hg
    obtain ⟨p, hp, hv⟩ := hg
    rw [length] at hp
    rw [hp] at hf
    obtain ⟨-, -, ht, hbefore⟩ := hf
    obtain ⟨k, hk, ht⟩ := (Option.any_eq_true _ _).mp ht
    rw [h.keys.get?_eq] at hk
    rw [h.values.get?_eq] at hv
    rw [find?_zip_eq_some hk hv ht, Option.map_some]
    intro q hq x hx
    have hb := hbefore q (Nat.zero_le q) hq
    rwa [holds, h.keys.get?_eq, hx] at hb

theorem find?_beq [EquivBEq κ] [EquivBEq ν] (key : κ) {xs ys : List (κ × ν)}
    (h : (xs == ys) = true) :
    ((xs.find? fun entry => entry.1 == key).map Prod.snd ==
      (ys.find? fun entry => entry.1 == key).map Prod.snd) = true := by
  have hall := list_beq_iff_forall₂.mp h
  clear h
  induction hall with
  | nil => rfl
  | @cons x y xs ys hxy _ ih =>
    have hxy' : (x.1 == y.1 && x.2 == y.2) = true := hxy
    obtain ⟨hk, hv⟩ := Bool.and_eq_true_iff.mp hxy'
    rw [List.find?_cons, List.find?_cons, BEq.congr_left hk]
    cases y.1 == key with
    | true => exact hv
    | false => exact ih

theorem zip_beq {ks : List κ} {vs : List ν} {entries : List (κ × ν)}
    (hk : (ks == entries.map Prod.fst) = true) (hv : (vs == entries.map Prod.snd) = true) :
    (ks.zip vs == entries) = true := by
  rw [list_beq_iff_forall₂, List.forall₂_map_right_iff] at hk hv
  rw [list_beq_iff_forall₂]
  induction hk generalizing vs with
  | nil => exact .nil
  | cons hk _ ih =>
    cases hv with
    | cons hv hvs => exact .cons (Bool.and_eq_true_iff.mpr ⟨hk, hv⟩) (ih hvs)

/-- The first entry with a key counts, and all questions agree on it. -/
structure FirstMatch (map : SequenceMap κ ν) : Prop where
  length_eq : map.keys.length = map.values.length
  get (key : κ) : ∃ found, FirstIn (map.keys.holds key) 0 map.length found ∧
    map.get? key = found.bind map.values.get?
  get_eq_none (key : κ) : map.get? key = none ↔ ∀ x ∈ map.keys.toList, (x == key) = false
  containsKey (key : κ) : map.containsKey key = (map.get? key).isSome
  containsValue (value : ν) :
    map.containsValue value = true ↔ ∃ x ∈ map.values.toList, (x == value) = true

structure Represents (map : SequenceMap κ ν) (entries : List (κ × ν)) : Prop where
  entries_beq : (map.entries == entries) = true
  isIndexed : map.keys.isIndexed = true
  get_beq (key : κ) :
    (map.get? key == (entries.find? fun entry => entry.1 == key).map Prod.snd) = true

theorem WellFormed.firstMatch (h : map.WellFormed hκ hν) (hk : HashAgrees hκ)
    (hv : HashAgrees hν) : map.FirstMatch where
  length_eq := h.length_eq
  get key := ⟨_, (h.keys.firstIn_all hk key).1, get?_eq_bind map key⟩
  get_eq_none := h.get?_eq_none_iff hk
  containsKey := h.containsKey_eq hk
  containsValue value := (h.values.firstIn_all hv value).2

theorem CompactedParts.represents [EquivBEq κ] [EquivBEq ν] {entries : List (κ × ν)}
    (h : CompactedParts hκ hν entries map) (hk : HashAgrees hκ) : map.Represents entries := by
  have hw := h.wellFormed
  have he := zip_beq h.keys.toList_beq h.values.toList_beq
  rw [← hw.entries_eq] at he
  refine ⟨he, h.isIndexed, ?_⟩
  intro key
  rw [hw.get?_eq_find? hk]
  exact find?_beq key he

/-- Where equal elements have one hash, every map that is obtained looks up the first match; keys
and values of different lengths are rejected, paired or read from a sequence; and over lawful
elements a map of entries stands for these entries. -/
theorem lookup_first_match (hk : HashAgrees hκ) (hv : HashAgrees hν) :
    (∀ map : SequenceMap κ ν, Obtained hκ hν map → map.FirstMatch) ∧
      (∀ (keys : Sequence κ) (values : Sequence ν),
        (keys.length = values.length → pair keys values = .ok ⟨keys, values⟩) ∧
          (keys.length ≠ values.length →
            pair keys values = .error (.invalidArgument .mapLengthsDiffer))) ∧
      (∀ (σ : Type) [BEq σ] (hσ : Option (ElementHash σ)) (held : σ → Sequence κ)
        (s : Sequence σ), Formed hσ s →
        (∀ first second, s.toList = [first, second] →
          s.toMapBy held = pair (held first) (held second)) ∧
          (s.toList.length ≠ 2 → s.toMapBy held = .error (.invalidArgument .mapEncodingShape))) ∧
      ∀ [hash : ElementHash κ] [EquivBEq κ] [EquivBEq ν], hash ∈ hκ → ∀ (entries : List (κ × ν))
        (store : Store), ((ofEntries entries).run store).1.Represents entries := by
  refine ⟨?_, ?_, ?_, ?_⟩
  · intro map h
    exact h.wellFormed.firstMatch hk hv
  · intro keys values
    exact ⟨fun he => pair_eq_ok_iff.mpr ⟨he, rfl⟩, pair_eq_error⟩
  · intro σ _ hσ held s hs
    exact ⟨fun first second hl => toMapBy_eq_pair hs.wellFormed hl,
      toMapBy_eq_error hs.wellFormed⟩
  · intro hash _ _ hh entries store
    have hp : CompactedParts hκ hν entries ((ofEntries entries).run store).1 :=
      yields_ofEntries hh entries store
    exact hp.represents hk

/-- Two entries with equal keys, an entry between them, and keys that do not fit the values. -/
theorem lookup_first_match_residues :
    ∃ map : SequenceMap ElementType.Residue Nat,
      ((ofEntries [(⟨1⟩, 10), (⟨4⟩, 20), (⟨3⟩, 30)]).run {}).1 = map ∧
        map.FirstMatch ∧ map.keys.isIndexed = true ∧
        (map.entries == [(⟨1⟩, 10), (⟨4⟩, 20), (⟨3⟩, 30)]) = true ∧
        map.get? ⟨7⟩ = some 10 ∧ map.containsKey ⟨7⟩ = true ∧
        pair map.keys (.run 0 5 2) = .error (.invalidArgument .mapLengthsDiffer) := by
  have : EquivBEq ElementType.Residue := ElementType.lawful_residues.equiv
  have hv : HashAgrees (none : Option (ElementHash Nat)) := nofun
  obtain ⟨hm, hp, -, he⟩ := lookup_first_match ElementType.lawful_residues.hash_eq hv
  have hr := he (Option.mem_some_self _) [(⟨1⟩, 10), (⟨4⟩, 20), (⟨3⟩, 30)] {}
  have hf := hm _ (.ofEntries (Option.mem_some_self _) [(⟨1⟩, 10), (⟨4⟩, 20), (⟨3⟩, 30)] {})
  have hg := eq_of_beq (hr.get_beq ⟨7⟩)
  refine ⟨_, rfl, hf, hr.isIndexed, hr.entries_beq, hg, ?_, (hp _ _).2 nofun⟩
  rw [hf.containsKey, hg]
  rfl

end SequenceMap

end SharedSequence
