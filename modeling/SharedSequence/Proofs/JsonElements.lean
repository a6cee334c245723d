import Mathlib.Logic.Function.Iterate
import SharedSequence.Json.Element
import SharedSequence.Proofs.ElementKind

namespace SharedSequence

open Sequence

variable {α β γ : Type}

/-- From every store the reading gives a result with the property, and takes cells at most. -/
def Succeeds (reading : ExceptT DecodeError StoreM β) (P : β → Prop) : Prop :=
  ∀ store, ∃ b cells, reading.run.run store = (.ok b, Store.extend^[cells] store) ∧ P b

def Gives (reading : ExceptT DecodeError StoreM β) (now : Store) (b : β) : Prop :=
  ∃ later, reading.run.run now = (.ok b, later)

def Fails (reading : ExceptT DecodeError StoreM β) : Prop :=
  ∀ store, ∃ e later, reading.run.run store = (.error e, later)

section

variable {reading : ExceptT DecodeError StoreM β} {next : β → ExceptT DecodeError StoreM γ}
  {P : β → Prop} {Q : γ → Prop}

theorem Succeeds.pure {b : β} (h : P b) : Succeeds (Pure.pure b) P :=
  fun _ => ⟨b, 0, rfl, h⟩

theorem Succeeds.bind (h : Succeeds reading P) (hn : ∀ b, P b → Succeeds (next b) Q) :
    Succeeds (reading >>= next) Q := by
  intro store
  obtain ⟨b, cells, hr, hb⟩ := h store
  obtain ⟨c, more, hr', hc⟩ := hn b hb (Store.extend^[cells] store)
  refine ⟨c, more + cells, ?_, hc⟩
  rw [run_bind_ok hr, hr', Function.iterate_add_apply]

theorem Succeeds.gives (h : Succeeds reading P) (now : Store) : ∃ b, Gives reading now b ∧ P b := by
  obtain ⟨b, cells, hr, hb⟩ := h now
  exact ⟨b, ⟨_, hr⟩, hb⟩

theorem Succeeds.of_gives {now : Store} {b : β} (h : Succeeds reading P)
    (hg : Gives reading now b) : P b := by
  obtain ⟨c, cells, hr, hc⟩ := h now
  obtain ⟨later, hg⟩ := hg
  cases hr.symm.trans hg
  exact hc

theorem Fails.not_gives {now : Store} {b : β} (h : Fails reading) : ¬Gives reading now b := by
  rintro ⟨later, hg⟩
  obtain ⟨e, after, hr⟩ := h now
  cases hr.symm.trans hg

theorem Succeeds.then_fails (h : Succeeds reading P) (hn : ∀ b, P b → Fails (next b)) :
    Fails (reading >>= next) := by
  intro store
  obtain ⟨b, cells, hr, hb⟩ := h store
  rw [run_bind_ok hr]
  exact hn b hb _

theorem Fails.throw (e : DecodeError) : Fails (throw e : ExceptT DecodeError StoreM β) :=
  fun store => ⟨e, store, rfl⟩

theorem Fails.bind (h : Fails reading) : Fails (reading >>= next) := by
  intro store
  obtain ⟨e, later, hr⟩ := h store
  refine ⟨e, later, ?_⟩
  simp only [ExceptT.run_bind, StateT.run_bind, hr]
  rfl

end

theorem ofList_store (items : List β) (store : Store) :
    ((ofList items).run store).2 = store.extend := by
  unfold ofList ofArray ofBuffer replicate
  split
  · rfl
  · split
    · rfl
    · rfl

theorem isCompact_ofList (items : List β) :
    Yields (ofList items) fun s => s.isCompact = true := by
  unfold ofList ofArray ofBuffer replicate
  split
  · exact .bind_any fun cell => .pure rfl
  · split
    · exact .bind_any fun cell => .pure rfl
    · exact .bind_any fun cell => .pure rfl

/-- Cells that are taken for sequences of other elements have no owner. -/
theorem Coherent.extend_iterate {hashing : Option (ElementHash α)} {owners : Owners α}
    {store : Store} (h : Coherent hashing owners store) (cells : Nat) :
    Coherent hashing (owners ++ List.replicate cells none) (Store.extend^[cells] store) := by
  induction cells with
  | zero => rwa [List.replicate_zero, List.append_nil]
  | succ cells ih =>
    rw [List.replicate_succ', ← List.append_assoc, Function.iterate_succ_apply']
    exact ih.extend none

/-- Kinds of elements with JSON values: what their values are, how these are written, and which JSON
values are read as which of them. Reading gives elements whose trees are in order; of such elements
those of one value are equal. -/
structure JsonKind where
  Element : Type
  Value : Type
  depth : Nat
  [beq : BEq Element]
  [hash : ElementHash Element]
  [json : JsonElement Element]
  Formed : Element → Prop
  value : Element → Value
  write : Value → Json
  read : Json → Option Value
  beq_of_value {x y : Element} : Formed x → Formed y → value x = value y → (x == y) = true
  hash_of_value {x y : Element} : Formed x → Formed y → value x = value y → hash32 x = hash32 y
  toJson_eq {x : Element} : Formed x → toJson x = write (value x)
  nests (v : Value) : (write v).Nests depth
  read_write (v : Value) : read (write v) = some v
  succeeds {item : Json} {v : Value} : read item = some v →
    Succeeds (ofJson item : ExceptT DecodeError StoreM Element) fun x => Formed x ∧ value x = v
  fails {item : Json} : read item = none →
    Fails (ofJson item : ExceptT DecodeError StoreM Element)

namespace JsonKind

attribute [instance] beq hash json

variable {K : JsonKind} {s t : Sequence K.Element} {xs ys : List K.Element}

theorem list_beq_of_value (hx : ∀ x ∈ xs, K.Formed x) (hy : ∀ y ∈ ys, K.Formed y)
    (h : xs.map K.value = ys.map K.value) : (xs == ys) = true := by
  have hall := forall₂_of_members hx hy (map_eq_iff_forall₂.mp h)
  exact list_beq_iff_forall₂.mpr (hall.imp fun x y h => K.beq_of_value h.1 h.2.1 h.2.2)

theorem hashOf_of_value (hx : ∀ x ∈ xs, K.Formed x) (hy : ∀ y ∈ ys, K.Formed y)
    (h : xs.map K.value = ys.map K.value) : hashOf K.hash xs = hashOf K.hash ys := by
  have hall := forall₂_of_members hx hy (map_eq_iff_forall₂.mp h)
  exact congrArg RollingHash.ofHashes
    (map_eq_iff_forall₂.mpr (hall.imp fun x y h => K.hash_of_value h.1 h.2.1 h.2.2))

theorem mapM_eq_some_iff {f : β → Option γ} {bs : List β} {cs : List γ} :
    bs.mapM f = some cs ↔ List.Forall₂ (fun b c => f b = some c) bs cs := by
  induction bs generalizing cs with
  | nil =>
    rw [List.mapM_nil, List.forall₂_nil_left_iff]
    exact ⟨fun h => (Option.some.inj h).symm, fun h => congrArg some h.symm⟩
  | cons b bs ih =>
    simp only [List.mapM_cons, Option.bind_eq_bind, Option.bind_eq_some_iff, ih,
      List.forall₂_cons_left_iff]
    constructor
    · rintro ⟨c, hc, cs, hcs, h⟩
      exact ⟨c, cs, hc, hcs, (Option.some.inj h).symm⟩
    · rintro ⟨c, cs, hc, hcs, rfl⟩
      exact ⟨c, hc, cs, hcs, rfl⟩

theorem mapM_eq_none_iff {f : β → Option γ} {bs : List β} :
    bs.mapM f = none ↔ ∃ b ∈ bs, f b = none := by
  induction bs with
  | nil => simp
  | cons b bs ih =>
    rw [List.mapM_cons, List.exists_mem_cons_iff, ← ih]
    cases f b with
    | none => exact iff_of_true rfl (.inl rfl)
    | some c =>
      cases bs.mapM f with
      | none => exact iff_of_true rfl (.inr rfl)
      | some cs => exact iff_of_false nofun (by simp)

theorem succeeds_items {items : List Json} {vs : List K.Value}
    (h : List.Forall₂ (fun item v => K.read item = some v) items vs) :
    Succeeds (ofJsonItems items : ExceptT DecodeError StoreM (List K.Element)) fun xs =>
      (∀ x ∈ xs, K.Formed x) ∧ xs.map K.value = vs := by
  induction h with
  | nil => exact .pure ⟨nofun, rfl⟩
  | cons hv _ ih =>
    refine .bind (K.succeeds hv) ?_
    rintro x ⟨hx, rfl⟩
    refine .bind ih ?_
    rintro xs ⟨hxs, rfl⟩
    exact .pure ⟨List.forall_mem_cons.mpr ⟨hx, hxs⟩, rfl⟩

theorem fails_items {items : List Json} (h : ∃ item ∈ items, K.read item = none) :
    Fails (ofJsonItems items : ExceptT DecodeError StoreM (List K.Element)) := by
  induction items with
  | nil => simp at h
  | cons item items ih =>
    cases hv : K.read item with
    | none => exact .bind (K.fails hv)
    | some v =>
      rcases (List.exists_mem_cons_iff _ _ _).mp h with hn | hn
      · rw [hv] at hn
        cases hn
      · exact (K.succeeds hv).then_fails fun x _ => .bind (ih hn)

/-- A sequence with a tree in order, and such elements. -/
structure FormedSequence (K : JsonKind) (s : Sequence K.Element) : Prop where
  wellFormed : s.WellFormed (some K.hash)
  formed : ∀ x ∈ s.toList, K.Formed x

def values (K : JsonKind) (s : Sequence K.Element) : List K.Value :=
  s.toList.map K.value

def writeSequence (K : JsonKind) (vs : List K.Value) : Json :=
  .array (vs.map K.write)

def readSequence (K : JsonKind) : Json → Option (List K.Value)
  | .array items => items.mapM K.read
  | _ => none

theorem nests_writeSequence (vs : List K.Value) : (K.writeSequence vs).Nests (K.depth + 1) := by
  apply Json.Nests.array
  intro item hi
  obtain ⟨v, -, rfl⟩ := List.mem_map.mp hi
  exact K.nests v

theorem readSequence_writeSequence (vs : List K.Value) :
    K.readSequence (K.writeSequence vs) = some vs :=
  mapM_eq_some_iff.mpr <| List.forall₂_map_left_iff.mpr <|
    List.forall₂_same.mpr fun v _ => K.read_write v

theorem writeSequence_injective {vs ws : List K.Value}
    (h : K.writeSequence vs = K.writeSequence ws) : vs = ws := by
  have hr := congrArg K.readSequence h
  rw [readSequence_writeSequence, readSequence_writeSequence] at hr
  exact Option.some.inj hr

theorem FormedSequence.computeHash_eq (hs : K.FormedSequence s) (ht : K.FormedSequence t)
    (h : K.values s = K.values t) : s.computeHash = t.computeHash := by
  have hhs : s.computeHash = hashOf K.hash s.toList := hs.wellFormed.computeHash_eq
  have hht : t.computeHash = hashOf K.hash t.toList := ht.wellFormed.computeHash_eq
  rw [hhs, hht, hashOf_of_value hs.formed ht.formed h]

theorem FormedSequence.beq_of_values (hs : K.FormedSequence s) (ht : K.FormedSequence t)
    (h : K.values s = K.values t) : (s == t) = true := by
  rw [hs.wellFormed.beq_eq_shortcuts ht.wellFormed, hashOf_of_value hs.formed ht.formed h,
    list_beq_of_value hs.formed ht.formed h, beq_self_eq_true, Bool.and_self, Bool.or_true]

theorem FormedSequence.toJson_eq (hs : K.FormedSequence s) :
    toJson s = K.writeSequence (K.values s) := by
  have hr : s.cursor.rest = s.toList := hs.wellFormed.pending_cursor.rest_eq
  change Json.array (s.cursor.rest.map toJson) = _
  rw [hr, writeSequence, values, List.map_map]
  congr 1
  exact List.map_congr_left fun x hx => K.toJson_eq (hs.formed x hx)

/-- The items take their cells before the leaf takes its own. -/
theorem readSequence_run {json : Json} {vs : List K.Value} (h : K.readSequence json = some vs)
    (store : Store) :
    ∃ xs cells, ((∀ x ∈ xs, K.Formed x) ∧ xs.map K.value = vs) ∧
      (ofJson json : ExceptT DecodeError StoreM (Sequence K.Element)).run.run store =
        Prod.map Except.ok id ((ofList xs).run (Store.extend^[cells] store)) := by
  cases json with
  | array items =>
    obtain ⟨xs, cells, hr, hxs⟩ := succeeds_items (mapM_eq_some_iff.mp h) store
    exact ⟨xs, cells, hxs, run_bind_ok hr⟩
  | null | bool | integer | float | string | object => cases h

theorem formedSequence_ofList {xs : List K.Element} (hxs : ∀ x ∈ xs, K.Formed x) :
    Yields (ofList xs) fun t => K.FormedSequence t ∧ t.toList = xs := by
  intro store
  obtain ⟨hw, hl⟩ := yields_of_makes (fun _ => makes_ofList xs) store
  exact ⟨⟨hw, fun x hx => hxs x (hl ▸ hx)⟩, hl⟩

theorem succeeds_sequence {json : Json} {vs : List K.Value} (h : K.readSequence json = some vs) :
    Succeeds (ofJson json : ExceptT DecodeError StoreM (Sequence K.Element)) fun t =>
      K.FormedSequence t ∧ K.values t = vs := by
  intro store
  obtain ⟨xs, cells, ⟨hxs, rfl⟩, hr⟩ := readSequence_run h store
  obtain ⟨ht, hl⟩ := formedSequence_ofList hxs (Store.extend^[cells] store)
  have hs := ofList_store xs (Store.extend^[cells] store)
  refine ⟨_, cells + 1, ?_, ht, congrArg (List.map K.value) hl⟩
  rw [hr, Function.iterate_succ_apply', ← hs]
  rfl

theorem fails_sequence {json : Json} (h : K.readSequence json = none) :
    Fails (ofJson json : ExceptT DecodeError StoreM (Sequence K.Element)) := by
  cases json with
  | array items => exact .bind (fails_items (mapM_eq_none_iff.mp h))
  | null | bool | integer | float | string | object => exact .throw _

/-- Sequences of elements of a kind, as elements. -/
abbrev sequences (K : JsonKind) (wordHash : UInt32 → UInt64) : JsonKind where
  Element := HashedSequence K.Element
  Value := List K.Value
  depth := K.depth + 1
  hash := ⟨HashedSequence.elementHash wordHash⟩
  Formed x := K.FormedSequence x.sequence
  value x := K.values x.sequence
  write := K.writeSequence
  read := K.readSequence
  beq_of_value {x y} hx hy h := by
    rw [HashedSequence.beq_eq]
    exact hx.beq_of_values hy h
  hash_of_value {x y} hx hy h := by
    change x.elementHash wordHash = y.elementHash wordHash
    rw [HashedSequence.elementHash_eq, HashedSequence.elementHash_eq]
    exact congrArg (fun hash => foldHash (wordHash hash)) (hx.computeHash_eq hy h)
  toJson_eq hx := hx.toJson_eq
  nests := K.nests_writeSequence
  read_write := K.readSequence_writeSequence
  succeeds h := (succeeds_sequence h).bind fun _ ht => .pure ht
  fails h := (fails_sequence h).bind

end JsonKind

end SharedSequence
