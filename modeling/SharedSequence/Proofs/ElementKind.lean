import SharedSequence.Proofs.Comparison
import SharedSequence.Session.HashedStep

namespace SharedSequence

open Sequence

/-- A kind of elements, those of its elements that programs hold, and their values. Equality, hash,
order and texts of such elements depend on the values alone. -/
structure ElementKind where
  Element : Type
  Value : Type
  [beq : BEq Element]
  [hash : ElementHash Element]
  [ord : Ord Element]
  [debug : DebugText Element]
  [json : JsonElement Element]
  Valid : Element → Prop
  value : Element → Value
  beq_iff {x y : Element} : Valid x → Valid y → ((x == y) = true ↔ value x = value y)
  hash_eq {x y : Element} : Valid x → Valid y → value x = value y → hash32 x = hash32 y
  compare_eq {w x y z : Element} : Valid w → Valid x → Valid y → Valid z → value w = value x →
    value y = value z → compare w y = compare x z
  debug_eq {x y : Element} : Valid x → Valid y → value x = value y →
    ∀ layout, debugText layout x = debugText layout y
  json_eq {x y : Element} : Valid x → Valid y → value x = value y → toJson x = toJson y

namespace ElementKind

attribute [instance] beq hash ord debug json

/-- Elements that are their own values. -/
abbrev plain (α : Type) [BEq α] [LawfulBEq α] [ElementHash α] [Ord α] [DebugText α]
    [JsonElement α] : ElementKind where
  Element := α
  Value := α
  Valid _ := True
  value := id
  beq_iff _ _ := beq_iff_eq
  hash_eq _ _ h := congrArg hash32 h
  compare_eq _ _ _ _ hx hy := congr (congrArg compare hx) hy
  debug_eq _ _ h layout := congrArg (debugText layout) h
  json_eq _ _ h := congrArg toJson h

/-- Both elements may be held and have one value. -/
def Alike (K : ElementKind) (x y : K.Element) : Prop :=
  K.Valid x ∧ K.Valid y ∧ K.value x = K.value y

variable {K : ElementKind} {w x y z : K.Element} {xs ys ws zs : List K.Element}

theorem Alike.symm (h : K.Alike x y) : K.Alike y x :=
  ⟨h.2.1, h.1, h.2.2.symm⟩

theorem Alike.trans (h : K.Alike x y) (h' : K.Alike y z) : K.Alike x z :=
  ⟨h.1, h'.2.1, h.2.2.trans h'.2.2⟩

theorem alike_self (h : K.Valid x) : K.Alike x x :=
  ⟨h, h, rfl⟩

theorem Alike.beq_eq (hx : K.Alike w x) (hy : K.Alike y z) : (w == y) = (x == z) := by
  rw [Bool.eq_iff_iff, K.beq_iff hx.1 hy.1, K.beq_iff hx.2.1 hy.2.1, hx.2.2, hy.2.2]

theorem Alike.hash_eq (h : K.Alike x y) : hash32 x = hash32 y :=
  K.hash_eq h.1 h.2.1 h.2.2

theorem Alike.compare_eq (hx : K.Alike w x) (hy : K.Alike y z) : compare w y = compare x z :=
  K.compare_eq hx.1 hx.2.1 hy.1 hy.2.1 hx.2.2 hy.2.2

theorem alike_refl (h : ∀ x ∈ xs, K.Valid x) : List.Forall₂ K.Alike xs xs :=
  List.forall₂_same.mpr fun x hx => alike_self (h x hx)

theorem alike_of_values (hx : ∀ x ∈ xs, K.Valid x) (hy : ∀ y ∈ ys, K.Valid y)
    (h : xs.map K.value = ys.map K.value) : List.Forall₂ K.Alike xs ys :=
  forall₂_of_members hx hy (map_eq_iff_forall₂.mp h)

theorem values_eq (h : List.Forall₂ K.Alike xs ys) : xs.map K.value = ys.map K.value :=
  map_eq_iff_forall₂.mpr (h.imp fun _ _ hx => hx.2.2)

theorem valid_left (h : List.Forall₂ K.Alike xs ys) : ∀ x ∈ xs, K.Valid x :=
  forall_mem_of_forall₂ h fun _ _ hx => hx.1

theorem valid_right (h : List.Forall₂ K.Alike xs ys) : ∀ y ∈ ys, K.Valid y :=
  forall_mem_of_forall₂ h.flip fun _ _ hx => hx.2.1

theorem hashOf_eq_of_alike (h : List.Forall₂ K.Alike xs ys) :
    hashOf K.hash xs = hashOf K.hash ys :=
  congrArg RollingHash.ofHashes (map_eq_iff_forall₂.mpr (h.imp fun _ _ => Alike.hash_eq))

theorem beq_iff_alike (hx : ∀ x ∈ xs, K.Valid x) (hy : ∀ y ∈ ys, K.Valid y) :
    (xs == ys) = true ↔ List.Forall₂ K.Alike xs ys := by
  rw [list_beq_iff_forall₂]
  constructor
  · intro h
    exact (forall₂_of_members hx hy h).imp fun x y h => ⟨h.1, h.2.1, (K.beq_iff h.1 h.2.1).mp h.2.2⟩
  · intro h
    exact h.imp fun x y h => (K.beq_iff h.1 h.2.1).mpr h.2.2

theorem compareLex_eq_of_alike (hx : List.Forall₂ K.Alike ws xs) (hy : List.Forall₂ K.Alike ys zs) :
    List.compareLex compare ws ys = List.compareLex compare xs zs := by
  induction hx generalizing ys zs with
  | nil =>
    cases hy with
    | nil => rfl
    | cons => rw [List.compareLex_nil_cons, List.compareLex_nil_cons]
  | cons hx _ ih =>
    cases hy with
    | nil => rw [List.compareLex_cons_nil, List.compareLex_cons_nil]
    | cons hy hys =>
      rw [List.compareLex_cons_cons, List.compareLex_cons_cons, hx.compare_eq hy, ih hys]

/-- The sequences have the same values as elements, whatever their trees are. -/
structure SameElements (K : ElementKind) (s t : Sequence K.Element) : Prop where
  left : s.WellFormed (some K.hash)
  right : t.WellFormed (some K.hash)
  alike : List.Forall₂ K.Alike s.toList t.toList

section

variable {s t u v : Sequence K.Element}

theorem SameElements.length_eq (h : K.SameElements s t) : s.length = t.length := by
  rw [← h.left.length_toList, ← h.right.length_toList, h.alike.length_eq]

theorem SameElements.computeHash_eq (h : K.SameElements s t) :
    s.computeHash = t.computeHash := by
  have hs : s.computeHash = hashOf K.hash s.toList := h.left.computeHash_eq
  have ht : t.computeHash = hashOf K.hash t.toList := h.right.computeHash_eq
  rw [hs, ht, hashOf_eq_of_alike h.alike]

theorem SameElements.lexCompare_eq (h : K.SameElements s t) (h' : K.SameElements u v) :
    s.lexCompare u = t.lexCompare v := by
  rw [h.left.lexCompare_eq h'.left, h.right.lexCompare_eq h'.right,
    compareLex_eq_of_alike h.alike h'.alike]

theorem SameElements.rest_map_eq {β : Type} {f : K.Element → β} (h : K.SameElements s t)
    (hf : ∀ x y, K.Alike x y → f x = f y) : s.cursor.rest.map f = t.cursor.rest.map f := by
  rw [h.left.pending_cursor.rest_eq, h.right.pending_cursor.rest_eq]
  exact map_eq_iff_forall₂.mpr (h.alike.imp hf)

theorem SameElements.debugText_eq (h : K.SameElements s t) (layout : Layout) :
    debugText layout s = debugText layout t :=
  congrArg layout.bracketed
    (h.rest_map_eq fun _ _ hx => K.debug_eq hx.1 hx.2.1 hx.2.2 layout.inner)

theorem SameElements.toJson_eq (h : K.SameElements s t) : toJson s = toJson t :=
  congrArg Json.array (h.rest_map_eq fun _ _ hx => K.json_eq hx.1 hx.2.1 hx.2.2)

end

/-- A sequence whose elements may be held, in a world where each cell has one owner. -/
def ValidSequence (K : ElementKind) (owners : Owners K.Element) (s : Sequence K.Element) : Prop :=
  s.Sound (some K.hash) owners ∧ ∀ x ∈ s.toList, K.Valid x

section

variable {owners : Owners K.Element} {s t : Sequence K.Element}

theorem ValidSequence.sameElements (hs : K.ValidSequence owners s) (ht : K.ValidSequence owners t)
    (h : s.toList.map K.value = t.toList.map K.value) : K.SameElements s t :=
  ⟨hs.1.wellFormed, ht.1.wellFormed, alike_of_values hs.2 ht.2 h⟩

/-- Neither identity nor hash changes what is equal. -/
theorem ValidSequence.beq_iff (hs : K.ValidSequence owners s) (ht : K.ValidSequence owners t) :
    (s == t) = true ↔ s.toList.map K.value = t.toList.map K.value := by
  rw [hs.1.wellFormed.beq_eq_shortcuts ht.1.wellFormed]
  constructor
  · intro h
    rcases Bool.or_eq_true_iff.mp h with hi | h
    · rw [hs.1.owned.eq_of_cell ht.1.owned (eq_of_beq hi)]
    · exact values_eq ((beq_iff_alike hs.2 ht.2).mp (Bool.and_eq_true_iff.mp h).2)
  · intro h
    have hall := alike_of_values hs.2 ht.2 h
    rw [hashOf_eq_of_alike hall, (beq_iff_alike hs.2 ht.2).mpr hall, beq_self_eq_true,
      Bool.and_self, Bool.or_true]

end

/-- Sequences as elements, from a world where each cell has one owner. -/
abbrev nested (K : ElementKind) (wordHash : UInt32 → UInt64) (owners : Owners K.Element) :
    ElementKind where
  Element := HashedSequence K.Element
  Value := List K.Value
  hash := ⟨HashedSequence.elementHash wordHash⟩
  Valid x := K.ValidSequence owners x.sequence
  value x := x.sequence.toList.map K.value
  beq_iff {x y} hx hy := by rw [HashedSequence.beq_eq, hx.beq_iff hy]
  hash_eq {x y} hx hy h := by
    change x.elementHash wordHash = y.elementHash wordHash
    rw [HashedSequence.elementHash_eq, HashedSequence.elementHash_eq]
    exact congrArg (fun hash => foldHash (wordHash hash)) (hx.sameElements hy h).computeHash_eq
  compare_eq hw hx hy hz h h' := (hw.sameElements hx h).lexCompare_eq (hy.sameElements hz h')
  debug_eq hx hy h := (hx.sameElements hy h).debugText_eq
  json_eq hx hy h := (hx.sameElements hy h).toJson_eq

end ElementKind

end SharedSequence
