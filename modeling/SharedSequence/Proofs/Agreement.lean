import Mathlib.Order.Defs.PartialOrder
import SharedSequence.Proofs.SameElements
import SharedSequence.Proofs.Windows
import SharedSequence.Session.Step

namespace SharedSequence

open Sequence Session

namespace ElementKind

variable {K : ElementKind}

/-- The owners of the cells in two sessions. -/
structure Worlds (K : ElementKind) where
  left : Owners K.Element
  right : Owners K.Element

/-- Later worlds have further cells. -/
instance : Preorder (Worlds K) where
  le w w' := w.left <+: w'.left ∧ w.right <+: w'.right
  le_refl _ := ⟨List.prefix_rfl, List.prefix_rfl⟩
  le_trans _ _ _ h h' := ⟨h.1.trans h'.1, h.2.trans h'.2⟩

variable {w w' : Worlds K} {s t u v : Sequence K.Element}
  {m n : SequenceMap K.Element K.Element}

/-- Sound sequences of two sessions that have the same elements. -/
structure Same (K : ElementKind) (w : Worlds K) (s t : Sequence K.Element) : Prop where
  left : s.Sound (some K.hash) w.left
  right : t.Sound (some K.hash) w.right
  alike : List.Forall₂ K.Alike s.toList t.toList

theorem Same.elements (h : K.Same w s t) : K.SameElements s t :=
  ⟨h.left.wellFormed, h.right.wellFormed, h.alike⟩

theorem Same.mono (h : K.Same w s t) (hw : w ≤ w') : K.Same w' s t :=
  ⟨h.left.extend hw.1, h.right.extend hw.2, h.alike⟩

structure SameMap (K : ElementKind) (w : Worlds K) (m n : SequenceMap K.Element K.Element) :
    Prop where
  keys : K.Same w m.keys n.keys
  values : K.Same w m.values n.values

theorem SameMap.entries (h : K.SameMap w m n) : K.SameEntries m n :=
  ⟨h.keys.elements, h.values.elements⟩

theorem SameMap.mono (h : K.SameMap w m n) (hw : w ≤ w') : K.SameMap w' m n :=
  ⟨h.keys.mono hw, h.values.mono hw⟩

/-- Both stores are coherent, and the registers hold the same elements name by name. -/
structure SameSessions (K : ElementKind) (w : Worlds K) (a b : Session K.Element) : Prop where
  left : Coherent (some K.hash) w.left a.store
  right : Coherent (some K.hash) w.right b.store
  sequences (name : String) :
    Option.Rel (K.Same w) (a.sequences.lookup name) (b.sequences.lookup name)
  maps (name : String) : Option.Rel (K.SameMap w) (a.maps.lookup name) (b.maps.lookup name)

theorem rel_mono {β : Type} {P Q : β → β → Prop} (h : ∀ b c, P b c → Q b c) {x y : Option β}
    (hx : Option.Rel P x y) : Option.Rel Q x y := by
  cases hx with
  | some hx => exact .some (h _ _ hx)
  | none => exact .none

theorem SameSessions.stores {a b : Session K.Element} (h : K.SameSessions w a b) (hw : w ≤ w')
    {left right : Store} (hl : Coherent (some K.hash) w'.left left)
    (hr : Coherent (some K.hash) w'.right right) :
    K.SameSessions w' { a with store := left } { b with store := right } where
  left := hl
  right := hr
  sequences name := rel_mono (fun _ _ hs => hs.mono hw) (h.sequences name)
  maps name := rel_mono (fun _ _ hm => hm.mono hw) (h.maps name)

variable {β γ : Type} {Q : Worlds K → β → β → Prop} {R : Worlds K → γ → γ → Prop}

/-- The result of a computation and the session after it. -/
def outcome (x : SessionM K.Element β) (a : Session K.Element) :
    Except Failure β × Session K.Element :=
  x.run.run a

/-- From sessions side by side, both computations fail alike or give related results, and leave
sessions side by side. -/
def Agree (w : Worlds K) (x y : SessionM K.Element β) (Q : Worlds K → β → β → Prop) : Prop :=
  ∀ a b, K.SameSessions w a b → ∃ w', w ≤ w' ∧
    K.SameSessions w' (outcome x a).2 (outcome y b).2 ∧
    Outcome (Q w') (outcome x a).1 (outcome y b).1

theorem Agree.pure {b c : β} (h : Q w b c) : Agree w (Pure.pure b) (Pure.pure c) Q :=
  fun _ _ hs => ⟨w, le_rfl, hs, h⟩

theorem Agree.throw (failure : Failure) : Agree w (throw failure) (throw failure) Q :=
  fun _ _ hs => ⟨w, le_rfl, hs, rfl⟩

theorem outcome_bind (x : SessionM K.Element β) (f : β → SessionM K.Element γ)
    (a : Session K.Element) : outcome (x >>= f) a =
      match outcome x a with
      | (.ok b, a) => outcome (f b) a
      | (.error failure, a) => (.error failure, a) := by
  unfold outcome
  rw [ExceptT.run_bind, StateT.run_bind]
  generalize StateT.run x.run a = result
  rcases result with ⟨b | b, a⟩
  · rfl
  · rfl

theorem outcome_get (a : Session K.Element) : outcome get a = (.ok a, a) :=
  rfl

theorem Agree.bind {x y : SessionM K.Element β} {f g : β → SessionM K.Element γ}
    (h : Agree w x y Q) (hn : ∀ w' b c, w ≤ w' → Q w' b c → Agree w' (f b) (g c) R) :
    Agree w (x >>= f) (y >>= g) R := by
  intro a b hs
  obtain ⟨w', hw, hs', ho⟩ := h a b hs
  rw [outcome_bind, outcome_bind]
  revert hs' ho
  rcases outcome x a with ⟨p | p, a'⟩ <;> rcases outcome y b with ⟨q | q, b'⟩
  · rintro hs' rfl
    exact ⟨w', hw, hs', rfl⟩
  · exact fun _ => False.elim
  · exact fun _ => False.elim
  · intro hs' hq
    obtain ⟨w'', hw', hs'', ho⟩ := hn w' p q hw hq a' b' hs'
    exact ⟨w'', hw.trans hw', hs'', ho⟩

theorem outcome_readSequence (name : String) (a : Session K.Element) :
    outcome (readSequence name) a =
      match a.sequences.lookup name with
      | some s => (.ok s, a)
      | none => (.error (.unset name), a) := by
  rw [readSequence, outcome_bind, outcome_get]
  dsimp only
  cases a.sequences.lookup name <;> rfl

theorem Agree.readSequence (name : String) :
    Agree w (readSequence name) (readSequence name) K.Same := by
  intro a b hs
  have hname := hs.sequences name
  rw [outcome_readSequence, outcome_readSequence]
  revert hname
  generalize a.sequences.lookup name = s, b.sequences.lookup name = t
  rintro (hst | -)
  · exact ⟨w, le_rfl, hs, hst⟩
  · exact ⟨w, le_rfl, hs, rfl⟩

theorem Agree.readSequences (names : List String) :
    Agree w (readSequences names) (readSequences names) fun w => List.Forall₂ (K.Same w) := by
  induction names generalizing w with
  | nil => exact .pure .nil
  | cons name names ih =>
    refine .bind (.readSequence name) ?_
    intro w₁ s t _ hst
    refine .bind ih ?_
    intro w₂ ss ts hw hsts
    exact .pure (.cons (hst.mono hw) hsts)

theorem outcome_readMap (name : String) (a : Session K.Element) :
    outcome (readMap name) a =
      match a.maps.lookup name with
      | some map => (.ok map, a)
      | none => (.error (.unset name), a) := by
  rw [readMap, outcome_bind, outcome_get]
  dsimp only
  cases a.maps.lookup name <;> rfl

theorem Agree.readMap (name : String) : Agree w (readMap name) (readMap name) K.SameMap := by
  intro a b hs
  have hname := hs.maps name
  rw [outcome_readMap, outcome_readMap]
  revert hname
  generalize a.maps.lookup name = m, b.maps.lookup name = n
  rintro (hmn | -)
  · exact ⟨w, le_rfl, hs, hmn⟩
  · exact ⟨w, le_rfl, hs, rfl⟩

theorem rel_lookup_cons {β : Type} {P : β → β → Prop} {xs ys : Registers β} {x y : β}
    (name : String) (hx : P x y)
    (h : ∀ name, Option.Rel P (xs.lookup name) (ys.lookup name)) (other : String) :
    Option.Rel P (((name, x) :: xs).lookup other) (((name, y) :: ys).lookup other) := by
  rw [List.lookup_cons, List.lookup_cons]
  split
  · exact .some hx
  · exact h other

theorem Agree.writeSequence (name : String) (h : K.Same w s t) :
    Agree w (writeSequence name s) (writeSequence name t) fun _ _ _ => True := by
  intro a b hs
  refine ⟨w, le_rfl, ⟨hs.left, hs.right, ?_, hs.maps⟩, trivial⟩
  exact rel_lookup_cons name h hs.sequences

theorem Agree.writeMap (name : String) (h : K.SameMap w m n) :
    Agree w (writeMap name m) (writeMap name n) fun _ _ _ => True := by
  intro a b hs
  refine ⟨w, le_rfl, ⟨hs.left, hs.right, hs.sequences, ?_⟩, trivial⟩
  exact rel_lookup_cons name h hs.maps

theorem Agree.checked {x y : Except SequenceError β} (h : Outcome (Q w) x y) :
    Agree w (checked x) (checked y) Q := by
  rcases x with e | b <;> rcases y with f | c
  · obtain rfl : e = f := h
    exact .throw _
  · exact h.elim
  · exact h.elim
  · exact .pure h

theorem Agree.allocating {x y : StoreM β} {P P' : Owners K.Element → β → Prop}
    (hx : Builds (some K.hash) w.left x P) (hy : Builds (some K.hash) w.right y P')
    (h : ∀ w' b c, w ≤ w' → P w'.left b → P' w'.right c → Q w' b c) :
    Agree w (allocating x) (allocating y) Q := by
  intro a b hs
  obtain ⟨left, hle, hl, hp⟩ := hx a.store hs.left
  obtain ⟨right, hre, hr, hp'⟩ := hy b.store hs.right
  have hw : w ≤ ⟨left, right⟩ := ⟨hle, hre⟩
  exact ⟨⟨left, right⟩, hw, hs.stores hw hl hr, h _ _ _ hw hp hp'⟩

theorem Agree.building {x y : Except SequenceError (StoreM β)}
    (h : Outcome (fun x y => Agree w (Session.allocating x) (Session.allocating y) Q) x y) :
    Agree w (building x) (building y) Q := by
  rcases x with e | make <;> rcases y with f | make'
  · obtain rfl : e = f := h
    exact .throw _
  · exact h.elim
  · exact h.elim
  · exact h

/-- The computation makes a sound sequence with the values of the items. -/
def Built (K : ElementKind) (owners : Owners K.Element) (make : StoreM (Sequence K.Element))
    (items : List K.Element) : Prop :=
  Builds (some K.hash) owners make fun later s =>
    s.Sound (some K.hash) later ∧ List.Forall₂ K.Alike items s.toList

section

variable {owners : Owners K.Element} {make make' : StoreM (Sequence K.Element)}
  {items items' xs ys : List K.Element}

theorem Built.of_makes (h : Makes (some K.hash) owners make items)
    (hv : ∀ x ∈ items, K.Valid x) : K.Built owners make items := by
  refine h.mono ?_
  rintro later s - ⟨hs, rfl⟩
  exact ⟨hs, alike_refl hv⟩

/-- A compaction may put one of equal elements in place of the others. -/
theorem compacts_alike (h : s.WellFormed (some K.hash)) (hv : ∀ x ∈ s.toList, K.Valid x)
    (hc : s.Compacts t) : List.Forall₂ K.Alike s.toList t.toList := by
  rcases hc with he | ⟨value, hcommon, he⟩
  · rw [he]
    exact alike_refl hv
  · unfold commonValue? at hcommon
    split at hcommon
    · rename_i hu
      rw [h.get?_eq] at hcommon
      have hm := List.mem_of_getElem? hcommon
      have hall := (isUniform_iff h hv).mp hu
      have hrep : s.toList.map K.value =
          List.replicate s.toList.length (K.value value) := by
        refine List.eq_replicate_iff.mpr ⟨List.length_map _, ?_⟩
        intro v hv
        obtain ⟨x, hx, rfl⟩ := List.mem_map.mp hv
        exact hall x hx value hm
      rw [he, ← h.length_toList]
      refine alike_of_values hv ?_ (hrep.trans List.map_replicate.symm)
      intro y hy
      rw [List.eq_of_mem_replicate hy]
      exact hv value hm
    · cases hcommon

theorem Built.compactFlat (h : s.Sound (some K.hash) owners) (hv : ∀ x ∈ s.toList, K.Valid x) :
    K.Built owners s.compactFlat s.toList := by
  refine h.compactFlat.mono ?_
  rintro later t - ⟨ht, hc⟩
  exact ⟨ht, compacts_alike h.wellFormed hv hc⟩

theorem Built.compact (h : s.Sound (some K.hash) owners) (hv : ∀ x ∈ s.toList, K.Valid x)
    (withIndex : Bool) : K.Built owners (s.compact withIndex) s.toList := by
  refine (h.compact (Option.mem_some_self K.hash) withIndex).mono ?_
  rintro later t - ⟨ht, hc⟩
  exact ⟨ht, compacts_alike h.wellFormed hv hc⟩

theorem alike_trans {zs : List K.Element} (h : List.Forall₂ K.Alike xs ys)
    (h' : List.Forall₂ K.Alike ys zs) : List.Forall₂ K.Alike xs zs :=
  forall₂_trans h h' fun _ _ _ => Alike.trans

theorem alike_symm (h : List.Forall₂ K.Alike xs ys) : List.Forall₂ K.Alike ys xs :=
  h.flip.imp fun _ _ => Alike.symm

theorem Agree.built (hx : K.Built w.left make xs) (hy : K.Built w.right make' ys)
    (h : List.Forall₂ K.Alike xs ys) :
    Agree w (Session.allocating make) (Session.allocating make') K.Same := by
  refine .allocating hx hy ?_
  rintro w' s t - ⟨hs, hxs⟩ ⟨ht, hyt⟩
  exact ⟨hs, ht, alike_trans (alike_symm hxs) (alike_trans h hyt)⟩

theorem Agree.makes (hx : Makes (some K.hash) w.left make xs)
    (hy : Makes (some K.hash) w.right make' ys) (h : List.Forall₂ K.Alike xs ys) :
    Agree w (Session.allocating make) (Session.allocating make') K.Same :=
  .built (.of_makes hx (valid_left h)) (.of_makes hy (valid_right h)) h

end

end ElementKind

end SharedSequence
