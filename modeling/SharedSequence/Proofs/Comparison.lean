import Mathlib.Data.List.Forall2
import SharedSequence.Proofs.Pending
import SharedSequence.Proofs.Soundness
import SharedSequence.Sequence.Order

namespace SharedSequence

open Sequence

variable {α β γ δ : Type}

theorem list_beq_iff_forall₂ [BEq α] {xs ys : List α} :
    (xs == ys) = true ↔ List.Forall₂ (fun x y => (x == y) = true) xs ys := by
  induction xs generalizing ys with
  | nil =>
    cases ys with
    | nil => exact iff_of_true rfl .nil
    | cons => exact iff_of_false Bool.false_ne_true nofun
  | cons x xs ih =>
    cases ys with
    | nil => exact iff_of_false Bool.false_ne_true nofun
    | cons y ys => rw [List.cons_beq_cons, Bool.and_eq_true, ih, List.forall₂_cons]

theorem map_eq_iff_forall₂ {f : β → δ} {g : γ → δ} {xs : List β} {ys : List γ} :
    xs.map f = ys.map g ↔ List.Forall₂ (fun x y => f x = g y) xs ys := by
  rw [← List.forall₂_eq_eq_eq, List.forall₂_map_left_iff, List.forall₂_map_right_iff]

theorem forall_mem_of_forall₂ {P : β → Prop} {R : β → γ → Prop} {xs : List β} {ys : List γ}
    (h : List.Forall₂ R xs ys) (hP : ∀ x y, R x y → P x) : ∀ x ∈ xs, P x := by
  induction h with
  | nil => nofun
  | cons hx _ ih => exact List.forall_mem_cons.mpr ⟨hP _ _ hx, ih⟩

theorem forall₂_trans {R : α → β → Prop} {S : β → γ → Prop} {T : α → γ → Prop} {xs : List α}
    {ys : List β} {zs : List γ} (h : List.Forall₂ R xs ys) (h' : List.Forall₂ S ys zs)
    (hT : ∀ x y z, R x y → S y z → T x z) : List.Forall₂ T xs zs := by
  induction h generalizing zs with
  | nil =>
    cases h'
    exact .nil
  | cons hx _ ih =>
    cases h' with
    | cons hy hys => exact .cons (hT _ _ _ hx hy) (ih hys)

theorem forall₂_of_members {P : β → Prop} {Q : γ → Prop} {R : β → γ → Prop} {xs : List β}
    {ys : List γ} (hx : ∀ x ∈ xs, P x) (hy : ∀ y ∈ ys, Q y) (h : List.Forall₂ R xs ys) :
    List.Forall₂ (fun x y => P x ∧ Q y ∧ R x y) xs ys := by
  apply (List.forall₂_and_left _ _).mpr ⟨hx, _⟩
  exact ((List.forall₂_and_left _ _).mpr ⟨hy, h.flip⟩).flip

theorem Collector.pushList_hashCollector [ElementHash α] (items : List α) (state : UInt32) :
    pushList hashCollector items state =
      .yield ((items.map hash32).foldl RollingHash.step state) := by
  induction items generalizing state with
  | nil => rfl
  | cons x items ih =>
    rw [pushList, hashCollector, andThen, ih, List.map_cons, List.foldl_cons]

theorem Sequence.hashCode_run [ElementHash α] (s : Sequence α) (store : Store) :
    s.hashCode.run store =
      match store.peek s.cell with
      | some word => (word, store)
      | none => (s.computeHash, store.record s.cell s.computeHash) := by
  change (match store.peek s.cell with
    | some word => (return word : StoreM UInt32)
    | none => do
      rememberHash s.cell s.computeHash
      return s.computeHash).run store = _
  cases store.peek s.cell <;> rfl

section

variable [BEq α] {hashing : Option (ElementHash α)} {owners : Owners α} {s a b : Sequence α}
  {hash : ElementHash α}

theorem Sequence.WellFormed.computeHash_eq (h : s.WellFormed hashing) :
    s.computeHash = hashOf hash s.toList := by
  rw [computeHash, h.extract_eq, Collector.pushList_hashCollector]
  rfl

theorem Sequence.Sound.hashCode (hh : hash ∈ hashing) (h : s.Sound hashing owners) :
    Builds hashing owners s.hashCode fun _ word => word = hashOf hash s.toList := by
  intro store hc
  rw [hashCode_run]
  cases hp : store.peek s.cell with
  | some word => exact ⟨owners, List.prefix_rfl, hc, hc.memo hh h.owned.root hp⟩
  | none =>
    have he : s.computeHash = hashOf hash s.toList := h.wellFormed.computeHash_eq
    refine ⟨owners, List.prefix_rfl, hc.record h.owned.root ?_, he⟩
    intro hash' hh'
    obtain rfl : hash = hash' := Option.mem_unique hh hh'
    exact he

theorem Sequence.WellFormed.equalFrom_eq (ha : a.WellFormed hashing) (hb : b.WellFormed hashing)
    {i count : Nat} (hia : i + count ≤ a.length) (hib : i + count ≤ b.length) :
    equalFrom a b i count = (slots a.toList i count == slots b.toList i count) := by
  induction count generalizing i with
  | zero => rfl
  | succ count ih =>
    have hla : i < a.toList.length := by rw [ha.length_toList]; omega
    have hlb : i < b.toList.length := by rw [hb.length_toList]; omega
    rw [equalFrom, ha.get?_eq, hb.get?_eq, List.getElem?_eq_getElem hla,
      List.getElem?_eq_getElem hlb, slots_succ count hla, slots_succ count hlb, List.cons_beq_cons,
      ← ih (by omega) (by omega)]

theorem Sequence.WellFormed.elementsEqual_eq (ha : a.WellFormed hashing)
    (hb : b.WellFormed hashing) : a.elementsEqual b = (a.toList == b.toList) := by
  rw [Sequence.elementsEqual_eq]
  by_cases hl : a.length = b.length
  · rw [ha.equalFrom_eq hb (by omega) (by omega), ← ha.length_toList, slots_all, ha.length_toList,
      hl, ← hb.length_toList, slots_all, beq_self_eq_true, Bool.true_and]
  · rw [beq_false_of_ne hl, Bool.false_and]
    symm
    apply Bool.eq_false_iff.mpr
    intro he
    apply hl
    rw [← ha.length_toList, ← hb.length_toList]
    exact List.length_eq_of_beq he

/-- Without a store to remember hashes in, too, the same instance is equal, and other sequences are
where hashes and elements are. -/
theorem Sequence.WellFormed.beq_eq_shortcuts (ha : a.WellFormed hashing)
    (hb : b.WellFormed hashing) : (a == b) = (a.sameInstance b ||
      (hashOf hash a.toList == hashOf hash b.toList && a.toList == b.toList)) := by
  have hl : (a.length == b.length && (a.toList == b.toList)) = (a.toList == b.toList) := by
    rw [← ha.length_toList, ← hb.length_toList]
    cases he : a.toList == b.toList with
    | true => rw [List.length_eq_of_beq he, beq_self_eq_true, Bool.and_true]
    | false => exact Bool.and_false _
  change (a.sameInstance b ||
    (a.length == b.length && a.elementsEqual b && a.computeHash == b.computeHash)) = _
  rw [ha.elementsEqual_eq hb, hl, ha.computeHash_eq, hb.computeHash_eq, Bool.and_comm]

/-- The same instance is equal, and other sequences are where hashes and elements are. -/
theorem Sequence.Sound.equals (hh : hash ∈ hashing) (ha : a.Sound hashing owners)
    (hb : b.Sound hashing owners) :
    Builds hashing owners (a.equals b) fun _ r =>
      r = (a.sameInstance b ||
        (hashOf hash a.toList == hashOf hash b.toList && a.toList == b.toList)) := by
  unfold Sequence.equals
  split
  · rename_i hi
    exact .pure (by rw [hi, Bool.true_or])
  · rename_i hi
    rw [eq_false_of_ne_true hi, Bool.false_or]
    split
    · rename_i hl
      refine .pure ?_
      symm
      apply Bool.eq_false_iff.mpr
      intro he
      apply hl
      rw [← ha.wellFormed.length_toList, ← hb.wellFormed.length_toList]
      exact List.length_eq_of_beq (Bool.and_eq_true_iff.mp he).2
    · refine .bind (ha.hashCode hh) ?_
      rintro mid _ he rfl
      refine .bind ((hb.extend he).hashCode hh) ?_
      rintro later _ he' rfl
      split
      · rename_i hn
        exact .pure (by rw [beq_false_of_ne hn, Bool.false_and])
      · rename_i hn
        refine .pure ?_
        rw [Decidable.not_not.mp hn, beq_self_eq_true, Bool.true_and,
          ha.wellFormed.elementsEqual_eq hb.wellFormed]

theorem Sequence.Sound.equals_eq_beq (ha : a.Sound (some hash) owners)
    (hb : b.Sound (some hash) owners) :
    Builds (some hash) owners (a.equals b) fun _ r => r = (a == b) := by
  rw [ha.wellFormed.beq_eq_shortcuts hb.wellFormed]
  exact ha.equals (Option.mem_some_self hash) hb

theorem Sequence.Sound.equals_of_toList_eq [ReflBEq α] (hh : hash ∈ hashing)
    (ha : a.Sound hashing owners) (hb : b.Sound hashing owners) (he : a.toList = b.toList) :
    Builds hashing owners (a.equals b) fun _ r => r = true := by
  refine (ha.equals hh hb).mono ?_
  rintro later _ - rfl
  rw [he, beq_self_eq_true, BEq.rfl, Bool.and_self, Bool.or_true]

end

namespace Cursor

variable {c d : Cursor α} {xs ys : List α}

theorem Pending.compareWithin_eq [Ord α] (hc : c.Pending xs) (hd : d.Pending ys) {moves : Nat}
    (hm : xs.length < moves) :
    compareWithin moves c d = List.compareLex compare xs ys := by
  induction moves generalizing c d xs ys with
  | zero => exact absurd hm (Nat.not_lt_zero _)
  | succ moves ih =>
    cases xs with
    | nil =>
      have hcn : c.next = (none, c) := hc.next_nil
      cases ys with
      | nil =>
        have hdn : d.next = (none, d) := hd.next_nil
        rw [compareWithin, hcn, hdn, List.compareLex_nil_nil]
      | cons y ys =>
        obtain ⟨d', hdn, -⟩ := hd.next_cons
        rw [compareWithin, hcn, hdn, List.compareLex_nil_cons]
    | cons x xs =>
      obtain ⟨c', hcn, hc'⟩ := hc.next_cons
      cases ys with
      | nil =>
        have hdn : d.next = (none, d) := hd.next_nil
        rw [compareWithin, hcn, hdn, List.compareLex_cons_nil]
      | cons y ys =>
        obtain ⟨d', hdn, hd'⟩ := hd.next_cons
        have hrest := ih hc' hd' (Nat.lt_of_succ_lt_succ hm)
        rw [compareWithin, hcn, hdn, List.compareLex_cons_cons, ← hrest]
        dsimp only
        cases compare x y <;> rfl

theorem partialCompareWithin_some [Ord α] (moves : Nat) (c d : Cursor α) :
    partialCompareWithin (fun x y => some (compare x y)) moves c d =
      some (compareWithin moves c d) := by
  induction moves generalizing c d with
  | zero => rfl
  | succ moves ih =>
    rw [partialCompareWithin, compareWithin]
    rcases c.next with ⟨_ | x, c⟩ <;> rcases d.next with ⟨_ | y, d⟩
    · rfl
    · rfl
    · rfl
    · dsimp only
      cases compare x y with
      | eq => exact ih c d
      | lt | gt => rfl

theorem Pending.firstDifference?_eq (order : α → α → Ordering) (hc : c.Pending xs)
    (hd : d.Pending ys) {moves : Nat} (hm : xs.length < moves) :
    firstDifference? order moves c d = (List.zipWith order xs ys).find? (· ≠ .eq) := by
  induction moves generalizing c d xs ys with
  | zero => exact absurd hm (Nat.not_lt_zero _)
  | succ moves ih =>
    cases xs with
    | nil =>
      have hcn : c.next = (none, c) := hc.next_nil
      rw [firstDifference?, hcn, List.zipWith_nil_left]
      rfl
    | cons x xs =>
      obtain ⟨c', hcn, hc'⟩ := hc.next_cons
      cases ys with
      | nil =>
        have hdn : d.next = (none, d) := hd.next_nil
        rw [firstDifference?, hcn, hdn, List.zipWith_nil_right]
        rfl
      | cons y ys =>
        obtain ⟨d', hdn, hd'⟩ := hd.next_cons
        have hrest := ih hc' hd' (Nat.lt_of_succ_lt_succ hm)
        rw [firstDifference?, hcn, hdn, List.zipWith_cons_cons, List.find?_cons, ← hrest]
        dsimp only
        cases order x y <;> rfl

end Cursor

theorem Sequence.partialCompare_some [Ord α] (a b : Sequence α) :
    a.partialCompare (fun x y => some (compare x y)) b = some (a.lexCompare b) :=
  Cursor.partialCompareWithin_some _ _ _

section

variable [BEq α] {hashing : Option (ElementHash α)} {hash : ElementHash α} {a b : Sequence α}

theorem Sequence.WellFormed.lexCompare_eq [Ord α] (ha : a.WellFormed hashing)
    (hb : b.WellFormed hashing) : a.lexCompare b = List.compareLex compare a.toList b.toList :=
  ha.pending_cursor.compareWithin_eq hb.pending_cursor
    (by rw [ha.length_toList]; exact Nat.lt_succ_self _)

theorem Sequence.WellFormed.compareWith_eq (order : α → α → Ordering) (ha : a.WellFormed hashing)
    (hb : b.WellFormed hashing) : a.compareWith order b =
      ((List.zipWith order a.toList b.toList).find? (· ≠ .eq)).getD
        (compare a.toList.length b.toList.length) := by
  have hl : a.toList.length < a.length + 1 := by
    rw [ha.length_toList]
    exact Nat.lt_succ_self _
  rw [compareWith, ha.pending_cursor.firstDifference?_eq order hb.pending_cursor hl,
    ha.length_toList, hb.length_toList]
  cases (List.zipWith order a.toList b.toList).find? (· ≠ .eq) <;> rfl

variable {owners : Owners α} {make : StoreM (Sequence α)} {made : List (Sequence α)}

theorem Operation.sound (hm : Operation hashing made make)
    (h : ∀ s ∈ made, s.Sound hashing owners) :
    Builds hashing owners make fun later s => s.Sound hashing later := by
  have hmakes {items : List α} (hm : Makes hashing owners make items) :
      Builds hashing owners make fun later s => s.Sound hashing later :=
    hm.mono fun _ _ _ hs => hs.1
  cases hm with
  | empty => exact hmakes makes_empty
  | replicate count value => exact hmakes (makes_replicate count value)
  | ofArray items => exact hmakes (makes_ofArray items)
  | ofBuffer items => exact hmakes (makes_ofBuffer items)
  | concat ha hb => exact hmakes ((h _ ha).concat (h _ hb))
  | concatAll hp => exact hmakes (makes_concatAll fun part hm => h part (hp part hm))
  | combineAll hp => exact hmakes (makes_combineAll fun part hm => h part (hp part hm))
  | reduceAll hp hm => exact hmakes (makes_reduceAll (fun part hm => h part (hp part hm)) hm)
  | slice ha hm => exact hmakes ((h _ ha).slice hm).2
  | reverse ha => exact hmakes (h _ ha).reverse
  | compactFlat ha => exact (h _ ha).compactFlat.mono fun _ _ _ hs => hs.1
  | compact hh ha withIndex => exact ((h _ ha).compact hh withIndex).mono fun _ _ _ hs => hs.1

/-- In a run every cell of a made sequence belongs to one node, and no memo is wrong. -/
theorem Run.sound {store : Store} (h : Run hashing store made) :
    ∃ owners, Coherent hashing owners store ∧ ∀ s ∈ made, s.Sound hashing owners := by
  induction h with
  | start => exact ⟨[], .empty, by simp⟩
  | @make store made make _ hm ih =>
    obtain ⟨owners, hc, hs⟩ := ih
    obtain ⟨later, he, hc', hs'⟩ := hm.sound hs store hc
    exact ⟨later, hc', List.forall_mem_cons.mpr ⟨hs', Sound.extend_all hs he⟩⟩
  | hashCode _ hh ha ih =>
    obtain ⟨owners, hc, hs⟩ := ih
    obtain ⟨later, he, hc', -⟩ := (hs _ ha).hashCode hh _ hc
    exact ⟨later, hc', Sound.extend_all hs he⟩
  | equals _ hh ha hb ih =>
    obtain ⟨owners, hc, hs⟩ := ih
    obtain ⟨later, he, hc', -⟩ := (hs _ ha).equals hh (hs _ hb) _ hc
    exact ⟨later, hc', Sound.extend_all hs he⟩

/-- What is remembered changes no answer. -/
theorem Run.equals_eq_beq {store : Store} (h : Run (some hash) store made) (ha : a ∈ made)
    (hb : b ∈ made) : ((a.equals b).run store).1 = (a == b) := by
  obtain ⟨owners, hc, hs⟩ := h.sound
  obtain ⟨-, -, -, he⟩ := (hs _ ha).equals_eq_beq (hs _ hb) store hc
  exact he

end

end SharedSequence
