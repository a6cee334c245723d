import SharedSequence.Proofs.Comparison

namespace SharedSequence

open Sequence

variable {α : Type}

def Sequence.groupings (a b c : Sequence α) : StoreM (Sequence α × Sequence α) := do
  let left ← (← a.concat b).concat c
  let right ← a.concat (← b.concat c)
  return (left, right)

theorem Sequence.toList_eq_of_leaves_eq {s t : Sequence α} (h : s.leaves = t.leaves) :
    s.toList = t.toList := by
  rw [toList_eq_flatMap_leaves, h, ← toList_eq_flatMap_leaves]

variable [BEq α] {hashing : Option (ElementHash α)} {owners : Owners α} {store : Store}
  {made : List (Sequence α)} {a b c : Sequence α}

theorem Sequence.Sound.concat_leaves (ha : a.Sound hashing owners) (hb : b.Sound hashing owners) :
    Builds hashing owners (a.concat b) fun later s =>
      s.Sound hashing later ∧ s.leaves = a.leaves ++ b.leaves := by
  refine ((ha.concat hb).and_yields (ha.wellFormed.leaves_concat hb.wellFormed)).mono ?_
  rintro later s - ⟨⟨hs, -⟩, hl⟩
  exact ⟨hs, hl⟩

theorem Sequence.Sound.groupings_leaves (ha : a.Sound hashing owners)
    (hb : b.Sound hashing owners) (hc : c.Sound hashing owners) :
    Builds hashing owners (groupings a b c) fun later r =>
      r.1.Sound hashing later ∧ r.2.Sound hashing later ∧
        r.1.leaves = a.leaves ++ (b.leaves ++ c.leaves) ∧ r.1.leaves = r.2.leaves := by
  refine .bind (ha.concat_leaves hb) ?_
  rintro w₁ ab h₁ ⟨hab, habl⟩
  refine .bind (hab.concat_leaves (hc.extend h₁)) ?_
  rintro w₂ left h₂ ⟨hleft, hleftl⟩
  have h₁₂ := h₁.trans h₂
  refine .bind ((hb.extend h₁₂).concat_leaves (hc.extend h₁₂)) ?_
  rintro w₃ bc h₃ ⟨hbc, hbcl⟩
  refine .bind ((ha.extend (h₁₂.trans h₃)).concat_leaves hbc) ?_
  rintro w₄ right h₄ ⟨hright, hrightl⟩
  rw [habl, List.append_assoc] at hleftl
  rw [hbcl] at hrightl
  exact .pure ⟨hleft.extend (h₃.trans h₄), hright, hleftl, hleftl.trans hrightl.symm⟩

theorem Sequence.Sound.concat_reads (ha : a.Sound hashing owners) (hb : b.Sound hashing owners) :
    Builds hashing owners (a.concat b) fun _ s =>
      s.leaves = a.leaves ++ b.leaves ∧ s.length = a.length + b.length ∧
        s.toList = a.toList ++ b.toList ∧
        ∀ i, s.get? i = if i < a.length then a.get? i else b.get? (i - a.length) := by
  refine ((ha.concat hb).and_yields (ha.wellFormed.leaves_concat hb.wellFormed)).mono ?_
  rintro later s - ⟨⟨hs, he⟩, hl⟩
  refine ⟨hl, ?_, he, ?_⟩
  · rw [← hs.wellFormed.length_toList, he, List.length_append, ha.wellFormed.length_toList,
      hb.wellFormed.length_toList]
  · intro i
    rw [hs.wellFormed.get?_eq, he, List.getElem?_append, ha.wellFormed.length_toList,
      ha.wellFormed.get?_eq, hb.wellFormed.get?_eq]

/-- Sequences with the same elements have one hash, and equal each other where elements equal
themselves. -/
theorem Sequence.Sound.hash_and_equality {hash : ElementHash α} (hh : hash ∈ hashing)
    (ha : a.Sound hashing owners) (hb : b.Sound hashing owners) (he : a.toList = b.toList)
    (hco : Coherent hashing owners store) :
    (a.hashCode.run store).1 = (b.hashCode.run store).1 ∧
      (ReflBEq α → ((a.equals b).run store).1 = true) := by
  constructor
  · obtain ⟨_, -, -, haw⟩ := ha.hashCode hh _ hco
    obtain ⟨_, -, -, hbw⟩ := hb.hashCode hh _ hco
    rw [haw, hbw, he]
  · intro hrefl
    obtain ⟨_, -, -, heq⟩ := ha.equals_of_toList_eq hh hb he _ hco
    exact heq

theorem Sequence.WellFormed.lexCompare_of_toList_eq [Ord α] (ha : a.WellFormed hashing)
    (hb : b.WellFormed hashing) (hc : c.WellFormed hashing) (he : a.toList = b.toList) :
    a.lexCompare c = b.lexCompare c ∧ c.lexCompare a = c.lexCompare b := by
  rw [ha.lexCompare_eq hc, hb.lexCompare_eq hc, hc.lexCompare_eq ha, hc.lexCompare_eq hb, he]
  exact ⟨rfl, rfl⟩

/-- In a run, a concatenation has the leaves of both operands in order, hence their elements, and
an empty operand gives the other one itself. Both groupings of three operands have the same leaves;
they have one hash, equal each other where elements equal themselves, and compare alike with every
sequence. -/
theorem Run.concat_keeps_leaves (h : Run hashing store made) (ha : a ∈ made) (hb : b ∈ made)
    (hc : c ∈ made) :
    (∃ s store', (a.concat b).run store = (s, store') ∧ s.leaves = a.leaves ++ b.leaves ∧
      s.length = a.length + b.length ∧ s.toList = a.toList ++ b.toList ∧
      ∀ i, s.get? i = if i < a.length then a.get? i else b.get? (i - a.length)) ∧
      (b.isEmpty = true → a.concat b = return a) ∧
      (a.isEmpty = true → b.isEmpty = false → a.concat b = return b) ∧
      ∃ left right store', (groupings a b c).run store = ((left, right), store') ∧
        left.leaves = right.leaves ∧ left.toList = right.toList ∧
        (∀ hash : ElementHash α, hash ∈ hashing →
          (left.hashCode.run store').1 = (right.hashCode.run store').1 ∧
          (ReflBEq α → ((left.equals right).run store').1 = true)) ∧
        ∀ [Ord α],
          (∀ d ∈ made, left.lexCompare d = right.lexCompare d ∧
            d.lexCompare left = d.lexCompare right) ∧
          (Std.ReflOrd α → left.lexCompare right = .eq) := by
  obtain ⟨owners, hco, hs⟩ := h.sound
  have hsa := hs a ha
  have hsb := hs b hb
  refine ⟨?_, ?_, ?_, ?_⟩
  · obtain ⟨later, -, -, hr⟩ := hsa.concat_reads hsb store hco
    exact ⟨_, _, rfl, hr⟩
  · intro he
    rw [Sequence.concat, if_pos he]
  · intro he hn
    rw [Sequence.concat, if_neg (by rw [hn]; exact Bool.false_ne_true), if_pos he]
  · obtain ⟨later, -, hco', hl, hr, -, hlr⟩ := hsa.groupings_leaves hsb (hs c hc) store hco
    rcases hrun : (groupings a b c).run store with ⟨⟨left, right⟩, store'⟩
    rw [hrun] at hco' hl hr hlr
    have he := toList_eq_of_leaves_eq hlr
    refine ⟨left, right, store', rfl, hlr, he, ?_, ?_⟩
    · intro hash hh
      exact hl.hash_and_equality hh hr he hco'
    · intro _
      constructor
      · intro d hd
        exact hl.wellFormed.lexCompare_of_toList_eq hr.wellFormed (hs d hd).wellFormed he
      · intro hrefl
        rw [hl.wellFormed.lexCompare_eq hr.wellFormed, he]
        exact Std.ReflCmp.compare_self

theorem concat_keeps_leaves_mixed : ∃ store s store',
    (mixed.concat mixed).run store = (s, store') ∧ s.leaves = mixed.leaves ++ mixed.leaves ∧
      ∃ left right store', (groupings mixed mixed mixed).run store = ((left, right), store') ∧
        left.leaves = right.leaves ∧ ((@equals _ _ parity left right).run store').1 = true ∧
        left.lexCompare right = .eq := by
  obtain ⟨store, made, h, hm⟩ := reachable_mixed
  obtain ⟨⟨s, store', hr, hl, -⟩, -, -, left, right, later, hg, hlr, -, hh, ho⟩ :=
    h.concat_keeps_leaves hm hm hm
  exact ⟨store, s, store', hr, hl, left, right, later, hg, hlr,
    (hh parity (Option.mem_some_self parity)).2 inferInstance, ho.2 inferInstance⟩

end SharedSequence
