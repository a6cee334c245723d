import SharedSequence.Proofs.Elements

namespace SharedSequence

theorem Yields.and {β : Type} {P Q : β → Prop} {computation : StoreM β}
    (h : Yields computation P) (h' : Yields computation Q) :
    Yields computation fun b => P b ∧ Q b :=
  fun store => ⟨h store, h' store⟩

namespace Sequence

variable {α : Type}

def JoinPart.leaves : JoinPart α → List (Sequence α)
  | .whole s => s.leaves
  | .pair left right => left.leaves ++ right.leaves

theorem rotateLeft_leaves {a b : Sequence α} (h : rotateLeft a b = some (low, high)) :
    low.leaves ++ high.leaves = a.leaves ++ b.leaves := by
  unfold rotateLeft at h
  split at h
  all_goals cases h
  all_goals simp only [JoinPart.leaves, Sequence.leaves, List.append_assoc]

theorem rotateRight_leaves {a b : Sequence α} (h : rotateRight b a = some (low, high)) :
    low.leaves ++ high.leaves = a.leaves ++ b.leaves := by
  unfold rotateRight at h
  split at h
  all_goals cases h
  all_goals simp only [JoinPart.leaves, Sequence.leaves, List.append_assoc]

theorem rotate_leaves {a b : Sequence α} (h : rotate a b = some (low, high)) :
    low.leaves ++ high.leaves = a.leaves ++ b.leaves := by
  unfold rotate at h
  split at h
  · exact rotateLeft_leaves h
  · split at h
    · exact rotateRight_leaves h
    · cases h

/-- The recursion of a join keeps every leaf in its place. -/
theorem Resolves.leaves {part : JoinPart α} (h : Resolves depth part store s store') :
    s.leaves = part.leaves := by
  induction h with
  | whole => rfl
  | link => rfl
  | rotated h _ _ _ ihl ihh iho =>
    rw [iho, JoinPart.leaves, ihl, ihh]
    exact rotate_leaves h

theorem Balanced.leaves_join {a b : Sequence α} (ha : a.Balanced) (hb : b.Balanced) :
    Yields (join a b) fun s => s.leaves = a.leaves ++ b.leaves := by
  intro store
  obtain ⟨s, store', hs, -, hr⟩ := ha.join_resolves hb store
  rw [hr]
  exact hs.leaves

theorem toList_eq_flatMap_leaves (s : Sequence α) : s.toList = s.leaves.flatMap toList := by
  induction s with
  | nil => rfl
  | run | flat | indexed | window | reversed => exact (List.flatMap_singleton _ _).symm
  | link cell left right bias count ihl ihr =>
    rw [leaves, List.flatMap_append, toList, ihl, ihr]

theorem reverse_eq_self_of_short {items : List α} (h : items.length < 2) :
    items.reverse = items := by
  match items, h with
  | [], _ | [_], _ => rfl

variable [BEq α] {hashing : Option (ElementHash α)}

theorem WellFormed.leaves_eq_nil {s : Sequence α} (h : s.WellFormed hashing)
    (hs : s.isEmpty = true) : s.leaves = [] := by
  obtain ⟨cell, rfl⟩ := h.length_eq_zero_iff.mp (eq_of_beq hs)
  rfl

theorem WellFormed.leaves_concat {a b : Sequence α} (ha : a.WellFormed hashing)
    (hb : b.WellFormed hashing) :
    Yields (a.concat b) fun s => s.leaves = a.leaves ++ b.leaves := by
  unfold Sequence.concat
  split
  · rename_i he
    rw [hb.leaves_eq_nil he, List.append_nil]
    exact .pure rfl
  · split
    · rename_i he
      rw [ha.leaves_eq_nil he]
      exact .pure rfl
    · exact ha.balanced.leaves_join hb.balanced

theorem WellFormed.toList_concat {a b : Sequence α} (ha : a.WellFormed hashing)
    (hb : b.WellFormed hashing) :
    Yields (a.concat b) fun s => s.toList = a.toList ++ b.toList := by
  refine (ha.leaves_concat hb).mono ?_
  intro s hs
  rw [toList_eq_flatMap_leaves, hs, List.flatMap_append, ← toList_eq_flatMap_leaves,
    ← toList_eq_flatMap_leaves]

theorem WellFormed.toList_reverse {s : Sequence α} (h : s.WellFormed hashing) :
    Yields s.reverse fun t => t.toList = s.toList.reverse := by
  unfold Sequence.reverse
  split
  · rename_i hs
    exact .pure (reverse_eq_self_of_short (by rw [h.length_toList]; exact hs)).symm
  · cases s with
    | reversed cell base => exact .pure (List.reverse_reverse _).symm
    | run cell value count => exact .pure List.reverse_replicate.symm
    | nil | flat | indexed | window | link => exact .bind_any fun cell => .pure rfl

theorem WellFormed.toList_cut {s : Sequence α} {offset length : Nat} (h : s.WellFormed hashing)
    (hw : offset + length ≤ s.length) :
    Yields (s.cut offset length) fun t => t.toList = slots s.toList offset length := by
  fun_induction Sequence.cut s offset length with
  | case1 s offset length hall =>
    obtain ⟨rfl, rfl⟩ := hall
    refine .pure ?_
    rw [← h.length_toList, slots_all]
  | case2 s offset h0 => exact .bind_any fun cell => .pure (by rw [slots, List.take_zero]; rfl)
  | case3 offset length h0 hl => simp only [Sequence.length] at hw; omega
  | case4 offset length hl _ value count =>
    simp only [Sequence.length] at hw
    refine .bind_any fun cell => .pure ?_
    rw [toList, toList, slots, List.drop_replicate, List.take_replicate, Nat.min_eq_left (by omega)]
  | case5 offset length hl _ items start count _ =>
    simp only [Sequence.length] at hw
    exact .bind_any fun cell => .pure (slots_slots hw).symm
  | case6 => exact .bind_any fun cell => .pure rfl
  | case7 offset length hl _ base start count _ ih =>
    obtain ⟨⟨-, -, -, hi⟩, hb⟩ := wellFormed_window.mp h
    simp only [Sequence.length] at hw
    refine (ih hb (by omega)).mono ?_
    intro t ht
    exact ht.trans (slots_slots hw).symm
  | case8 offset length hl _ base _ ih =>
    obtain ⟨-, hb⟩ := wellFormed_reversed.mp h
    simp only [Sequence.length] at hw
    have hmirror : base.length - offset - length + length ≤ base.length := by omega
    refine .bind ((hb.cut hmirror).and (ih hb hmirror)) ?_
    rintro t ⟨ht, he⟩
    refine ht.toList_reverse.mono ?_
    intro r hr
    rw [hr, he, toList, slots_reverse (by rw [hb.length_toList]; exact hw), hb.length_toList]
  | case9 offset length hl _ left right bias count ho _ ih =>
    obtain ⟨⟨-, -, -, hc⟩, hwl, hwr⟩ := wellFormed_link.mp h
    simp only [Sequence.length] at hw
    refine (ih hwr (by omega)).mono ?_
    intro t ht
    rw [ht, toList, slots_append_right (by rw [hwl.length_toList]; exact ho), hwl.length_toList]
  | case10 offset length hl _ left right bias count ho he _ ih =>
    obtain ⟨-, hwl, -⟩ := wellFormed_link.mp h
    refine (ih hwl he).mono ?_
    intro t ht
    rw [ht, toList, slots_append_left (by rw [hwl.length_toList]; exact he)]
  | case11 offset length hl _ left right bias count ho he _ ihl ihr =>
    obtain ⟨⟨-, -, -, hc⟩, hwl, hwr⟩ := wellFormed_link.mp h
    simp only [Sequence.length] at hw
    have hlow : offset + (left.length - offset) ≤ left.length := by omega
    have hhigh : 0 + (offset + length - left.length) ≤ right.length := by omega
    refine .bind ((hwl.cut hlow).and (ihl hwl hlow)) ?_
    rintro low ⟨hlw, hel⟩
    refine .bind ((hwr.cut hhigh).and (ihr hwr hhigh)) ?_
    rintro high ⟨hhw, heh⟩
    refine (hlw.toList_concat hhw).mono ?_
    intro t ht
    rw [ht, hel, heh, toList, slots_append_across (by rw [hwl.length_toList]; omega)
      (by rw [hwl.length_toList]; omega), hwl.length_toList]

end Sequence

end SharedSequence
