import Mathlib.Data.Nat.Log
import SharedSequence.Proofs.Balance
import SharedSequence.Proofs.Reductions

namespace SharedSequence

namespace Sequence

variable {α : Type} {n : Nat}

theorem clog_halves (h : 2 ≤ n) : Nat.clog 2 n = Nat.clog 2 (n - n / 2) + 1 := by
  rw [Nat.clog_of_two_le Nat.one_lt_two h]
  congr 2
  omega

theorem clog_half_le : Nat.clog 2 (n / 2) ≤ Nat.clog 2 (n - n / 2) :=
  Nat.clog_mono_right 2 (by omega)

theorem clog_le_half (h : 2 ≤ n) : Nat.clog 2 (n - n / 2) ≤ Nat.clog 2 (n / 2) + 1 := by
  apply Nat.clog_le_of_le_pow
  have hlow : n / 2 ≤ 2 ^ Nat.clog 2 (n / 2) := Nat.le_pow_clog Nat.one_lt_two _
  rw [Nat.pow_succ]
  omega

variable {a b s : Sequence α} {parts : List (Sequence α)}

@[elab_as_elim]
theorem halving_induction {motive : List (Sequence α) → Prop} (parts : List (Sequence α))
    (empty : motive []) (single : ∀ part, motive [part])
    (halves : ∀ parts, 2 ≤ parts.length → motive (parts.take (parts.length / 2)) →
      motive (parts.drop (parts.length / 2)) → motive parts) : motive parts := by
  induction parts using concatAll.induct with
  | case1 => exact empty
  | case2 part => exact single part
  | case3 first second rest ihl ihh => exact halves _ (by simp) ihl ihh

theorem concatAll_halves (h : 2 ≤ parts.length) :
    concatAll parts = (do
      let low ← concatAll (parts.take (parts.length / 2))
      let high ← concatAll (parts.drop (parts.length / 2))
      low.concat high) := by
  match parts, h with
  | _ :: _ :: _, _ => rw [concatAll]

theorem length_take_half (parts : List (Sequence α)) :
    (parts.take (parts.length / 2)).length = parts.length / 2 := by
  rw [List.length_take]
  omega

theorem forall_halves {P : Sequence α → Prop} (h : ∀ part ∈ parts, P part) (k : Nat) :
    (∀ part ∈ parts.take k, P part) ∧ ∀ part ∈ parts.drop k, P part :=
  ⟨fun part hm => h part (List.mem_of_mem_take hm), fun part hm => h part (List.mem_of_mem_drop hm)⟩

theorem take_half_ne_nil (h : 2 ≤ parts.length) : parts.take (parts.length / 2) ≠ [] := by
  rw [← List.length_pos_iff, length_take_half]
  omega

theorem drop_half_ne_nil (h : 2 ≤ parts.length) : parts.drop (parts.length / 2) ≠ [] := by
  rw [← List.length_pos_iff, List.length_drop]
  omega

/-- Whatever a join rotates, it adds no more than one level. -/
theorem Balanced.concat (ha : a.Balanced) (hb : b.Balanced) :
    Yields (a.concat b) fun s => s.Balanced ∧ s.shape ≤ max a.shape b.shape + 1 := by
  unfold Sequence.concat
  split
  · exact .pure ⟨ha, by omega⟩
  · split
    · exact .pure ⟨hb, by omega⟩
    · intro store
      obtain ⟨s, store', -, ⟨hs, -, hle⟩, hr⟩ := ha.join_resolves hb store
      rw [hr]
      exact ⟨hs, hle⟩

theorem shape_concatAll_le {highest : Nat} (hp : parts ≠ [])
    (h : ∀ part ∈ parts, part.Balanced ∧ part.shape ≤ highest) :
    Yields (concatAll parts) fun s =>
      s.Balanced ∧ s.shape ≤ Nat.clog 2 parts.length + highest := by
  induction parts using halving_induction with
  | empty => exact absurd rfl hp
  | single part =>
    rw [concatAll]
    obtain ⟨hb, hs⟩ := h part (List.mem_singleton_self part)
    exact .pure ⟨hb, Nat.le_add_left_of_le hs⟩
  | halves parts h2 ihl ihh =>
    obtain ⟨htake, hdrop⟩ := forall_halves h (parts.length / 2)
    rw [concatAll_halves h2]
    refine .bind (ihl (take_half_ne_nil h2) htake) ?_
    rintro low ⟨hl, hlow⟩
    refine .bind (ihh (drop_half_ne_nil h2) hdrop) ?_
    rintro high ⟨hh, hhigh⟩
    refine (hl.concat hh).mono ?_
    rintro s ⟨hs, hle⟩
    rw [length_take_half] at hlow
    rw [List.length_drop] at hhigh
    have hhalf : Nat.clog 2 (parts.length / 2) ≤ _ := clog_half_le
    rw [clog_halves h2]
    exact ⟨hs, by omega⟩

/-- The root of the tree is not a link. -/
def Unlinked : Sequence α → Prop
  | link _ _ _ _ _ => False
  | _ => True

/-- `concatAll` with plain links in place of joins. -/
def linkHalves (parts : List (Sequence α)) : StoreM (Sequence α) :=
  match parts with
  | [] => empty
  | [part] => return part
  | parts@(_ :: _ :: _) => do
    let low ← linkHalves (parts.take (parts.length / 2))
    let high ← linkHalves (parts.drop (parts.length / 2))
    linkOf low high
termination_by parts.length
decreasing_by all_goals grind

/-- The tree splits its parts into halves at each of its links, the smaller one on the left, and no
two subtrees that are linked would be rotated by a join. -/
inductive Halved : List (Sequence α) → Sequence α → Prop where
  | part (s : Sequence α) : Halved [s] s
  | halves {parts : List (Sequence α)} {low high : Sequence α} (cell : Cell)
      (h2 : 2 ≤ parts.length) (hl : Halved (parts.take (parts.length / 2)) low)
      (hh : Halved (parts.drop (parts.length / 2)) high) (hr : rotate low high = none) :
      Halved parts
        (link cell low high (.ofShapes low.shape high.shape) (low.length + high.length))

theorem linkHalves_halves (h : 2 ≤ parts.length) :
    linkHalves parts = (do
      let low ← linkHalves (parts.take (parts.length / 2))
      let high ← linkHalves (parts.drop (parts.length / 2))
      linkOf low high) := by
  match parts, h with
  | _ :: _ :: _, _ => rw [linkHalves]

theorem Unlinked.shape_eq (h : s.Unlinked) : s.shape = 0 := by
  cases s with
  | link => exact h.elim
  | nil | run | flat | indexed | window | reversed => rfl

theorem near_of_clog (h2 : 2 ≤ n) (ha : a.shape = Nat.clog 2 (n / 2))
    (hb : b.shape = Nat.clog 2 (n - n / 2)) : a.Near b := by
  have hle : Nat.clog 2 (n / 2) ≤ Nat.clog 2 (n - n / 2) := clog_half_le
  have hge := clog_le_half h2
  exact ⟨by omega, by omega⟩

theorem Halved.shape_eq (h : Halved parts s) (hu : ∀ part ∈ parts, part.Unlinked) :
    s.shape = Nat.clog 2 parts.length := by
  induction h with
  | part s =>
    rw [(hu s (List.mem_singleton_self s)).shape_eq, List.length_singleton, Nat.clog_one_right]
  | @halves parts low high cell h2 _ _ _ ihl ihh =>
    obtain ⟨htake, hdrop⟩ := forall_halves hu (parts.length / 2)
    have hlow := ihl htake
    have hhigh := ihh hdrop
    rw [length_take_half] at hlow
    rw [List.length_drop] at hhigh
    obtain ⟨hn, hn'⟩ := near_of_clog h2 hlow hhigh
    -- The upper half has the larger number of parts, hence the larger shape.
    have hle : Nat.clog 2 (parts.length / 2) ≤ _ := clog_half_le
    rw [shape_link cell _ (Bias.ofShapes_fits hn hn'), clog_halves h2]
    omega

theorem Halved.isEmpty_eq_false (h : Halved parts s)
    (he : ∀ part ∈ parts, part.isEmpty = false) : s.isEmpty = false := by
  induction h with
  | part s => exact he s (List.mem_singleton_self s)
  | @halves parts _ _ cell _ _ _ _ ihl _ =>
    have hlow := ihl (forall_halves he (parts.length / 2)).1
    simp only [isEmpty, length, beq_eq_false_iff_ne] at hlow ⊢
    omega

theorem Halved.rotate_eq_none {low high : Sequence α}
    (hl : Halved (parts.take (parts.length / 2)) low)
    (hh : Halved (parts.drop (parts.length / 2)) high) (h2 : 2 ≤ parts.length)
    (hu : ∀ part ∈ parts, part.Unlinked) : rotate low high = none := by
  obtain ⟨htake, hdrop⟩ := forall_halves hu (parts.length / 2)
  have hlow := hl.shape_eq htake
  have hhigh := hh.shape_eq hdrop
  rw [length_take_half] at hlow
  rw [List.length_drop] at hhigh
  exact (near_of_clog h2 hlow hhigh).rotate_eq_none

theorem halved_linkHalves (hp : parts ≠ []) (hu : ∀ part ∈ parts, part.Unlinked) :
    Yields (linkHalves parts) (Halved parts) := by
  induction parts using halving_induction with
  | empty => exact absurd rfl hp
  | single part =>
    rw [linkHalves]
    exact .pure (.part part)
  | halves parts h2 ihl ihh =>
    obtain ⟨htake, hdrop⟩ := forall_halves hu (parts.length / 2)
    rw [linkHalves_halves h2]
    refine .bind (ihl (take_half_ne_nil h2) htake) fun low hl => ?_
    refine .bind (ihh (drop_half_ne_nil h2) hdrop) fun high hh => ?_
    exact .bind_any fun cell => .pure (.halves cell h2 hl hh (hl.rotate_eq_none hh h2 hu))

theorem concat_eq_linkOf (ha : a.isEmpty = false) (hb : b.isEmpty = false)
    (hr : rotate a b = none) : a.concat b = linkOf a b := by
  rw [concat, if_neg (by simp [hb]), if_neg (by simp [ha])]
  funext store
  simp only [join, joinFuel, joinWithin, hr]
  rfl

theorem concatAll_eq_linkHalves (he : ∀ part ∈ parts, part.isEmpty = false)
    (hu : ∀ part ∈ parts, part.Unlinked) : concatAll parts = linkHalves parts := by
  induction parts using halving_induction with
  | empty => rw [concatAll, linkHalves]
  | single part => rw [concatAll, linkHalves]
  | halves parts h2 ihl ihh =>
    obtain ⟨hetake, hedrop⟩ := forall_halves he (parts.length / 2)
    obtain ⟨hutake, hudrop⟩ := forall_halves hu (parts.length / 2)
    rw [concatAll_halves h2, linkHalves_halves h2, ihl hetake hutake, ihh hedrop hudrop]
    -- Only of the trees that the halves give is it known that a join does not rotate them.
    refine (halved_linkHalves (take_half_ne_nil h2) hutake).bind_congr fun low hl => ?_
    refine (halved_linkHalves (drop_half_ne_nil h2) hudrop).bind_congr fun high hh => ?_
    exact concat_eq_linkOf (hl.isEmpty_eq_false hetake) (hh.isEmpty_eq_false hedrop)
      (hl.rotate_eq_none hh h2 hu)

/-- A tree has no more leaves than its height allows, whether it is balanced or not. -/
theorem length_leaves_le (s : Sequence α) : s.leaves.length ≤ 2 ^ s.height := by
  induction s with
  | nil | run | flat | indexed | window | reversed => simp [leaves, height]
  | link cell left right bias count ihl ihr =>
    have hl : 2 ^ left.height ≤ 2 ^ max left.height right.height :=
      Nat.pow_le_pow_right Nat.two_pos (Nat.le_max_left _ _)
    have hr : 2 ^ right.height ≤ 2 ^ max left.height right.height :=
      Nat.pow_le_pow_right Nat.two_pos (Nat.le_max_right _ _)
    rw [leaves, height, List.length_append, Nat.pow_add]
    omega

end Sequence

open Sequence

variable {α : Type} [BEq α] {hashing : Option (ElementHash α)} {parts : List (Sequence α)}

/-- By halving, parts of any shapes are concatenated to a sequence that is above the highest of them
by at most the logarithm of their number. Where no part is empty or a link, the concatenation links
the halves as they are, the sequence is as high as that logarithm, and every tree with as many
leaves is at least as high. -/
theorem concatAll_shallowest (hp : parts ≠ []) (hr : ∀ part ∈ parts, Reachable hashing part) :
    (∃ highest, (parts.map shape).max? = some highest ∧
      Yields (concatAll parts) fun s => s.shape ≤ Nat.clog 2 parts.length + highest) ∧
    ((∀ part ∈ parts, part.isEmpty = false ∧ part.Unlinked) →
      concatAll parts = linkHalves parts ∧
        Yields (concatAll parts) fun s => Halved parts s ∧ s.shape = Nat.clog 2 parts.length ∧
          ∀ t : Sequence α, parts.length ≤ t.leaves.length → s.shape ≤ t.height) := by
  constructor
  · obtain ⟨highest, hm⟩ : ∃ highest, (parts.map shape).max? = some highest :=
      Option.isSome_iff_exists.mp (by simpa using hp)
    refine ⟨highest, hm, ?_⟩
    have hle : ∀ part ∈ parts, part.shape ≤ highest := fun part hpart =>
      (List.max?_eq_some_iff.mp hm).2 _ (List.mem_map_of_mem hpart)
    exact (shape_concatAll_le hp fun part hpart =>
      ⟨(hr part hpart).wellFormed.balanced, hle part hpart⟩).mono fun s hs => hs.2
  · intro h
    have he : ∀ part ∈ parts, part.isEmpty = false := fun part hpart => (h part hpart).1
    have hu : ∀ part ∈ parts, part.Unlinked := fun part hpart => (h part hpart).2
    have heq := concatAll_eq_linkHalves he hu
    refine ⟨heq, ?_⟩
    rw [heq]
    refine (halved_linkHalves hp hu).mono fun s hs => ⟨hs, hs.shape_eq hu, fun t ht => ?_⟩
    rw [hs.shape_eq hu]
    exact Nat.clog_le_of_le_pow (ht.trans t.length_leaves_le)

theorem concatAll_shallowest_spine :
    Yields (concatAll [spine, .nil 5, .run 3 9 1]) (fun s => s.shape ≤ 2 + 2) ∧
      Yields (concatAll [.run 0 7 1, .run 1 8 2, .run 3 9 1])
        fun s => Halved [.run 0 7 1, .run 1 8 2, .run 3 9 1] s ∧ s.shape = 2 := by
  have hrun : Run none _ (nil 5 :: _) := run_spine.step .empty rfl
  have hlog : Nat.clog 2 3 = 2 := by decide
  constructor
  · have hr : ∀ part ∈ [spine, .nil 5, .run 3 9 1], Reachable none part :=
      fun part hm => ⟨_, _, hrun, by revert part; simp⟩
    obtain ⟨⟨highest, hh, hs⟩, -⟩ := concatAll_shallowest (by simp) hr
    obtain rfl : 2 = highest := Option.some.inj hh
    rwa [show List.length [spine, .nil 5, .run 3 9 1] = 3 from rfl, hlog] at hs
  · have hr : ∀ part ∈ [.run 0 7 1, .run 1 8 2, .run 3 9 1], Reachable none part :=
      fun part hm => ⟨_, _, hrun, by revert part; simp⟩
    obtain ⟨-, hs⟩ := (concatAll_shallowest (by simp) hr).2 (by simp [isEmpty, length, Unlinked])
    refine hs.mono fun s hs => ⟨hs.1, hs.2.1.trans hlog⟩

end SharedSequence
